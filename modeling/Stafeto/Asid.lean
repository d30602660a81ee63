import Mathlib.Algebra.Order.Group.Nat
import Stafeto.Lib.Bits

/-!
# Address space identifiers: `AsidCpus` and `AsidAllocator` (kcore/src/asid.rs)

A tag is a 64-bit word, the generation above bit 16 and the ASID below. The allocator keeps the map
of the numbers used in this generation, word by word with a summary of the full words, and the tags
the CPUs ran when a generation ended. A map of words is modelled by its bits; the scan still goes the
source's way (the word of the start, then the words the summary does not call full), and
`firstFree_eq` says that it finds the first clear bit. `none` is a panic of the source.

| here | there |
| --- | --- |
| `tagGen`, `tagAsid`, `mkTag` | `id >> GEN_SHIFT`, `id & ASID_MASK`, `generation << GEN_SHIFT \| asid` |
| `AsidCpus`                   | `AsidCpus` (asid.rs:110) |
| `set`, `unset`, `take`, `firstFree` | asid.rs:356, :367, :376, :389 |
| `emptyMap`, `newGeneration`  | asid.rs:323, :300 |
| `adopt`, `newContext`, `activate`, `release` | asid.rs:284, :267, :242, :335 |
-/

namespace Asid

open Bits Function List

/-- `MAX_CPUS` (bootinfo.rs:130) CPUs. -/
abbrev Cpu := Fin 8

/-- `WORDS`: words of the map. -/
def WORDS : Nat := 1024

/-- `SUMMARY`: words of the summary. -/
def SUMMARY : Nat := 16

def tagGen (id : Nat) : Nat := id >>> 16

def tagAsid (id : Nat) : Nat := id &&& 0xFFFF

/-- The shift drops what leaves the 64 bits. -/
def mkTag (generation asid : Nat) : Nat := (generation <<< 16) % 2 ^ 64 ||| asid

theorem tagGen_eq (id : Nat) : tagGen id = id / 2 ^ 16 := Nat.shiftRight_eq_div_pow _ _

theorem tagAsid_eq (id : Nat) : tagAsid id = id % 2 ^ 16 := Nat.and_two_pow_sub_one_eq_mod id 16

variable {g : Nat}

theorem mkTag_eq {a : Nat} (ha : a < 2 ^ 16) : mkTag g a = 2 ^ 16 * (g % 2 ^ 48) + a := by
  unfold mkTag
  rw [Nat.shiftLeft_eq, show g * 2 ^ 16 % 2 ^ 64 = 2 ^ 16 * (g % 2 ^ 48) by omega]
  exact (Nat.two_pow_add_eq_or_of_lt ha _).symm

theorem tagAsid_mkTag {a : Nat} (ha : a < 2 ^ 16) : tagAsid (mkTag g a) = a := by
  rw [tagAsid_eq, mkTag_eq ha]; omega

theorem tagGen_mkTag {a : Nat} (ha : a < 2 ^ 16) : tagGen (mkTag g a) = g % 2 ^ 48 := by
  rw [tagGen_eq, mkTag_eq ha]; omega

theorem tagGen_zero : tagGen 0 = 0 := rfl

theorem tagAsid_lt (id : Nat) : tagAsid id < 2 ^ 16 := by rw [tagAsid_eq]; omega

/-! ## The words the CPUs share and the part under the lock -/

/-- `AsidCpus`; `flush_pending` by its bits. -/
structure AsidCpus where
  generation : Nat
  flushPending : Cpu → Bool
  active : Cpu → Nat

def AsidCpus.new : AsidCpus := ⟨1, fun _ => false, fun _ => 0⟩

/-- `AsidAllocator`: `used` and `full` by their bits. -/
structure AsidAllocator where
  bits : Nat
  free : Nat
  next : Nat
  used : Nat → Bool
  full : Nat → Bool
  reserved : Cpu → Nat

namespace AsidAllocator

/-- `empty_map` (asid.rs:323), on a map whose words were zeroed. -/
def emptyMap (a : AsidAllocator) : AsidAllocator :=
  { a with used := fun i => i == 0, full := fun _ => false, free := 2 ^ a.bits - 1, next := 1 }

/-- `AsidAllocator::new` (asid.rs:206). -/
def new (bits : Nat) : AsidAllocator :=
  emptyMap { bits := bits, free := 0, next := 1, used := fun _ => false, full := fun _ => false,
             reserved := fun _ => 0 }

/-- Whether word `w` of the map is all ones. -/
def wordFull (used : Nat → Bool) (w : Nat) : Bool := (range' (w * 64) 64).all used

/-- `set` (asid.rs:356). -/
def set (a : AsidAllocator) (i : Nat) : AsidAllocator :=
  if a.used i then a
  else
    let used := update a.used i true
    { a with used := used, free := a.free - 1,
             full := if wordFull used (i / 64) then update a.full (i / 64) true else a.full }

/-- `unset` (asid.rs:367). -/
def unset (a : AsidAllocator) (i : Nat) : Option AsidAllocator :=
  if a.used i then
    some { a with used := update a.used i false, full := update a.full (i / 64) false,
                  free := a.free + 1 }
  else none

/-- The `while s < WORDS` of `first_free` (asid.rs:401): a word of the summary at a time. -/
def scanFull (a : AsidAllocator) (hi : Nat) : Nat → Nat → Option Nat
  | 0, _ => none
  | fuel + 1, s =>
    if s < WORDS then
      match firstClear a.full s ((s / 64 + 1) * 64) with
      | some w =>
        let found := (firstClear a.used (w * 64) (w * 64 + 64)).getD (w * 64 + 64)
        if found < hi then some found else none
      | none => scanFull a hi fuel ((s / 64 + 1) * 64)
    else none

/-- `first_free` (asid.rs:389) in `[lo, hi)`. -/
def firstFree (a : AsidAllocator) (lo hi : Nat) : Option Nat :=
  if hi ≤ lo then none
  else
    match firstClear a.used lo (lo / 64 * 64 + 64) with
    | some found => if found < hi then some found else none
    | none => scanFull a hi SUMMARY (lo / 64 + 1)

/-- `take` (asid.rs:376). -/
def take (a : AsidAllocator) : Option (Nat × AsidAllocator) := do
  let i ← (a.firstFree a.next (2 ^ a.bits)).or (a.firstFree 1 a.next)
  let a := a.set i
  some (i, { a with next := if i + 1 = 2 ^ a.bits then 1 else i + 1 })

/-! ## The map -/

/-- The summary is exact, the count is exact, and no number past the width is used. -/
structure MapInv (a : AsidAllocator) : Prop where
  bits : a.bits = 8 ∨ a.bits = 16
  zero : a.used 0 = true
  above : ∀ i, 2 ^ a.bits ≤ i → a.used i = false
  full : ∀ w, a.full w = true ↔ ∀ i, w * 64 ≤ i → i < w * 64 + 64 → a.used i = true
  free : a.free = clear a.used (2 ^ a.bits)
  next : 1 ≤ a.next ∧ a.next < 2 ^ a.bits

variable {a : AsidAllocator}

theorem MapInv.limit (h : MapInv a) : 256 ≤ 2 ^ a.bits ∧ 2 ^ a.bits ≤ 65536 := by
  rcases h.bits with hb | hb <;> rw [hb] <;> decide

theorem wordFull_iff {used : Nat → Bool} {w : Nat} :
    wordFull used w = true ↔ ∀ i, w * 64 ≤ i → i < w * 64 + 64 → used i = true := by
  simp only [wordFull, all_eq_true, mem_range'_1]
  exact ⟨fun h i h1 h2 => h i ⟨h1, h2⟩, fun h i hi => h i hi.1 hi.2⟩

theorem mapInv_emptyMap (hb : a.bits = 8 ∨ a.bits = 16) : MapInv a.emptyMap := by
  have hl : 256 ≤ 2 ^ a.bits := by rcases hb with h | h <;> rw [h] <;> decide
  refine ⟨hb, rfl, fun i hi => ?_, fun w => ?_, ?_, by simp only [emptyMap]; omega⟩
  · simp only [emptyMap] at hi ⊢
    have : i ≠ 0 := by omega
    simpa using this
  · constructor
    · intro h; simp [emptyMap] at h
    · intro h
      have := h (w * 64 + 1) (by omega) (by omega)
      simp [emptyMap] at this
  · -- only bit 0 is set, and setting it in an all-clear map takes one from the count
    have h0 : clear (fun _ => false) (2 ^ a.bits) = 2 ^ a.bits := by simp [clear]
    have h1 := clear_set (p := fun _ => false) (n := 2 ^ a.bits) (i := 0) (by omega) rfl
    have h2 : update (fun _ => false) 0 true = fun i : Nat => i == 0 := by
      funext i
      by_cases hi : i = 0
      · subst hi; rfl
      · simp [hi]
    rw [h2] at h1
    simp only [emptyMap]
    omega

theorem set_used (a : AsidAllocator) (i j : Nat) :
    (a.set i).used j = (if j = i then true else a.used j) := by
  unfold set
  split
  case isTrue h =>
    by_cases hj : j = i
    · subst hj; simpa using h
    · simp [hj]
  case isFalse h =>
    by_cases hj : j = i
    · subst hj; simp
    · simp [hj]

@[simp] theorem set_bits (a : AsidAllocator) (i : Nat) : (a.set i).bits = a.bits := by
  unfold set; split <;> rfl

@[simp] theorem set_next (a : AsidAllocator) (i : Nat) : (a.set i).next = a.next := by
  unfold set; split <;> rfl

@[simp] theorem set_reserved (a : AsidAllocator) (i : Nat) : (a.set i).reserved = a.reserved := by
  unfold set; split <;> rfl

theorem set_free_le (a : AsidAllocator) (i : Nat) : a.free ≤ (a.set i).free + 1 := by
  unfold set
  split
  · omega
  · simp only; omega

variable {i : Nat}

theorem forall_update {f : Nat → Bool} {w : Nat} {b : Bool} (hw : w ≠ i / 64) :
    (∀ j, w * 64 ≤ j → j < w * 64 + 64 → f j = true) ↔
      ∀ j, w * 64 ≤ j → j < w * 64 + 64 → update f i b j = true := by
  refine forall_congr' fun j => imp_congr_right fun h1 => imp_congr_right fun h2 => ?_
  rw [update_of_ne (by rintro rfl; omega)]

theorem mapInv_set (h : MapInv a) (hi : i < 2 ^ a.bits) : MapInv (a.set i) := by
  by_cases hu : a.used i = true
  · have : a.set i = a := by unfold set; simp [hu]
    rw [this]; exact h
  · have hf : a.used i = false := by simpa using hu
    refine ⟨by simpa using h.bits, ?_, fun j hj => ?_, fun w => ?_, ?_, by simpa using h.next⟩
    · rw [set_used]; split <;> [rfl; exact h.zero]
    · rw [set_bits] at hj
      rw [set_used, if_neg (by omega)]
      exact h.above j hj
    · unfold set
      simp only [hf, Bool.false_eq_true, ↓reduceIte]
      by_cases hw : w = i / 64
      · subst hw
        rw [← wordFull_iff]
        cases hwf : wordFull (update a.used i true) (i / 64) with
        | true => simp
        | false =>
          simp only [Bool.false_eq_true, ↓reduceIte, iff_false, Bool.not_eq_true]
          cases hff : a.full (i / 64) with
          | false => rfl
          | true =>
            have := (h.full (i / 64)).1 hff i (by omega) (by omega)
            rw [hf] at this
            cases this
      · have hfull : (if wordFull (update a.used i true) (i / 64) = true
            then update a.full (i / 64) true else a.full) w = a.full w := by
          split
          · rw [update_of_ne hw]
          · rfl
        rw [hfull, h.full w]
        exact forall_update hw
    · unfold set
      simp only [hf, Bool.false_eq_true, ↓reduceIte]
      have := clear_set hi hf
      have := h.free
      omega

theorem mapInv_unset {b : AsidAllocator} (h : MapInv a) (h0 : i ≠ 0) (hi : i < 2 ^ a.bits)
    (hb : a.unset i = some b) :
    MapInv b ∧ b.bits = a.bits ∧ b.reserved = a.reserved ∧ b.used = update a.used i false := by
  unfold unset at hb
  split at hb
  case isFalse => cases hb
  case isTrue hu =>
    cases hb
    refine ⟨⟨h.bits, ?_, fun j hj => ?_, fun w => ?_, ?_, h.next⟩, rfl, rfl, rfl⟩
    · simp only; rw [update_of_ne (Ne.symm h0)]; exact h.zero
    · simp only at hj ⊢; rw [update_of_ne (by omega)]; exact h.above j hj
    · by_cases hw : w = i / 64
      · subst hw
        simp only [update_self, Bool.false_eq_true, false_iff, not_forall]
        exact ⟨i, by omega, by omega, by simp⟩
      · simp only [update_of_ne hw]
        rw [h.full w]
        exact forall_update hw
    · rw [clear_unset hi hu, h.free]

/-! ## The scan -/

/-- What the words of the summary skip is used, and the word they stop at has a clear bit. -/
theorem scanFull_eq (h : MapInv a) {hi : Nat} (hhi : hi ≤ 65536) :
    ∀ (fuel s : Nat), WORDS ≤ s + 64 * fuel → s % 64 = 0 ∨ WORDS ≤ (s / 64 + fuel) * 64 →
      a.scanFull hi fuel s = firstClear a.used (s * 64) hi
  | 0, s, hf, _ => by
    simp only [scanFull]
    symm
    rw [firstClear_eq_none]
    intro i h1 h2
    unfold WORDS at hf
    omega
  | fuel + 1, s, hf, hs => by
    unfold WORDS at hf
    rw [scanFull]
    split
    case isFalse hw =>
      symm
      rw [firstClear_eq_none]
      intro i h1 h2
      unfold WORDS at hw
      omega
    case isTrue hw =>
      split
      case h_1 w hsome =>
        obtain ⟨h1, h2, h3, h4⟩ := firstClear_eq_some.1 hsome
        have hskip : ∀ i, s * 64 ≤ i → i < w * 64 → a.used i = true := by
          intro i hi1 hi2
          exact (h.full (i / 64)).1 (h4 (i / 64) (by omega) (by omega)) i (by omega) (by omega)
        rw [firstClear_skip (by omega) hskip]
        -- the summary calls word `w` not full, so it has a clear bit
        cases hc : firstClear a.used (w * 64) (w * 64 + 64) with
        | none =>
          have := (h.full w).2 (fun i hi1 hi2 => firstClear_eq_none.1 hc i hi1 hi2)
          rw [h3] at this
          cases this
        | some i =>
          simp only [Option.getD_some]
          rw [firstClear_cut hc]
      case h_2 hnone =>
        rw [firstClear_eq_none] at hnone
        have hskip : ∀ i, s * 64 ≤ i → i < (s / 64 + 1) * 64 * 64 → a.used i = true := by
          intro i hi1 hi2
          exact (h.full (i / 64)).1 (hnone (i / 64) (by omega) (by omega)) i (by omega) (by omega)
        rw [firstClear_skip (by omega) hskip]
        exact scanFull_eq h hhi fuel _ (by unfold WORDS; omega) (Or.inl (by omega))

/-- **`first_free`**: the first clear bit of the range. -/
theorem firstFree_eq (h : MapInv a) {lo hi : Nat} (hhi : hi ≤ 2 ^ a.bits) :
    a.firstFree lo hi = firstClear a.used lo hi := by
  have hl := h.limit
  unfold firstFree
  split
  case isTrue hle =>
    symm
    rw [firstClear_eq_none]
    intro i h1 h2; omega
  case isFalse hlt =>
    split
    case h_1 found hsome => rw [firstClear_cut hsome]
    case h_2 hnone =>
      rw [firstClear_eq_none] at hnone
      rw [scanFull_eq h (by omega) SUMMARY (lo / 64 + 1) (by unfold WORDS SUMMARY; omega)
        (Or.inr (by unfold WORDS SUMMARY; omega))]
      exact (firstClear_skip (by omega) (fun i h1 h2 => hnone i h1 (by omega))).symm

/-- **`take`**: with a free number left it gives one that was not used, and marks it. -/
theorem take_spec (h : MapInv a) (hf : 0 < a.free) :
    ∃ i b, a.take = some (i, b) ∧ 1 ≤ i ∧ i < 2 ^ a.bits ∧ a.used i = false ∧ MapInv b ∧
      b.bits = a.bits ∧ b.reserved = a.reserved ∧ b.free + 1 = a.free ∧
      ∀ j, b.used j = (if j = i then true else a.used j) := by
  have hfind : ∃ i, (a.firstFree a.next (2 ^ a.bits)).or (a.firstFree 1 a.next) = some i ∧ 1 ≤ i ∧
      i < 2 ^ a.bits ∧ a.used i = false := by
    have hn := h.next
    rw [firstFree_eq h le_rfl, firstFree_eq h (by omega)]
    cases h1 : firstClear a.used a.next (2 ^ a.bits) with
    | some i =>
      obtain ⟨p1, p2, p3, _⟩ := firstClear_eq_some.1 h1
      exact ⟨i, rfl, by omega, p2, p3⟩
    | none =>
      cases h2 : firstClear a.used 1 a.next with
      | some i =>
        obtain ⟨p1, p2, p3, _⟩ := firstClear_eq_some.1 h2
        exact ⟨i, rfl, p1, by omega, p3⟩
      | none =>
        -- neither range has a clear bit: the count would be 0
        rw [firstClear_eq_none] at h1 h2
        rw [h.free] at hf
        obtain ⟨i, hi, hc⟩ := exists_clear hf
        have hz := h.zero
        have : a.used i = true := by
          by_cases h0 : i = 0
          · rw [h0]; exact hz
          · by_cases hin : i < a.next
            · exact h2 i (by omega) hin
            · exact h1 i (by omega) hi
        rw [hc] at this
        cases this
  obtain ⟨i, hi, h1, h2, h3⟩ := hfind
  have hm := mapInv_set h h2
  have htake : a.take = some (i, { a.set i with next := if i + 1 = 2 ^ (a.set i).bits then 1 else i + 1 }) := by
    simp only [take, hi, Option.bind_eq_bind, Option.bind_some]
  refine ⟨i, _, htake, h1, h2, h3, ⟨hm.bits, hm.zero, hm.above, hm.full, hm.free, ?_⟩, set_bits a i,
    set_reserved a i, ?_, set_used a i⟩
  · simp only [set_bits]
    split <;> omega
  · have hs : (a.set i).free = a.free - 1 := by unfold set; simp [h3]
    simp only [hs]
    omega

end AsidAllocator

/-! ## Activation and release -/

/-- The two parts of the allocator, which `activate` and `release` change together. -/
structure Asids where
  cpus : AsidCpus
  alloc : AsidAllocator

namespace Asids

/-- One turn of the loop of `new_generation` (asid.rs:303): the number CPU `c` runs stays used. -/
def reserve (s : Asids) (c : Cpu) : Asids :=
  let running := s.cpus.active c
  let reserved := if running ≠ 0 then update s.alloc.reserved c running else s.alloc.reserved
  let alloc := { s.alloc with reserved := reserved }
  let kept := reserved c
  { cpus := { s.cpus with active := update s.cpus.active c 0 },
    alloc := if kept ≠ 0 then alloc.set (tagAsid kept) else alloc }

/-- `new_generation` (asid.rs:300). -/
def newGeneration (s : Asids) : Asids :=
  let s := (finRange 8).foldl reserve { s with alloc := s.alloc.emptyMap }
  { s with cpus := { s.cpus with flushPending := fun _ => true } }

/-- `adopt` (asid.rs:284). -/
def adopt (s : Asids) (old : Nat) : Option (Nat × Asids) :=
  if old = 0 then none
  else
    let id := mkTag s.cpus.generation (tagAsid old)
    if ∃ c, s.alloc.reserved c = old then
      some (id, { s with alloc :=
        { s.alloc with reserved := fun c => if s.alloc.reserved c = old then id else s.alloc.reserved c } })
    else none

/-- The end of `new_context` (asid.rs:280): a number nobody has. -/
def fresh (s : Asids) : Option (Nat × Asids) := do
  let (i, alloc) ← s.alloc.take
  some (mkTag s.cpus.generation i, { s with alloc := alloc })

/-- `new_context` (asid.rs:267). -/
def newContext (s : Asids) (old : Nat) : Option (Nat × Asids) :=
  match s.adopt old with
  | some r => some r
  | none =>
    if s.alloc.free = 0 then
      let cpus := { s.cpus with generation := (s.cpus.generation + 1) % 2 ^ 64 }
      let s := newGeneration { s with cpus := cpus }
      match s.adopt old with
      | some r => some r
      | none => s.fresh
    else s.fresh

/-- `Activation`, with the tag's word: the tag the space has from now on, and whether the CPU flushes. -/
structure Activation where
  id : Nat
  flushTlb : Bool

/-- `activate` (asid.rs:242) of a space with the tag `id` on CPU `cpu`. -/
def activate (s : Asids) (cpu : Cpu) (id : Nat) : Option (Activation × Asids) := do
  let (id, s) ← if tagGen id ≠ s.cpus.generation then s.newContext id else some (id, s)
  some (⟨id, s.cpus.flushPending cpu⟩,
    { s with cpus := { s.cpus with flushPending := update s.cpus.flushPending cpu false,
                                   active := update s.cpus.active cpu id } })

/-- `release` (asid.rs:335) of the tag `id`, whose word becomes 0: the ASID when the space owned it. -/
def release (s : Asids) (id : Nat) : Option (Option Nat × Asids) :=
  if id = 0 then some (none, s)
  else
    let owned := tagGen id = s.cpus.generation ∨ ∃ c, s.alloc.reserved c = id
    let alloc := { s.alloc with reserved := fun c => if s.alloc.reserved c = id then 0 else s.alloc.reserved c }
    let cpus := { s.cpus with active := fun c => if s.cpus.active c = id then 0 else s.cpus.active c }
    if owned then do
      let alloc ← alloc.unset (tagAsid id)
      some (some (tagAsid id), ⟨cpus, alloc⟩)
    else some (none, ⟨cpus, alloc⟩)

/-! ## A new generation -/

/-- The tag whose number CPU `c` keeps when a generation ends. -/
def kept (s : Asids) (c : Cpu) : Nat := if s.cpus.active c ≠ 0 then s.cpus.active c else s.alloc.reserved c

theorem reserve_active (s : Asids) (c : Cpu) :
    (s.reserve c).cpus.active = update s.cpus.active c 0 := rfl

theorem reserve_reserved (s : Asids) (c : Cpu) :
    (s.reserve c).alloc.reserved = update s.alloc.reserved c (s.kept c) := by
  have h : (if s.cpus.active c ≠ 0 then update s.alloc.reserved c (s.cpus.active c)
      else s.alloc.reserved) = update s.alloc.reserved c (s.kept c) := by
    unfold kept
    split
    · rfl
    · rw [update_eq_self]
  unfold reserve
  rw [apply_ite AsidAllocator.reserved, AsidAllocator.set_reserved, ite_self, h]

theorem reserve_map (s : Asids) (c : Cpu) (h : s.alloc.MapInv)
    (hk : s.kept c ≠ 0 → tagAsid (s.kept c) < 2 ^ s.alloc.bits) :
    (s.reserve c).alloc.MapInv ∧ (s.reserve c).alloc.bits = s.alloc.bits ∧
    s.alloc.free ≤ (s.reserve c).alloc.free + 1 ∧
    ∀ j, (s.reserve c).alloc.used j = true ↔ s.alloc.used j = true ∨ (s.kept c ≠ 0 ∧ tagAsid (s.kept c) = j) := by
  have hr : (s.reserve c).alloc = if s.kept c ≠ 0
      then ({ s.alloc with reserved := update s.alloc.reserved c (s.kept c) } : AsidAllocator).set
        (tagAsid (s.kept c))
      else { s.alloc with reserved := update s.alloc.reserved c (s.kept c) } := by
    have h1 := reserve_reserved s c
    unfold reserve
    unfold kept at h1 ⊢
    split at h1 <;> simp_all
  have hm : ({ s.alloc with reserved := update s.alloc.reserved c (s.kept c) } :
      AsidAllocator).MapInv := ⟨h.bits, h.zero, h.above, h.full, h.free, h.next⟩
  rw [hr]
  split
  case isTrue hne =>
    refine ⟨AsidAllocator.mapInv_set hm (hk hne), AsidAllocator.set_bits _ _, AsidAllocator.set_free_le
      { s.alloc with reserved := update s.alloc.reserved c (s.kept c) } _, fun j => ?_⟩
    rw [AsidAllocator.set_used]
    by_cases hj : j = tagAsid (s.kept c)
    · simp [hj, hne]
    · simp [hj, Ne.symm hj]
  case isFalse hz =>
    refine ⟨hm, rfl, Nat.le_succ _, fun j => ?_⟩
    simp [hz]

theorem kept_reserve (s : Asids) (c : Cpu) : (s.reserve c).kept = s.kept := by
  funext d
  by_cases hd : d = c
  · subst hd
    show (if (s.reserve d).cpus.active d ≠ 0 then _ else (s.reserve d).alloc.reserved d) = _
    rw [reserve_active, reserve_reserved]
    simp
  · unfold kept
    rw [reserve_active, reserve_reserved, update_of_ne hd, update_of_ne hd]

/-- The loop over the CPUs `l` of `new_generation`. -/
theorem foldl_reserve : ∀ (l : List Cpu) (s : Asids), s.alloc.MapInv →
    (∀ c, s.kept c ≠ 0 → tagAsid (s.kept c) < 2 ^ s.alloc.bits) →
    (l.foldl reserve s).cpus.generation = s.cpus.generation ∧
    (∀ c, (l.foldl reserve s).cpus.active c = if c ∈ l then 0 else s.cpus.active c) ∧
    (∀ c, (l.foldl reserve s).alloc.reserved c = if c ∈ l then s.kept c else s.alloc.reserved c) ∧
    (l.foldl reserve s).alloc.bits = s.alloc.bits ∧ (l.foldl reserve s).alloc.MapInv ∧
    s.alloc.free ≤ (l.foldl reserve s).alloc.free + l.length ∧
    ∀ j, (l.foldl reserve s).alloc.used j = true ↔
      s.alloc.used j = true ∨ ∃ c ∈ l, s.kept c ≠ 0 ∧ tagAsid (s.kept c) = j
  | [], s, hm, _ => by simp [hm]
  | c :: l, s, hm, hk => by
    obtain ⟨m1, m2, m3, m4⟩ := reserve_map s c hm (hk c)
    obtain ⟨i1, i2, i3, i4, i5, i6, i7⟩ := foldl_reserve l (s.reserve c) m1 (by rwa [kept_reserve, m2])
    rw [kept_reserve] at i3 i7
    simp only [foldl_cons]
    refine ⟨i1, fun d => ?_, fun d => ?_, by rw [i4, m2], i5, by simp only [length_cons]; omega, fun j => ?_⟩
    · rw [i2 d, reserve_active]
      by_cases hd : d = c
      · subst hd; simp
      · simp [hd]
    · rw [i3 d, reserve_reserved]
      by_cases hd : d = c
      · subst hd; simp
      · simp [hd]
    · rw [i7 j, m4 j]
      simp only [mem_cons, exists_eq_or_imp, or_assoc]

/-- **`new_generation`**: the map holds the kernel's number and what the CPUs keep, every `active`
word is empty, every CPU owes a flush, and at most eight numbers are gone. -/
theorem newGeneration_spec (s : Asids) (hb : s.alloc.bits = 8 ∨ s.alloc.bits = 16)
    (hk : ∀ c, s.kept c ≠ 0 → tagAsid (s.kept c) < 2 ^ s.alloc.bits) :
    s.newGeneration.cpus.generation = s.cpus.generation ∧ (∀ c, s.newGeneration.cpus.active c = 0) ∧
    (∀ c, s.newGeneration.cpus.flushPending c = true) ∧ (∀ c, s.newGeneration.alloc.reserved c = s.kept c) ∧
    s.newGeneration.alloc.bits = s.alloc.bits ∧ s.newGeneration.alloc.MapInv ∧
    2 ^ s.alloc.bits ≤ s.newGeneration.alloc.free + 9 ∧
    ∀ j, s.newGeneration.alloc.used j = true ↔ j = 0 ∨ ∃ c, s.kept c ≠ 0 ∧ tagAsid (s.kept c) = j := by
  have hm : ({ s with alloc := s.alloc.emptyMap } : Asids).alloc.MapInv := AsidAllocator.mapInv_emptyMap hb
  obtain ⟨h1, h2, h3, h4, h5, h6, h7⟩ := foldl_reserve (finRange 8) { s with alloc := s.alloc.emptyMap } hm hk
  refine ⟨h1, fun c => ?_, fun c => rfl, fun c => ?_, h4, h5, ?_, fun j => ?_⟩
  · exact (h2 c).trans (if_pos (mem_finRange c))
  · exact (h3 c).trans (if_pos (mem_finRange c))
  · simp only [length_finRange, AsidAllocator.emptyMap] at h6
    show 2 ^ s.alloc.bits ≤ ((finRange 8).foldl reserve { s with alloc := s.alloc.emptyMap }).alloc.free + 9
    simp only [AsidAllocator.emptyMap]
    omega
  · refine (h7 j).trans ?_
    simp only [AsidAllocator.emptyMap, beq_iff_eq, mem_finRange, true_and]
    rfl

end Asids

end Asid
