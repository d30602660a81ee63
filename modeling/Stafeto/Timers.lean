import Stafeto.Lib.Mask
import Stafeto.TimerHeap

/-!
# The levels of timers (kcore/src/timer.rs, `Levels` and `Firing`)

A heap of timers for each level of 1-63, a mask of the levels that have timers, a mask of the levels whose
firing is queued (pending), and the nearest deadline of the levels that are not pending, kept ready.

`timers_safe` is about every sequence of calls that keep the contracts of the unsafe functions: a timer is
inserted while it stands in no heap and removed from the level it stands at. A `Firing` is taken by value,
with any count left. The lock of the levels makes each call one step. An assertion that fails is `none`.
-/

namespace Timer

open Mask Function

def LEVELS : Nat := 63
def FIRE_PORTION : Nat := 8
def NO_DEADLINE : Nat := 0

/-- `bit` (timer.rs:370). -/
def bit (level : Nat) : Option Nat := if 1 ≤ level ∧ level ≤ LEVELS then some (1 <<< level) else none

/-- `Levels` (timer.rs:384), the heaps by level; `stored` is its field `nearest`. -/
structure Levels (T : Type) where
  heaps : Nat → Heap T
  nonempty : Nat
  pending : Nat
  stored : Nat

variable {T : Type} {m : Links T}

namespace Levels

def new : Levels T := ⟨fun _ => Heap.new, 0, 0, NO_DEADLINE⟩

/-- A deadline as it is stored: its complement in 64 bits. -/
def store (nearest : Option Nat) : Nat := nearest.elim NO_DEADLINE fun n => 2 ^ 64 - 1 - n

/-- `set_nearest`. -/
def setNearest (l : Levels T) (nearest : Option Nat) : Levels T := { l with stored := store nearest }

/-- `nearest` and `nearest_unlocked` (timer.rs:426, 438). -/
def nearest (l : Levels T) : Option Nat := if l.stored ≠ NO_DEADLINE then some (2 ^ 64 - 1 - l.stored) else none

/-- One turn of `renew`. -/
def nearer (nearest first : Option Nat) : Option Nat :=
  match nearest, first with
  | some n, some f => some (min n f)
  | n, f => n.or f

/-- `renew` (timer.rs:460). -/
def renew (l : Levels T) (m : Links T) : Levels T :=
  l.setNearest <| (items (without l.nonempty l.pending)).foldl (fun n level => nearer n ((l.heaps level).first m)) none

/-- `left` (timer.rs:506). -/
def left (l : Levels T) (m : Links T) (level : Nat) (moved : Bool) : Option (Levels T) :=
  (bit level).map fun b =>
    let l := if (l.heaps level).len = 0 then { l with nonempty := without l.nonempty b } else l
    if moved ∧ l.pending &&& b = 0 then l.renew m else l

/-- One turn of `expired`: the mask of the levels that are due, and the nearest deadline of the others. -/
def expiredTurn (l : Levels T) (m : Links T) (now : Nat) (r : Nat × Option Nat) (level : Nat) : Nat × Option Nat :=
  match (l.heaps level).first m with
  | some d => if d ≤ now then (r.1 ||| 1 <<< level, r.2) else (r.1, some (r.2.elim d (min · d)))
  | none => r

/-- `expired` (timer.rs:519). -/
def expired (l : Levels T) (m : Links T) (now : Nat) : Nat × Levels T :=
  let r := (items (without l.nonempty l.pending)).foldl (l.expiredTurn m now) (0, none)
  if r.1 ≠ 0 then (r.1, { l with pending := l.pending ||| r.1 }.setNearest r.2) else (r.1, l)

/-- `has_expired` (timer.rs:540). -/
def hasExpired (l : Levels T) (m : Links T) (level now : Nat) : Option Bool :=
  (bit level).map fun _ => ((l.heaps level).first m).any (· ≤ now)

/-- `settle` (timer.rs:557). -/
def settle (l : Levels T) (m : Links T) (level : Nat) : Option (Levels T) :=
  (bit level).map fun b => { l with pending := without l.pending b }.renew m

variable [DecidableEq T]

/-- `insert` (timer.rs:480). -/
def insert (l : Levels T) (m : Links T) (level : Nat) (t : T) (deadline : Nat) : Option (Levels T × Links T) :=
  (bit level).bind fun b =>
    ((l.heaps level).insert m t deadline).map fun r =>
      let l := { l with heaps := update l.heaps level r.1, nonempty := l.nonempty ||| b }
      (if l.pending &&& b = 0 then l.setNearest (some (l.nearest.elim deadline (min · deadline))) else l, r.2)

/-- `remove` (timer.rs:495). -/
def remove (l : Levels T) (m : Links T) (level : Nat) (t : T) : Option (Levels T × Links T) :=
  (bit level).bind fun _ =>
    let top := (l.heaps level).first m
    ((l.heaps level).remove m t).bind fun r =>
      let after := r.1.first r.2
      ({ l with heaps := update l.heaps level r.1 }.left r.2 level (top ≠ after)).map fun l => (l, r.2)

/-- `pop_expired` (timer.rs:549). -/
def popExpired (l : Levels T) (m : Links T) (level now : Nat) : Option (Option T × Levels T × Links T) :=
  (bit level).bind fun _ =>
    ((l.heaps level).popExpired m now).bind fun
      | (none, _) => some (none, l, m)
      | (some t, h, m) =>
        ({ l with heaps := update l.heaps level h }.left m level true).map fun l => (some t, l, m)

end Levels

/-- `Firing` (timer.rs:572). -/
structure Firing where
  level : Nat
  left : Nat

namespace Firing

/-- `Firing::new` (timer.rs:578). -/
def new (level : Nat) : Option Firing := (bit level).map fun _ => ⟨level, FIRE_PORTION⟩

/-- `Firing::next` (timer.rs:588). -/
def next [DecidableEq T] (f : Firing) (l : Levels T) (m : Links T) (now : Nat) :
    Option (Option T × Firing × Levels T × Links T) :=
  if f.left = 0 then some (none, f, l, m)
  else (l.popExpired m f.level now).map fun
    | (none, l, m) => (none, f, l, m)
    | (some t, l, m) => (some t, { f with left := f.left - 1 }, l, m)

/-- `Firing::finish` (timer.rs:600). -/
def finish (f : Firing) (l : Levels T) (m : Links T) (now : Nat) : Option (Bool × Levels T) :=
  (l.hasExpired m f.level now).bind fun more =>
    if more then some (true, l) else (l.settle m f.level).map fun l => (false, l)

end Firing

open Levels

/-! ## Sequences of calls -/

structure Sys (T : Type) where
  levels : Levels T
  links : Links T

def Sys.new : Sys T := ⟨Levels.new, fun _ => HeapLink.new⟩

/-- A timer stands at a level: at some position of its heap. -/
def Stands (s : Sys T) (level : Nat) (t : T) : Prop := ∃ k, (s.levels.heaps level).timerAt s.links k = some t

inductive Op (T : Type) where
  | insert (level : Nat) (t : T) (deadline : Nat)
  | remove (level : Nat) (t : T)
  | expired (now : Nat)
  | next (f : Firing) (now : Nat)
  | finish (f : Firing) (now : Nat)
  | settle (level : Nat)

def InRange (level : Nat) : Prop := 1 ≤ level ∧ level ≤ LEVELS

/-- The contracts, and the range of the levels and of a deadline. -/
def Op.Meets (s : Sys T) : Op T → Prop
  | .insert level t deadline => InRange level ∧ deadline < 2 ^ 64 ∧ ∀ j, InRange j → ¬Stands s j t
  | .remove level t => InRange level ∧ Stands s level t
  | .expired _ => True
  | .next f _ => InRange f.level
  | .finish f _ => InRange f.level
  | .settle level => InRange level

/-- What a call shows of the timers that come and go. -/
inductive Event (T : Type) where
  | inserted (t : T) (level deadline : Nat)
  | removed (t : T) (level : Nat)
  | fired (t : T) (level now : Nat)

def exec [DecidableEq T] (s : Sys T) : Op T → Option (Sys T × List (Event T))
  | .insert level t deadline => (s.levels.insert s.links level t deadline).map fun r =>
      (⟨r.1, r.2⟩, [.inserted t level deadline])
  | .remove level t => (s.levels.remove s.links level t).map fun r => (⟨r.1, r.2⟩, [.removed t level])
  | .expired now => some (⟨(s.levels.expired s.links now).2, s.links⟩, [])
  | .next f now => (f.next s.levels s.links now).map fun r =>
      (⟨r.2.2.1, r.2.2.2⟩, r.1.toList.map fun t => .fired t f.level now)
  | .finish f now => (f.finish s.levels s.links now).map fun r => (⟨r.2, s.links⟩, [])
  | .settle level => (s.levels.settle s.links level).map fun l => (⟨l, s.links⟩, [])

def run [DecidableEq T] (s : Sys T) : List (Op T) → Option (Sys T × List (Event T))
  | [] => some (s, [])
  | op :: ops => (exec s op).bind fun r => (run r.1 ops).map fun r' => (r'.1, r.2 ++ r'.2)

/-- Every call meets its contract in the state it is made in. -/
def Met [DecidableEq T] (s : Sys T) : List (Op T) → Prop
  | [] => True
  | op :: ops => op.Meets s ∧ ∀ s' ev, exec s op = some (s', ev) → Met s' ops

/-- The timers that were inserted and did not leave, with their levels and deadlines. -/
abbrev Book (T : Type) := T → Option (Nat × Nat)

/-- An event in the book: `none` for a timer that comes while it is there, that leaves a level it was not
inserted at, or that fires before its deadline. -/
def note [DecidableEq T] (b : Book T) : Event T → Option (Book T)
  | .inserted t level deadline =>
    if (b t).isSome then none else some (update b t (some (level, deadline)))
  | .removed t level => if (b t).any (·.1 = level) then some (update b t none) else none
  | .fired t level now =>
    if (b t).any fun p => p.1 = level ∧ p.2 ≤ now then some (update b t none) else none

def notes [DecidableEq T] (b : Book T) : List (Event T) → Option (Book T)
  | [] => some b
  | e :: es => (note b e).bind fun b => notes b es

/-! ## The least deadline -/

/-- The least number with a property, if there is one. -/
def Least (P : Nat → Prop) : Option Nat → Prop
  | none => ∀ d, ¬P d
  | some d => P d ∧ ∀ d', P d' → d ≤ d'

section Least

variable {P Q : Nat → Prop} {a b : Option Nat}

theorem Least.congr (h : Least P a) (hPQ : ∀ d, P d ↔ Q d) : Least Q a := by
  rwa [show Q = P from funext fun d => propext (hPQ d).symm]

theorem Least.unique {d : Nat} (ha : Least P a) (hb : Least P (some d)) : a = some d := by
  cases a with
  | none => exact absurd hb.1 (ha d)
  | some n => rw [le_antisymm (ha.2 d hb.1) (hb.2 n ha.1)]

theorem Least.nearer (ha : Least P a) (hb : Least Q b) : Least (fun d => P d ∨ Q d) (nearer a b) := by
  cases a with
  | none =>
    exact hb.congr fun d => ⟨Or.inr, fun h => h.resolve_left (ha d)⟩
  | some n =>
    cases b with
    | none => exact Least.congr ha fun d => ⟨Or.inl, fun h => h.resolve_right (hb d)⟩
    | some f =>
      refine ⟨?_, fun d hd => ?_⟩
      · rcases le_total n f with hle | hle
        · rw [min_eq_left hle]; exact Or.inl ha.1
        · rw [min_eq_right hle]; exact Or.inr hb.1
      · rcases hd with hd | hd
        · exact le_trans (min_le_left ..) (ha.2 d hd)
        · exact le_trans (min_le_right ..) (hb.2 d hd)

theorem Least.single (d : Nat) : Least (fun d' => d' = d) (some d) := ⟨rfl, fun _ h => Nat.le_of_eq h.symm⟩

theorem Least.foldl {R : Nat → Nat → Prop} {first : Nat → Option Nat} (is : List Nat) (ha : Least P a)
    (hR : ∀ i ∈ is, Least (R i) (first i)) :
    Least (fun d => P d ∨ ∃ i ∈ is, R i d) (is.foldl (fun n i => Levels.nearer n (first i)) a) := by
  induction is generalizing P a with
  | nil => exact ha.congr fun d => by simp
  | cons i is ih =>
    refine (ih (ha.nearer (hR i (by simp))) fun j hj => hR j (by simp [hj])).congr fun d => ?_
    simp [or_assoc]

end Least

theorem Holds.least {h : Heap T} {S : Set T} (hH : Holds h m S) :
    Least (fun d => ∃ t ∈ S, (m t).deadline = d) (h.first m) := by
  rcases hH.first_spec with ⟨hf, rfl⟩ | ⟨d, hf, hmem, hle⟩
  · rw [hf]
    rintro d ⟨t, ht, -⟩
    exact ht
  · rw [hf]
    refine ⟨hmem, ?_⟩
    rintro d' ⟨t, ht, rfl⟩
    exact hle t ht

/-! ## The invariant -/

/-- A deadline of a timer at a level that is not pending. -/
def Waits (s : Sys T) (S : Nat → Set T) (d : Nat) : Prop :=
  ∃ i t, InRange i ∧ s.levels.pending.testBit i = false ∧ t ∈ S i ∧ (s.links t).deadline = d

/-- What holds of the heaps and the masks; `S` has the timers of each level. -/
structure Base (s : Sys T) (S : Nat → Set T) : Prop where
  heap : ∀ i, InRange i → Holds (s.levels.heaps i) s.links (S i)
  apart : ∀ i j t, InRange i → InRange j → t ∈ S i → t ∈ S j → i = j
  linked : ∀ t, (s.links t).linked = true ↔ ∃ i, InRange i ∧ t ∈ S i
  nonempty : ∀ i, s.levels.nonempty.testBit i = true ↔ InRange i ∧ (S i).Nonempty
  pending : ∀ i, s.levels.pending.testBit i = true → InRange i
  deadline : ∀ i t, InRange i → t ∈ S i → (s.links t).deadline < 2 ^ 64

structure Inv (s : Sys T) (S : Nat → Set T) : Prop where
  base : Base s S
  nearest : ∃ o, Least (Waits s S) o ∧ s.levels.stored = store o

variable {s s' : Sys T} {S : Nat → Set T} {level i : Nat} {t : T}

theorem InRange.lt (h : InRange i) : i < 64 := Nat.lt_succ_of_le h.2

theorem bit_eq (h : InRange level) : bit level = some (1 <<< level) := if_pos h

theorem stands_iff (hB : Base s S) (h : InRange level) : Stands s level t ↔ t ∈ S level := by
  obtain ⟨node, hR, -, hS⟩ := hB.heap level h
  rw [hS, mem_nodes_iff hR]
  rfl

theorem waiting_lt (hB : Base s S) : without s.levels.nonempty s.levels.pending < 2 ^ 64 := by
  refine lt_of_le_of_lt Nat.and_le_right ?_
  refine Nat.xor_lt_two_pow (by decide) ?_
  refine Nat.lt_pow_two_of_testBit _ fun i hi => ?_
  by_contra h
  have := (hB.pending i (by simpa using h)).lt
  omega

/-- The levels `renew` and `expired` walk over. -/
theorem mem_waiting (hB : Base s S) : i ∈ items (without s.levels.nonempty s.levels.pending) ↔
    InRange i ∧ (S i).Nonempty ∧ s.levels.pending.testBit i = false := by
  rw [mem_items (waiting_lt hB), testBit_without fun h => ((hB.nonempty i).1 h).1.lt]
  simp only [Bool.and_eq_true, Bool.not_eq_true', hB.nonempty i]
  exact and_assoc

/-- **`renew`** stores the least deadline that waits. -/
theorem renew_spec (hB : Base s S) : ∃ o, Least (Waits s S) o ∧ (s.levels.renew s.links).stored = store o := by
  refine ⟨_, ?_, rfl⟩
  have hfold := Least.foldl (a := none)
   
    (items (without s.levels.nonempty s.levels.pending)) (fun _ h => h)
    fun i hi => (hB.heap i ((mem_waiting hB).1 hi).1).least
  refine hfold.congr fun d => ?_
  constructor
  · rintro (h | ⟨i, hi, t, ht, hd⟩)
    · exact h.elim
    · obtain ⟨h1, -, h3⟩ := (mem_waiting hB).1 hi
      exact ⟨i, t, h1, h3, ht, hd⟩
  · rintro ⟨i, t, h1, h3, ht, hd⟩
    exact Or.inr ⟨i, (mem_waiting hB).2 ⟨h1, ⟨t, ht⟩, h3⟩, t, ht, hd⟩

theorem inv_renew (hB : Base s S) : Inv ⟨s.levels.renew s.links, s.links⟩ S := by
  obtain ⟨o, h1, h2⟩ := renew_spec hB
  exact ⟨⟨hB.heap, hB.apart, hB.linked, hB.nonempty, hB.pending, hB.deadline⟩, o, h1, h2⟩

theorem inv_new [Nonempty T] : Inv (Sys.new : Sys T) fun _ => ∅ := by
  refine ⟨⟨fun i _ => ?_, fun i j t _ _ h => h.elim, fun t => ?_, fun i => ?_, fun i h => ?_, fun i t _ h => h.elim⟩,
    none, ?_, rfl⟩
  · exact holds_new _
  · simp [Sys.new, HeapLink.new]
  · simp [Sys.new, Levels.new]
  · simp [Sys.new, Levels.new] at h
  · rintro d ⟨i, t, -, -, ht, -⟩
    exact ht

theorem nearest_of_stored {l : Levels T} {o : Option Nat} (h : l.stored = store o)
    (ho : ∀ n, o = some n → n < 2 ^ 64) : l.nearest = o.filter (· ≠ 2 ^ 64 - 1) := by
  unfold nearest
  rw [h]
  cases o with
  | none => rfl
  | some n =>
    have hn := ho n rfl
    have hs : store (some n) = 2 ^ 64 - 1 - n := rfl
    have h0 : NO_DEADLINE = 0 := rfl
    rw [Option.filter_some]
    by_cases hmax : n = 2 ^ 64 - 1
    · rw [if_neg (by omega), if_neg (by simpa using hmax)]
    · rw [if_pos (by omega), if_pos (by simpa using hmax)]
      congr 1
      omega

theorem Waits.lt (hB : Base s S) {d : Nat} (h : Waits s S d) : d < 2 ^ 64 := by
  obtain ⟨i, t, hi, -, ht, rfl⟩ := h
  exact hB.deadline i t hi ht

theorem Inv.nearest_eq (hI : Inv s S) : ∃ o, Least (Waits s S) o ∧ s.levels.stored = store o ∧
    s.levels.nearest = o.filter (· ≠ 2 ^ 64 - 1) := by
  obtain ⟨o, h1, h2⟩ := hI.nearest
  refine ⟨o, h1, h2, nearest_of_stored h2 ?_⟩
  rintro n rfl
  exact h1.1.lt hI.base

/-! ## `insert` -/

/-- One heap and its timers change; the others do not see it. -/
theorem heaps_update (hB : Base s S) (hl : InRange level) {h : Heap T} {S₀ : Set T} (hH : Holds h m S₀)
    (hm : ∀ x, x ∉ S level → x ∉ S₀ → m x = s.links x) (hS : ∀ x ∈ S₀, ∀ j, InRange j → x ∈ S j → j = level) :
    ∀ i, InRange i → Holds (update s.levels.heaps level h i) m (update S level S₀ i) := by
  intro i hi
  by_cases hil : i = level
  · subst hil
    simpa using hH
  · rw [update_of_ne hil, update_of_ne hil]
    refine (hB.heap i hi).congr fun x hx => hm x (fun h => ?_) fun h => ?_
    · exact hil (hB.apart i level x hi hl hx h)
    · exact hil (hS x h i hi hx)

variable [DecidableEq T] {deadline : Nat}

theorem base_insert (hB : Base s S) (hl : InRange level) (ht : ∀ j, InRange j → t ∉ S j)
    (hd : deadline < 2 ^ 64) :
    ∃ h m, (s.levels.heaps level).insert s.links t deadline = some (h, m) ∧
      (∀ x, (m x).deadline = if x = t then deadline else (s.links x).deadline) ∧
      Base ⟨{ s.levels with heaps := update s.levels.heaps level h
                            nonempty := s.levels.nonempty ||| 1 <<< level }, m⟩
        (update S level (Insert.insert t (S level))) := by
  have hfree : (s.links t).linked = false := by
    rw [← Bool.not_eq_true, hB.linked t]
    rintro ⟨i, hi, hm⟩
    exact ht i hi hm
  obtain ⟨h, m, he, hH, hM⟩ := insert_spec (hB.heap level hl) (ht level hl) hfree deadline
  have hdl : ∀ x, (m x).deadline = if x = t then deadline else (s.links x).deadline := by
    intro x
    rw [hM.deadline]
    by_cases hx : x = t
    · subst hx; simp
    · simp [hx]
  have hmem : ∀ i x, x ∈ update S level (Insert.insert t (S level)) i ↔ (i = level ∧ x = t) ∨ x ∈ S i := by
    intro i x
    by_cases hi : i = level
    · subst hi; simp
    · simp [hi]
  refine ⟨h, m, he, hdl, ⟨?_, fun i j x hi hj => ?_, fun x => ?_, fun i => ?_, hB.pending, fun i x hi => ?_⟩⟩
  · refine heaps_update hB hl hH (fun x _ hx => ?_) fun x hx j hj hxj => ?_
    · exact (hM.other x hx).trans (update_of_ne (by rintro rfl; exact hx (Or.inl rfl)) ..)
    · rcases hx with rfl | hx
      · exact absurd hxj (ht j hj)
      · exact hB.apart j level x hj hl hxj hx
  · rw [hmem, hmem]
    rintro (⟨rfl, rfl⟩ | hxi) (⟨rfl, hx⟩ | hxj)
    · rfl
    · exact absurd hxj (ht j hj)
    · subst hx
      exact absurd hxi (ht i hi)
    · exact hB.apart i j x hi hj hxi hxj
  · rw [hM.linked]
    by_cases hx : x = t
    · subst hx
      simp only [update_self, true_iff]
      exact ⟨level, hl, (hmem ..).2 (Or.inl ⟨rfl, rfl⟩)⟩
    · rw [update_of_ne hx, hB.linked x]
      simp [hmem, hx]
  · rw [Nat.testBit_or, testBit_bit, Bool.or_eq_true, hB.nonempty i]
    by_cases hi : i = level
    · subst hi
      simp [hl]
    · rw [update_of_ne hi]
      simp [Ne.symm hi]
  · rw [hmem]
    intro hx
    rw [hdl]
    split_ifs with hxt
    · exact hd
    · exact hB.deadline i x hi (hx.resolve_left fun h => hxt h.2)

theorem inv_insert (hI : Inv s S) (hl : InRange level) (ht : ∀ j, InRange j → t ∉ S j)
    (hd : deadline < 2 ^ 64) :
    ∃ r, s.levels.insert s.links level t deadline = some r ∧
      Inv ⟨r.1, r.2⟩ (update S level (Insert.insert t (S level))) ∧
      ∀ x, (r.2 x).deadline = if x = t then deadline else (s.links x).deadline := by
  obtain ⟨h, m, he, hdl, hB⟩ := base_insert hI.base hl ht hd
  obtain ⟨o, ho, hstored, hnear⟩ := hI.nearest_eq
  -- the deadlines that wait, with the new one unless its level is pending
  have hwaits : ∀ d, Waits ⟨{ s.levels with heaps := update s.levels.heaps level h
                                            nonempty := s.levels.nonempty ||| 1 <<< level }, m⟩
      (update S level (Insert.insert t (S level))) d ↔
      Waits s S d ∨ (s.levels.pending.testBit level = false ∧ d = deadline) := by
    intro d
    constructor
    · rintro ⟨i, x, hi, hp, hx, hxd⟩
      by_cases hxt : x = t
      · subst hxt
        have hil : i = level := by
          by_contra hne
          rw [update_of_ne hne] at hx
          exact ht i hi hx
        exact Or.inr ⟨hil ▸ hp, by rw [← hxd]; simp [hdl]⟩
      · refine Or.inl ⟨i, x, hi, hp, ?_, by rw [← hxd]; simp [hdl, hxt]⟩
        by_cases hil : i = level
        · subst hil
          simpa [hxt] using hx
        · simpa [hil] using hx
    · rintro (⟨i, x, hi, hp, hx, hxd⟩ | ⟨hp, rfl⟩)
      · have hxt : x ≠ t := by rintro rfl; exact ht i hi hx
        refine ⟨i, x, hi, hp, ?_, by rw [← hxd]; simp [hdl, hxt]⟩
        by_cases hil : i = level
        · subst hil
          simp [hx]
        · simp [hil, hx]
      · exact ⟨level, t, hl, hp, by simp, by simp [hdl]⟩
  unfold Levels.insert
  rw [bit_eq hl, he]
  refine ⟨_, rfl, ?_, hdl⟩
  simp only [and_bit_eq_zero]
  by_cases hp : s.levels.pending.testBit level = false
  · rw [if_pos hp]
    refine ⟨⟨hB.heap, hB.apart, hB.linked, hB.nonempty, hB.pending, hB.deadline⟩,
      nearer o (some deadline), (ho.nearer (Least.single deadline)).congr fun d => ?_, ?_⟩
    · exact (by simp [hp] : _ ↔ Waits s S d ∨ (s.levels.pending.testBit level = false ∧ d = deadline)).trans (hwaits d).symm
    · show store (some (s.levels.nearest.elim deadline (min · deadline))) = _
      rw [hnear]
      cases o with
      | none => rfl
      | some n =>
        by_cases hmax : n = 2 ^ 64 - 1
        · -- the last number was stored as none, and is no less than the new deadline
          rw [Option.filter_some, if_neg (by simpa using hmax)]
          show store (some deadline) = store (some (min n deadline))
          rw [min_eq_right (by omega)]
        · rw [Option.filter_some, if_pos (by simpa using hmax)]
          rfl
  · rw [if_neg hp]
    refine ⟨hB, o, ho.congr fun d => ?_, hstored⟩
    exact (by simp [hp] : _ ↔ Waits s S d ∨ (s.levels.pending.testBit level = false ∧ d = deadline)).trans (hwaits d).symm

/-! ## Leaving a level -/

omit [DecidableEq T] in
theorem mem_drop {x : T} : x ∈ update S level (S level \ {t}) i ↔ x ∈ S i ∧ ¬(i = level ∧ x = t) := by
  by_cases hi : i = level
  · subst hi; simp
  · simp [hi]

/-- A timer leaves its heap, and the bit of its level goes with the last one. -/
theorem base_remove (hB : Base s S) (hl : InRange level) (ht : t ∈ S level) :
    ∃ h m, (s.levels.heaps level).remove s.links t = some (h, m) ∧
      (∀ x, (m x).deadline = (s.links x).deadline) ∧ Holds h m (S level \ {t}) ∧
      Base ⟨if h.len = 0
        then { s.levels with
          heaps := update s.levels.heaps level h, nonempty := without s.levels.nonempty (1 <<< level) }
        else { s.levels with heaps := update s.levels.heaps level h }, m⟩
        (update S level (S level \ {t})) := by
  have hlinked := (hB.linked t).2 ⟨level, hl, ht⟩
  obtain ⟨h, m, he, hH, hM⟩ := remove_spec (hB.heap level hl) ht hlinked
  have hdl : ∀ x, (m x).deadline = (s.links x).deadline := by
    intro x
    rw [hM.deadline]
    by_cases hx : x = t
    · subst hx; simp
    · simp [hx]
  have hheaps : ∀ i, InRange i → Holds (update s.levels.heaps level h i) m
      (update S level (S level \ {t}) i) := by
    refine heaps_update hB hl hH (fun x hx _ => ?_) fun x hx j hj hxj => hB.apart j level x hj hl hxj hx.1
    rw [hM.other x hx, update_of_ne (by rintro rfl; exact hx ht)]
  have hapart : ∀ i j x, InRange i → InRange j → x ∈ update S level (S level \ {t}) i →
      x ∈ update S level (S level \ {t}) j → i = j :=
    fun i j x hi hj hxi hxj => hB.apart i j x hi hj (mem_drop.1 hxi).1 (mem_drop.1 hxj).1
  have hlink : ∀ x, (m x).linked = true ↔ ∃ i, InRange i ∧ x ∈ update S level (S level \ {t}) i := by
    intro x
    rw [hM.linked]
    by_cases hx : x = t
    · subst hx
      simp only [update_self, Bool.false_eq_true, false_iff]
      rintro ⟨i, hi, hm⟩
      obtain ⟨h1, h2⟩ := mem_drop.1 hm
      exact h2 ⟨hB.apart i level x hi hl h1 ht, rfl⟩
    · rw [update_of_ne hx, hB.linked x]
      simp [mem_drop, hx]
  have hdead : ∀ i x, InRange i → x ∈ update S level (S level \ {t}) i → (m x).deadline < 2 ^ 64 := by
    intro i x hi hx
    rw [hdl]
    exact hB.deadline i x hi (mem_drop.1 hx).1
  have hempty := hH.len_eq_zero
  refine ⟨h, m, he, hdl, hH, ?_⟩
  by_cases hz : h.len = 0
  · rw [if_pos hz]
    refine ⟨hheaps, hapart, hlink, fun i => ?_, hB.pending, hdead⟩
    rw [testBit_without fun hi => ((hB.nonempty i).1 hi).1.lt, Bool.and_eq_true, hB.nonempty i, testBit_bit]
    by_cases hi : i = level
    · subst hi
      simp [hempty.1 hz]
    · simp [hi, Ne.symm hi]
  · rw [if_neg hz]
    refine ⟨hheaps, hapart, hlink, fun i => ?_, hB.pending, hdead⟩
    rw [hB.nonempty i]
    by_cases hi : i = level
    · subst hi
      have hne : (S i \ {t}).Nonempty := Set.nonempty_iff_ne_empty.2 fun h0 => hz (hempty.2 h0)
      simp only [update_self, hne, and_true]
      exact ⟨fun h => h.1, fun h => ⟨h, t, ht⟩⟩
    · rw [update_of_ne hi]

/-- **`left`** after a timer left: a top that did not move keeps the nearest deadline. -/
theorem inv_left (hI : Inv s S) (hl : InRange level) (ht : t ∈ S level) :
    ∃ h m, (s.levels.heaps level).remove s.links t = some (h, m) ∧
      (∀ x, (m x).deadline = (s.links x).deadline) ∧
      ∀ moved, (moved = false → (s.levels.heaps level).first s.links = h.first m) →
        ∃ l, ({ s.levels with heaps := update s.levels.heaps level h } : Levels T).left m level moved = some l ∧
          Inv ⟨l, m⟩ (update S level (S level \ {t})) := by
  obtain ⟨h, m, he, hdl, hH, hB⟩ := base_remove hI.base hl ht
  refine ⟨h, m, he, hdl, fun moved hmoved => ?_⟩
  obtain ⟨l, hl'⟩ : ∃ l : Levels T, l = if h.len = 0
      then { s.levels with
        heaps := update s.levels.heaps level h, nonempty := without s.levels.nonempty (1 <<< level) }
      else { s.levels with heaps := update s.levels.heaps level h } := ⟨_, rfl⟩
  rw [← hl'] at hB
  have hpend : l.pending = s.levels.pending := by rw [hl']; split_ifs <;> rfl
  have hstored : l.stored = s.levels.stored := by rw [hl']; split_ifs <;> rfl
  have hleft : ({ s.levels with heaps := update s.levels.heaps level h } : Levels T).left m level moved =
      some (if moved ∧ l.pending &&& 1 <<< level = 0 then l.renew m else l) := by
    unfold left
    rw [bit_eq hl, hl']
    simp
  refine ⟨_, hleft, ?_⟩
  simp only [and_bit_eq_zero, hpend]
  by_cases hren : moved = true ∧ s.levels.pending.testBit level = false
  · rw [if_pos hren]
    exact inv_renew hB
  · rw [if_neg hren]
    obtain ⟨o, ho, hso⟩ := hI.nearest
    refine ⟨hB, o, ?_, hstored.trans hso⟩
    have hsub : ∀ d, Waits ⟨l, m⟩ (update S level (S level \ {t})) d → Waits s S d := by
      rintro d ⟨i, x, hi, hp, hx, hxd⟩
      exact ⟨i, x, hi, hpend ▸ hp, (mem_drop.1 hx).1, hdl x ▸ hxd⟩
    -- what waited still does, but for the timer that left
    have hkeep : ∀ i x, InRange i → s.levels.pending.testBit i = false → x ∈ S i → ¬(i = level ∧ x = t) →
        Waits ⟨l, m⟩ (update S level (S level \ {t})) (s.links x).deadline := by
      intro i x hi hp hx hne
      exact ⟨i, x, hi, by rw [hpend]; exact hp, mem_drop.2 ⟨hx, hne⟩, hdl x⟩
    cases o with
    | none => exact fun d hd => ho d (hsub d hd)
    | some d =>
      refine ⟨?_, fun d' hd' => ho.2 d' (hsub d' hd')⟩
      obtain ⟨i, x, hi, hp, hx, rfl⟩ := ho.1
      by_cases hxt : i = level ∧ x = t
      · obtain ⟨rfl, rfl⟩ := hxt
        have hm : moved = false := by
          cases moved with
          | true => exact absurd ⟨rfl, hp⟩ hren
          | false => rfl
        -- the same top is there, from another timer
        have hfirst := (hI.base.heap i hi).least
        have hafter := hH.least
        rw [hmoved hm] at hfirst
        cases hf : h.first m with
        | none =>
          rw [hf] at hfirst
          exact absurd ⟨x, hx, rfl⟩ (hfirst _)
        | some d =>
          rw [hf] at hfirst hafter
          obtain ⟨y, ⟨hy, hyx⟩, hyd⟩ := hafter.1
          have h1 := hfirst.2 _ ⟨x, hx, rfl⟩
          have h2 := ho.2 _ ⟨i, y, hi, hp, hy, rfl⟩
          have h3 : (s.links y).deadline = (s.links x).deadline := by
            rw [hdl] at hyd
            omega
          rw [← h3]
          exact hkeep i y hi hp hy fun h => hyx h.2
      · exact hkeep i x hi hp hx hxt

theorem inv_remove (hI : Inv s S) (hl : InRange level) (ht : t ∈ S level) :
    ∃ r, s.levels.remove s.links level t = some r ∧ Inv ⟨r.1, r.2⟩ (update S level (S level \ {t})) ∧
      ∀ x, (r.2 x).deadline = (s.links x).deadline := by
  obtain ⟨h, m, he, hdl, hleft⟩ := inv_left hI hl ht
  obtain ⟨l, hl', hI'⟩ := hleft ((s.levels.heaps level).first s.links ≠ h.first m) (by simp)
  refine ⟨(l, m), ?_, hI', hdl⟩
  unfold remove
  rw [bit_eq hl, he]
  simp only [Option.bind_some, hl', Option.map_some]

theorem popExpired_spec (hI : Inv s S) (hl : InRange level) (now : Nat) :
    (s.levels.popExpired s.links level now = some (none, s.levels, s.links) ∧
        ∀ x ∈ S level, now < (s.links x).deadline) ∨
      ∃ t l m, s.levels.popExpired s.links level now = some (some t, l, m) ∧ t ∈ S level ∧ (s.links t).deadline ≤ now ∧
        Inv ⟨l, m⟩ (update S level (S level \ {t})) ∧ ∀ x, (m x).deadline = (s.links x).deadline := by
  unfold popExpired Heap.popExpired
  rw [bit_eq hl]
  rcases (hI.base.heap level hl).root_spec with ⟨hr, hS⟩ | ⟨r, hr, hmem, hle⟩
  · left
    rw [hr, hS]
    exact ⟨rfl, fun x hx => absurd hx (Set.notMem_empty x)⟩
  · rw [hr]
    by_cases hlt : now < (s.links r).deadline
    · left
      simp only [if_pos hlt]
      exact ⟨rfl, fun x hx => lt_of_lt_of_le hlt (hle x hx)⟩
    · right
      obtain ⟨h, m, he, hdl, hleft⟩ := inv_left hI hl hmem
      obtain ⟨l, hl', hI'⟩ := hleft true (by simp)
      refine ⟨r, l, m, ?_, hmem, Nat.le_of_not_lt hlt, hI', hdl⟩
      simp [if_neg hlt, he, hl']

omit [DecidableEq T] in
theorem inv_settle (hI : Inv s S) (hl : InRange level) :
    ∃ l, s.levels.settle s.links level = some l ∧ Inv ⟨l, s.links⟩ S := by
  have hB := hI.base
  unfold settle
  rw [bit_eq hl]
  refine ⟨_, rfl, inv_renew (s := ⟨{ s.levels with pending := without s.levels.pending (1 <<< level) }, s.links⟩)
    ⟨hB.heap, hB.apart, hB.linked, hB.nonempty, fun i hi => ?_, hB.deadline⟩⟩
  rw [testBit_without fun h => (hB.pending i h).lt, Bool.and_eq_true] at hi
  exact hB.pending i hi.1

omit [DecidableEq T] in
theorem hasExpired_eq (hB : Base s S) (hl : InRange level) (now : Nat) :
    ∃ b, s.levels.hasExpired s.links level now = some b ∧ (b = true ↔ ∃ x ∈ S level, (s.links x).deadline ≤ now) := by
  unfold hasExpired
  rw [bit_eq hl]
  refine ⟨_, rfl, ?_⟩
  rcases (hB.heap level hl).first_spec with ⟨hf, hS⟩ | ⟨d, hf, ⟨x, hx, rfl⟩, hle⟩
  · simp [hf, hS]
  · rw [hf, Option.any_some, decide_eq_true_iff]
    exact ⟨fun h => ⟨x, hx, h⟩, fun ⟨y, hy, hyn⟩ => le_trans (hle y hy) hyn⟩

/-! ## `expired` -/

section Expired

variable {P : Nat → Prop} {r : Nat × Option Nat}

omit [DecidableEq T] in
/-- One turn: a level is due, or its top counts toward the nearest deadline. -/
theorem expiredTurn_spec (hB : Base s S) (hl : InRange level) (now : Nat) (hr : Least P r.2) :
    (∀ i, (s.levels.expiredTurn s.links now r level).1.testBit i = true ↔
      r.1.testBit i = true ∨ (i = level ∧ ∃ x ∈ S i, (s.links x).deadline ≤ now)) ∧
    Least (fun d => P d ∨ ((∀ x ∈ S level, now < (s.links x).deadline) ∧ ∃ x ∈ S level, (s.links x).deadline = d))
      (s.levels.expiredTurn s.links now r level).2 := by
  unfold expiredTurn
  have hleast := (hB.heap level hl).least
  rcases (hB.heap level hl).first_spec with ⟨hf, hS⟩ | ⟨d, hf, ⟨x, hx, hxd⟩, hle⟩
  · rw [hf]
    refine ⟨fun i => ?_, hr.congr fun d => by simp [hS]⟩
    constructor
    · exact Or.inl
    · rintro (h | ⟨rfl, y, hy, -⟩)
      · exact h
      · rw [hS] at hy
        exact hy.elim
  · rw [hf] at hleast ⊢
    by_cases hdn : d ≤ now
    · simp only [if_pos hdn]
      refine ⟨fun i => ?_, hr.congr fun d' => ?_⟩
      · rw [Nat.testBit_or, testBit_bit, Bool.or_eq_true, decide_eq_true_iff]
        constructor
        · rintro (h | rfl)
          · exact Or.inl h
          · exact Or.inr ⟨rfl, x, hx, hxd ▸ hdn⟩
        · rintro (h | ⟨rfl, -⟩)
          · exact Or.inl h
          · exact Or.inr rfl
      · constructor
        · exact Or.inl
        · rintro (h | ⟨hall, -⟩)
          · exact h
          · have := hall x hx
            omega
    · simp only [if_neg hdn]
      have hall : ∀ y ∈ S level, now < (s.links y).deadline := fun y hy => lt_of_lt_of_le (by omega) (hle y hy)
      refine ⟨fun i => ?_, ?_⟩
      · constructor
        · exact Or.inl
        · rintro (h | ⟨rfl, y, hy, hyn⟩)
          · exact h
          · have := hall y hy
            omega
      · have hmerge : some (r.2.elim d (min · d)) = nearer r.2 (some d) := by cases r.2 <;> rfl
        rw [hmerge]
        exact (hr.nearer hleast).congr fun d' => or_congr_right ⟨fun h => ⟨hall, h⟩, fun h => h.2⟩

omit [DecidableEq T] in
/-- The turns over some levels. -/
theorem expired_foldl (hB : Base s S) (now : Nat) (is : List Nat) (his : ∀ i ∈ is, InRange i) (hr : Least P r.2) :
    (∀ i, (is.foldl (s.levels.expiredTurn s.links now) r).1.testBit i = true ↔
      r.1.testBit i = true ∨ (i ∈ is ∧ ∃ x ∈ S i, (s.links x).deadline ≤ now)) ∧
    Least (fun d => P d ∨ ∃ i ∈ is, (∀ x ∈ S i, now < (s.links x).deadline) ∧ ∃ x ∈ S i, (s.links x).deadline = d)
      (is.foldl (s.levels.expiredTurn s.links now) r).2 := by
  induction is generalizing P r with
  | nil => exact ⟨fun i => by simp, hr.congr fun d => by simp⟩
  | cons j is ih =>
    obtain ⟨h1, h2⟩ := expiredTurn_spec hB (his j (by simp)) now hr
    obtain ⟨h3, h4⟩ := ih (fun i hi => his i (by simp [hi])) h2
    refine ⟨fun i => ?_, h4.congr fun d => ?_⟩
    · rw [List.foldl_cons, h3, h1, List.mem_cons, or_assoc, or_and_right]
    · simp only [List.mem_cons, exists_eq_or_imp, or_assoc]

omit [DecidableEq T] in
/-- **`expired`**: the levels with a timer that is due become pending. -/
theorem inv_expired (hI : Inv s S) (now : Nat) : Inv ⟨(s.levels.expired s.links now).2, s.links⟩ S ∧
    ∀ i x, InRange i → x ∈ S i → (s.links x).deadline ≤ now →
      (s.levels.expired s.links now).2.pending.testBit i = true := by
  have hB := hI.base
  obtain ⟨r, hr⟩ : ∃ r, r = (items (without s.levels.nonempty s.levels.pending)).foldl
      (s.levels.expiredTurn s.links now) (0, none) := ⟨_, rfl⟩
  obtain ⟨hdue, hnear⟩ := expired_foldl (r := (0, none)) hB now
    (items (without s.levels.nonempty s.levels.pending)) (fun i hi => ((mem_waiting hB).1 hi).1) (fun _ h => h)
  rw [← hr] at hdue hnear
  simp only [Nat.zero_testBit, Bool.false_eq_true, false_or, mem_waiting hB] at hdue hnear
  unfold expired
  rw [← hr]
  by_cases h0 : r.1 ≠ 0
  · simp only [if_pos h0]
    have hpend : ∀ i, (s.levels.pending ||| r.1).testBit i = true ↔
        s.levels.pending.testBit i = true ∨ (InRange i ∧ ∃ x ∈ S i, (s.links x).deadline ≤ now) := by
      intro i
      rw [Nat.testBit_or, Bool.or_eq_true, hdue i]
      constructor
      · rintro (h | ⟨⟨h1, -, -⟩, h2⟩)
        · exact Or.inl h
        · exact Or.inr ⟨h1, h2⟩
      · rintro (h | ⟨h1, x, hx, h2⟩)
        · exact Or.inl h
        · cases hp : s.levels.pending.testBit i with
          | true => exact Or.inl rfl
          | false => exact Or.inr ⟨⟨h1, ⟨x, hx⟩, rfl⟩, x, hx, h2⟩
    refine ⟨⟨⟨hB.heap, hB.apart, hB.linked, hB.nonempty, fun i hi => ?_, hB.deadline⟩, r.2, hnear.congr fun d => ?_, rfl⟩,
      fun i x hi hx hd => (hpend i).2 (Or.inr ⟨hi, x, hx, hd⟩)⟩
    · rcases (hpend i).1 hi with h | h
      · exact hB.pending i h
      · exact h.1
    · have hnot : ∀ i, (s.levels.pending ||| r.1).testBit i = false ↔
          s.levels.pending.testBit i = false ∧ ¬(InRange i ∧ ∃ x ∈ S i, (s.links x).deadline ≤ now) := by
        intro i
        rw [← Bool.not_eq_true, hpend i, not_or, Bool.not_eq_true]
      constructor
      · rintro ⟨i, ⟨hi, -, hp⟩, hall, x, hx, hxd⟩
        refine ⟨i, x, hi, (hnot i).2 ⟨hp, ?_⟩, hx, hxd⟩
        rintro ⟨-, y, hy, hyn⟩
        have := hall y hy
        omega
      · rintro ⟨i, x, hi, hp, hx, hxd⟩
        obtain ⟨hp, hlate⟩ := (hnot i).1 hp
        refine ⟨i, ⟨hi, ⟨x, hx⟩, hp⟩, fun y hy => ?_, x, hx, hxd⟩
        by_contra hy'
        exact hlate ⟨hi, y, hy, Nat.le_of_not_lt hy'⟩
  · -- nothing is due: what is has a pending level already
    simp only [if_neg h0]
    refine ⟨hI, fun i x hi hx hd => ?_⟩
    by_contra hp
    have hbit := (hdue i).2 ⟨⟨hi, ⟨x, hx⟩, by simpa using hp⟩, x, hx, hd⟩
    rw [not_not.1 h0, Nat.zero_testBit] at hbit
    cases hbit

end Expired

/-! ## Every sequence of calls -/

/-- The book has the timers that stand somewhere. -/
def Booked (b : Book T) (s : Sys T) (S : Nat → Set T) : Prop :=
  ∀ t i d, b t = some (i, d) ↔ InRange i ∧ t ∈ S i ∧ (s.links t).deadline = d

/-- A timer that leaves its level leaves the book. -/
theorem Booked.drop {b : Book T} (s' : Sys T) (hb : Booked b s S) (hB : Base s S) (hl : InRange level) (ht : t ∈ S level)
    (hd : ∀ x, (s'.links x).deadline = (s.links x).deadline) :
    b t = some (level, (s.links t).deadline) ∧
      Booked (update b t none) s' (update S level (S level \ {t})) := by
  refine ⟨(hb t level _).2 ⟨hl, ht, rfl⟩, fun x i d => ?_⟩
  rw [mem_drop, hd]
  by_cases hx : x = t
  · subst hx
    simp only [update_self, reduceCtorEq, false_iff]
    rintro ⟨hi, ⟨hm, hne⟩, -⟩
    exact hne ⟨hB.apart i level x hi hl hm ht, trivial⟩
  · rw [update_of_ne hx, hb x i d]
    simp [hx]

theorem Booked.insert {b : Book T} (s' : Sys T) (hb : Booked b s S) (hl : InRange level)
    (ht : ∀ j, InRange j → t ∉ S j)
    (hd : ∀ x, (s'.links x).deadline = if x = t then deadline else (s.links x).deadline) :
    b t = none ∧
      Booked (update b t (some (level, deadline))) s' (update S level (Insert.insert t (S level))) := by
  constructor
  · cases h : b t with
    | none => rfl
    | some p =>
      obtain ⟨hi, hm, -⟩ := (hb t p.1 p.2).1 h
      exact absurd hm (ht _ hi)
  · intro x i d
    rw [hd]
    by_cases hx : x = t
    · subst hx
      simp only [update_self, Option.some.injEq, Prod.mk.injEq]
      constructor
      · rintro ⟨rfl, rfl⟩
        exact ⟨hl, by simp, rfl⟩
      · rintro ⟨hi, hm, rfl⟩
        refine ⟨?_, rfl⟩
        by_contra hne
        rw [update_of_ne (Ne.symm hne)] at hm
        exact ht i hi hm
    · rw [update_of_ne hx, hb x i d, if_neg hx]
      by_cases hi : i = level
      · subst hi
        simp [hx]
      · simp [hi]

/-- One call: what it does to the timers stands in the book. -/
theorem inv_exec {b : Book T} (hI : Inv s S) (hb : Booked b s S) {op : Op T} (hm : op.Meets s) :
    ∃ s' ev S' b', exec s op = some (s', ev) ∧ notes b ev = some b' ∧ Inv s' S' ∧ Booked b' s' S' := by
  cases op with
  | insert level t deadline =>
    obtain ⟨hl, hd, hfree⟩ := hm
    have ht : ∀ j, InRange j → t ∉ S j := fun j hj h => hfree j hj ((stands_iff hI.base hj).2 h)
    obtain ⟨r, he, hI', hdl⟩ := inv_insert hI hl ht hd
    obtain ⟨hnone, hb'⟩ := hb.insert ⟨r.1, r.2⟩ hl ht hdl
    exact ⟨_, _, _, _, by rw [exec, he]; rfl, by simp [notes, note, hnone], hI', hb'⟩
  | remove level t =>
    obtain ⟨hl, hst⟩ := hm
    have ht := (stands_iff hI.base hl).1 hst
    obtain ⟨r, he, hI', hdl⟩ := inv_remove hI hl ht
    obtain ⟨hsome, hb'⟩ := hb.drop ⟨r.1, r.2⟩ hI.base hl ht hdl
    exact ⟨_, _, _, _, by rw [exec, he]; rfl, by simp [notes, note, hsome], hI', hb'⟩
  | expired now => exact ⟨_, _, _, _, rfl, rfl, (inv_expired hI now).1, hb⟩
  | next f now =>
    by_cases h0 : f.left = 0
    · exact ⟨s, [], S, b, by simp [exec, Firing.next, h0], rfl, hI, hb⟩
    · rcases popExpired_spec hI hm now with ⟨he, -⟩ | ⟨t, l, m, he, ht, hd, hI', hdl⟩
      · exact ⟨s, [], S, b, by simp [exec, Firing.next, he], rfl, hI, hb⟩
      · obtain ⟨hsome, hb'⟩ := hb.drop ⟨l, m⟩ hI.base hm ht hdl
        exact ⟨⟨l, m⟩, [.fired t f.level now], _, _, by simp [exec, Firing.next, h0, he],
          by simp [notes, note, hsome, hd], hI', hb'⟩
  | finish f now =>
    obtain ⟨more, he, -⟩ := hasExpired_eq hI.base hm now
    cases more with
    | true => exact ⟨s, [], S, b, by simp [exec, Firing.finish, he], rfl, hI, hb⟩
    | false =>
      obtain ⟨l, he', hI'⟩ := inv_settle hI hm
      exact ⟨⟨l, s.links⟩, [], S, b, by simp [exec, Firing.finish, he, he'], rfl, hI', hb⟩
  | settle level =>
    obtain ⟨l, he, hI'⟩ := inv_settle hI hm
    exact ⟨⟨l, s.links⟩, [], S, b, by simp [exec, he], rfl, hI', hb⟩

theorem notes_append (b : Book T) (es es' : List (Event T)) :
    notes b (es ++ es') = (notes b es).bind fun b => notes b es' := by
  induction es generalizing b with
  | nil => rfl
  | cons e es ih =>
    rw [List.cons_append, notes, notes, Option.bind_assoc]
    exact congrArg (Option.bind (note b e)) (funext ih)

theorem inv_run {b : Book T} (ops : List (Op T)) (hI : Inv s S) (hb : Booked b s S) (hm : Met s ops) :
    ∃ s' tr S' b', run s ops = some (s', tr) ∧ notes b tr = some b' ∧ Inv s' S' ∧ Booked b' s' S' := by
  induction ops generalizing s S b with
  | nil => exact ⟨s, [], S, b, rfl, rfl, hI, hb⟩
  | cons op ops ih =>
    obtain ⟨s₁, ev, S₁, b₁, he, hn, hI₁, hb₁⟩ := inv_exec hI hb hm.1
    obtain ⟨s', tr, S', b', he', hn', hI', hb'⟩ := ih hI₁ hb₁ (hm.2 s₁ ev he)
    refine ⟨s', ev ++ tr, S', b', ?_, ?_, hI', hb'⟩
    · rw [run, he]
      simp [he']
    · rw [notes_append, hn]
      exact hn'

/-- **The levels of timers are safe.** After any sequence of calls that meet their contracts: no assertion
failed, and every timer that came left once at most, by `remove` or by a firing not before its deadline, and
stands at its level until then; `nearest` is the least deadline of the levels that are not pending, with the
last number for none; `expired` leaves no timer that is due outside a pending level; a portion takes a timer
when one is due; and `finish` settles a level only when none is. -/
theorem timers_safe [Nonempty T] (ops : List (Op T)) (hm : Met (Sys.new : Sys T) ops) :
    ∃ s tr, run Sys.new ops = some (s, tr) ∧
      (∃ b, notes (fun _ => none) tr = some b ∧
        ∀ t level d, b t = some (level, d) ↔ InRange level ∧ Stands s level t ∧ (s.links t).deadline = d) ∧
      (∀ d, s.levels.nearest = some d ↔ d ≠ 2 ^ 64 - 1 ∧ Least (fun d => ∃ level t, InRange level ∧
        s.levels.pending.testBit level = false ∧ Stands s level t ∧ (s.links t).deadline = d) (some d)) ∧
      (∀ now level t, InRange level → Stands s level t → (s.links t).deadline ≤ now →
        (s.levels.expired s.links now).2.pending.testBit level = true) ∧
      (∀ f : Firing, ∀ now, InRange f.level → f.left ≠ 0 → ∃ r, f.next s.levels s.links now = some r ∧
        (r.1.isSome ↔ ∃ t, Stands s f.level t ∧ (s.links t).deadline ≤ now)) ∧
      (∀ f : Firing, ∀ now, InRange f.level → ∃ more l, f.finish s.levels s.links now = some (more, l) ∧
        (more = true → l = s.levels) ∧ (more = false → ∀ t, Stands s f.level t → now < (s.links t).deadline)) := by
  obtain ⟨s, tr, S, b, he, hn, hI, hb⟩ := inv_run ops inv_new (b := fun _ => none) (fun t i d => by simp) hm
  have hst := fun {level : Nat} {t : T} (h : InRange level) => stands_iff (t := t) hI.base h
  refine ⟨s, tr, he, ⟨b, hn, fun t level d => ?_⟩, fun d => ?_, ?_, ?_, ?_⟩
  · rw [hb t level d]
    exact and_congr_right fun h => by rw [hst h]
  · obtain ⟨o, ho, -, hnear⟩ := hI.nearest_eq
    have ho' : Least (fun d => ∃ level t, InRange level ∧ s.levels.pending.testBit level = false ∧ Stands s level t ∧
        (s.links t).deadline = d) o := by
      refine ho.congr fun d => ?_
      constructor
      · rintro ⟨i, t, hi, hp, ht, hd⟩
        exact ⟨i, t, hi, hp, (hst hi).2 ht, hd⟩
      · rintro ⟨i, t, hi, hp, ht, hd⟩
        exact ⟨i, t, hi, hp, (hst hi).1 ht, hd⟩
    rw [hnear, Option.filter_eq_some_iff, and_comm, decide_eq_true_iff]
    exact and_congr_right fun _ => ⟨fun h => h ▸ ho', fun h => ho'.unique h⟩
  · intro now level t hl ht hd
    exact (inv_expired hI now).2 level t hl ((hst hl).1 ht) hd
  · intro f now hf h0
    rcases popExpired_spec hI hf now with ⟨he, hlate⟩ | ⟨t, l, m, he, ht, hd, -⟩
    · refine ⟨_, by rw [Firing.next, if_neg h0, he]; rfl, ?_⟩
      simp only [Option.isSome_none, Bool.false_eq_true, false_iff]
      rintro ⟨t, ht, hd⟩
      have := hlate t ((hst hf).1 ht)
      omega
    · refine ⟨_, by rw [Firing.next, if_neg h0, he]; rfl, ?_⟩
      simp only [Option.isSome_some, true_iff]
      exact ⟨t, (hst hf).2 ht, hd⟩
  · intro f now hf
    obtain ⟨more, he, hmore⟩ := hasExpired_eq hI.base hf now
    cases more with
    | true => exact ⟨true, s.levels, by simp [Firing.finish, he], fun _ => rfl, by simp⟩
    | false =>
      obtain ⟨l, he', -⟩ := inv_settle hI hf
      refine ⟨false, l, by simp [Firing.finish, he, he'], by simp, fun _ t ht => ?_⟩
      by_contra hd
      exact absurd (hmore.2 ⟨t, (hst hf).1 ht, Nat.le_of_not_lt hd⟩) (by simp)

/-- A timer comes, falls due, fires and its level settles. -/
theorem timers_safe_one_shot :
    let ops : List (Op Nat) := [.insert 5 0 10, .expired 12, .next ⟨5, 8⟩ 12, .finish ⟨5, 7⟩ 12]
    Met Sys.new ops ∧ ∃ s tr, run Sys.new ops = some (s, tr) ∧
      (∃ b, notes (fun _ => none) tr = some b ∧
        ∀ t level d, b t = some (level, d) ↔ InRange level ∧ Stands s level t ∧ (s.links t).deadline = d) := by
  have hr : InRange 5 := by simp [InRange, LEVELS]
  have hm : Met Sys.new ([.insert 5 0 10, .expired 12, .next ⟨5, 8⟩ 12, .finish ⟨5, 7⟩ 12] : List (Op Nat)) := by
    refine ⟨⟨hr, by decide, fun j _ => ?_⟩, fun _ _ _ => ⟨trivial, fun _ _ _ =>
      ⟨hr, fun _ _ _ => ⟨hr, fun _ _ _ => trivial⟩⟩⟩⟩
    rintro ⟨k, hk⟩
    simp [Sys.new, Levels.new, Heap.new, Heap.timerAt] at hk
  obtain ⟨s, tr, he, hb, -⟩ := timers_safe _ hm
  exact ⟨hm, s, tr, he, hb⟩

end Timer
