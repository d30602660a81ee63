import Stafeto.Asid
import Stafeto.Lib.Run

/-!
# Address spaces, ASIDs and the TLB of each CPU (kcore/src/tlb.rs, asid.rs)

Any number of spaces share at most eight CPUs. A switch first tries `AsidCpus::fast`, which takes no
lock: the tag, the CPU's `active` word and the generation are read one after the other, and a
compare-and-swap ends it; anything may come between two of them. Everything else runs under the lock
of the objects: `switch_slow` activates the space, flushes the CPU's TLB when it owes a flush (with
TTBR0 on the empty table meanwhile) and writes TTBR0; `retire_asid` releases a tag and invalidates its
ASID on every CPU. A TLB may take in an entry of the space in TTBR0 at any moment.

What has to hold is that a CPU that runs a space under an ASID has no entry of another space under
that ASID. A tag holds 48 bits of the generation, so `tlb_safe` is about the runs that begin fewer
than `2^48` generations; `tlb_generation_wraps` shows a CPU whose space loses its number at the end of
them.
-/

namespace Tlb

open Asid Run Relation Function Option AsidAllocator Asids

/-! ## The machine -/

/-- Where a CPU stands in a switch of its address space, or in `retire_asid`. -/
inductive Pc (Space : Type*) where
  /-- It runs what TTBR0 says. -/
  | run
  /-- `fast` has read the tag, ... -/
  | tagRead (S : Space) (id : Nat)
  /-- ... the `active` word, which is not 0, ... -/
  | activeRead (S : Space) (id old : Nat)
  /-- ... and the generation, which is the tag's. -/
  | genRead (S : Space) (id old : Nat)
  /-- The compare-and-swap passed. -/
  | swapped (S : Space) (asid : Nat)
  /-- On its way to the slow path. -/
  | slow (S : Space)
  /-- `activate` is done and the CPU owes a flush. -/
  | owing (S : Space) (asid : Nat)
  /-- TTBR0 is on the empty table for the flush. -/
  | emptied (S : Space) (asid : Nat)
  /-- The slow path is about to write TTBR0. -/
  | activated (S : Space) (asid : Nat)
  /-- `retire_asid` has released the number and invalidates it next. -/
  | released (asid : Nat)

namespace Pc

variable {Space : Type*}

/-- What the CPU puts into TTBR0 next, with its TLB as it is. -/
def target : Pc Space → Option (Space × Nat)
  | swapped S a | activated S a => some (S, a)
  | _ => none

/-- The space the CPU is in the middle of a switch to. -/
def goal : Pc Space → Option Space
  | tagRead S _ | activeRead S _ _ | genRead S _ _ | swapped S _ | slow S | owing S _ | emptied S _
  | activated S _ => some S
  | run | released _ => none

/-- From the compare-and-swap or the start of the slow path until TTBR0 is written. -/
def inSwitch : Pc Space → Bool
  | swapped .. | slow .. | owing .. | emptied .. | activated .. => true
  | _ => false

/-- The CPU took over its flush and has not made it yet. -/
def flushing : Pc Space → Bool
  | owing .. | emptied .. => true
  | _ => false

/-- The CPU holds the lock of the objects. -/
def locked : Pc Space → Bool
  | owing .. | emptied .. | activated .. | released .. => true
  | _ => false

/-- The tag that a `fast` under way has read. -/
def fast : Pc Space → Option (Space × Nat)
  | tagRead S id | activeRead S id _ | genRead S id _ => some (S, id)
  | _ => none

end Pc

/-- One CPU: `ttbr` is the space and the ASID in TTBR0, `none` for the empty table. -/
structure Core (Space : Type*) where
  pc : Pc Space
  ttbr : Option (Space × Nat)
  tlb : Set (Nat × Space)

structure Sys (Space : Type*) where
  asids : Asids
  /-- The word of each space's `AsidTag`. -/
  tag : Space → Nat
  lock : Option Cpu
  core : Cpu → Core Space

variable {Space : Type*}

/-- `AsidTag::asid` (asid.rs:86). -/
def asidOf (id : Nat) : Option Nat := if id ≠ 0 then some (tagAsid id) else none

/-- Boot: no space has run, every TTBR0 is on the empty table. -/
def Init (s : Sys Space) : Prop :=
  (∃ bits, (bits = 8 ∨ bits = 16) ∧ s.asids = ⟨AsidCpus.new, new bits⟩) ∧
    (∀ S, s.tag S = 0) ∧ s.lock = none ∧ ∀ c, s.core c = ⟨.run, none, ∅⟩

def Sys.setCore (s : Sys Space) (c : Cpu) (k : Core Space) : Sys Space :=
  { s with core := update s.core c k }

/-- The steps. `leave` is `aspace::leave` (kernel/src/mm/aspace.rs:98), which a CPU does at a quiescent
point and before it idles; `evict` is what the hardware and `forget_range` may drop. -/
inductive Step [DecidableEq Space] : Sys Space → Sys Space → Prop
  | readTag (s : Sys Space) (c : Cpu) (S : Space) (h : (s.core c).pc = .run) :
      Step s (s.setCore c { s.core c with pc := .tagRead S (s.tag S) })
  | readActive (s : Sys Space) (c : Cpu) (S : Space) (id : Nat) (h : (s.core c).pc = .tagRead S id) :
      Step s (s.setCore c { s.core c with pc :=
        (if s.asids.cpus.active c = 0 then .slow S else .activeRead S id (s.asids.cpus.active c)) })
  | readGen (s : Sys Space) (c : Cpu) (S : Space) (id old : Nat) (h : (s.core c).pc = .activeRead S id old) :
      Step s (s.setCore c { s.core c with pc :=
        (if tagGen id = s.asids.cpus.generation then .genRead S id old else .slow S) })
  | casFail (s : Sys Space) (c : Cpu) (S : Space) (id old : Nat) (h : (s.core c).pc = .genRead S id old)
      (ha : s.asids.cpus.active c ≠ old) : Step s (s.setCore c { s.core c with pc := .slow S })
  | casOk (s : Sys Space) (c : Cpu) (S : Space) (id old : Nat) (h : (s.core c).pc = .genRead S id old)
      (ha : s.asids.cpus.active c = old) :
      Step s { s with
        asids := { s.asids with cpus :=
          { s.asids.cpus with active := update s.asids.cpus.active c id } }
        core := update s.core c { s.core c with pc := .swapped S (tagAsid id) } }
  | setFast (s : Sys Space) (c : Cpu) (S : Space) (a : Nat) (h : (s.core c).pc = .swapped S a) :
      Step s (s.setCore c { s.core c with pc := .run, ttbr := some (S, a) })
  | activate (s : Sys Space) (c : Cpu) (S : Space) (act : Asids.Activation) (asids : Asids)
      (h : (s.core c).pc = .slow S) (hl : s.lock = none)
      (ha : s.asids.activate c (s.tag S) = some (act, asids)) :
      Step s { asids := asids, tag := update s.tag S act.id, lock := some c,
               core := update s.core c { s.core c with pc :=
                 (if act.flushTlb then .owing S (tagAsid act.id) else .activated S (tagAsid act.id)) } }
  | empty (s : Sys Space) (c : Cpu) (S : Space) (a : Nat) (h : (s.core c).pc = .owing S a) :
      Step s (s.setCore c { s.core c with pc := .emptied S a, ttbr := none })
  | flush (s : Sys Space) (c : Cpu) (S : Space) (a : Nat) (h : (s.core c).pc = .emptied S a) :
      Step s (s.setCore c { s.core c with pc := .activated S a, tlb := ∅ })
  | setSlow (s : Sys Space) (c : Cpu) (S : Space) (a : Nat) (h : (s.core c).pc = .activated S a) :
      Step s { s with
        lock := none, core := update s.core c { s.core c with pc := .run, ttbr := some (S, a) } }
  | leave (s : Sys Space) (c : Cpu) (h : (s.core c).pc = .run) :
      Step s (s.setCore c { s.core c with ttbr := none })
  | fill (s : Sys Space) (c : Cpu) (S : Space) (a : Nat) (h : (s.core c).ttbr = some (S, a)) :
      Step s (s.setCore c { s.core c with tlb := insert (a, S) (s.core c).tlb })
  | evict (s : Sys Space) (c : Cpu) (kept : Set (Nat × Space)) (h : kept ⊆ (s.core c).tlb) :
      Step s (s.setCore c { s.core c with tlb := kept })
  | release (s : Sys Space) (c : Cpu) (S : Space) (r : Option Nat) (asids : Asids) (h : (s.core c).pc = .run)
      (hl : s.lock = none) (hrun : ∀ c' a, (s.core c').ttbr ≠ some (S, a))
      (hgo : ∀ c', (s.core c').pc.goal ≠ some S) (hr : s.asids.release (s.tag S) = some (r, asids)) :
      Step s { asids := asids, tag := update s.tag S 0, lock := r.map (fun _ => c),
               core := update s.core c { s.core c with pc := r.elim .run .released } }
  | invalidate (s : Sys Space) (c : Cpu) (a : Nat) (h : (s.core c).pc = .released a) :
      Step s { s with lock := none, core := fun c' =>
        { pc := if c' = c then .run else (s.core c').pc, ttbr := (s.core c').ttbr,
          tlb := { e | e ∈ (s.core c').tlb ∧ e.1 ≠ a } } }

/-- A step that leaves the generation below `bound`. -/
def StepWithin [DecidableEq Space] (bound : Nat) (s s' : Sys Space) : Prop :=
  Step s s' ∧ s'.asids.cpus.generation < bound

/-! ## The invariant of the numbers -/

/-- The space has its number in this generation: its tag is current, or a CPU keeps it. -/
def Own (x : Asids) (tag : Space → Nat) (S : Space) : Prop :=
  tag S ≠ 0 ∧ (tagGen (tag S) = x.cpus.generation ∨ ∃ c, x.alloc.reserved c = tag S)

structure AInv (x : Asids) (tag : Space → Nat) : Prop where
  map : x.alloc.MapInv
  gen : 1 ≤ x.cpus.generation ∧ x.cpus.generation < 2 ^ 48
  tags : ∀ S, tag S ≠ 0 → tagGen (tag S) ≤ x.cpus.generation ∧ 1 ≤ tagAsid (tag S) ∧
    tagAsid (tag S) < 2 ^ x.alloc.bits
  /-- A number has one owner. -/
  own : ∀ S S', Own x tag S → Own x tag S' → tagAsid (tag S) = tagAsid (tag S') → S = S'
  used : ∀ a, x.alloc.used a = true ↔ a = 0 ∨ ∃ S, Own x tag S ∧ tagAsid (tag S) = a
  reserved : ∀ c, x.alloc.reserved c ≠ 0 → ∃ S, tag S = x.alloc.reserved c
  active : ∀ c, x.cpus.active c ≠ 0 → ∃ S, tag S = x.cpus.active c ∧ tagGen (tag S) = x.cpus.generation
  owes : ∀ c, x.cpus.flushPending c = true → x.cpus.active c = 0

/-- The tag of `S` is of this generation and names `a`. -/
def Cur (x : Asids) (tag : Space → Nat) (S : Space) (a : Nat) : Prop :=
  tagGen (tag S) = x.cpus.generation ∧ tagAsid (tag S) = a

/-- `S` runs on `c` under `a`: the CPU's `active` word is the tag, or a new generation took it from
there into `reserved`. -/
def Runs (x : Asids) (tag : Space → Nat) (c : Cpu) (S : Space) (a : Nat) : Prop :=
  tag S ≠ 0 ∧ tagAsid (tag S) = a ∧
    (x.cpus.active c = tag S ∨ (x.cpus.active c = 0 ∧ x.alloc.reserved c = tag S))

variable {x y : Asids} {tag : Space → Nat} {S : Space} {a : Nat} {c : Cpu}

theorem Cur.ne_zero (h : Cur x tag S a) (hA : AInv x tag) : tag S ≠ 0 := by
  intro h0
  have hg := hA.gen
  unfold Cur at h
  rw [h0, tagGen_zero] at h
  omega

theorem Cur.own (h : Cur x tag S a) (hA : AInv x tag) : Own x tag S := ⟨h.ne_zero hA, Or.inl h.1⟩

theorem Runs.own (h : Runs x tag c S a) (hA : AInv x tag) : Own x tag S := by
  obtain ⟨h0, _, hr⟩ := h
  refine ⟨h0, ?_⟩
  rcases hr with hr | ⟨_, hr⟩
  · left
    obtain ⟨S', h1, h2⟩ := hA.active c (by rw [hr]; exact h0)
    rw [h1, hr] at h2
    exact h2
  · right
    exact ⟨c, hr⟩

/-- Two spaces that are both current, or kept, share no number. -/
theorem AInv.eq_of_tag (hA : AInv x tag) {S' : Space} (h : Own x tag S) (he : tag S' = tag S) : S' = S := by
  refine hA.own S' S ?_ h (by rw [he])
  unfold Own
  rw [he]
  exact h

/-! ## The invariant of a CPU -/

/-- What the CPU may translate with, now or once it has written TTBR0. -/
def Core.Entry (k : Core Space) (a : Nat) (S : Space) : Prop :=
  (a, S) ∈ k.tlb ∨ k.ttbr = some (S, a) ∨ k.pc.target = some (S, a)

/-- `inval a`: a released number that is still to be invalidated. -/
structure CInv (x : Asids) (tag : Space → Nat) (inval : Nat → Prop) (c : Cpu) (k : Core Space) : Prop where
  one : ∀ a S S', k.Entry a S → k.Entry a S' → S = S'
  range : ∀ a S, k.ttbr = some (S, a) ∨ k.pc.target = some (S, a) → 1 ≤ a ∧ a < 2 ^ x.alloc.bits
  runs : k.pc.inSwitch = false → ∀ S a, k.ttbr = some (S, a) → Runs x tag c S a
  swapped : ∀ S a, k.pc = .swapped S a →
    Runs x tag c S a ∧ (x.cpus.flushPending c = false → Cur x tag S a)
  fast : ∀ S id, k.pc.fast = some (S, id) →
    tagGen id ≤ x.cpus.generation ∧ (tagGen id = x.cpus.generation → tag S = id)
  activeRead : ∀ S id old, k.pc = .activeRead S id old → old ≠ 0
  genRead : ∀ S id old, k.pc = .genRead S id old →
    old ≠ 0 ∧ (x.cpus.active c = old → tagGen id = x.cpus.generation)
  held : ∀ S a, k.pc = .owing S a ∨ k.pc = .emptied S a ∨ k.pc = .activated S a →
    Cur x tag S a ∧ x.cpus.active c = tag S ∧ x.cpus.flushPending c = false
  emptied : ∀ S a, k.pc = .emptied S a → k.ttbr = none
  /-- A CPU that owes no flush has flushed in this generation: what it holds is current. -/
  cur : x.cpus.flushPending c = false → k.pc.flushing = false →
    (∀ S a, k.ttbr = some (S, a) → Cur x tag S a) ∧ ∀ S a, (a, S) ∈ k.tlb → Cur x tag S a ∨ inval a

variable {inval : Nat → Prop} {k : Core Space} {pc : Pc Space} {tlb : Set (Nat × Space)} {T : Space}
  {act : Asids.Activation} {old : Nat}

section
variable (h : CInv x tag inval c k)
include h

/-- A CPU that holds less and has or installs nothing new. -/
theorem CInv.entries (k' : Core Space) (htlb : k'.tlb ⊆ k.tlb)
    (hto : ∀ S a, k'.ttbr = some (S, a) ∨ k'.pc.target = some (S, a) →
      k.ttbr = some (S, a) ∨ k.pc.target = some (S, a)) :
    (∀ a S S', k'.Entry a S → k'.Entry a S' → S = S') ∧
      ∀ a S, k'.ttbr = some (S, a) ∨ k'.pc.target = some (S, a) → 1 ≤ a ∧ a < 2 ^ x.alloc.bits := by
  have hent : ∀ a S, k'.Entry a S → k.Entry a S := fun a S he => he.imp (@htlb (a, S)) (hto S a)
  exact ⟨fun a S S' h1 h2 => h.one a S S' (hent a S h1) (hent a S' h2), fun a S he => h.range a S (hto S a he)⟩

/-- A CPU moves on to a place with nothing to install and no lock: the reads of `fast`, and the way to
the slow path. -/
theorem cinv_goto (hfl : k.pc.flushing = false)
    (ht : pc.target = none) (hlk : pc.locked = false) (hsw : pc.inSwitch = false → k.pc.inSwitch = false)
    (hfast : ∀ S id, pc.fast = some (S, id) →
      tagGen id ≤ x.cpus.generation ∧ (tagGen id = x.cpus.generation → tag S = id))
    (hact : ∀ S id old, pc = .activeRead S id old → old ≠ 0)
    (hgen : ∀ S id old, pc = .genRead S id old →
      old ≠ 0 ∧ (x.cpus.active c = old → tagGen id = x.cpus.generation)) :
    CInv x tag inval c { k with pc := pc } := by
  obtain ⟨hone, hrange⟩ := h.entries { k with pc := pc } subset_rfl (by simp +contextual [ht])
  refine ⟨hone, hrange, ?_, ?_, hfast, hact, hgen, ?_, ?_, ?_⟩
  · exact fun hs S a he => h.runs (hsw hs) S a he
  · rintro S a rfl; cases ht
  · rintro S a (rfl | rfl | rfl) <;> cases hlk
  · rintro S a rfl; cases hlk
  · exact fun hp _ => h.cur hp hfl

/-- Only the generation, the width and the CPU's own words of the allocator count. -/
theorem cinv_congr (hg : y.cpus.generation = x.cpus.generation)
    (hb : y.alloc.bits = x.alloc.bits) (ha : y.cpus.active c = x.cpus.active c)
    (hf : y.cpus.flushPending c = x.cpus.flushPending c) (hr : y.alloc.reserved c = x.alloc.reserved c) :
    CInv y tag inval c k := by
  have hcur : ∀ S a, Cur x tag S a → Cur y tag S a := fun S a hc => ⟨hc.1.trans hg.symm, hc.2⟩
  have hruns : ∀ S a, Runs x tag c S a → Runs y tag c S a := by
    intro S a hr'
    unfold Runs
    rw [ha, hr]
    exact hr'
  refine ⟨h.one, ?_, fun hs S a he => hruns S a (h.runs hs S a he), ?_, ?_, h.activeRead, ?_, ?_, h.emptied, ?_⟩
  · rw [hb]; exact h.range
  · intro S a hp
    obtain ⟨h1, h2⟩ := h.swapped S a hp
    exact ⟨hruns S a h1, fun hfp => hcur S a (h2 (hf ▸ hfp))⟩
  · rw [hg]; exact h.fast
  · rw [hg, ha]; exact h.genRead
  · intro S a hp
    obtain ⟨h1, h2, h3⟩ := h.held S a hp
    exact ⟨hcur S a h1, ha.trans h2, hf.trans h3⟩
  · intro hfp hfl
    obtain ⟨h1, h2⟩ := h.cur (hf ▸ hfp) hfl
    exact ⟨fun S a he => hcur S a (h1 S a he), fun S a he => (h2 S a he).imp_left (hcur S a)⟩

/-- The CPU writes TTBR0: what was its target is what it runs. -/
theorem cinv_install (ht : k.pc.target = some (S, a)) (hr : Runs x tag c S a)
    (hc : x.cpus.flushPending c = false → Cur x tag S a) (hfl : k.pc.flushing = false) :
    CInv x tag inval c { k with pc := .run, ttbr := some (S, a) } := by
  obtain ⟨hone, hrange⟩ := h.entries { k with pc := .run, ttbr := some (S, a) } subset_rfl
    fun T b he => Or.inr (ht.trans (he.resolve_right nofun))
  refine ⟨hone, hrange, ?_, ?_, ?_, ?_, ?_, ?_, ?_, ?_⟩
  · intro _ T b he
    cases he
    exact hr
  · intro T b hp; cases hp
  · intro T id hp; cases hp
  · intro T id old hp; cases hp
  · intro T id old hp; cases hp
  · rintro T b (hp | hp | hp) <;> cases hp
  · intro T b hp; cases hp
  · intro hp _
    refine ⟨fun T b he => ?_, (h.cur hp hfl).2⟩
    cases he
    exact hc hp

theorem cinv_tlb
    (ht : ∀ a S, (a, S) ∈ tlb → (a, S) ∈ k.tlb ∨ k.ttbr = some (S, a)) :
    CInv x tag inval c { k with tlb := tlb } := by
  have hent : ∀ b T, Core.Entry { k with tlb := tlb } b T → k.Entry b T := by
    rintro b T (he | he | he)
    · exact (ht b T he).imp_right Or.inl
    · exact Or.inr (Or.inl he)
    · exact Or.inr (Or.inr he)
  refine ⟨fun b T T' h1 h2 => h.one b T T' (hent b T h1) (hent b T' h2), h.range, h.runs, h.swapped, h.fast,
    h.activeRead, h.genRead, h.held, h.emptied, fun hp hfl => ⟨(h.cur hp hfl).1, fun T b he => ?_⟩⟩
  rcases ht b T he with he | he
  · exact (h.cur hp hfl).2 T b he
  · exact Or.inl ((h.cur hp hfl).1 T b he)

end

/-! ## A new generation -/

/-- The counter moves on and `new_generation` follows (asid.rs:272). -/
def roll (x : Asids) : Asids :=
  newGeneration { x with cpus := { x.cpus with generation := (x.cpus.generation + 1) % 2 ^ 64 } }

section
variable (hA : AInv x tag)
include hA

theorem AInv.kept_owner (hk : x.kept c ≠ 0) : ∃ S, tag S = x.kept c ∧ Own x tag S := by
  unfold kept at hk ⊢
  split at hk
  case isTrue ha =>
    rw [if_pos ha]
    obtain ⟨S, h1, h2⟩ := hA.active c ha
    exact ⟨S, h1, by rw [h1]; exact ha, Or.inl h2⟩
  case isFalse ha =>
    rw [if_neg ha]
    obtain ⟨S, h1⟩ := hA.reserved c hk
    exact ⟨S, h1, by rw [h1]; exact hk, Or.inr ⟨c, h1.symm⟩⟩

theorem roll_spec :
    (roll x).cpus.generation = x.cpus.generation + 1 ∧ (∀ c, (roll x).cpus.active c = 0) ∧
    (∀ c, (roll x).cpus.flushPending c = true) ∧ (∀ c, (roll x).alloc.reserved c = x.kept c) ∧
    (roll x).alloc.bits = x.alloc.bits ∧ (roll x).alloc.MapInv ∧ 2 ^ x.alloc.bits ≤ (roll x).alloc.free + 9 ∧
    ∀ j, (roll x).alloc.used j = true ↔ j = 0 ∨ ∃ c, x.kept c ≠ 0 ∧ tagAsid (x.kept c) = j := by
  have hk : ∀ c, x.kept c ≠ 0 → tagAsid (x.kept c) < 2 ^ x.alloc.bits := by
    intro c hk
    obtain ⟨S, h1, h2⟩ := hA.kept_owner hk
    rw [← h1]
    exact (hA.tags S h2.1).2.2
  obtain ⟨h1, h2⟩ := newGeneration_spec
    { x with cpus := { x.cpus with generation := (x.cpus.generation + 1) % 2 ^ 64 } } hA.map.bits hk
  have hg := hA.gen
  exact ⟨h1.trans (Nat.mod_eq_of_lt (by omega)), h2⟩

/-- A space has its number after the roll exactly when a CPU keeps its tag. -/
theorem own_roll (h : Own (roll x) tag S) : (∃ c, x.kept c = tag S) ∧ Own x tag S := by
  obtain ⟨h1, _, _, h4, _⟩ := roll_spec hA
  obtain ⟨h0, hg | ⟨c, hc⟩⟩ := h
  · have := (hA.tags S h0).1
    omega
  · rw [h4 c] at hc
    refine ⟨⟨c, hc⟩, ?_⟩
    obtain ⟨S', hs1, hs2⟩ := hA.kept_owner (by rw [hc]; exact h0)
    have he : tag S = tag S' := by rw [hs1, hc]
    rw [hA.eq_of_tag hs2 he]
    exact hs2

theorem ainv_roll (hlt : x.cpus.generation + 1 < 2 ^ 48) : AInv (roll x) tag := by
  obtain ⟨h1, h2, h3, h4, h5, h6, h7, h8⟩ := roll_spec hA
  refine ⟨h6, by rw [h1]; omega, fun S hS => ?_, ?_, fun b => ?_, fun c hc => ?_, fun c hc => ?_, fun c _ => h2 c⟩
  · have := hA.tags S hS
    rw [h5]; omega
  · intro S S' o o' he
    exact hA.own S S' (own_roll hA o).2 (own_roll hA o').2 he
  · rw [h8 b]
    refine or_congr_right ⟨?_, ?_⟩
    · rintro ⟨c, hk, he⟩
      obtain ⟨S, hs1, hs2⟩ := hA.kept_owner hk
      exact ⟨S, ⟨hs2.1, Or.inr ⟨c, (h4 c).trans hs1.symm⟩⟩, by rw [hs1]; exact he⟩
    · rintro ⟨S, ho, he⟩
      obtain ⟨⟨c, hc⟩, _⟩ := own_roll hA ho
      exact ⟨c, by rw [hc]; exact ho.1, by rw [hc]; exact he⟩
  · rw [h4 c] at hc ⊢
    obtain ⟨S, hs1, _⟩ := hA.kept_owner hc
    exact ⟨S, hs1⟩
  · exact absurd (h2 c) hc

/-- Every CPU owes a flush now; what it runs moved from its `active` word into its reservation. -/
theorem cinv_roll (h : CInv x tag inval c k) (hlk : k.pc.locked = false) :
    CInv (roll x) tag inval c k := by
  obtain ⟨h1, h2, h3, h4, h5, h6, h7, h8⟩ := roll_spec hA
  have hruns : ∀ S a, Runs x tag c S a → Runs (roll x) tag c S a := by
    rintro S a ⟨r0, ra, rr⟩
    refine ⟨r0, ra, Or.inr ⟨h2 c, ?_⟩⟩
    rw [h4 c]
    unfold kept
    rcases rr with rr | ⟨rz, rr⟩
    · rw [if_pos (by rw [rr]; exact r0), rr]
    · rw [if_neg (by simp [rz]), rr]
  refine ⟨h.one, by rw [h5]; exact h.range, fun hs S a he => hruns S a (h.runs hs S a he), fun S a hp => ?_,
    fun S id hp => ?_, h.activeRead, fun S id old hp => ?_, ?_, h.emptied, fun hp => ?_⟩
  · refine ⟨hruns S a (h.swapped S a hp).1, fun hp => ?_⟩
    rw [h3 c] at hp; cases hp
  · have := (h.fast S id hp).1
    exact ⟨by omega, fun he => by omega⟩
  · refine ⟨(h.genRead S id old hp).1, fun he => ?_⟩
    rw [h2 c] at he
    exact absurd he.symm (h.genRead S id old hp).1
  · rintro S a (hp | hp | hp) <;> rw [hp] at hlk <;> cases hlk
  · rw [h3 c] at hp; cases hp

/-! ## A space takes a tag of this generation -/

section retag
variable [DecidableEq Space]

/-- `x` becomes `y` while the tag of `S`, of another generation or empty, becomes `id`: a number that
`S` keeps or that nobody has. Every reservation of the old tag moves to the new one. -/
structure Retag (x y : Asids) (tag : Space → Nat) (S : Space) (id : Nat) : Prop where
  gen : y.cpus.generation = x.cpus.generation
  bits : y.alloc.bits = x.alloc.bits
  active : y.cpus.active = x.cpus.active
  flush : y.cpus.flushPending = x.cpus.flushPending
  map : y.alloc.MapInv
  old : tagGen (tag S) ≠ x.cpus.generation
  current : tagGen id = x.cpus.generation
  range : 1 ≤ tagAsid id ∧ tagAsid id < 2 ^ x.alloc.bits
  reserved : ∀ c, y.alloc.reserved c =
    if x.alloc.reserved c = tag S ∧ tag S ≠ 0 then id else x.alloc.reserved c
  keeps : Own x tag S → tagAsid (tag S) = tagAsid id
  alone : ∀ T, T ≠ S → Own x tag T → tagAsid (tag T) ≠ tagAsid id
  used : ∀ j, y.alloc.used j = true ↔ x.alloc.used j = true ∨ j = tagAsid id

variable {id : Nat}

theorem Retag.own_of_ne (hR : Retag x y tag S id) (hT : T ≠ S) :
    Own y (update tag S id) T ↔ Own x tag T := by
  unfold Own
  rw [update_of_ne hT, hR.gen]
  refine and_congr_right fun h0 => ?_
  constructor
  · rintro (hg | ⟨c, hc⟩)
    · exact Or.inl hg
    · rw [hR.reserved c] at hc
      split at hc
      · exact Or.inl (hc ▸ hR.current)
      · exact Or.inr ⟨c, hc⟩
  · rintro (hg | ⟨c, hc⟩)
    · exact Or.inl hg
    · refine Or.inr ⟨c, ?_⟩
      have hne : tag S ≠ tag T := fun he => hT (hA.eq_of_tag ⟨he ▸ h0, Or.inr ⟨c, hc.trans he.symm⟩⟩ he.symm)
      rw [hR.reserved c, if_neg (by rw [hc]; exact fun h => hne h.1.symm), hc]

theorem Retag.own_self (hR : Retag x y tag S id) : Own y (update tag S id) S := by
  refine ⟨?_, Or.inl (by rw [update_self, hR.current, hR.gen])⟩
  rw [update_self]
  rintro rfl
  have := hR.current
  have := hA.gen
  rw [tagGen_zero] at *
  omega

theorem ainv_retag (hR : Retag x y tag S id) : AInv y (update tag S id) := by
  refine ⟨hR.map, by rw [hR.gen]; exact hA.gen, fun T hT => ?_, fun T T' o o' he => ?_, fun b => ?_,
    fun c hc => ?_, fun c hc => ?_, by rw [hR.flush, hR.active]; exact hA.owes⟩
  · by_cases hTS : T = S
    · subst hTS
      rw [update_self, hR.gen, hR.bits, hR.current]
      exact ⟨le_rfl, hR.range⟩
    · rw [update_of_ne hTS] at hT ⊢
      rw [hR.gen, hR.bits]
      exact hA.tags T hT
  · by_cases hTS : T = S <;> by_cases hTS' : T' = S
    · rw [hTS, hTS']
    · subst hTS
      rw [update_self, update_of_ne hTS'] at he
      exact absurd he.symm (hR.alone T' hTS' ((hR.own_of_ne hA hTS').1 o'))
    · subst hTS'
      rw [update_self, update_of_ne hTS] at he
      exact absurd he (hR.alone T hTS ((hR.own_of_ne hA hTS).1 o))
    · rw [update_of_ne hTS, update_of_ne hTS'] at he
      exact hA.own T T' ((hR.own_of_ne hA hTS).1 o) ((hR.own_of_ne hA hTS').1 o') he
  · rw [hR.used b, hA.used b]
    constructor
    · rintro ((h0 | ⟨T, ho, he⟩) | rfl)
      · exact Or.inl h0
      · refine Or.inr ?_
        by_cases hTS : T = S
        · subst hTS
          exact ⟨T, hR.own_self hA, by rw [update_self, ← hR.keeps ho, he]⟩
        · exact ⟨T, (hR.own_of_ne hA hTS).2 ho, by rw [update_of_ne hTS, he]⟩
      · exact Or.inr ⟨S, hR.own_self hA, by rw [update_self]⟩
    · rintro (h0 | ⟨T, ho, he⟩)
      · exact Or.inl (Or.inl h0)
      · by_cases hTS : T = S
        · subst hTS
          rw [update_self] at he
          exact Or.inr he.symm
        · rw [update_of_ne hTS] at he
          exact Or.inl (Or.inr ⟨T, (hR.own_of_ne hA hTS).1 ho, he⟩)
  · rw [hR.reserved c] at hc ⊢
    split at hc
    case isTrue h => exact ⟨S, by rw [if_pos h, update_self]⟩
    case isFalse h =>
      rw [if_neg h]
      obtain ⟨T, hT⟩ := hA.reserved c hc
      have hTS : T ≠ S := by
        rintro rfl
        exact h ⟨hT.symm, by rw [hT]; exact hc⟩
      exact ⟨T, by rw [update_of_ne hTS, hT]⟩
  · rw [hR.active] at hc ⊢
    obtain ⟨T, hT, hg⟩ := hA.active c hc
    have hTS : T ≠ S := by
      rintro rfl
      exact hR.old hg
    exact ⟨T, by rw [update_of_ne hTS, hT], by rw [update_of_ne hTS, hR.gen]; exact hg⟩

theorem cinv_retag (hR : Retag x y tag S id) (h : CInv x tag inval c k) :
    CInv y (update tag S id) inval c k := by
  have hcur : ∀ T b, Cur x tag T b → Cur y (update tag S id) T b := by
    rintro T b ⟨h1, h2⟩
    have hTS : T ≠ S := by rintro rfl; exact hR.old h1
    exact ⟨by rw [update_of_ne hTS, hR.gen]; exact h1, by rw [update_of_ne hTS]; exact h2⟩
  -- a CPU that runs `S` keeps its number: the old tag is in its reservation, which moved along
  have hruns : ∀ T b, Runs x tag c T b → Runs y (update tag S id) c T b := by
    intro T b hr
    have ho := hr.own hA
    obtain ⟨r0, ra, rr⟩ := hr
    by_cases hTS : T = S
    · subst hTS
      have hown := hR.own_self hA
      refine ⟨hown.1, by rw [update_self, ← hR.keeps ho, ra], Or.inr ?_⟩
      rcases rr with rr | ⟨rz, rr⟩
      · obtain ⟨T', h1, h2⟩ := hA.active c (by rw [rr]; exact r0)
        rw [h1, rr] at h2
        exact absurd h2 hR.old
      · exact ⟨by rw [hR.active, rz], by rw [hR.reserved c, if_pos ⟨rr, r0⟩, update_self]⟩
    · unfold Runs
      rw [update_of_ne hTS, hR.active, hR.reserved c]
      refine ⟨r0, ra, rr.imp_right fun ⟨rz, rr⟩ => ⟨rz, ?_⟩⟩
      have hne : tag S ≠ tag T := fun he => hTS (hA.eq_of_tag ho he).symm
      rw [if_neg (by rw [rr]; exact fun h => hne h.1.symm), rr]
  refine ⟨h.one, by rw [hR.bits]; exact h.range, fun hs T b he => hruns T b (h.runs hs T b he), fun T b hp => ?_,
    fun T i hp => ?_, h.activeRead, by rw [hR.gen, hR.active]; exact h.genRead, fun T b hp => ?_, h.emptied,
    fun hp hfl => ?_⟩
  · obtain ⟨h1, h2⟩ := h.swapped T b hp
    exact ⟨hruns T b h1, fun hfp => hcur T b (h2 (by rw [← hR.flush]; exact hfp))⟩
  · obtain ⟨h1, h2⟩ := h.fast T i hp
    rw [hR.gen]
    refine ⟨h1, fun he => ?_⟩
    have hti := h2 he
    have hTS : T ≠ S := by
      rintro rfl
      exact hR.old (by rw [hti]; exact he)
    rw [update_of_ne hTS]
    exact hti
  · obtain ⟨h1, h2, h3⟩ := h.held T b hp
    have hTS : T ≠ S := by rintro rfl; exact hR.old h1.1
    exact ⟨hcur T b h1, by rw [hR.active, update_of_ne hTS, h2], by rw [hR.flush]; exact h3⟩
  · obtain ⟨h1, h2⟩ := h.cur (by rw [← hR.flush]; exact hp) hfl
    exact ⟨fun T b he => hcur T b (h1 T b he), fun T b he => (h2 T b he).imp_left (hcur T b)⟩

end retag

/-- `adopt` finds a reservation of the old tag. -/
theorem retag_adopt (hold : tagGen (tag S) ≠ x.cpus.generation) {id : Nat}
    (h : x.adopt (tag S) = some (id, y)) : Retag x y tag S id := by
  unfold adopt at h
  split at h
  case isTrue => cases h
  case isFalse h0 =>
    split at h
    case isFalse => cases h
    case isTrue hr =>
      cases h
      have ha := tagAsid_lt (tag S)
      have hg := hA.gen
      obtain ⟨c0, hc0⟩ := hr
      have hown : Own x tag S := ⟨h0, Or.inr ⟨c0, hc0⟩⟩
      have hnum : tagAsid (mkTag x.cpus.generation (tagAsid (tag S))) = tagAsid (tag S) := tagAsid_mkTag ha
      refine ⟨rfl, rfl, rfl, rfl, ⟨hA.map.bits, hA.map.zero, hA.map.above, hA.map.full, hA.map.free, hA.map.next⟩,
        hold, ?_, ?_, fun c => ?_, fun _ => hnum.symm, fun T hT ho he => ?_, fun j => ?_⟩
      · rw [tagGen_mkTag ha]; omega
      · rw [hnum]; exact (hA.tags S h0).2
      · simp only [h0, ne_eq, not_false_eq_true, and_true]
      · exact hT (hA.own T S ho hown (by rw [he, hnum]))
      · simp only [hnum]
        constructor
        · exact Or.inl
        · rintro (hu | rfl)
          · exact hu
          · exact (hA.used _).2 (Or.inr ⟨S, hown, rfl⟩)

/-- With no reservation of the old tag the space gets a number nobody has. -/
theorem retag_fresh (hold : tagGen (tag S) ≠ x.cpus.generation) (hfree : 0 < x.alloc.free)
    (hno : x.adopt (tag S) = none) {id : Nat} (h : x.fresh = some (id, y)) : Retag x y tag S id := by
  obtain ⟨i, b, h1, h2, h3, h4, h5, h6, h7, _, h8⟩ := take_spec hA.map hfree
  simp only [fresh, h1] at h
  obtain ⟨rfl, rfl⟩ := h
  have hl := hA.map.limit
  have hi : i < 2 ^ 16 := by omega
  have hg := hA.gen
  have hunkept : ¬ Own x tag S := by
    rintro ⟨h0, hg' | ⟨c, hc⟩⟩
    · exact hold hg'
    · unfold adopt at hno
      rw [if_neg h0, if_pos ⟨c, hc⟩] at hno
      cases hno
  refine ⟨rfl, h6, rfl, rfl, h5, hold, by rw [tagGen_mkTag hi]; omega, by rw [tagAsid_mkTag hi]; omega, fun c => ?_,
    fun ho => absurd ho hunkept, fun T _ ho he => ?_, fun j => ?_⟩
  · simp only [h7]
    rw [if_neg]
    rintro ⟨hc, h0⟩
    exact hunkept ⟨h0, Or.inr ⟨c, hc⟩⟩
  · rw [tagAsid_mkTag hi] at he
    have := (hA.used i).2 (Or.inr ⟨T, ho, he⟩)
    rw [h4] at this
    cases this
  · simp only [h8 j, tagAsid_mkTag hi]
    by_cases hj : j = i
    · simp [hj]
    · simp [hj]

/-! ## Activation -/

omit hA in
/-- `activate` by its parts: the tag it ends with, in a state the CPU's own words are then put into. -/
theorem activate_cases {id : Nat} (h : x.activate c id = some (act, y)) :
    ∃ z : Asids, ((tagGen id = x.cpus.generation ∧ act.id = id ∧ z = x) ∨
        (tagGen id ≠ x.cpus.generation ∧ x.newContext id = some (act.id, z))) ∧
      act.flushTlb = z.cpus.flushPending c ∧
      y = { z with cpus := { z.cpus with flushPending := update z.cpus.flushPending c false,
                                         active := update z.cpus.active c act.id } } := by
  unfold activate at h
  split at h
  case isTrue hg =>
    cases hn : x.newContext id with
    | none => simp [hn] at h
    | some r =>
      obtain ⟨id', z⟩ := r
      simp only [hn] at h
      obtain ⟨rfl, rfl⟩ := h
      exact ⟨z, Or.inr ⟨hg, rfl⟩, rfl, rfl⟩
  case isFalse hg =>
    obtain ⟨rfl, rfl⟩ := h
    exact ⟨x, Or.inl ⟨by simpa using hg, rfl, rfl⟩, rfl, rfl⟩

omit hA in
/-- With no number left, what the next generation gives. -/
theorem newContext_roll (ha : x.adopt old = none) (hf : x.alloc.free = 0) :
    x.newContext old = ((roll x).adopt old).or (roll x).fresh := by
  unfold newContext
  rw [ha]
  simp only [hf]
  rw [show newGeneration _ = roll x from rfl]
  cases (roll x).adopt old with
  | some r => rfl
  | none => rfl

omit hA in
/-- `new_context` by its parts: a number adopted or taken, in this generation or in the next. -/
theorem newContext_cases {id : Nat} (h : x.newContext old = some (id, y)) :
    x.adopt old = some (id, y) ∨ (x.adopt old = none ∧ 0 < x.alloc.free ∧ x.fresh = some (id, y)) ∨
      (x.alloc.free = 0 ∧ ((roll x).adopt old = some (id, y) ∨
        ((roll x).adopt old = none ∧ (roll x).fresh = some (id, y)))) := by
  cases ha : x.adopt old with
  | some r =>
    rw [newContext, ha] at h
    exact Or.inl h
  | none =>
    by_cases hf : x.alloc.free = 0
    · rw [newContext_roll ha hf] at h
      refine Or.inr (Or.inr ⟨hf, ?_⟩)
      cases hb : (roll x).adopt old with
      | some r => rw [hb] at h; exact Or.inl h
      | none => rw [hb] at h; exact Or.inr ⟨rfl, h⟩
    · rw [newContext, ha] at h
      simp only [hf] at h
      exact Or.inr (Or.inl ⟨rfl, by omega, h⟩)

/-- The two invariants of the allocator and of the CPUs that hold no lock. -/
def GInv (x : Asids) (tag : Space → Nat) (inval : Nat → Prop) (core : Cpu → Core Space) : Prop :=
  AInv x tag ∧ ∀ c, CInv x tag inval c (core c)

variable {core : Cpu → Core Space} {r : Option Nat} {inval' : Nat → Prop}

section activation
variable [DecidableEq Space]

omit hA in
/-- Before the CPU's own words follow, `activate` keeps the invariants and leaves the tag current. -/
theorem ginv_newContext (hG : GInv x tag inval core) (hlk : ∀ c, (core c).pc.locked = false) {id : Nat}
    (hold : tagGen (tag S) ≠ x.cpus.generation) (h : x.newContext (tag S) = some (id, y))
    (hlt : y.cpus.generation < 2 ^ 48) :
    GInv y (update tag S id) inval core ∧ tagGen id = y.cpus.generation := by
  obtain ⟨hA, hC⟩ := hG
  have retagged : ∀ z, AInv z tag → (∀ c, CInv z tag inval c (core c)) → Retag z y tag S id →
      GInv y (update tag S id) inval core ∧ tagGen id = y.cpus.generation :=
    fun z hA hC hR => ⟨⟨ainv_retag hA hR, fun c => cinv_retag hA hR (hC c)⟩, hR.current.trans hR.gen.symm⟩
  rcases newContext_cases h with ha | ⟨ha, hf, hfr⟩ | ⟨hf, hroll⟩
  · exact retagged x hA hC (retag_adopt hA hold ha)
  · exact retagged x hA hC (retag_fresh hA hold hf ha hfr)
  · -- a generation began; the tag is of an earlier one than that too
    obtain ⟨r1, _, _, _, _, _, r7, _⟩ := roll_spec hA
    have hl := hA.map.limit
    have hgen : y.cpus.generation = (roll x).cpus.generation := by
      rcases hroll with ha | ⟨_, hfr⟩
      · unfold adopt at ha
        split at ha
        · cases ha
        · split at ha
          · cases ha; rfl
          · cases ha
      · unfold fresh at hfr
        cases ht : (roll x).alloc.take with
        | none => simp [ht] at hfr
        | some r =>
          simp only [ht, bind_eq_bind, bind_some, some.injEq, Prod.mk.injEq] at hfr
          rw [← hfr.2]
    have hA' := ainv_roll hA (by rw [hgen, r1] at hlt; exact hlt)
    have hC' : ∀ c, CInv (roll x) tag inval c (core c) := fun c => cinv_roll hA (hC c) (hlk c)
    have hold' : tagGen (tag S) ≠ (roll x).cpus.generation := by
      by_cases h0 : tag S = 0
      · rw [h0, tagGen_zero]; omega
      · have := (hA.tags S h0).1; omega
    rcases hroll with ha | ⟨ha, hfr⟩
    · exact retagged _ hA' hC' (retag_adopt hA' hold' ha)
    · exact retagged _ hA' hC' (retag_fresh hA' hold' (by omega) ha hfr)

end activation

/-- The CPU's own words after an activation of `S`, whose tag is current. -/
def settle (x : Asids) (c : Cpu) (id : Nat) : Asids :=
  { x with cpus := { x.cpus with flushPending := update x.cpus.flushPending c false,
                                 active := update x.cpus.active c id } }

theorem ainv_settle (hS : tagGen (tag S) = x.cpus.generation) :
    AInv (settle x c (tag S)) tag := by
  refine ⟨hA.map, hA.gen, hA.tags, hA.own, hA.used, hA.reserved, fun d hd => ?_, fun d hd => ?_⟩
  · by_cases hdc : d = c
    · subst hdc
      exact ⟨S, by simp [settle], hS⟩
    · simp only [settle, update_of_ne hdc] at hd ⊢
      exact hA.active d hd
  · by_cases hdc : d = c
    · subst hdc; simp [settle] at hd
    · simp only [settle, update_of_ne hdc] at hd ⊢
      exact hA.owes d hd

section settled
variable (h : CInv x tag inval c k) (hf : x.cpus.flushPending c = false)
  (hfl : k.pc.flushing = false) (hgone : ∀ b, inval b → x.alloc.used b = false)
include h hf hfl hgone

/-- A CPU that owes no flush holds nothing under the number of a current tag but the tag's space. -/
theorem CInv.entry_eq (hS : Cur x tag S a) (he : (a, T) ∈ k.tlb ∨ k.ttbr = some (T, a)) : T = S := by
  obtain ⟨hc1, hc2⟩ := h.cur hf hfl
  have hcur : Cur x tag T a := by
    rcases he with he | he
    · refine (hc2 T a he).resolve_right fun hi => ?_
      have hu := (hA.used a).2 (Or.inr ⟨S, hS.own hA, hS.2⟩)
      rw [hgone a hi] at hu
      cases hu
    · exact hc1 T a he
  exact hA.own T S (hcur.own hA) (hS.own hA) (hcur.2.trans hS.2.symm)

/-- A new target beside what the CPU holds. -/
theorem CInv.one_target (hS : Cur x tag S a) (ht : pc.target = some (S, a)) {b : Nat} {T' : Space}
    (h1 : Core.Entry { k with pc := pc } b T) (h2 : Core.Entry { k with pc := pc } b T') : T = T' := by
  have split : ∀ {T}, Core.Entry { k with pc := pc } b T →
      ((b, T) ∈ k.tlb ∨ k.ttbr = some (T, b)) ∨ (b = a ∧ T = S) := by
    rintro T (he | he | he)
    · exact Or.inl (Or.inl he)
    · exact Or.inl (Or.inr he)
    · rw [ht] at he
      cases he
      exact Or.inr ⟨rfl, rfl⟩
  have toEntry : ∀ {T}, ((b, T) ∈ k.tlb ∨ k.ttbr = some (T, b)) → k.Entry b T :=
    fun he => he.imp_right Or.inl
  rcases split h1 with g1 | ⟨rfl, rfl⟩ <;> rcases split h2 with g2 | ⟨h2b, rfl⟩
  · exact h.one b T T' (toEntry g1) (toEntry g2)
  · subst h2b; exact h.entry_eq hA hf hfl hgone hS g1
  · exact (h.entry_eq hA hf hfl hgone hS g2).symm
  · rfl

/-- Everything the CPU holds is current, and so is the tag it has its words set to: it is on its way to install it. -/
theorem CInv.settled (hS : Cur x tag S a) (hpc : pc = .activated S a ∨ pc = .swapped S a) :
    CInv (settle x c (tag S)) tag inval c { k with pc := pc } := by
  have h0 := hS.ne_zero hA
  have ht : pc.target = some (S, a) := by rcases hpc with rfl | rfl <;> rfl
  have hact : (settle x c (tag S)).cpus.active c = tag S := by simp [settle]
  refine ⟨fun b T T' => h.one_target hA hf hfl hgone hS ht, fun b T he => ?_, fun hs => ?_, fun T b hq => ?_,
    fun T id hq => ?_, fun T id old hq => ?_, fun T id old hq => ?_, fun T b hq => ?_, fun T b hq => ?_,
    fun _ _ => h.cur hf hfl⟩
  · rcases he with he | he
    · exact h.range b T (Or.inl he)
    · cases ht.symm.trans he
      rw [← hS.2]
      exact (hA.tags S h0).2
  · rcases hpc with rfl | rfl <;> cases hs
  · rcases hpc with rfl | rfl <;> cases hq
    exact ⟨⟨h0, hS.2, Or.inl hact⟩, fun _ => hS⟩
  · rcases hpc with rfl | rfl <;> cases hq
  · rcases hpc with rfl | rfl <;> cases hq
  · rcases hpc with rfl | rfl <;> cases hq
  · rcases hpc with rfl | rfl <;> rcases hq with hq | hq | hq <;> cases hq
    exact ⟨hS, hact, by simp [settle]⟩
  · rcases hpc with rfl | rfl <;> cases hq

end settled

/-- The CPU that activated `S`: with a flush owed it holds on to what it has until the flush; without
one everything it holds is current, and so is the tag it installs. -/
theorem cinv_settle (h : CInv x tag inval c k) (hp : k.pc = .slow S)
    (hgone : ∀ b, inval b → x.alloc.used b = false) (hS : tagGen (tag S) = x.cpus.generation) :
    CInv (settle x c (tag S)) tag inval c
      { k with pc := if x.cpus.flushPending c then .owing S (tagAsid (tag S)) else .activated S (tagAsid (tag S)) } := by
  cases hf : x.cpus.flushPending c with
  | true =>
    obtain ⟨hone, hrange⟩ := h.entries { k with pc := .owing S (tagAsid (tag S)) } subset_rfl
      (by simp +contextual [Pc.target])
    refine ⟨hone, hrange, fun hs => ?_, fun T b hq => ?_, fun T id hq => ?_, fun T id old hq => ?_,
      fun T id old hq => ?_, ?_, fun T b hq => ?_, fun _ hq => ?_⟩
    · cases hs
    · cases hq
    · cases hq
    · cases hq
    · cases hq
    · rintro T b (hq | hq | hq) <;> cases hq
      exact ⟨⟨hS, rfl⟩, by simp [settle], by simp [settle]⟩
    · cases hq
    · cases hq
  | false =>
    exact h.settled hA hf (by rw [hp]; rfl) hgone ⟨hS, rfl⟩ (.inl rfl)

/-- The compare-and-swap passed: the `active` word was not emptied since it was read, so the tag the CPU
read is still the space's and current. -/
theorem cinv_swap (h : CInv x tag inval c k) {id : Nat} (hp : k.pc = .genRead S id (x.cpus.active c))
    (hgone : ∀ b, inval b → x.alloc.used b = false) :
    tag S = id ∧ tagGen (tag S) = x.cpus.generation ∧ x.cpus.flushPending c = false ∧
      CInv (settle x c (tag S)) tag inval c { k with pc := .swapped S (tagAsid (tag S)) } := by
  obtain ⟨hne, hgen⟩ := h.genRead S id _ hp
  have hid : tag S = id := (h.fast S id (by rw [hp]; rfl)).2 (hgen rfl)
  have hS : tagGen (tag S) = x.cpus.generation := by rw [hid]; exact hgen rfl
  have hf : x.cpus.flushPending c = false := by
    cases hf : x.cpus.flushPending c with
    | false => rfl
    | true => exact absurd (hA.owes c hf) hne
  exact ⟨hid, hS, hf, h.settled hA hf (by rw [hp]; rfl) hgone ⟨hS, rfl⟩ (.inr rfl)⟩

/-! ## Release -/

/-- `release` of the tag of `S`. -/
structure Released (x y : Asids) (tag : Space → Nat) (S : Space) : Prop where
  gen : y.cpus.generation = x.cpus.generation
  bits : y.alloc.bits = x.alloc.bits
  flush : y.cpus.flushPending = x.cpus.flushPending
  map : y.alloc.MapInv
  active : ∀ c, y.cpus.active c = if x.cpus.active c = tag S then 0 else x.cpus.active c
  reserved : ∀ c, y.alloc.reserved c = if x.alloc.reserved c = tag S then 0 else x.alloc.reserved c
  used : ∀ j, y.alloc.used j = true ↔ x.alloc.used j = true ∧ ¬ (Own x tag S ∧ j = tagAsid (tag S))

theorem release_spec (h : x.release (tag S) = some (r, y)) :
    Released x y tag S ∧ (r = none → ¬ Own x tag S) ∧
      ∀ b, r = some b → b = tagAsid (tag S) ∧ y.alloc.used b = false := by
  unfold release at h
  split at h
  case isTrue h0 =>
    cases h
    have hno : ¬ Own x tag S := fun ho => ho.1 h0
    refine ⟨⟨rfl, rfl, rfl, hA.map, fun c => ?_, fun c => ?_, fun j => ?_⟩, fun _ => hno, by simp⟩
    · rw [h0]; split <;> simp_all
    · rw [h0]; split <;> simp_all
    · simp [hno]
  case isFalse h0 =>
    have hm : ({ x.alloc with reserved := fun c => if x.alloc.reserved c = tag S then 0 else x.alloc.reserved c } :
        AsidAllocator).MapInv := ⟨hA.map.bits, hA.map.zero, hA.map.above, hA.map.full, hA.map.free, hA.map.next⟩
    simp only at h
    split at h
    case isTrue ho =>
      have hown : Own x tag S := ⟨h0, ho⟩
      obtain ⟨_, t2, t3⟩ := hA.tags S h0
      cases hu : unset
          { x.alloc with reserved := fun c => if x.alloc.reserved c = tag S then 0 else x.alloc.reserved c }
          (tagAsid (tag S)) with
      | none => simp [hu] at h
      | some al =>
        simp only [hu] at h
        obtain ⟨rfl, rfl⟩ := h
        obtain ⟨u1, u2, u3, u4⟩ := mapInv_unset hm (by omega) t3 hu
        refine ⟨⟨rfl, u2, rfl, u1, fun c => rfl, fun c => by simp only [u3], fun j => ?_⟩, (by simp),
          fun b hb => ?_⟩
        · simp only [u4]
          by_cases hj : j = tagAsid (tag S)
          · subst hj; simp [hown]
          · simp [hj]
        · cases hb
          exact ⟨rfl, by simp [u4]⟩
    case isFalse ho =>
      cases h
      have hno : ¬ Own x tag S := fun hown => ho hown.2
      exact ⟨⟨rfl, rfl, rfl, hm, fun c => rfl, fun c => rfl, fun j => by simp [hno]⟩, fun _ => hno, by simp⟩

section release
variable [DecidableEq Space]

theorem Released.own_iff (hR : Released x y tag S) :
    Own y (update tag S 0) T ↔ T ≠ S ∧ Own x tag T := by
  by_cases hT : T = S
  · subst hT; simp [Own]
  · simp only [hT, ne_eq, not_false_eq_true, true_and]
    unfold Own
    rw [update_of_ne hT, hR.gen]
    refine and_congr_right fun h0 => or_congr_right ⟨?_, ?_⟩
    · rintro ⟨c, hc⟩
      rw [hR.reserved c] at hc
      split at hc
      · exact absurd hc.symm h0
      · exact ⟨c, hc⟩
    · rintro ⟨c, hc⟩
      refine ⟨c, ?_⟩
      have hne : tag S ≠ tag T := fun he => hT (hA.eq_of_tag ⟨h0, Or.inr ⟨c, hc⟩⟩ he).symm
      rw [hR.reserved c, hc, if_neg (Ne.symm hne)]

theorem ainv_release (hR : Released x y tag S) : AInv y (update tag S 0) := by
  refine ⟨hR.map, by rw [hR.gen]; exact hA.gen, fun T hT => ?_, fun T T' o o' he => ?_, fun b => ?_,
    fun c hc => ?_, fun c hc => ?_, fun c hc => ?_⟩
  · have hTS : T ≠ S := by rintro rfl; simp at hT
    rw [update_of_ne hTS] at hT ⊢
    rw [hR.gen, hR.bits]
    exact hA.tags T hT
  · obtain ⟨n1, o1⟩ := (hR.own_iff hA).1 o
    obtain ⟨n2, o2⟩ := (hR.own_iff hA).1 o'
    rw [update_of_ne n1, update_of_ne n2] at he
    exact hA.own T T' o1 o2 he
  · rw [hR.used b, hA.used b]
    constructor
    · rintro ⟨h0 | ⟨T, ho, he⟩, hn⟩
      · exact Or.inl h0
      · have hTS : T ≠ S := by rintro rfl; exact hn ⟨ho, he.symm⟩
        exact Or.inr ⟨T, (hR.own_iff hA).2 ⟨hTS, ho⟩, by rw [update_of_ne hTS]; exact he⟩
    · rintro (rfl | ⟨T, ho, he⟩)
      · refine ⟨Or.inl rfl, fun ⟨ho, he⟩ => ?_⟩
        have := (hA.tags S ho.1).2.1
        omega
      · obtain ⟨hTS, ho⟩ := (hR.own_iff hA).1 ho
        rw [update_of_ne hTS] at he
        exact ⟨Or.inr ⟨T, ho, he⟩, fun ⟨hoS, heS⟩ => hTS (hA.own T S ho hoS (he.trans heS))⟩
  · rw [hR.reserved c] at hc ⊢
    split at hc
    case isTrue => exact absurd rfl hc
    case isFalse hne =>
      obtain ⟨T, hT⟩ := hA.reserved c hc
      have hTS : T ≠ S := by rintro rfl; exact hne hT.symm
      exact ⟨T, by rw [update_of_ne hTS, if_neg hne, hT]⟩
  · rw [hR.active c] at hc ⊢
    split at hc
    case isTrue => exact absurd rfl hc
    case isFalse hne =>
      obtain ⟨T, hT, hg⟩ := hA.active c hc
      have hTS : T ≠ S := by rintro rfl; exact hne hT.symm
      exact ⟨T, by rw [update_of_ne hTS, if_neg hne, hT], by rw [update_of_ne hTS, hR.gen]; exact hg⟩
  · rw [hR.flush] at hc
    rw [hR.active c, hA.owes c hc, ite_self]

/-- The CPUs, none of which runs `S` or is on its way to it: what a TLB still holds of `S` is under the
number that is invalidated next. -/
theorem cinv_release (hR : Released x y tag S) (h : CInv x tag inval c k)
    (hrun : ∀ a, k.ttbr ≠ some (S, a)) (hgo : k.pc.goal ≠ some S)
    (hi : ∀ b, inval b → inval' b) (hnew : Own x tag S → inval' (tagAsid (tag S))) :
    CInv y (update tag S 0) inval' c k := by
  have hcur : ∀ {T b}, T ≠ S → Cur x tag T b → Cur y (update tag S 0) T b := by
    rintro T b hTS ⟨h1, h2⟩
    exact ⟨by rw [update_of_ne hTS, hR.gen]; exact h1, by rw [update_of_ne hTS]; exact h2⟩
  have hact : ∀ {T}, T ≠ S → Own x tag T → x.cpus.active c = tag T → y.cpus.active c = tag T := by
    intro T hTS ho ha
    rw [hR.active c, ha, if_neg fun he => hTS (hA.eq_of_tag ho he.symm).symm]
  have hruns : ∀ {T b}, T ≠ S → Runs x tag c T b → Runs y (update tag S 0) c T b := by
    intro T b hTS hr
    have ho := hr.own hA
    obtain ⟨r0, ra, rr⟩ := hr
    refine ⟨by rw [update_of_ne hTS]; exact r0, by rw [update_of_ne hTS]; exact ra, ?_⟩
    rw [update_of_ne hTS]
    rcases rr with rr | ⟨rz, rr⟩
    · exact Or.inl (hact hTS ho rr)
    · refine Or.inr ⟨by rw [hR.active c, rz, ite_self], ?_⟩
      rw [hR.reserved c, rr, if_neg fun he => hTS (hA.eq_of_tag ho he.symm).symm]
  have hgoal : ∀ T, k.pc.goal = some T → T ≠ S := by
    rintro T hT rfl
    exact hgo hT
  refine ⟨h.one, by rw [hR.bits]; exact h.range, fun hs T b he => ?_, fun T b hp => ?_, fun T id hp => ?_,
    h.activeRead, fun T id old hp => ?_, fun T b hp => ?_, h.emptied, fun hp hfl => ?_⟩
  · exact hruns (by rintro rfl; exact hrun b he) (h.runs hs T b he)
  · have hTS := hgoal T (by rw [hp]; rfl)
    obtain ⟨h1, h2⟩ := h.swapped T b hp
    exact ⟨hruns hTS h1, fun hf => hcur hTS (h2 (by rw [← hR.flush]; exact hf))⟩
  · have hTS : T ≠ S := by
      refine hgoal T ?_
      cases hpc : k.pc <;> rw [hpc] at hp <;> simp_all [Pc.fast, Pc.goal]
    rw [hR.gen, update_of_ne hTS]
    exact h.fast T id hp
  · obtain ⟨h1, h2⟩ := h.genRead T id old hp
    refine ⟨h1, fun he => ?_⟩
    rw [hR.active c] at he
    split at he
    · exact absurd he.symm h1
    · rw [hR.gen]; exact h2 he
  · have hTS : T ≠ S := by
      refine hgoal T ?_
      rcases hp with hp | hp | hp <;> rw [hp] <;> rfl
    obtain ⟨h1, h2, h3⟩ := h.held T b hp
    refine ⟨hcur hTS h1, ?_, by rw [hR.flush]; exact h3⟩
    rw [update_of_ne hTS]
    exact hact hTS (h1.own hA) h2
  · obtain ⟨h1, h2⟩ := h.cur (by rw [← hR.flush]; exact hp) hfl
    refine ⟨fun T b he => hcur (by rintro rfl; exact hrun b he) (h1 T b he), fun T b he => ?_⟩
    rcases h2 T b he with hc | hc
    · by_cases hTS : T = S
      · subst hTS
        rw [← hc.2]
        exact Or.inr (hnew (hc.own hA))
      · exact Or.inl (hcur hTS hc)
    · exact Or.inr (hi b hc)

end release

end

/-! ## The system -/

/-- A number that is released and not yet invalidated. -/
def Sys.stale (s : Sys Space) (a : Nat) : Prop := ∃ c, (s.core c).pc = .released a

structure Inv (s : Sys Space) : Prop where
  asids : AInv s.asids s.tag
  core : ∀ c, CInv s.asids s.tag s.stale c (s.core c)
  lock : ∀ c, (s.core c).pc.locked = true → s.lock = some c
  gone : ∀ a, s.stale a → s.asids.alloc.used a = false

variable {s s' : Sys Space} {asids : Asids}

theorem cinv_inval (h : CInv x tag inval c k) (hi : ∀ b, inval b → inval' b) :
    CInv x tag inval' c k := by
  refine ⟨h.one, h.range, h.runs, h.swapped, h.fast, h.activeRead, h.genRead, h.held, h.emptied, fun hp hfl => ?_⟩
  obtain ⟨h1, h2⟩ := h.cur hp hfl
  exact ⟨h1, fun S a he => (h2 S a he).imp_right (hi a)⟩

theorem cinv_init : CInv x tag inval c (⟨.run, none, ∅⟩ : Core Space) := by
  refine ⟨?_, ?_, ?_, ?_, ?_, ?_, ?_, ?_, ?_, ?_⟩ <;> simp [Core.Entry, Pc.target, Pc.fast]

theorem inv_init (h : Init s) : Inv s := by
  obtain ⟨⟨bits, hb, ha⟩, htag, hlock, hcore⟩ := h
  have hno : ∀ S, ¬ Own s.asids s.tag S := fun S ho => ho.1 (htag S)
  have hm : s.asids.alloc.MapInv := by rw [ha]; exact mapInv_emptyMap hb
  refine ⟨⟨hm, by rw [ha]; simp [AsidCpus.new], fun S hS => absurd (htag S) hS, fun S _ ho => absurd ho (hno S), fun b => ?_,
    fun c hc => ?_, fun c hc => ?_, fun c _ => by rw [ha]; rfl⟩, fun c => ?_, fun c hc => ?_, ?_⟩
  · simp only [hno]
    rw [ha]
    simp [new, emptyMap]
  · rw [ha] at hc; exact absurd rfl hc
  · rw [ha] at hc; exact absurd rfl hc
  · rw [hcore c]; exact cinv_init
  · rw [hcore c] at hc; cases hc
  · rintro a ⟨c, hc⟩
    rw [hcore c] at hc
    cases hc

section
variable (hI : Inv s)
include hI

theorem Inv.unlocked (hl : s.lock = none) (c : Cpu) : (s.core c).pc.locked = false := by
  cases hlk : (s.core c).pc.locked with
  | false => rfl
  | true => rw [hI.lock c hlk] at hl; cases hl

theorem Inv.no_stale (hl : s.lock = none) (a : Nat) : ¬ s.stale a := by
  rintro ⟨c, hc⟩
  have := hI.unlocked hl c
  rw [hc] at this
  cases this

/-- The invariant after a step of `c` that is no release: the others keep their places. -/
theorem Inv.of_core (hcore : s'.core = update s.core c k)
    (hrel : ∀ b, k.pc = .released b ↔ (s.core c).pc = .released b) (hA : AInv s'.asids s'.tag)
    (hk : CInv s'.asids s'.tag s.stale c k) (hC : ∀ d, d ≠ c → CInv s'.asids s'.tag s.stale d (s.core d))
    (hlk : k.pc.locked = true → s'.lock = some c)
    (hlock : ∀ d, d ≠ c → s.lock = some d → s'.lock = some d)
    (hgone : ∀ a, s.stale a → s'.asids.alloc.used a = false) : Inv s' := by
  have hst : ∀ b, s'.stale b ↔ s.stale b := by
    refine fun b => exists_congr fun d => ?_
    rw [hcore]
    by_cases hd : d = c
    · subst hd; rw [update_self]; exact hrel b
    · rw [update_of_ne hd]
  refine ⟨hA, fun d => cinv_inval ?_ fun b => (hst b).2, fun d hd => ?_, fun b hb => hgone b ((hst b).1 hb)⟩
  · by_cases hdc : d = c
    · subst hdc; rw [hcore, update_self]; exact hk
    · rw [hcore, update_of_ne hdc]; exact hC d hdc
  · by_cases hdc : d = c
    · subst hdc; rw [hcore, update_self] at hd; exact hlk hd
    · rw [hcore, update_of_ne hdc] at hd; exact hlock d hdc (hI.lock d hd)

/-- A step of one CPU that touches neither the allocator nor a tag, takes no lock and releases nothing. -/
theorem inv_setCore (hk : CInv s.asids s.tag s.stale c k)
    (hlk : k.pc.locked = true → (s.core c).pc.locked = true)
    (hrel : ∀ b, k.pc = .released b ↔ (s.core c).pc = .released b) : Inv (s.setCore c k) :=
  hI.of_core rfl hrel hI.asids hk (fun d _ => hI.core d) (fun h => hI.lock c (hlk h)) (fun _ _ h => h) hI.gone

theorem inv_goto (hlk : (s.core c).pc.locked = false) (ht : pc.target = none)
    (hpc : pc.locked = false) (hsw : pc.inSwitch = false → (s.core c).pc.inSwitch = false)
    (hfast : ∀ S id, pc.fast = some (S, id) →
      tagGen id ≤ s.asids.cpus.generation ∧ (tagGen id = s.asids.cpus.generation → s.tag S = id))
    (hact : ∀ S id old, pc = .activeRead S id old → old ≠ 0)
    (hgen : ∀ S id old, pc = .genRead S id old →
      old ≠ 0 ∧ (s.asids.cpus.active c = old → tagGen id = s.asids.cpus.generation)) :
    Inv (s.setCore c { s.core c with pc := pc }) := by
  have hnr : ∀ b, (s.core c).pc ≠ .released b := by
    intro b hb
    rw [hb] at hlk
    cases hlk
  have hnr' : ∀ b, pc ≠ .released b := by
    rintro b rfl
    cases hpc
  have hfl : (s.core c).pc.flushing = false := by
    cases hq : (s.core c).pc <;> rw [hq] at hlk <;> first | rfl | cases hlk
  refine inv_setCore hI (cinv_goto (hI.core c) hfl ht hpc hsw hfast hact hgen) (fun h => ?_) fun b => ?_
  · rw [hpc] at h; cases h
  · exact iff_of_false (hnr' b) (hnr b)

theorem inv_slow (hlk : (s.core c).pc.locked = false) :
    Inv (s.setCore c { s.core c with pc := .slow S }) := by
  refine inv_goto hI hlk rfl rfl (fun h => by cases h) ?_ ?_ ?_ <;> simp [Pc.fast]

omit hI in
theorem AInv.tag_le (hA : AInv x tag) (S : Space) : tagGen (tag S) ≤ x.cpus.generation := by
  by_cases h0 : tag S = 0
  · rw [h0, tagGen_zero]; omega
  · exact (hA.tags S h0).1

theorem inv_readTag (h : (s.core c).pc = .run) :
    Inv (s.setCore c { s.core c with pc := .tagRead S (s.tag S) }) := by
  refine inv_goto hI (by rw [h]; rfl) rfl rfl (fun _ => by rw [h]; rfl) ?_ (by simp) (by simp)
  rintro T id hq
  cases hq
  exact ⟨hI.asids.tag_le S, fun _ => rfl⟩

theorem inv_readActive {id : Nat} (h : (s.core c).pc = .tagRead S id) :
    Inv (s.setCore c { s.core c with pc :=
      (if s.asids.cpus.active c = 0 then .slow S else .activeRead S id (s.asids.cpus.active c)) }) := by
  split
  case isTrue => exact inv_slow hI (by rw [h]; rfl)
  case isFalse h0 =>
    refine inv_goto hI (by rw [h]; rfl) rfl rfl (fun _ => by rw [h]; rfl) ?_ ?_ (by simp)
    · rintro T id' hq
      cases hq
      exact (hI.core c).fast S id (by rw [h]; rfl)
    · rintro T id' old hq
      cases hq
      exact h0

theorem inv_readGen {id : Nat} (h : (s.core c).pc = .activeRead S id old) :
    Inv (s.setCore c { s.core c with pc :=
      (if tagGen id = s.asids.cpus.generation then .genRead S id old else .slow S) }) := by
  split
  case isTrue hg =>
    refine inv_goto hI (by rw [h]; rfl) rfl rfl (fun _ => by rw [h]; rfl) ?_ (by simp) ?_
    · rintro T id' hq
      cases hq
      exact (hI.core c).fast S id (by rw [h]; rfl)
    · rintro T id' old' hq
      cases hq
      exact ⟨(hI.core c).activeRead S id old h, fun _ => hg⟩
  case isFalse => exact inv_slow hI (by rw [h]; rfl)

theorem inv_casOk {id : Nat} (h : (s.core c).pc = .genRead S id (s.asids.cpus.active c)) :
    Inv { s with
      asids := { s.asids with cpus := { s.asids.cpus with active := update s.asids.cpus.active c id } }
      core := update s.core c { s.core c with pc := .swapped S (tagAsid id) } } := by
  obtain ⟨rfl, hS, hf, hk⟩ := cinv_swap hI.asids (hI.core c) h hI.gone
  -- the CPU owed no flush, so the words are those of an activation
  have hasids : settle s.asids c (s.tag S) = { s.asids with cpus := { s.asids.cpus with
      active := update s.asids.cpus.active c (s.tag S) } } := by
    rw [settle, ← hf, update_eq_self]
  rw [← hasids]
  refine hI.of_core rfl (by simp [h]) (ainv_settle hI.asids hS) hk (fun d hd => ?_) (fun hl => by cases hl)
    (fun _ _ hl => hl) hI.gone
  refine cinv_congr (hI.core d) rfl rfl ?_ ?_ rfl <;> simp [settle, hd]

theorem inv_activate [DecidableEq Space]
    (h : (s.core c).pc = .slow S) (hl : s.lock = none) (ha : s.asids.activate c (s.tag S) = some (act, asids))
    (hlt : asids.cpus.generation < 2 ^ 48) :
    Inv { asids := asids, tag := update s.tag S act.id, lock := some c,
          core := update s.core c { s.core c with pc :=
            (if act.flushTlb then .owing S (tagAsid act.id) else .activated S (tagAsid act.id)) } } := by
  obtain ⟨z, hz, hflush, rfl⟩ := activate_cases ha
  -- first the tag, with the CPUs where they are; then the CPU's own words
  have hG : GInv z (update s.tag S act.id) s.stale s.core ∧ tagGen act.id = z.cpus.generation := by
    rcases hz with ⟨hg, hid, rfl⟩ | ⟨hg, hn⟩
    · rw [hid, update_eq_self]
      exact ⟨⟨hI.asids, hI.core⟩, hg⟩
    · exact ginv_newContext ⟨hI.asids, hI.core⟩ (hI.unlocked hl) hg hn hlt
  obtain ⟨⟨hA, hC⟩, hgen⟩ := hG
  have hself : update s.tag S act.id S = act.id := update_self ..
  have hA' := ainv_settle (c := c) hA (by rw [hself]; exact hgen)
  have hk := cinv_settle hA (hC c) h (fun b hb => absurd hb (hI.no_stale hl b)) (by rw [hself]; exact hgen)
  rw [hself] at hA' hk
  rw [hflush]
  refine hI.of_core rfl (fun b => ?_) hA' hk (fun d hd => ?_) (fun _ => rfl)
    (fun d _ hd => by rw [hl] at hd; cases hd) (fun b hb => absurd hb (hI.no_stale hl b))
  · rw [h]
    refine iff_of_false ?_ (by simp)
    split <;> simp
  · refine cinv_congr (hC d) rfl rfl ?_ ?_ rfl <;> simp [hd]

theorem inv_empty (h : (s.core c).pc = .owing S a) :
    Inv (s.setCore c { s.core c with pc := .emptied S a, ttbr := none }) := by
  have hC := hI.core c
  refine inv_setCore hI ?_ (fun _ => by rw [h]; rfl) (by simp [h])
  obtain ⟨hone, hrange⟩ := hC.entries { s.core c with pc := .emptied S a, ttbr := none } subset_rfl
    (by simp [Pc.target])
  refine ⟨hone, hrange, by simp, by simp, by simp [Pc.fast], by simp, by simp, fun T b hp => ?_, by simp,
    fun _ hq => by cases hq⟩
  rcases hp with hp | hp | hp <;> cases hp
  exact hC.held S a (Or.inl h)

theorem inv_flush (h : (s.core c).pc = .emptied S a) :
    Inv (s.setCore c { s.core c with pc := .activated S a, tlb := ∅ }) := by
  have hC := hI.core c
  obtain ⟨hcur, hact, hfp⟩ := hC.held S a (Or.inr (Or.inl h))
  have hno := hC.emptied S a h
  have h0 := hcur.ne_zero hI.asids
  have hrange := (hI.asids.tags S h0).2
  rw [hcur.2] at hrange
  refine inv_setCore hI ?_ (fun _ => by rw [h]; rfl) (by simp [h])
  -- the target is all the CPU holds
  have hent : ∀ b T, Core.Entry { s.core c with pc := .activated S a, tlb := ∅ } b T → T = S := by
    rintro b T (he | he | he)
    · cases he
    · simp only [hno] at he; cases he
    · cases he; rfl
  refine ⟨fun b T T' h1 h2 => (hent b T h1).trans (hent b T' h2).symm, ?_, by simp [Pc.inSwitch], by simp,
    by simp [Pc.fast], by simp, by simp, fun T b hp => ?_, by simp, fun _ _ => by simp [hno]⟩
  · rintro b T (he | he)
    · simp only [hno] at he; cases he
    · cases he; exact hrange
  · rcases hp with hp | hp | hp <;> cases hp
    exact ⟨hcur, hact, hfp⟩

theorem inv_setFast (h : (s.core c).pc = .swapped S a) :
    Inv (s.setCore c { s.core c with pc := .run, ttbr := some (S, a) }) := by
  obtain ⟨hr, hc⟩ := (hI.core c).swapped S a h
  exact inv_setCore hI (cinv_install (hI.core c) (by rw [h]; rfl) hr hc (by rw [h]; rfl)) (fun hl => by cases hl)
    (by simp [h])

theorem inv_setSlow (h : (s.core c).pc = .activated S a) :
    Inv { s with lock := none, core := update s.core c { s.core c with pc := .run, ttbr := some (S, a) } } := by
  obtain ⟨hcur, hact, hfp⟩ := (hI.core c).held S a (Or.inr (Or.inr h))
  have hlock := hI.lock c (by rw [h]; rfl)
  have hk := cinv_install (hI.core c) (by rw [h]; rfl) ⟨hcur.ne_zero hI.asids, hcur.2, Or.inl hact⟩ (fun _ => hcur)
    (by rw [h]; rfl)
  refine hI.of_core rfl (by simp [h]) hI.asids hk (fun d _ => hI.core d) (fun hl => by cases hl) (fun d hd hl => ?_)
    hI.gone
  rw [hlock] at hl
  cases hl
  exact absurd rfl hd

theorem inv_leave (h : (s.core c).pc = .run) :
    Inv (s.setCore c { s.core c with ttbr := none }) := by
  have hC := hI.core c
  refine inv_setCore hI ?_ (fun hl => hl) (fun _ => Iff.rfl)
  obtain ⟨hone, hrange⟩ := hC.entries { s.core c with ttbr := none } subset_rfl (by simp +contextual)
  refine ⟨hone, hrange, by simp, by simp [h], by simp [h, Pc.fast], by simp [h], by simp [h], by simp [h], by simp,
    fun hp hfl => ?_⟩
  exact ⟨by simp, (hC.cur hp hfl).2⟩

theorem inv_tlb
    (ht : ∀ a S, (a, S) ∈ tlb → (a, S) ∈ (s.core c).tlb ∨ (s.core c).ttbr = some (S, a)) :
    Inv (s.setCore c { s.core c with tlb := tlb }) :=
  inv_setCore hI (cinv_tlb (hI.core c) ht) (fun hl => hl) (fun _ => Iff.rfl)

theorem inv_release [DecidableEq Space] (h : (s.core c).pc = .run)
    (hl : s.lock = none) (hrun : ∀ c' a, (s.core c').ttbr ≠ some (S, a))
    (hgo : ∀ c', (s.core c').pc.goal ≠ some S) (hr : s.asids.release (s.tag S) = some (r, asids)) :
    Inv { asids := asids, tag := update s.tag S 0, lock := r.map (fun _ => c),
          core := update s.core c { s.core c with pc := r.elim .run .released } } := by
  obtain ⟨hR, hnone, hsome⟩ := release_spec hI.asids hr
  have hinv : ∀ d, CInv asids (update s.tag S 0) (fun b => r = some b) d (s.core d) := by
    intro d
    refine cinv_release hI.asids hR (hI.core d) (hrun d) (hgo d) (fun b hb => absurd hb (hI.no_stale hl b))
      fun ho => ?_
    cases r with
    | none => exact absurd ho (hnone rfl)
    | some e => rw [(hsome e rfl).1]
  have hk : CInv asids (update s.tag S 0) (fun b => r = some b) c
      { s.core c with pc := r.elim .run .released } := by
    have hC := hinv c
    obtain ⟨hone, hrange⟩ := hC.entries { s.core c with pc := r.elim .run .released } subset_rfl
      (by cases r <;> simp +contextual [Pc.target])
    refine ⟨hone, hrange, fun _ => hC.runs (by rw [h]; rfl), ?_, ?_, ?_, ?_, ?_, ?_, fun hp _ => hC.cur hp (by rw [h]; rfl)⟩
    all_goals cases r <;> simp [Pc.fast]
  refine ⟨ainv_release hI.asids hR, fun d => ?_, fun d hd => ?_, ?_⟩
  · by_cases hdc : d = c
    · subst hdc
      simp only [update_self]
      refine cinv_inval hk fun b hb => ⟨d, ?_⟩
      subst hb
      simp
    · simp only [update_of_ne hdc]
      refine cinv_inval (hinv d) fun b hb => ⟨c, ?_⟩
      subst hb
      simp
  · by_cases hdc : d = c
    · subst hdc
      simp only [update_self] at hd
      cases r with
      | none => cases hd
      | some e => rfl
    · simp only [update_of_ne hdc, hI.unlocked hl d] at hd
      cases hd
  · rintro b ⟨d, hd⟩
    by_cases hdc : d = c
    · subst hdc
      simp only [update_self] at hd
      cases r with
      | none => cases hd
      | some e => cases hd; exact (hsome b rfl).2
    · simp only [update_of_ne hdc] at hd
      exact absurd ⟨d, hd⟩ (hI.no_stale hl b)

theorem inv_invalidate (h : (s.core c).pc = .released a) :
    Inv { s with lock := none, core := fun c' =>
      { pc := if c' = c then .run else (s.core c').pc, ttbr := (s.core c').ttbr,
        tlb := { e | e ∈ (s.core c').tlb ∧ e.1 ≠ a } } } := by
  have hlock := hI.lock c (by rw [h]; rfl)
  have hlk : ∀ d, d ≠ c → (s.core d).pc.locked = false := by
    intro d hd
    cases hq : (s.core d).pc.locked with
    | false => rfl
    | true =>
      have := hI.lock d hq
      rw [hlock] at this
      cases this
      exact absurd rfl hd
  have hstale : ∀ b, s.stale b → b = a := by
    rintro b ⟨d, hd⟩
    by_cases hdc : d = c
    · subst hdc
      rw [h] at hd
      cases hd; rfl
    · have := hlk d hdc
      rw [hd] at this
      cases this
  -- with the entries under `a` gone, what is left was current
  have hsub : ∀ d, CInv s.asids s.tag s.stale d { s.core d with tlb := { e | e ∈ (s.core d).tlb ∧ e.1 ≠ a } } :=
    fun d => cinv_tlb (hI.core d) fun b T he => Or.inl he.1
  have hcur : ∀ d {inval : Nat → Prop}, CInv s.asids s.tag inval d
      { s.core d with tlb := { e | e ∈ (s.core d).tlb ∧ e.1 ≠ a } } := by
    intro d inval
    have hC := hsub d
    refine ⟨hC.one, hC.range, hC.runs, hC.swapped, hC.fast, hC.activeRead, hC.genRead, hC.held, hC.emptied,
      fun hp hfl => ⟨(hC.cur hp hfl).1, fun T b he => ?_⟩⟩
    exact Or.inl (((hC.cur hp hfl).2 T b he).resolve_right fun hi => he.2 (hstale b hi))
  refine ⟨hI.asids, fun d => ?_, fun d hd => ?_, ?_⟩
  · by_cases hdc : d = c
    · subst hdc
      simp only [↓reduceIte]
      refine cinv_goto (hcur d) (by simp [h, Pc.flushing]) rfl rfl (fun _ => by simp [h, Pc.inSwitch]) ?_ ?_ ?_ <;>
        simp [Pc.fast]
    · simp only [if_neg hdc]
      exact hcur d
  · by_cases hdc : d = c
    · subst hdc; simp only [↓reduceIte] at hd; cases hd
    · simp only [if_neg hdc, hlk d hdc] at hd
      cases hd
  · rintro b ⟨d, hd⟩
    by_cases hdc : d = c
    · subst hdc; simp only [↓reduceIte] at hd; cases hd
    · simp only [if_neg hdc] at hd
      have := hlk d hdc
      rw [hd] at this
      cases this

theorem inv_step [DecidableEq Space] (hs : Step s s') (hlt : s'.asids.cpus.generation < 2 ^ 48) :
    Inv s' := by
  cases hs with
  | readTag c S h => exact inv_readTag hI h
  | readActive c S id h => exact inv_readActive hI h
  | readGen c S id old h => exact inv_readGen hI h
  | casFail c S id old h ha => exact inv_slow hI (by rw [h]; rfl)
  | casOk c S id old h ha => exact inv_casOk hI (ha ▸ h)
  | setFast c S a h => exact inv_setFast hI h
  | activate c S act asids h hl ha => exact inv_activate hI h hl ha hlt
  | empty c S a h => exact inv_empty hI h
  | flush c S a h => exact inv_flush hI h
  | setSlow c S a h => exact inv_setSlow hI h
  | leave c h => exact inv_leave hI h
  | fill c S a h =>
    refine inv_tlb hI fun b T he => ?_
    rcases he with he | he
    · cases he; exact Or.inr h
    · exact Or.inl he
  | evict c kept h => exact inv_tlb hI fun b T he => Or.inl (h he)
  | release c S r asids h hl hrun hgo hr => exact inv_release hI h hl hrun hgo hr
  | invalidate c a h => exact inv_invalidate hI h

end

theorem fresh_isSome (hm : x.alloc.MapInv) (hf : 0 < x.alloc.free) : x.fresh.isSome := by
  obtain ⟨i, b, h1, _⟩ := take_spec hm hf
  simp [fresh, h1]

/-- `activate` always finds a number: a new generation leaves enough of them. -/
theorem activate_isSome (hA : AInv x tag) (S : Space) (c : Cpu) : (x.activate c (tag S)).isSome := by
  have hnew : (x.newContext (tag S)).isSome := by
    cases ha : x.adopt (tag S) with
    | some r =>
      rw [newContext, ha]
      rfl
    | none =>
      by_cases hf : x.alloc.free = 0
      · obtain ⟨_, _, _, _, _, r6, r7, _⟩ := roll_spec hA
        have hl := hA.map.limit
        rw [newContext_roll ha hf, isSome_or, fresh_isSome r6 (by omega), Bool.or_true]
      · rw [newContext, ha]
        simp only [hf]
        exact fresh_isSome hA.map (by omega)
  unfold activate
  split
  · obtain ⟨r, hr⟩ := isSome_iff_exists.1 hnew
    rw [hr]
    rfl
  · rfl

/-- The number that `release` gives back is used. -/
theorem release_isSome (hA : AInv x tag) (S : Space) : (x.release (tag S)).isSome := by
  unfold release
  split
  · rfl
  · rename_i h0
    simp only
    split
    · rename_i ho
      have hu := (hA.used _).2 (Or.inr ⟨S, ⟨h0, ho⟩, rfl⟩)
      simp [unset, hu]
    · rfl

theorem reachable_inv [DecidableEq Space] (h : Reachable Init (StepWithin (2 ^ 48)) s) : Inv s :=
  h.invariant (fun _ h0 => inv_init h0) (fun _ _ hI hs => inv_step hI hs.1 hs.2)

/-- **TLB safety**: a CPU that has `S` in TTBR0 under `a` has an ASID of the width, no entry of another
space under it and, outside its own switch, the number that the tag of `S` names. -/
theorem tlb_safe [DecidableEq Space] {s : Sys Space} (h : Reachable Init (StepWithin (2 ^ 48)) s) {c : Cpu}
    {S : Space} {a : Nat} (ht : (s.core c).ttbr = some (S, a)) :
    (a ≠ 0 ∧ a < 2 ^ s.asids.alloc.bits) ∧ (∀ T, (a, T) ∈ (s.core c).tlb → T = S) ∧
      ((s.core c).pc.inSwitch = false → asidOf (s.tag S) = some a) := by
  have hC := (reachable_inv h).core c
  obtain ⟨h1, h2⟩ := hC.range a S (Or.inl ht)
  refine ⟨⟨by omega, h2⟩, fun T hT => hC.one a T S (Or.inl hT) (Or.inr (Or.inl ht)), fun hs => ?_⟩
  obtain ⟨h0, hn, _⟩ := hC.runs hs S a ht
  rw [asidOf, if_pos h0, hn]

/-! ## A run of switches

A CPU that switches from space to space takes number after number, and so generation after generation. -/

section switches
variable [DecidableEq Space] {B : Nat}

/-- From where it runs, a CPU gets to the slow path for a space whose tag is not current. -/
theorem to_slow (hrun : (s.core c).pc = .run) (hS : tagGen (s.tag S) ≠ s.asids.cpus.generation)
    (hb : s.asids.cpus.generation < B) :
    ReflTransGen (StepWithin B) s (s.setCore c { s.core c with pc := .slow S }) := by
  have hset : ∀ pc pc' : Pc Space, (s.setCore c { s.core c with pc := pc }).setCore c
      { (s.setCore c { s.core c with pc := pc }).core c with pc := pc' } = s.setCore c { s.core c with pc := pc' } := by
    intro pc pc'
    simp [Sys.setCore]
  have h1 := Step.readTag s c S hrun
  have h2 := Step.readActive (s.setCore c { s.core c with pc := .tagRead S (s.tag S) }) c S (s.tag S)
    (by simp [Sys.setCore])
  rw [hset] at h2
  by_cases ha : s.asids.cpus.active c = 0
  · simp only [Sys.setCore, ha] at h2
    exact (ReflTransGen.single ⟨h1, hb⟩).tail ⟨h2, hb⟩
  · simp only [Sys.setCore, ha] at h2
    have h3 := Step.readGen (s.setCore c { s.core c with pc := .activeRead S (s.tag S) (s.asids.cpus.active c) }) c S
      (s.tag S) (s.asids.cpus.active c) (by simp [Sys.setCore])
    rw [hset] at h3
    simp only [Sys.setCore, hS] at h3
    exact ((ReflTransGen.single ⟨h1, hb⟩).tail ⟨h2, hb⟩).tail ⟨h3, hb⟩

/-- From the activation the CPU gets back to running. -/
theorem from_activate (hp : (s.core c).pc = .owing S a ∨ (s.core c).pc = .activated S a)
    (hb : s.asids.cpus.generation < B) :
    ∃ tlb, ReflTransGen (StepWithin B) s
      { s with lock := none, core := update s.core c ⟨.run, some (S, a), tlb⟩ } := by
  rcases hp with hp | hp
  · have h1 := Step.empty s c S a hp
    have h2 := Step.flush (s.setCore c { s.core c with pc := .emptied S a, ttbr := none }) c S a
      (by simp [Sys.setCore])
    have h3 := Step.setSlow (s.setCore c ⟨.activated S a, none, ∅⟩) c S a (by simp [Sys.setCore])
    simp only [Sys.setCore, update_self, update_idem] at h2 h3
    exact ⟨∅, ((ReflTransGen.single ⟨h1, hb⟩).tail ⟨h2, hb⟩).tail ⟨h3, hb⟩⟩
  · exact ⟨(s.core c).tlb, .single ⟨Step.setSlow s c S a hp, hb⟩⟩

/-- A whole slow switch. -/
theorem switch_to (hrun : (s.core c).pc = .run) (hl : s.lock = none)
    (hS : tagGen (s.tag S) ≠ s.asids.cpus.generation)
    (ha : s.asids.activate c (s.tag S) = some (act, x)) (hb : s.asids.cpus.generation < B)
    (hx : x.cpus.generation < B) :
    ∃ s', ReflTransGen (StepWithin B) s s' ∧ s'.asids = x ∧ s'.tag = update s.tag S act.id ∧
      s'.lock = none ∧ (s'.core c).ttbr = some (S, tagAsid act.id) ∧ (s'.core c).pc = .run ∧
      ∀ d, d ≠ c → s'.core d = s.core d := by
  have h1 := to_slow hrun hS hb
  have h2 := Step.activate (s.setCore c { s.core c with pc := .slow S }) c S act x (by simp [Sys.setCore]) hl ha
  simp only [Sys.setCore] at h2
  generalize ht : Sys.mk x _ _ _ = t at h2
  have hp : (t.core c).pc = .owing S (tagAsid act.id) ∨ (t.core c).pc = .activated S (tagAsid act.id) := by
    rw [← ht]
    simp only [update_self]
    split
    · exact Or.inl rfl
    · exact Or.inr rfl
  have hb' : t.asids.cpus.generation < B := by rw [← ht]; exact hx
  obtain ⟨tlb, h3⟩ := from_activate hp hb'
  refine ⟨_, (h1.tail ⟨h2, hb'⟩).trans h3, ?_⟩
  subst ht
  refine ⟨rfl, rfl, rfl, ?_, ?_, fun d hd => ?_⟩
  · simp only [update_self]
  · simp only [update_self]
  · simp only [update_of_ne hd]

end switches

theorem adopt_none {id : Nat} (h : ∀ c, id ≠ 0 → x.alloc.reserved c ≠ id) : x.adopt id = none := by
  unfold adopt
  split
  · rfl
  · rename_i h0
    rw [if_neg]
    rintro ⟨c, hc⟩
    exact h c h0 hc

/-- A number nobody has, for a tag that no CPU keeps. -/
theorem activate_fresh (hm : x.alloc.MapInv) (hf : 0 < x.alloc.free) (id : Nat)
    (hg : tagGen id ≠ x.cpus.generation) (hno : ∀ c, id ≠ 0 → x.alloc.reserved c ≠ id) :
    ∃ i b, x.alloc.take = some (i, b) ∧ x.activate c id =
      some (⟨mkTag x.cpus.generation i, x.cpus.flushPending c⟩,
        settle { x with alloc := b } c (mkTag x.cpus.generation i)) := by
  obtain ⟨i, b, h1, _⟩ := take_spec hm hf
  refine ⟨i, b, h1, ?_⟩
  unfold activate newContext
  rw [if_pos hg, adopt_none hno]
  simp only [ne_of_gt hf, fresh, h1]
  rfl

/-- With no number left, a space that never ran takes the first one of the next generation. -/
theorem activate_roll (hA : AInv x tag) (hf : x.alloc.free = 0) :
    ∃ i b, (roll x).alloc.take = some (i, b) ∧ x.activate c 0 =
      some (⟨mkTag (x.cpus.generation + 1) i, true⟩,
        settle { roll x with alloc := b } c (mkTag (x.cpus.generation + 1) i)) := by
  obtain ⟨r1, _, r3, _, _, r6, r7, _⟩ := roll_spec hA
  have hl := hA.map.limit
  obtain ⟨i, b, h1, _⟩ := take_spec r6 (by omega)
  have hg := hA.gen
  have hn : x.newContext 0 = (roll x).fresh := by
    rw [newContext_roll (adopt_none (fun _ h => absurd rfl h)) hf, adopt_none (fun _ h => absurd rfl h), none_or]
  refine ⟨i, b, h1, ?_⟩
  unfold activate
  rw [if_pos (by rw [tagGen_zero]; omega), hn]
  simp only [fresh, h1, bind_eq_bind, bind_some, r1, r3, settle]

/-- The machine after boot. -/
def boot (Space : Type*) (bits : Nat) : Sys Space :=
  ⟨⟨AsidCpus.new, new bits⟩, fun _ => 0, none, fun _ => ⟨.run, none, ∅⟩⟩

theorem init_boot (Space : Type*) : Init (boot Space 8) := ⟨⟨8, Or.inl rfl, rfl⟩, fun _ => rfl, rfl, fun _ => rfl⟩

/-- CPU 0 switches to one space and then to the other. -/
theorem two_switches : ∃ s : Sys Bool, Reachable Init (StepWithin (2 ^ 48)) s ∧
    (((boot Bool 8).asids.activate 0 0).bind fun r => (r.2.activate 0 0).map (·.2)) = some s.asids ∧
    s.tag = (fun S => if S then mkTag 1 2 else mkTag 1 1) ∧ s.lock = none ∧ (s.core 0).ttbr = some (true, 2) ∧
    (s.core 0).pc = .run ∧ ∀ d, d ≠ 0 → s.core d = ⟨.run, none, ∅⟩ := by
  have hids : (((boot Bool 8).asids.activate 0 0).bind fun r => (r.2.activate 0 0).map fun r' =>
      (r.1.id, r.2.cpus.generation, r'.1.id, r'.2.cpus.generation)) = some (mkTag 1 1, 1, mkTag 1 2, 1) := by
    decide +kernel
  obtain ⟨⟨act, x⟩, h₁, hrest⟩ := Option.bind_eq_some_iff.1 hids
  obtain ⟨⟨act', x'⟩, h₂, hr⟩ := Option.map_eq_some_iff.1 hrest
  simp only [Prod.mk.injEq] at hr
  obtain ⟨hid, hgen, hid', hgen'⟩ := hr
  obtain ⟨s, hs, rfl, htag, hlock, -, hpc, hothers⟩ := switch_to (s := boot Bool 8) (c := 0) (S := false) (B := 2 ^ 48)
    rfl rfl (by decide) h₁ (by decide) (by rw [hgen]; decide)
  obtain ⟨t, ht, rfl, htag', hlock', httbr, hpc', hothers'⟩ := switch_to (S := true) (B := 2 ^ 48) hpc hlock
    (by rw [htag, hgen, update_of_ne (by decide)]; decide) (by rw [htag]; exact h₂) (by rw [hgen]; decide)
    (by rw [hgen']; decide)
  refine ⟨t, ((Reachable.start (init_boot Bool)).trans hs).trans ht, by rw [h₁, Option.bind_some, h₂]; rfl, ?_, hlock',
    ?_, hpc', fun d hd => (hothers' d hd).trans (hothers d hd)⟩
  · rw [htag', htag, hid, hid']
    funext S
    cases S <;> rfl
  · rw [httbr, hid']
    rfl

/-- The walker fills an entry of the second space. -/
theorem tlb_safe_second_switch : ∃ s : Sys Bool, Reachable Init (StepWithin (2 ^ 48)) s ∧
    tagAsid (s.tag false) = 1 ∧ (s.core 0).ttbr = some (true, 2) ∧ (2, true) ∈ (s.core 0).tlb ∧
    (∀ T, (2, T) ∈ (s.core 0).tlb → T = true) ∧ asidOf (s.tag true) = some 2 := by
  obtain ⟨s, hs, -, htag, -, httbr, hpc, -⟩ := two_switches
  have hfill := Step.fill s 0 true 2 httbr
  have hreach := hs.tail ⟨hfill, (reachable_inv hs).asids.gen.2⟩
  obtain ⟨-, hone, hnum⟩ := tlb_safe hreach (c := 0) (S := true) (a := 2) (by simp [Sys.setCore, httbr])
  refine ⟨_, hreach, ?_, ?_, ?_, hone, hnum ?_⟩
  · show tagAsid (s.tag false) = 1
    rw [htag]
    rfl
  · simp [Sys.setCore, httbr]
  · simp [Sys.setCore]
  · simp [Sys.setCore, hpc, Pc.inSwitch]

/-- **No number leaks and none runs out**: in every reachable state a number is marked exactly when it is the
kernel's or one space has it, `free` counts the others, and `activate` and `release` of any space do not fail. -/
theorem asids_exact [DecidableEq Space] {s : Sys Space} (h : Reachable Init (StepWithin (2 ^ 48)) s) :
    (∀ a, s.asids.alloc.used a = true ↔ a = 0 ∨ ∃! S, Own s.asids s.tag S ∧ tagAsid (s.tag S) = a) ∧
      s.asids.alloc.free = Bits.clear s.asids.alloc.used (2 ^ s.asids.alloc.bits) ∧
      ∀ S, (∀ c, (s.asids.activate c (s.tag S)).isSome) ∧ (s.asids.release (s.tag S)).isSome := by
  have hA := (reachable_inv h).asids
  refine ⟨fun a => (hA.used a).trans (or_congr_right ⟨?_, ExistsUnique.exists⟩), hA.map.free,
    fun S => ⟨activate_isSome hA S, release_isSome hA S⟩⟩
  rintro ⟨S, hS⟩
  exact ⟨S, hS, fun T hT => hA.own T S hT.1 hS.1 (hT.2.trans hS.2.symm)⟩

/-- The first of two spaces is released: its number is free again, and the other's is marked. -/
theorem asids_exact_released : ∃ s : Sys Bool, Reachable Init (StepWithin (2 ^ 48)) s ∧ s.tag false = 0 ∧
    s.asids.alloc.used 1 = false ∧ s.asids.alloc.used 2 = true ∧
    (∃! S, Own s.asids s.tag S ∧ tagAsid (s.tag S) = 2) ∧ (s.asids.activate 0 (s.tag false)).isSome := by
  obtain ⟨s, hs, hx, htag, hlock, httbr, hpc, hothers⟩ := two_switches
  have hfree : ((((boot Bool 8).asids.activate 0 0).bind fun r => (r.2.activate 0 0).map (·.2)).bind fun x =>
      (x.release (mkTag 1 1)).map fun r => (r.2.cpus.generation, r.2.alloc.used 1, r.2.alloc.used 2)) =
        some (1, false, true) := by
    decide +kernel
  rw [hx, Option.bind_some] at hfree
  obtain ⟨⟨r, x⟩, hrel, hr⟩ := Option.map_eq_some_iff.1 hfree
  simp only [Prod.mk.injEq] at hr
  have hstep := Step.release s 0 false r x hpc hlock ?_ ?_ (by rw [htag]; exact hrel)
  · have hreach := hs.tail ⟨hstep, by rw [hr.1]; decide⟩
    obtain ⟨hused, -, hcalls⟩ := asids_exact hreach
    refine ⟨_, hreach, by simp, hr.2.1, hr.2.2, ?_, (hcalls false).1 0⟩
    exact ((hused 2).1 hr.2.2).resolve_left (by decide)
  · intro d a hd
    by_cases h0 : d = 0
    · rw [h0, httbr] at hd
      cases hd
    · rw [hothers d h0] at hd
      cases hd
  · intro d hd
    by_cases h0 : d = 0
    · rw [h0, hpc] at hd
      cases hd
    · rw [hothers d h0] at hd
      cases hd

/-! ## The last generation -/

/-- Between two switches, with the spaces from `n` on unused. -/
structure Idle (s : Sys Nat) (n : Nat) : Prop where
  reach : Reachable Init (StepWithin (2 ^ 48)) s
  run : ∀ c, (s.core c).pc = .run
  lock : s.lock = none
  unused : ∀ m, n ≤ m → s.tag m = 0
  gen : ∀ m, s.tag m ≠ 0 → 1 ≤ tagGen (s.tag m)

theorem idle_switch {s : Sys Nat} {n : Nat} (h : Idle s n) {g i : Nat} {flush : Bool}
    (ha : s.asids.activate 0 0 = some (⟨mkTag g i, flush⟩, x)) (hi : i < 2 ^ 16) (hg : 1 ≤ g) (hx : x.cpus.generation = g)
    (hlt : g < 2 ^ 48) : ∃ s' : Sys Nat, Idle s' (n + 1) ∧ s'.asids = x := by
  have hI := reachable_inv h.reach
  have hn := h.unused n (le_refl n)
  obtain ⟨s', hr, hasids, htag, hlock, _, hp, hothers⟩ := switch_to (h.run 0) h.lock
    (by rw [hn, tagGen_zero]; have := hI.asids.gen; omega) (by rw [hn]; exact ha) hI.asids.gen.2 (by omega)
  refine ⟨s', ⟨h.reach.trans hr, fun c => ?_, hlock, fun m hm => ?_, fun m => ?_⟩, hasids⟩
  · by_cases hc : c = 0
    · subst hc; exact hp
    · rw [hothers c hc]; exact h.run c
  · rw [htag, update_of_ne (show m ≠ n by omega)]
    exact h.unused m (by omega)
  · by_cases hm : m = n
    · subst hm
      rw [htag, update_self, tagGen_mkTag hi]
      omega
    · rw [htag, update_of_ne hm]
      exact h.gen m

/-- Switch by switch the numbers of a generation are used up. -/
theorem idle_full {s : Sys Nat} {n : Nat} (h : Idle s n) : ∃ (s' : Sys Nat) (n' : Nat), Idle s' n' ∧
    s'.asids.cpus.generation = s.asids.cpus.generation ∧ s'.asids.alloc.free = 0 := by
  induction hf : s.asids.alloc.free generalizing s n with
  | zero => exact ⟨s, n, h, rfl, hf⟩
  | succ k ih =>
    have hI := reachable_inv h.reach
    have hg := hI.asids.gen
    have hl := hI.asids.map.limit
    obtain ⟨i, b, ht, ha⟩ := activate_fresh hI.asids.map (by omega) 0
      (by rw [tagGen_zero]; omega) (by simp)
    obtain ⟨i', b', ht', _, hi, _, _, _, _, hfree, _⟩ := take_spec hI.asids.map (by omega)
    rw [ht] at ht'
    cases ht'
    obtain ⟨s', h', hx⟩ := idle_switch h ha (by omega) hg.1 rfl hg.2
    obtain ⟨s'', n'', h'', hg'', hf''⟩ := ih h' (by rw [hx]; show b.free = k; omega)
    exact ⟨s'', n'', h'', hg''.trans (by rw [hx]; rfl), hf''⟩

theorem idle_generation (g : Nat) (hg : g + 1 < 2 ^ 48) : ∃ (s : Sys Nat) (n : Nat), Idle s n ∧
    s.asids.cpus.generation = g + 1 ∧ s.asids.alloc.free = 0 := by
  induction g with
  | zero =>
    have h0 : Idle (boot Nat 8) 0 := ⟨.start (init_boot Nat), fun _ => rfl, rfl, fun _ _ => rfl, fun _ h => absurd rfl h⟩
    obtain ⟨s, n, h, h1, h2⟩ := idle_full h0
    exact ⟨s, n, h, h1, h2⟩
  | succ g ih =>
    obtain ⟨s, n, h, h1, h2⟩ := ih (by omega)
    have hI := reachable_inv h.reach
    obtain ⟨r1, _, _, _, r5, r6, r7, _⟩ := roll_spec hI.asids
    have hl := hI.asids.map.limit
    obtain ⟨i, b, ht, ha⟩ := activate_roll hI.asids h2
    obtain ⟨i', b', ht', _, hi, _⟩ := take_spec r6 (by omega)
    rw [ht] at ht'
    cases ht'
    rw [r5] at hi
    obtain ⟨s', h', hx⟩ := idle_switch h ha (by omega) (by omega) r1 (by omega)
    obtain ⟨s'', n'', h'', hg'', hf''⟩ := idle_full h'
    refine ⟨s'', n'', h'', ?_, hf''⟩
    rw [hg'', hx]
    show (roll s.asids).cpus.generation = _
    rw [r1, h1]

theorem steps_of_within {B : Nat} {p q : Sys Nat} (h : ReflTransGen (StepWithin B) p q) :
    ReflTransGen Step p q := by
  induction h with
  | refl => exact .refl
  | tail _ hs ih => exact ih.tail hs.1

/-- A space `n` that CPU 0 runs in generation `2^48`: its tag has lost its generation, and no CPU keeps it. -/
theorem idle_last : ∃ (t : Sys Nat) (n i : Nat), Reachable Init Step t ∧ t.asids.cpus.generation = 2 ^ 48 ∧
    t.asids.alloc.MapInv ∧ 0 < t.asids.alloc.free ∧ t.asids.alloc.used i = true ∧ t.lock = none ∧
    (t.core 0).ttbr = some (n, i) ∧ (∀ c, (t.core c).pc = .run) ∧ tagGen (t.tag n) = 0 ∧
    ∀ c, t.asids.alloc.reserved c ≠ t.tag n := by
  obtain ⟨s, n, h, h1, h2⟩ := idle_generation (2 ^ 48 - 2) (by decide)
  have hgen : s.asids.cpus.generation + 1 = 2 ^ 48 := by rw [h1]; decide
  have hI := reachable_inv h.reach
  have hn := h.unused n (le_refl n)
  have hl := hI.asids.map.limit
  obtain ⟨r1, _, _, r4, r5, r6, r7, _⟩ := roll_spec hI.asids
  obtain ⟨i, b, ht, ha⟩ := activate_roll hI.asids h2
  obtain ⟨i', b', ht', hi1, hi, _, hb, _, hres, hfree, hused⟩ := take_spec r6 (by omega)
  rw [ht] at ht'
  cases ht'
  rw [r5] at hi
  have hi16 : i < 2 ^ 16 := by omega
  obtain ⟨t, hr, tasids, ttag, tlock, tttbr, tpc, tothers⟩ := switch_to (B := 2 ^ 48 + 1)
    (h.run 0) h.lock (by rw [hn, tagGen_zero]; have := hI.asids.gen; omega) (by rw [hn]; exact ha) (by omega)
    (by show (roll s.asids).cpus.generation < _; omega)
  have htag : t.tag n = mkTag (s.asids.cpus.generation + 1) i := by rw [ttag, update_self]
  have hnum : tagAsid (t.tag n) = i := by rw [htag]; exact tagAsid_mkTag hi16
  have hold : tagGen (t.tag n) = 0 := by rw [htag, tagGen_mkTag hi16, hgen]; decide
  obtain ⟨s0, hs0, hreach⟩ := h.reach
  refine ⟨t, n, i, ⟨s0, hs0, (steps_of_within hreach).trans (steps_of_within hr)⟩, ?_, ?_, ?_, ?_, tlock, ?_, fun c => ?_,
    hold, fun c hc => ?_⟩
  · rw [tasids]; exact r1.trans hgen
  · rw [tasids]; exact hb
  · rw [tasids]; show 0 < b.free; omega
  · rw [tasids]; show b.used i = true; simp [hused]
  · rw [tttbr, ← htag, hnum]
  · by_cases hc : c = 0
    · subst hc; exact tpc
    · rw [tothers c hc]; exact h.run c
  · -- what the CPUs keep is of generations with a number of their own
    rw [tasids] at hc
    change b.reserved c = _ at hc
    rw [hres, r4 c] at hc
    have h0 : t.tag n ≠ 0 := by
      intro h0
      rw [h0] at hnum
      have : tagAsid 0 = 0 := rfl
      omega
    obtain ⟨T, hT, hT'⟩ := hI.asids.kept_owner (by rw [hc]; exact h0)
    have := h.gen T hT'.1
    rw [hT, hc, hold] at this
    omega

/-- In generation `2^48` no tag is current: a space that CPU 0 runs gets a second number from CPU 1. -/
theorem tlb_generation_wraps : ∃ (s : Sys Nat) (c : Cpu) (S a : Nat), Reachable Init Step s ∧
    (s.core c).ttbr = some (S, a) ∧ (s.core c).pc.inSwitch = false ∧ asidOf (s.tag S) ≠ some a := by
  obtain ⟨t, n, i, hreach, hgen, hm, hf, hi, hlock, httbr, hrun, hold, hkept⟩ := idle_last
  have hne : tagGen (t.tag n) ≠ t.asids.cpus.generation := by rw [hold, hgen]; decide
  obtain ⟨j, b, ht, ha⟩ := activate_fresh hm hf _ hne fun c _ => hkept c
  obtain ⟨j', b', ht', _, hj, hju, _⟩ := take_spec hm hf
  rw [ht] at ht'
  cases ht'
  have hl := hm.limit
  have hij : j ≠ i := by
    rintro rfl
    rw [hi] at hju
    cases hju
  obtain ⟨u, hr, _, utag, _, _, _, uothers⟩ := switch_to (c := 1) (B := 2 ^ 48 + 1) (hrun 1) hlock hne ha
    (by omega) (by show t.asids.cpus.generation < _; omega)
  refine ⟨u, 0, n, i, hreach.trans (steps_of_within hr), ?_, ?_, ?_⟩
  · rw [uothers 0 (by decide)]; exact httbr
  · rw [uothers 0 (by decide), hrun 0]; rfl
  · rw [utag, update_self, asidOf]
    split
    · rw [tagAsid_mkTag (by omega)]; simpa using hij
    · simp

end Tlb
