import Mathlib.Data.Nat.Log
import Stafeto.Abi
import Stafeto.Lib.Ring

/-!
# The queue of 64 levels (kcore/src/sched.rs, `Link` and `ReadyQueue`)

Threads ready to run, objects to be taken apart and the slots of a channel stand in queues of one kind:
a ring for each level, with its links inside the items, a head for each level and a mask with a bit for
each level that has an item. `Holds` ties the links, the heads and the mask to 64 lists, and each
operation to what it does to one of them. An assertion that fails is `none`.

The byte `queued` of a link also carries a tag of the queue's owner, which no function here reads or
changes; only its bit 0 is modelled.
-/

namespace Sched

open Abi Ring Function List

/-- `Link` (sched.rs:72). -/
structure Link (T : Type) where
  level : Nat
  queued : Bool
  prev : Option T
  next : Option T

/-- `Link::new`: an item in no list. -/
def Link.new {T : Type} (level : Nat) : Link T := ⟨level, false, none, none⟩

/-- `Link::set_level`. -/
def Link.setLevel {T : Type} (l : Link T) (level : Nat) : Option (Link T) :=
  if l.queued then none else some { l with level := level }

/-- `ReadyQueue` (sched.rs:377). -/
structure ReadyQueue (T : Type) where
  mask : Nat
  heads : Nat → Option T

variable {T : Type}

/-- The links of all items. -/
abbrev Links (T : Type) := T → Link T

namespace Links

variable [DecidableEq T]

def setQueued (m : Links T) (t : T) (b : Bool) : Links T := update m t { m t with queued := b }
def setPrev (m : Links T) (t : T) (p : Option T) : Links T := update m t { m t with prev := p }
def setNext (m : Links T) (t : T) (n : Option T) : Links T := update m t { m t with next := n }

variable (m : Links T) (t x : T) (b : Bool) (v : Option T)

@[simp] theorem setQueued_apply : m.setQueued t b x = { m x with queued := if x = t then b else (m x).queued } := by
  unfold setQueued; by_cases h : x = t <;> simp [h]

@[simp] theorem setPrev_apply : m.setPrev t v x = { m x with prev := if x = t then v else (m x).prev } := by
  unfold setPrev; by_cases h : x = t <;> simp [h]

@[simp] theorem setNext_apply : m.setNext t v x = { m x with next := if x = t then v else (m x).next } := by
  unfold setNext; by_cases h : x = t <;> simp [h]

end Links

namespace ReadyQueue

def new : ReadyQueue T := ⟨0, fun _ => none⟩

/-- `top`: 63 minus the leading zeros of the mask. -/
def top (q : ReadyQueue T) : Option Nat := if q.mask = 0 then none else some (Nat.log2 q.mask)

/-- `first`. -/
def first (q : ReadyQueue T) (level : Nat) : Option T := q.heads level

/-- `level`, checked (sched.rs:451). -/
def levelOf (m : Links T) (t : T) : Option Nat :=
  if 1 ≤ (m t).level ∧ (m t).level < PRIORITY_LEVELS then some (m t).level else none

/-- The mask without the bit of `level`. -/
def clearBit (mask level : Nat) : Nat := mask &&& ((2 ^ 64 - 1) ^^^ (1 <<< level))

variable [DecidableEq T]

/-- `link_last` (sched.rs:474). -/
def linkLast (q : ReadyQueue T) (m : Links T) (t : T) (level : Nat) : Option (ReadyQueue T × Links T) :=
  if (m t).queued then none
  else
    let m := m.setQueued t true
    match q.heads level with
    | none =>
      let m := (m.setPrev t (some t)).setNext t (some t)
      some (⟨q.mask ||| 1 <<< level, update q.heads level (some t)⟩, m)
    | some head => do
      let tail ← (m head).prev
      let m := (m.setPrev t (some tail)).setNext t (some head)
      let m := (m.setNext tail (some t)).setPrev head (some t)
      some (q, m)

/-- `push_head` (sched.rs:448). -/
def pushHead (q : ReadyQueue T) (m : Links T) (t : T) : Option (ReadyQueue T × Links T) := do
  let level ← levelOf m t
  let (q, m) ← q.linkLast m t level
  some ({ q with heads := update q.heads level (some t) }, m)

/-- `push_tail` (sched.rs:461). -/
def pushTail (q : ReadyQueue T) (m : Links T) (t : T) : Option (ReadyQueue T × Links T) := do
  let level ← levelOf m t
  q.linkLast m t level

/-- `remove` (sched.rs:501). -/
def remove (q : ReadyQueue T) (m : Links T) (t : T) : Option (ReadyQueue T × Links T) := do
  let level ← levelOf m t
  if (m t).queued then
    let m := m.setQueued t false
    let prev ← (m t).prev
    let m := m.setPrev t none
    let next ← (m t).next
    let m := m.setNext t none
    if next = t then
      some (⟨clearBit q.mask level, update q.heads level none⟩, m)
    else
      let m := (m.setNext prev (some next)).setPrev next (some prev)
      let heads := if q.heads level = some t then update q.heads level (some next) else q.heads
      some ({ q with heads := heads }, m)
  else none

/-- `move_to` (sched.rs:532). -/
def moveTo (q : ReadyQueue T) (m : Links T) (t : T) (level : Nat) : Option (ReadyQueue T × Links T) :=
  let old := (m t).level
  if level = old then some (q, m)
  else do
    let (q, m) ← q.remove m t
    let l ← (m t).setLevel level
    let m := update m t l
    if old < level then q.pushTail m t else q.pushHead m t

end ReadyQueue

open ReadyQueue

/-! ## The 64 lists -/

def nextOf (m : Links T) (t : T) : Option T := (m t).next
def prevOf (m : Links T) (t : T) : Option T := (m t).prev

/-- The queue holds these lists. -/
structure Holds (q : ReadyQueue T) (m : Links T) (ls : Nat → List T) : Prop where
  ring : ∀ l, IsRing (nextOf m) (prevOf m) (ls l)
  nodup : ∀ l, (ls l).Nodup
  item : ∀ l t, t ∈ ls l → (m t).level = l ∧ (m t).queued = true
  level : ∀ l, ls l ≠ [] → 1 ≤ l ∧ l < PRIORITY_LEVELS
  head : ∀ l, q.heads l = (ls l).head?
  mask : ∀ l, q.mask.testBit l = true ↔ ls l ≠ []

/-- What an operation on `t` at the level of the list `l` may change: the neighbours in that ring and
whether `t` is queued. -/
structure Frame (m m' : Links T) (t : T) (l : List T) : Prop where
  level : ∀ x, (m' x).level = (m x).level
  queued : ∀ x, x ≠ t → (m' x).queued = (m x).queued
  same : ∀ x, x ≠ t → x ∉ l → m' x = m x

variable {q q' : ReadyQueue T} {m m' : Links T} {ls : Nat → List T} {t : T} {L : Nat}

theorem holds_new (m : Links T) : Holds new m fun _ => [] :=
  ⟨fun _ => isRing_nil, fun _ => nodup_nil, by simp, by simp, fun _ => rfl, by simp [new]⟩

theorem Holds.level_eq (h : Holds q m ls) {l l' : Nat} (h1 : t ∈ ls l) (h2 : t ∈ ls l') : l = l' :=
  (h.item l t h1).1.symm.trans (h.item l' t h2).1

theorem Holds.not_mem (h : Holds q m ls) (ht : (m t).queued = false) (l : Nat) : t ∉ ls l := by
  intro hm
  have := (h.item l t hm).2
  rw [ht] at this
  cases this

/-- The rule for every operation: one list becomes `l'`, over `t` and the items it had. -/
theorem Holds.update (h : Holds q m ls) (hf : Frame m m' t (ls L)) (hL : (m t).level = L) (hr : 1 ≤ L ∧ L < PRIORITY_LEVELS)
    {l' : List T} (hring : IsRing (nextOf m') (prevOf m') l') (hnd : l'.Nodup)
    (hmem : ∀ x ∈ l', (x = t ∨ x ∈ ls L) ∧ (m' x).queued = true)
    (hout : ∀ l, l ≠ L → t ∉ ls l)
    (hheads : ∀ l, q'.heads l = if l = L then l'.head? else q.heads l)
    (hmask : ∀ l, q'.mask.testBit l = true ↔ if l = L then l' ≠ [] else ls l ≠ []) :
    Holds q' m' (update ls L l') := by
  have hother : ∀ l, l ≠ L → ∀ x ∈ ls l, m' x = m x := by
    intro l hl x hx
    refine hf.same x ?_ fun hx' => hl (h.level_eq hx hx')
    rintro rfl
    exact hout l hl hx
  refine ⟨fun l => ?_, fun l => ?_, fun l x => ?_, fun l => ?_, fun l => ?_, fun l => ?_⟩
  all_goals by_cases hl : l = L
  · subst hl; rw [update_self]; exact hring
  · rw [update_of_ne hl]
    refine (h.ring l).congr (fun x hx => ?_) fun x hx => ?_
    · rw [nextOf, hother l hl x hx]; rfl
    · rw [prevOf, hother l hl x hx]; rfl
  · subst hl; rw [update_self]; exact hnd
  · rw [update_of_ne hl]; exact h.nodup l
  · subst hl
    rw [update_self]
    intro hx
    obtain ⟨hx1, hx2⟩ := hmem x hx
    refine ⟨?_, hx2⟩
    rw [hf.level x]
    rcases hx1 with rfl | hx1
    · exact hL
    · exact (h.item l x hx1).1
  · rw [update_of_ne hl]
    intro hx
    rw [hother l hl x hx]
    exact h.item l x hx
  · subst hl; rw [update_self]; exact fun _ => hr
  · rw [update_of_ne hl]; exact h.level l
  · subst hl; rw [update_self, hheads, if_pos rfl]
  · rw [update_of_ne hl, hheads, if_neg hl]; exact h.head l
  · subst hl; rw [update_self, hmask, if_pos rfl]
  · rw [update_of_ne hl, hmask, if_neg hl]

/-! ## Adding an item -/

section
variable [DecidableEq T]

section
variable (h : Holds q m ls)
include h

/-- `link_last` makes `t` the last item of its ring. -/
theorem linkLast_spec (ht : (m t).queued = false) :
    ∃ q' m', q.linkLast m t L = some (q', m') ∧ Frame m m' t (ls L) ∧ (m' t).queued = true ∧
      IsRing (nextOf m') (prevOf m') (ls L ++ [t]) ∧
      (∀ l, q'.heads l = if l = L then (ls L ++ [t]).head? else q.heads l) ∧
      ∀ l, q'.mask.testBit l = true ↔ l = L ∨ ls l ≠ [] := by
  have htm := h.not_mem ht
  rcases eq_nil_or_concat (ls L) with hnil | ⟨l, z, hl⟩
  · -- the level was empty
    have hh : q.heads L = none := by rw [h.head L, hnil]; rfl
    refine ⟨_, _, by simp only [linkLast, ht, hh]; rfl, ⟨fun x => by simp, fun x hx => by simp [hx],
      fun x hx _ => ?_⟩, by simp, ?_, fun l => ?_, fun l => ?_⟩
    · simp [hx]
    · rw [hnil, nil_append, isRing_singleton]
      simp [nextOf, prevOf]
    · by_cases hl : l = L
      · subst hl; simp [hnil]
      · simp [hl]
    · rw [Nat.testBit_or, Nat.one_shiftLeft, Nat.testBit_two_pow, Bool.or_eq_true, h.mask l, decide_eq_true_iff,
        or_comm, eq_comm]
  · rw [concat_eq_append] at hl
    obtain ⟨a, ha⟩ : ∃ a, (l ++ [z]).head? = some a := by cases l <;> simp
    have hh : q.heads L = some a := by rw [h.head L, hl, ha]
    have hring := h.ring L
    rw [hl] at hring
    have htl : t ∉ l ++ [z] := by rw [← hl]; exact htm L
    have hta : a ≠ t := by rintro rfl; exact htl (mem_of_head? ha)
    have htz : z ≠ t := by rintro rfl; exact htl (by simp)
    have hprev : (m a).prev = some z := hring.prev_head ha
    refine ⟨q, _, by simp [linkLast, ht, hh, hprev]; rfl, ⟨fun x => by simp, fun x hx => by simp [hx],
      fun x hx hxl => ?_⟩, by simp, ?_, fun l' => ?_, fun l' => ?_⟩
    · have hxa : x ≠ a := by rintro rfl; exact hxl (hl ▸ mem_of_head? ha)
      have hxz : x ≠ z := by rintro rfl; exact hxl (by rw [hl]; simp)
      simp [hx, hxa, hxz]
    · rw [hl]
      refine hring.insert ha (hl ▸ h.nodup L) htl ?_ ?_ ?_ ?_ (fun x h1 h2 => ?_) fun x h1 h2 => ?_
      · simp [prevOf, hta.symm]
      · simp [nextOf, htz.symm]
      · simp [nextOf]
      · simp [prevOf]
      · simp [nextOf, h1, h2]
      · simp [prevOf, h1, h2]
    · by_cases hl' : l' = L
      · subst hl'; rw [if_pos rfl, hl, head?_append, ha, hh]; rfl
      · rw [if_neg hl']
    · rw [h.mask l']
      refine ⟨Or.inr, ?_⟩
      rintro (rfl | hne)
      · rw [hl]; simp
      · exact hne

/-- Either push: `t` comes to the tail of its level, or to the head, which is the same ring read from `t`. -/
theorem push_spec (tail : Bool) (ht : (m t).queued = false) (hL : (m t).level = L)
    (hr : 1 ≤ L ∧ L < PRIORITY_LEVELS) :
    ∃ q' m', (if tail then q.pushTail m t else q.pushHead m t) = some (q', m') ∧ Frame m m' t (ls L) ∧
      (m' t).queued = true ∧ Holds q' m' (update ls L (if tail then ls L ++ [t] else t :: ls L)) := by
  obtain ⟨q₁, m', he, hf, hq, hring, hheads, hmask⟩ := linkLast_spec h ht
  have htm := h.not_mem ht
  have hlev : levelOf m t = some L := by rw [levelOf, hL, if_pos hr]
  have hput : ∀ q' : ReadyQueue T, ∀ l', l' ~r (t :: ls L) → q'.mask = q₁.mask →
      (∀ l, q'.heads l = if l = L then l'.head? else q.heads l) → Holds q' m' (update ls L l') := by
    intro q' l' hrot hm hheads
    have hmem : ∀ x, x ∈ l' ↔ x = t ∨ x ∈ ls L := fun x => by rw [hrot.mem_iff, mem_cons]
    refine h.update hf hL hr ?_ (hrot.nodup_iff.2 (nodup_cons.2 ⟨htm L, h.nodup L⟩)) (fun x hx => ?_) (fun l _ => htm l)
      hheads fun l => ?_
    · exact (isRing_congr ((rotated_append (ls L) [t]).trans hrot.symm)).1 hring
    · refine ⟨(hmem x).1 hx, ?_⟩
      rcases (hmem x).1 hx with rfl | hm
      · exact hq
      · have hxt : x ≠ t := by rintro rfl; exact htm L hm
        rw [hf.queued x hxt]
        exact (h.item L x hm).2
    · rw [hm, hmask l]
      by_cases hl : l = L
      · simp [hl, ne_nil_of_mem ((hmem t).2 (.inl rfl))]
      · simp [hl]
  cases tail with
  | true => exact ⟨q₁, m', by simp [pushTail, hlev, he], hf, hq, hput q₁ _ (rotated_append (ls L) [t]) rfl hheads⟩
  | false =>
    refine ⟨{ q₁ with heads := update q₁.heads L (some t) }, m', by simp [pushHead, hlev, he], hf, hq,
      hput _ _ (.refl _) rfl fun l => ?_⟩
    by_cases hl : l = L
    · subst hl; simp
    · simp [hl, hheads]

/-! ## Taking an item out -/

omit h in
theorem clearBit_testBit {mask l i : Nat} (hi : mask.testBit i = true → i < 64) :
    (clearBit mask l).testBit i = true ↔ i ≠ l ∧ mask.testBit i = true := by
  unfold clearBit
  rw [Nat.testBit_and, Nat.testBit_xor, Nat.testBit_two_pow_sub_one, Nat.one_shiftLeft]
  by_cases hm : mask.testBit i = true
  · have := hi hm
    by_cases hl : i = l
    · subst hl; simp [this]
    · simp [this, hl, Ne.symm hl]
  · simp [hm]

omit [DecidableEq T] in
/-- The item `t` of a ring by its neighbours: it is alone, or stands between the two ends of the rest. -/
theorem Holds.ring_at {l₁ l₂ : List T} (hl : ls L = l₁ ++ t :: l₂) :
    (l₂ ++ l₁ = [] ∧ (m t).next = some t ∧ (m t).prev = some t) ∨
      ∃ w z a, l₂ ++ l₁ = w ++ [z] ∧ (w ++ [z]).head? = some a ∧ (m t).next = some a ∧ (m t).prev = some z ∧
        IsRing (nextOf m) (prevOf m) (t :: (w ++ [z])) ∧ (t :: (w ++ [z])).Nodup := by
  have hrot : ls L ~r (t :: (l₂ ++ l₁)) := by
    rw [hl]
    exact rotated_append l₁ (t :: l₂)
  have hring := (isRing_congr hrot).1 (h.ring L)
  have hnd := (hrot.nodup_iff).1 (h.nodup L)
  rcases eq_nil_or_concat (l₂ ++ l₁) with hnil | ⟨w, z, hw⟩
  · rw [hnil, isRing_singleton] at hring
    exact Or.inl ⟨hnil, hring.1, hring.2⟩
  · rw [concat_eq_append] at hw
    rw [hw] at hring hnd
    obtain ⟨a, ha⟩ : ∃ a, (w ++ [z]).head? = some a := by cases w <;> simp
    obtain ⟨h1, h2⟩ := hring.neighbours ha
    exact Or.inr ⟨w, z, a, hw, ha, h1, h2, hring, hnd⟩

theorem remove_spec (ht : t ∈ ls L) :
    ∃ q' m', q.remove m t = some (q', m') ∧ Frame m m' t (ls L) ∧
      m' t = { m t with queued := false, prev := none, next := none } ∧
      Holds q' m' (update ls L ((ls L).erase t)) := by
  obtain ⟨hL, hq⟩ := h.item L t ht
  have hr := h.level L (ne_nil_of_mem ht)
  obtain ⟨l₁, l₂, hl⟩ := append_of_mem ht
  have hnd := h.nodup L
  have ht1 : t ∉ l₁ := by
    rw [hl, nodup_append] at hnd
    exact fun hm => hnd.2.2 t hm t (by simp) rfl
  have herase : (ls L).erase t = l₁ ++ l₂ := by
    rw [hl, erase_append_right _ ht1, erase_cons_head]
  have hbit : ∀ i, q.mask.testBit i = true → i < 64 := fun i hi => (h.level i ((h.mask i).1 hi)).2
  have hout : ∀ l, l ≠ L → t ∉ ls l := fun l hl' hm => hl' (h.level_eq hm ht)
  have hlev : levelOf m t = some L := by rw [levelOf, hL, if_pos hr]
  rw [herase]
  rcases h.ring_at hl with ⟨hnil, hn, hp⟩ | ⟨w, z, a, hw, ha, hn, hp, hring, hndw⟩
  · -- the last item of its level
    obtain ⟨rfl, rfl⟩ := append_eq_nil_iff.1 hnil
    have hf : Frame m (((m.setQueued t false).setPrev t none).setNext t none) t (ls L) := by
      refine ⟨fun x => by simp, fun x hx => by simp [hx], fun x hx _ => ?_⟩
      simp [hx]
    refine ⟨⟨clearBit q.mask L, update q.heads L none⟩, _,
      by simp [remove, hlev, hq, hn, hp], hf, ?_, h.update hf hL hr isRing_nil nodup_nil (by simp) hout (fun l => ?_) fun l => ?_⟩
    · simp
    · by_cases hl' : l = L
      · subst hl'; simp
      · simp [hl']
    · rw [clearBit_testBit (hbit l), h.mask l]
      by_cases hl' : l = L
      · simp
      · simp [hl']
  · have hta : a ≠ t := by
      rintro rfl
      exact (nodup_cons.1 hndw).1 (mem_of_head? ha)
    have htz : z ≠ t := by
      rintro rfl
      exact (nodup_cons.1 hndw).1 (by simp)
    have hmem : ∀ x, x ∈ l₁ ++ l₂ ↔ x ∈ w ++ [z] := by
      intro x
      rw [← hw, mem_append, mem_append, or_comm]
    have hsub : ∀ x, x ∈ l₁ ++ l₂ → x ∈ ls L := by
      intro x hx
      rw [hl]
      rcases mem_append.1 hx with hx | hx
      · exact mem_append_left _ hx
      · exact mem_append_right _ (mem_cons_of_mem _ hx)
    obtain ⟨m', hm'⟩ : ∃ m', m' = ((((m.setQueued t false).setPrev t none).setNext t none).setNext z
      (some a)).setPrev a (some z) := ⟨_, rfl⟩
    have hf : Frame m m' t (ls L) := by
      refine ⟨fun x => by simp [hm'], fun x hx => by simp [hm', hx], fun x hx hxl => ?_⟩
      have hxa : x ≠ a := by rintro rfl; exact hxl (hsub x ((hmem x).2 (mem_of_head? ha)))
      have hxz : x ≠ z := by rintro rfl; exact hxl (hsub x ((hmem x).2 (by simp)))
      simp [hm', hx, hxa, hxz]
    have hring' : IsRing (nextOf m') (prevOf m') (w ++ [z]) :=
      hring.remove ha hndw (by simp [hm', nextOf]) (by simp [hm', prevOf])
        (fun x h1 h2 => by simp [hm', nextOf, h1, h2]) fun x h1 h2 => by simp [hm', prevOf, h1, h2]
    have hrot : (w ++ [z]) ~r (l₁ ++ l₂) := by
      rw [← hw]
      exact rotated_append l₂ l₁
    refine ⟨{ q with heads := if q.heads L = some t then update q.heads L (some a) else q.heads }, m',
      by simp [remove, hlev, hq, hn, hp, hta, hm'], hf, ?_,
      h.update hf hL hr ((isRing_congr hrot).1 hring') (hrot.nodup_iff.1 (nodup_cons.1 hndw).2)
        (fun x hx => ⟨Or.inr (hsub x hx), ?_⟩) hout (fun l => ?_) fun l => ?_⟩
    · simp [hm', hta.symm, htz.symm]
    · have hxt : x ≠ t := by
        rintro rfl
        exact (nodup_cons.1 hndw).1 ((hmem x).1 hx)
      rw [hf.queued x hxt]
      exact (h.item L x (hsub x hx)).2
    · by_cases hl' : l = L
      · subst hl'
        rw [if_pos rfl, h.head l, hl]
        cases l₁ with
        | nil =>
          rw [append_nil] at hw
          simp [hw, ha]
        | cons b l₁ =>
          have hbt : b ≠ t := by rintro rfl; exact ht1 (by simp)
          simp [hbt, h.head l, hl]
      · rw [if_neg hl']
        split
        · exact update_of_ne hl' _ _
        · rfl
    · rw [h.mask l]
      by_cases hl' : l = L
      · subst hl'
        rw [if_pos rfl, hl]
        refine iff_of_true (by simp) fun hnil => ?_
        have := (hmem z).2 (by simp)
        rw [hnil] at this
        cases this
      · rw [if_neg hl']

/-- The link of an item in none of the lists changes unseen. -/
theorem Holds.set_link_of_not_mem (ht : ∀ l, t ∉ ls l) (k : Link T) :
    Holds q (Function.update m t k) ls := by
  have hne : ∀ l, ∀ x ∈ ls l, x ≠ t := by
    rintro l x hx rfl
    exact ht l hx
  refine ⟨fun l => ?_, h.nodup, fun l x hx => ?_, h.level, h.head, h.mask⟩
  · refine (h.ring l).congr (fun x hx => ?_) fun x hx => ?_
    · rw [nextOf, update_of_ne (hne l x hx)]; rfl
    · rw [prevOf, update_of_ne (hne l x hx)]; rfl
  · rw [update_of_ne (hne l x hx)]
    exact h.item l x hx

theorem Holds.set_link (ht : (m t).queued = false) (k : Link T) :
    Holds q (Function.update m t k) ls :=
  h.set_link_of_not_mem (h.not_mem ht) k

/-- **`move_to`**: raised, to the tail of the new level; lowered, to the head; else nothing. -/
theorem moveTo_spec (ht : t ∈ ls L) {N : Nat} (hN : 1 ≤ N ∧ N < PRIORITY_LEVELS) :
    ∃ q' m', q.moveTo m t N = some (q', m') ∧
      (∀ x, x ≠ t → (m' x).level = (m x).level ∧ (m' x).queued = (m x).queued) ∧
      (∀ x, x ≠ t → x ∉ ls L → x ∉ ls N → m' x = m x) ∧ (m' t).level = N ∧ (m' t).queued = true ∧
      Holds q' m' (if N = L then ls else
        let ls := update ls L ((ls L).erase t)
        update ls N (if L < N then ls N ++ [t] else t :: ls N)) := by
  obtain ⟨hL, hq⟩ := h.item L t ht
  unfold moveTo
  rw [hL]
  by_cases hNL : N = L
  · rw [if_pos hNL, if_pos hNL]
    exact ⟨q, m, rfl, fun _ _ => ⟨rfl, rfl⟩, fun _ _ _ _ => rfl, hL.trans hNL.symm, hq, h⟩
  · rw [if_neg hNL, if_neg hNL]
    obtain ⟨q1, m1, he1, hf1, ht1, h1⟩ := remove_spec h ht
    have hq1 : (m1 t).queued = false := by rw [ht1]
    have h2 := h1.set_link hq1 { m1 t with level := N }
    generalize hm2 : update m1 t { m1 t with level := N } = m2 at h2
    have hm2t : (m2 t).level = N := by rw [← hm2, update_self]
    have hq2 : (m2 t).queued = false := by rw [← hm2, update_self]; exact hq1
    have hne2 : ∀ x, x ≠ t → m2 x = m1 x := fun x hx => by rw [← hm2, update_of_ne hx]
    obtain ⟨q', m', he, hf, hq', h'⟩ := push_spec h2 (decide (L < N)) hq2 hm2t hN
    simp only [decide_eq_true_eq] at he h'
    refine ⟨q', m', ?_, fun x hx => ?_, fun x hx h1 h2 => ?_, (hf.level t).trans hm2t, hq', h'⟩
    · have hset : (m1 t).setLevel N = some { m1 t with level := N } := by
        rw [Link.setLevel, if_neg (by simp [hq1])]
      simp only [he1, Option.bind_eq_bind, Option.bind_some, hset, hm2]
      exact he
    · exact ⟨by rw [hf.level, hne2 x hx, hf1.level], by rw [hf.queued x hx, hne2 x hx, hf1.queued x hx]⟩
    · rw [hf.same x hx (by rw [update_of_ne hNL]; exact h2), hne2 x hx, hf1.same x hx h1]

end

end

/-! ## The top -/

theorem Holds.top_none (h : Holds q m ls) (ht : q.top = none) (l : Nat) : ls l = [] := by
  unfold top at ht
  split at ht
  case isFalse => cases ht
  case isTrue h0 =>
    by_contra hl
    have := (h.mask l).2 hl
    rw [h0, Nat.zero_testBit] at this
    cases this

theorem Holds.top_some (h : Holds q m ls) (ht : q.top = some L) :
    ls L ≠ [] ∧ ∀ l, ls l ≠ [] → l ≤ L := by
  unfold top at ht
  split at ht
  case isTrue => cases ht
  case isFalse h0 =>
    cases ht
    refine ⟨(h.mask _).1 ?_, fun l hl => ?_⟩
    · exact Nat.testBit_of_two_pow_le_and_two_pow_add_one_gt (Nat.log2_self_le h0) Nat.lt_log2_self
    · by_contra hlt
      have hlt' : q.mask < 2 ^ l :=
        lt_of_lt_of_le Nat.lt_log2_self (Nat.pow_le_pow_right (by omega) (by omega))
      have := (h.mask l).2 hl
      rw [Nat.testBit_lt_two_pow hlt'] at this
      cases this

theorem Holds.top_eq_none (h : Holds q m ls) : q.top = none ↔ ∀ l, ls l = [] := by
  refine ⟨h.top_none, fun hall => ?_⟩
  cases ht : q.top with
  | none => rfl
  | some l => exact absurd (hall l) (h.top_some ht).1

theorem Holds.top_eq_some (h : Holds q m ls) : q.top = some L ↔ ls L ≠ [] ∧ ∀ l, ls l ≠ [] → l ≤ L := by
  refine ⟨h.top_some, fun ⟨hne, hmax⟩ => ?_⟩
  cases ht : q.top with
  | none => exact absurd (h.top_none ht L) hne
  | some l =>
    have hl := h.top_some ht
    rw [le_antisymm (hmax l hl.1) (hl.2 L hne)]

/-! ## The queue as a set

For a queue that is the only one its items go to: the items of `rd` are in it, each at its own level. -/

structure HoldsSet (q : ReadyQueue T) (m : Links T) (rd : T → Prop) (ls : Nat → List T) : Prop where
  holds : Holds q m ls
  mem : ∀ t, t ∈ ls (m t).level ↔ rd t
  queued : ∀ t, (m t).queued = true ↔ rd t

variable {rd : T → Prop}

section
variable (h : HoldsSet q m rd ls)
include h

theorem HoldsSet.mem_iff (l : Nat) : t ∈ ls l ↔ rd t ∧ l = (m t).level := by
  constructor
  · intro ht
    have hl := (h.holds.item l t ht).1
    exact ⟨(h.mem t).1 (hl ▸ ht), hl.symm⟩
  · rintro ⟨hr, rfl⟩
    exact (h.mem t).2 hr

theorem HoldsSet.congr {rd' : T → Prop} (hr : ∀ x, rd x ↔ rd' x) : HoldsSet q m rd' ls :=
  ⟨h.holds, fun x => (h.mem x).trans (hr x), fun x => (h.queued x).trans (hr x)⟩

theorem HoldsSet.not_queued (ht : ¬ rd t) : (m t).queued = false := by
  rw [← Bool.not_eq_true, h.queued t]
  exact ht

theorem HoldsSet.top_eq_none : q.top = none ↔ ∀ t, ¬ rd t := by
  rw [h.holds.top_eq_none]
  constructor
  · intro hnil t ht
    have := (h.mem t).2 ht
    rw [hnil] at this
    cases this
  · intro hno l
    refine eq_nil_iff_forall_not_mem.2 fun t ht => ?_
    exact hno t ((h.mem_iff l).1 ht).1

theorem HoldsSet.top_eq_some :
    q.top = some L ↔ (∃ t, rd t ∧ (m t).level = L) ∧ ∀ t, rd t → (m t).level ≤ L := by
  rw [h.holds.top_eq_some]
  refine and_congr ⟨fun hne => ?_, ?_⟩ ⟨fun hmax t ht => ?_, fun hmax l hl => ?_⟩
  · obtain ⟨t, ht⟩ := exists_mem_of_ne_nil _ hne
    have hm := (h.mem_iff L).1 ht
    exact ⟨t, hm.1, hm.2.symm⟩
  · rintro ⟨t, ht, rfl⟩
    exact ne_nil_of_mem ((h.mem t).2 ht)
  · exact hmax _ (ne_nil_of_mem ((h.mem t).2 ht))
  · obtain ⟨t, ht⟩ := exists_mem_of_ne_nil _ hl
    have hm := (h.mem_iff l).1 ht
    exact hm.2 ▸ hmax t hm.1

end

/-- Outside the queue nothing changes; inside it no level does. -/
structure SetFrame (m m' : Links T) (rd : T → Prop) (t : T) : Prop where
  level : ∀ x, x ≠ t → (m' x).level = (m x).level
  same : ∀ x, x ≠ t → ¬ rd x → m' x = m x

theorem HoldsSet.frame (h : HoldsSet q m rd ls) (hf : Frame m m' t (ls L)) : SetFrame m m' rd t :=
  ⟨fun x _ => hf.level x, fun x hx hr => hf.same x hx fun hm => hr ((h.mem_iff L).1 hm).1⟩

section
variable [DecidableEq T]

theorem HoldsSet.push (h : HoldsSet q m rd ls) (ht : ¬ rd t)
    (hr : 1 ≤ (m t).level ∧ (m t).level < PRIORITY_LEVELS) (tail : Bool) :
    ∃ q' m' ls', (if tail then q.pushTail m t else q.pushHead m t) = some (q', m') ∧
      HoldsSet q' m' (fun x => rd x ∨ x = t) ls' ∧ SetFrame m m' rd t ∧ (m' t).level = (m t).level := by
  have hq := h.not_queued ht
  obtain ⟨q', m', he, hf, hq', hh⟩ := push_spec h.holds tail hq rfl hr
  have hmem : ∀ x, x ∈ (if tail then ls (m t).level ++ [t] else t :: ls (m t).level) ↔ x ∈ ls (m t).level ∨ x = t := by
    cases tail <;> simp [or_comm]
  refine ⟨q', m', _, he, ⟨hh, fun x => ?_, fun x => ?_⟩, h.frame hf, hf.level t⟩
  · rw [hf.level x]
    by_cases hxt : x = t
    · subst hxt
      rw [update_self, hmem]
      simp
    · simp only [hxt, or_false]
      by_cases hl : (m x).level = (m t).level
      · rw [hl, update_self, hmem, ← hl]
        simp only [hxt, or_false]
        exact h.mem x
      · rw [update_of_ne hl]
        exact h.mem x
  · by_cases hxt : x = t
    · subst hxt; simp [hq']
    · rw [hf.queued x hxt, h.queued x]; simp [hxt]

theorem HoldsSet.remove (h : HoldsSet q m rd ls) (ht : rd t) :
    ∃ q' m' ls', q.remove m t = some (q', m') ∧ HoldsSet q' m' (fun x => rd x ∧ x ≠ t) ls' ∧ SetFrame m m' rd t ∧
      m' t = { m t with queued := false, prev := none, next := none } := by
  obtain ⟨q', m', he, hf, hmt, hh⟩ := remove_spec h.holds ((h.mem t).2 ht)
  refine ⟨q', m', _, he, ⟨hh, fun x => ?_, fun x => ?_⟩, h.frame hf, hmt⟩
  · rw [hf.level x]
    by_cases hl : (m x).level = (m t).level
    · rw [hl, update_self, (h.holds.nodup _).mem_erase_iff, ← hl, h.mem x, and_comm]
    · rw [update_of_ne hl, h.mem x]
      have hxt : x ≠ t := by rintro rfl; exact hl rfl
      simp [hxt]
  · by_cases hxt : x = t
    · subst hxt; simp [hmt]
    · rw [hf.queued x hxt, h.queued x]; simp [hxt]

theorem HoldsSet.set_link (h : HoldsSet q m rd ls) (ht : ¬ rd t) {k : Link T} (hk : k.queued = false) :
    HoldsSet q (update m t k) rd ls := by
  have hq := h.not_queued ht
  refine ⟨h.holds.set_link hq k, fun x => ?_, fun x => ?_⟩
  · by_cases hxt : x = t
    · subst hxt
      exact iff_of_false (h.holds.not_mem hq _) ht
    · rw [update_of_ne hxt]; exact h.mem x
  · by_cases hxt : x = t
    · subst hxt
      rw [update_self, hk]
      simpa using ht
    · rw [update_of_ne hxt]; exact h.queued x

theorem HoldsSet.moveTo (h : HoldsSet q m rd ls) (ht : rd t) {N : Nat} (hN : 1 ≤ N ∧ N < PRIORITY_LEVELS) :
    ∃ q' m' ls', q.moveTo m t N = some (q', m') ∧ HoldsSet q' m' rd ls' ∧ SetFrame m m' rd t ∧ (m' t).level = N := by
  by_cases hNL : N = (m t).level
  · exact ⟨q, m, ls, if_pos hNL, h, ⟨fun _ _ => rfl, fun _ _ _ => rfl⟩, hNL.symm⟩
  · obtain ⟨q1, m1, ls1, he1, h1, hf1, ht1⟩ := h.remove ht
    have hq1 : (m1 t).queued = false := by rw [ht1]
    have hset : (m1 t).setLevel N = some { m1 t with level := N } := if_neg (by simp [hq1])
    have h2 := h1.set_link (k := { m1 t with level := N }) (fun hr => hr.2 rfl) hq1
    obtain ⟨q2, m2, ls2, he2, h3, hf2, hl2⟩ := h2.push (fun hr => hr.2 rfl) (by rw [update_self]; exact hN)
      (decide ((m t).level < N))
    refine ⟨q2, m2, ls2, ?_, h3.congr fun x => ?_, ⟨fun x hx => ?_, fun x hx hr => ?_⟩, by rw [hl2, update_self]⟩
    · simp only [decide_eq_true_eq] at he2
      simp only [ReadyQueue.moveTo, if_neg hNL, he1, Option.bind_eq_bind, Option.bind_some, hset]
      exact he2
    · by_cases hxt : x = t
      · simp [hxt, ht]
      · simp [hxt]
    · rw [hf2.level x hx, update_of_ne hx, hf1.level x hx]
    · rw [hf2.same x hx fun h => hr h.1, update_of_ne hx, hf1.same x hx hr]

end

/-! ## The queue refines 64 lists

What the queue is for: each item has a level, and each level a list. The operations are those on lists;
the contracts are those the methods state, in these terms. -/

structure Lists (T : Type) where
  level : T → Nat
  list : Nat → List T

namespace Lists

/-- The item stands in a list. -/
def Has (a : Lists T) (t : T) : Prop := ∃ l, t ∈ a.list l

variable [DecidableEq T]

def put (a : Lists T) (t : T) (xs : List T) : Lists T := { a with list := update a.list (a.level t) xs }

def setLevel (a : Lists T) (t : T) (level : Nat) : Lists T := { a with level := update a.level t level }

def pushHead (a : Lists T) (t : T) : Lists T := a.put t (t :: a.list (a.level t))

def pushTail (a : Lists T) (t : T) : Lists T := a.put t (a.list (a.level t) ++ [t])

def remove (a : Lists T) (t : T) : Lists T := a.put t ((a.list (a.level t)).erase t)

/-- Raised, to the tail; lowered, to the head; else where it is. -/
def moveTo (a : Lists T) (t : T) (level : Nat) : Lists T :=
  if level = a.level t then a
  else
    let b := (a.remove t).setLevel t level
    if a.level t < level then b.pushTail t else b.pushHead t

end Lists

/-- The operations on a queue; between them the level of an item outside may change. -/
inductive QueueOp (T : Type) where
  | pushHead (t : T)
  | pushTail (t : T)
  | remove (t : T)
  | moveTo (t : T) (level : Nat)
  | setLevel (t : T) (level : Nat)

namespace QueueOp

def Meets (a : Lists T) : QueueOp T → Prop
  | pushHead t | pushTail t => ¬ a.Has t ∧ (1 ≤ a.level t ∧ a.level t < PRIORITY_LEVELS)
  | remove t => a.Has t
  | moveTo t level => a.Has t ∧ (1 ≤ level ∧ level < PRIORITY_LEVELS)
  | setLevel t _ => ¬ a.Has t

variable [DecidableEq T]

def exec (q : ReadyQueue T) (m : Links T) : QueueOp T → Option (ReadyQueue T × Links T)
  | pushHead t => q.pushHead m t
  | pushTail t => q.pushTail m t
  | remove t => q.remove m t
  | moveTo t level => q.moveTo m t level
  | setLevel t level => ((m t).setLevel level).map fun l => (q, update m t l)

def onLists (a : Lists T) : QueueOp T → Lists T
  | pushHead t => a.pushHead t
  | pushTail t => a.pushTail t
  | remove t => a.remove t
  | moveTo t level => a.moveTo t level
  | setLevel t level => a.setLevel t level

/-- A sequence on the queue. -/
def runQueue : List (QueueOp T) → ReadyQueue T → Links T → Option (ReadyQueue T × Links T)
  | [], q, m => some (q, m)
  | op :: ops, q, m => (op.exec q m).bind fun r => runQueue ops r.1 r.2

/-- The same sequence on the lists. -/
def runLists (a : Lists T) (ops : List (QueueOp T)) : Lists T := ops.foldl onLists a

def AllMeet (a : Lists T) : List (QueueOp T) → Prop
  | [] => True
  | op :: ops => op.Meets a ∧ AllMeet (op.onLists a) ops

end QueueOp

/-- The links and the queue stand for these lists; an item outside has no neighbours. -/
structure Refines (q : ReadyQueue T) (m : Links T) (a : Lists T) : Prop where
  holds : Holds q m a.list
  level : ∀ t, (m t).level = a.level t
  outside : ∀ t, ¬ a.Has t → (m t).queued = false ∧ (m t).prev = none ∧ (m t).next = none

section
variable {a : Lists T} {xs : List T}

theorem Refines.mem (h : Refines q m a) (ht : a.Has t) : t ∈ a.list (a.level t) := by
  obtain ⟨l, hl⟩ := ht
  rw [← h.level t, (h.holds.item l t hl).1]
  exact hl

theorem Lists.has_put {x : T} (hx : x ∈ a.list (a.level t) → x ∈ xs) (h : a.Has x) :
    (a.put t xs).Has x := by
  obtain ⟨l, hl⟩ := h
  by_cases hlt : l = a.level t
  · subst hlt
    exact ⟨a.level t, by simpa [Lists.put] using hx hl⟩
  · exact ⟨l, by simpa [Lists.put, hlt] using hl⟩

/-- One list took `t` in: the other items outside are the same ones. -/
theorem Refines.pushed (h : Refines q m a) (hf : Frame m m' t (a.list (a.level t)))
    (ht : t ∈ xs) (hxs : ∀ x ∈ a.list (a.level t), x ∈ xs)
    (hh : Holds q' m' (update a.list (a.level t) xs)) : Refines q' m' (a.put t xs) := by
  refine ⟨hh, fun x => (hf.level x).trans (h.level x), fun x hx => ?_⟩
  have hxt : x ≠ t := by
    rintro rfl
    exact hx ⟨a.level x, by simpa [Lists.put] using ht⟩
  have hxa : ¬ a.Has x := fun hm => hx (Lists.has_put (hxs x) hm)
  rw [hf.same x hxt fun hm => hxa ⟨_, hm⟩]
  exact h.outside x hxa

variable [DecidableEq T]

section
variable (h : Refines q m a)
include h

theorem Refines.push (tail : Bool) (ht : ¬ a.Has t)
    (hr : 1 ≤ a.level t ∧ a.level t < PRIORITY_LEVELS) :
    ∃ q' m', (if tail then q.pushTail m t else q.pushHead m t) = some (q', m') ∧
      Refines q' m' (if tail then a.pushTail t else a.pushHead t) := by
  obtain ⟨q', m', he, hf, -, hh⟩ := push_spec h.holds tail (h.outside t ht).1 (h.level t) hr
  refine ⟨q', m', he, ?_⟩
  cases tail with
  | true => exact h.pushed hf (by simp) (fun x hx => by simp [hx]) hh
  | false => exact h.pushed hf (by simp) (fun x hx => by simp [hx]) hh

theorem Refines.remove (ht : a.Has t) :
    ∃ q' m', q.remove m t = some (q', m') ∧ Refines q' m' (a.remove t) ∧ ¬ (a.remove t).Has t := by
  obtain ⟨q', m', he, hf, hmt, hh⟩ := remove_spec h.holds (h.mem ht)
  refine ⟨q', m', he, ⟨hh, fun x => (hf.level x).trans (h.level x), fun x hx => ?_⟩, ?_⟩
  · by_cases hxt : x = t
    · subst hxt
      rw [hmt]
      exact ⟨rfl, rfl, rfl⟩
    · have hxa : ¬ a.Has x := fun hm => hx (Lists.has_put (fun hx' => (mem_erase_of_ne hxt).2 hx') hm)
      rw [hf.same x hxt fun hm => hxa ⟨_, hm⟩]
      exact h.outside x hxa
  · rintro ⟨l, hl⟩
    have hq := (hh.item l t hl).2
    rw [hmt] at hq
    cases hq

theorem Refines.setLevel (ht : ¬ a.Has t) (level : Nat) :
    ∃ l, (m t).setLevel level = some l ∧ Refines q (update m t l) (a.setLevel t level) := by
  have ho := h.outside t ht
  refine ⟨{ m t with level := level }, by rw [Link.setLevel, if_neg (by simp [ho.1])],
    h.holds.set_link ho.1 _, fun x => ?_, fun x hx => ?_⟩
  · by_cases hxt : x = t
    · subst hxt; simp [Lists.setLevel]
    · simpa [Lists.setLevel, hxt] using h.level x
  · by_cases hxt : x = t
    · subst hxt
      rw [update_self]
      exact ho
    · rw [update_of_ne hxt]
      exact h.outside x hx

theorem Refines.moveTo (ht : a.Has t) {level : Nat}
    (hr : 1 ≤ level ∧ level < PRIORITY_LEVELS) :
    ∃ q' m', q.moveTo m t level = some (q', m') ∧ Refines q' m' (a.moveTo t level) := by
  unfold ReadyQueue.moveTo Lists.moveTo
  rw [h.level t]
  by_cases hl : level = a.level t
  · rw [if_pos hl, if_pos hl]
    exact ⟨q, m, rfl, h⟩
  · rw [if_neg hl, if_neg hl]
    obtain ⟨q1, m1, he1, h1, hn1⟩ := h.remove ht
    obtain ⟨l, hl, h2⟩ := h1.setLevel hn1 level
    have hlev : ((a.remove t).setLevel t level).level t = level := update_self ..
    have hn2 : ¬ ((a.remove t).setLevel t level).Has t := hn1
    simp only [he1, Option.bind_eq_bind, Option.bind_some, hl]
    simpa using h2.push (decide (a.level t < level)) hn2 (by rw [hlev]; exact hr)

theorem Refines.exec (op : QueueOp T) (hm : op.Meets a) :
    ∃ q' m', op.exec q m = some (q', m') ∧ Refines q' m' (op.onLists a) := by
  cases op with
  | pushHead t => exact h.push false hm.1 hm.2
  | pushTail t => exact h.push true hm.1 hm.2
  | remove t =>
    obtain ⟨q', m', he, h', -⟩ := h.remove hm
    exact ⟨q', m', he, h'⟩
  | moveTo t level => exact h.moveTo hm.1 hm.2
  | setLevel t level =>
    obtain ⟨l, hl, h'⟩ := h.setLevel hm level
    exact ⟨q, _, by rw [QueueOp.exec, hl]; rfl, h'⟩

end

theorem Refines.run (ops : List (QueueOp T)) : ∀ {q : ReadyQueue T} {m : Links T} {a : Lists T}, Refines q m a →
    QueueOp.AllMeet a ops → ∃ q' m', QueueOp.runQueue ops q m = some (q', m') ∧
      Refines q' m' (QueueOp.runLists a ops) := by
  induction ops with
  | nil => exact fun h _ => ⟨_, _, rfl, h⟩
  | cons op ops ih =>
    intro q m a h hm
    obtain ⟨q1, m1, he, h1⟩ := h.exec op hm.1
    obtain ⟨q', m', hr, h'⟩ := ih h1 hm.2
    exact ⟨q', m', by rw [QueueOp.runQueue, he]; exact hr, h'⟩

omit [DecidableEq T] in
theorem refines_new (hm : ∀ t, m t = Link.new (m t).level) :
    Refines new m ⟨fun t => (m t).level, fun _ => []⟩ := by
  refine ⟨holds_new m, fun _ => rfl, fun t _ => ?_⟩
  rw [hm t]
  exact ⟨rfl, rfl, rfl⟩

/-- The ring of a level read from its head, either way. -/
theorem Holds.readTo (h : Holds q m ls) {t : T} (hh : q.heads L = some t) :
    readTo (nextOf m) t (ls L).length t = some (ls L) ∧
      ∃ z, (m t).prev = some z ∧ readTo (prevOf m) z (ls L).length z = some (ls L).reverse := by
  have hring := h.ring L
  have hnd := h.nodup L
  rw [h.head L] at hh
  rcases eq_nil_or_concat (ls L) with hnil | ⟨w, z, hw⟩
  · rw [hnil] at hh
    cases hh
  · rw [concat_eq_append] at hw
    refine ⟨?_, z, ?_, ?_⟩
    · obtain ⟨l, hl⟩ := head?_eq_some_iff.1 hh
      rw [hl] at hring hnd ⊢
      exact hring.readTo hnd
    · rw [hw] at hring hh
      exact hring.prev_head hh
    · have hrev := hring.reverse
      have hndr := nodup_reverse.2 hnd
      rw [hw, reverse_concat] at hrev hndr
      have := hrev.readTo hndr
      rw [← reverse_concat, ← hw, length_reverse] at this
      exact this

/-- **`ReadyQueue` is 64 lists**: a sequence of operations that meet their contracts, on items that begin
outside, passes its assertions and ends with the lists the same sequence ends with. From its head each
ring is the list, and from its tail, backwards, the reverse; the mask, `top` and `first` are those of the
lists; each item has its level, and one outside has no neighbours. -/
theorem readyQueue_refines_lists (m : Links T) (hm : ∀ t, m t = Link.new (m t).level) (ops : List (QueueOp T))
    (hmeet : QueueOp.AllMeet ⟨fun t => (m t).level, fun _ => []⟩ ops) :
    ∃ q' m' a', QueueOp.runQueue ops new m = some (q', m') ∧
      a' = QueueOp.runLists ⟨fun t => (m t).level, fun _ => []⟩ ops ∧
      (∀ l t, q'.heads l = some t → readTo (nextOf m') t (a'.list l).length t = some (a'.list l) ∧
        ∃ z, (m' t).prev = some z ∧ readTo (prevOf m') z (a'.list l).length z = some (a'.list l).reverse) ∧
      (∀ l, (a'.list l).Nodup ∧ (a'.list l ≠ [] → 1 ≤ l ∧ l < PRIORITY_LEVELS)) ∧
      (∀ l, q'.mask.testBit l = true ↔ a'.list l ≠ []) ∧
      (q'.top = none ↔ ∀ l, a'.list l = []) ∧
      (∀ L, q'.top = some L ↔ a'.list L ≠ [] ∧ ∀ l, a'.list l ≠ [] → l ≤ L) ∧
      (∀ l, q'.first l = (a'.list l).head?) ∧
      (∀ t, (m' t).level = a'.level t) ∧
      (∀ t l, t ∈ a'.list l → (m' t).queued = true ∧ l = a'.level t) ∧
      ∀ t, ¬ a'.Has t → (m' t).queued = false ∧ (m' t).prev = none ∧ (m' t).next = none := by
  obtain ⟨q', m', hrun, h⟩ := Refines.run ops (refines_new hm) hmeet
  refine ⟨q', m', _, hrun, rfl, fun l t hh => h.holds.readTo hh, fun l => ⟨h.holds.nodup l, h.holds.level l⟩,
    h.holds.mask, h.holds.top_eq_none, fun L => h.holds.top_eq_some, h.holds.head, h.level, fun t l ht => ?_, h.outside⟩
  have hi := h.holds.item l t ht
  exact ⟨hi.2, by rw [← hi.1, h.level t]⟩

/-- Three items at two levels: one goes to the head, one is raised, the head is taken out. -/
theorem readyQueue_refines_lists_three :
    ∃ q' m', QueueOp.runQueue [.pushTail 0, .pushTail 1, .pushHead 2, .moveTo 1 9, .remove 2] new
        (fun _ : Fin 3 => Link.new 5) = some (q', m') ∧ q'.top = some 9 ∧ q'.first 5 = some 0 := by
  have hmeet : QueueOp.AllMeet ⟨fun _ : Fin 3 => 5, fun _ => []⟩
      [.pushTail 0, .pushTail 1, .pushHead 2, .moveTo 1 9, .remove 2] := by
    refine ⟨⟨?_, by decide⟩, ⟨?_, by decide⟩, ⟨?_, by decide⟩, ⟨⟨5, by decide⟩, by decide⟩, ⟨5, by decide⟩, trivial⟩
    all_goals
      rintro ⟨l, hl⟩
      revert hl
      by_cases h5 : l = 5
      · subst h5; decide
      · simp [QueueOp.onLists, Lists.pushTail, Lists.put, h5]
  obtain ⟨q', m', a', hrun, ha, -, -, -, -, htop, hfirst, -⟩ :=
    readyQueue_refines_lists (fun _ : Fin 3 => Link.new 5) (fun _ => rfl) _ hmeet
  refine ⟨q', m', hrun, (htop 9).2 ⟨?_, fun l hl => ?_⟩, ?_⟩
  · rw [ha]; decide
  · by_contra hlt
    refine hl ?_
    rw [ha]
    have h5 : l ≠ 5 := by omega
    have h9 : l ≠ 9 := by omega
    simp [QueueOp.runLists, QueueOp.onLists, Lists.moveTo, Lists.pushTail, Lists.pushHead, Lists.remove,
      Lists.setLevel, Lists.put, Link.new, h5, h9]
  · rw [hfirst, ha]; decide

end

end Sched
