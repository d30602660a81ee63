import Stafeto.TimerHeap
import Stafeto.Lib.Run

/-!
# A heap of timers over whole runs (kcore/src/timer.rs)

The state is a heap, the links of all timers and a book of what was put in: the deadline of each timer that
was inserted and not taken out since. A run inserts timers that are in no heap, removes timers of this one
wherever they stand and pops what expired, in any order; between its calls the links of timers that are not in
this heap change as they like, since they may stand in another.

`Kept` says that the links are those of a heap in order with the book's timers as its nodes; every call keeps
it and returns. The main theorem `heap_of_run` reads it back in terms of `at`, the walk along the bits of a
position: it fills the positions `1..len`, the links lead from each to its half and its doubles, and the book's
least deadline is on top.
-/

namespace Timer

open BinaryHeap Function

/-- A heap with the book of its timers. -/
structure Watched (T : Type) where
  heap : Heap T
  links : Links T
  book : T → Option Nat

variable {T : Type} [DecidableEq T]

/-- The book after `pop_expired` returned `out`. -/
def Watched.strike (book : T → Option Nat) (out : Option T) : T → Option Nat :=
  match out with
  | none => book
  | some t => update book t none

/-- One call, or a change to the links of timers that are not in the heap. -/
inductive Watched.Step : Watched T → Watched T → Prop
  | insert {s : Watched T} {t : T} {deadline : Nat} {r : Heap T × Links T} (unlinked : (s.links t).linked = false)
      (done : s.heap.insert s.links t deadline = some r) :
      Step s ⟨r.1, r.2, update s.book t (some deadline)⟩
  | remove {s : Watched T} {t : T} {r : Heap T × Links T} (inside : s.book t ≠ none)
      (done : s.heap.remove s.links t = some r) : Step s ⟨r.1, r.2, update s.book t none⟩
  | popExpired {s : Watched T} {now : Nat} {out : Option T} {r : Heap T × Links T}
      (done : s.heap.popExpired s.links now = some (out, r)) : Step s ⟨r.1, r.2, strike s.book out⟩
  | others {s : Watched T} {links : Links T} (same : ∀ t, s.book t ≠ none → links t = s.links t) :
      Step s { s with links := links }

/-- An empty heap; the links are those of any timers. -/
def Watched.Start (s : Watched T) : Prop := s.heap = Heap.new ∧ s.book = fun _ => none

/-- The links are those of a heap in order, with the book's timers and deadlines. -/
structure Watched.Kept (s : Watched T) : Prop where
  holds : Holds s.heap s.links {t | s.book t ≠ none}
  entry : ∀ t d, s.book t = some d → (s.links t).linked = true ∧ (s.links t).deadline = d

namespace Watched

variable {s s' : Watched T} {t : T}

omit [DecidableEq T] in
theorem Kept.start [Nonempty T] (h : s.Start) : s.Kept := by
  obtain ⟨hheap, hbook⟩ := h
  refine ⟨?_, fun t d ht => ?_⟩
  · have hempty : {t | s.book t ≠ none} = (∅ : Set T) := by simp [hbook]
    rw [hempty, hheap]
    exact holds_new s.links
  · simp [hbook] at ht

omit [DecidableEq T] in
theorem Kept.linked (h : s.Kept) (ht : s.book t ≠ none) : (s.links t).linked = true := by
  obtain ⟨d, hd⟩ := Option.ne_none_iff_exists'.1 ht
  exact (h.entry t d hd).1

theorem Kept.insert (h : s.Kept) (hl : (s.links t).linked = false) (deadline : Nat) :
    ∃ r, s.heap.insert s.links t deadline = some r ∧
      Kept ⟨r.1, r.2, update s.book t (some deadline)⟩ := by
  have ht : t ∉ {t | s.book t ≠ none} := by
    intro hmem
    rw [h.linked hmem] at hl
    cases hl
  obtain ⟨h', m', hins, hH, hM⟩ := insert_spec h.holds ht hl deadline
  refine ⟨(h', m'), hins, ?_, fun x d hx => ?_⟩
  · have hset : {x | update s.book t (some deadline) x ≠ none} = Insert.insert t {x | s.book x ≠ none} := by
      ext x
      by_cases hx : x = t
      · simp [hx]
      · simp [hx]
    rw [hset]
    exact hH
  · rw [hM.linked, hM.deadline]
    by_cases hxt : x = t
    · subst hxt
      simpa using hx
    · simp only [update_of_ne hxt] at hx ⊢
      exact h.entry x d hx

theorem Kept.remove (h : s.Kept) (ht : s.book t ≠ none) :
    ∃ r, s.heap.remove s.links t = some r ∧ Kept ⟨r.1, r.2, update s.book t none⟩ := by
  obtain ⟨h', m', hrem, hH, hM⟩ := remove_spec h.holds ht (h.linked ht)
  refine ⟨(h', m'), hrem, ?_, fun x d hx => ?_⟩
  · have hset : {x | update s.book t none x ≠ none} = {x | s.book x ≠ none} \ {t} := by
      ext x
      by_cases hx : x = t
      · simp [hx]
      · simp [hx]
    rw [hset]
    exact hH
  · have hxt : x ≠ t := by
      rintro rfl
      simp at hx
    rw [hM.linked, hM.deadline]
    simp only [update_of_ne hxt] at hx ⊢
    exact h.entry x d hx

/-- `pop_expired` returns: a timer with the least deadline, taken out, when that is not after `now`. -/
theorem Kept.popExpired (h : s.Kept) (now : Nat) :
    ∃ out r, s.heap.popExpired s.links now = some (out, r) ∧ Kept ⟨r.1, r.2, strike s.book out⟩ ∧
      (out = none → ∀ t d, s.book t = some d → now < d) ∧
      (∀ t, out = some t → ∃ d, s.book t = some d ∧ d ≤ now ∧ ∀ u e, s.book u = some e → d ≤ e) := by
  obtain ⟨hroot, hempty⟩ | ⟨r, hroot, hmem, hleast⟩ := h.holds.root_spec
  · refine ⟨none, (s.heap, s.links), by rw [Heap.popExpired, hroot], h, fun _ t d ht => ?_, by simp⟩
    have : t ∈ {t | s.book t ≠ none} := by simp [ht]
    rw [hempty] at this
    exact absurd this (Set.notMem_empty t)
  · obtain ⟨d, hd⟩ := Option.ne_none_iff_exists'.1 hmem
    have hrd := (h.entry r d hd).2
    have hall : ∀ u e, s.book u = some e → d ≤ e := by
      intro u e hu
      have := hleast u (by simp [hu])
      rwa [hrd, (h.entry u e hu).2] at this
    by_cases hnow : now < d
    · refine ⟨none, (s.heap, s.links), ?_, h, fun _ t e ht => lt_of_lt_of_le hnow (hall t e ht), by simp⟩
      simp only [Heap.popExpired, hroot, hrd]
      rw [if_pos hnow]
    · obtain ⟨r', hrem, hkept⟩ := h.remove hmem
      refine ⟨some r, r', ?_, hkept, by simp, fun t ht => ?_⟩
      · simp only [Heap.popExpired, hroot, hrd, hrem]
        rw [if_neg hnow]
        rfl
      · cases ht
        exact ⟨d, hd, not_lt.1 hnow, hall⟩

omit [DecidableEq T] in
/-- Links of other timers are nothing to the heap. -/
theorem Kept.others (h : s.Kept) {links : Links T} (same : ∀ t, s.book t ≠ none → links t = s.links t) :
    Kept { s with links := links } := by
  refine ⟨h.holds.congr same, fun t d ht => ?_⟩
  simp only at ht ⊢
  rw [same t (by simp [ht])]
  exact h.entry t d ht

theorem Kept.step (h : s.Kept) (hs : Step s s') : s'.Kept := by
  cases hs with
  | insert unlinked done =>
    obtain ⟨r, hr, hk⟩ := h.insert unlinked _
    rw [done] at hr
    cases hr
    exact hk
  | remove inside done =>
    obtain ⟨r, hr, hk⟩ := h.remove inside
    rw [done] at hr
    cases hr
    exact hk
  | popExpired done =>
    obtain ⟨out, r, hr, hk, -⟩ := h.popExpired _
    rw [done] at hr
    cases hr
    exact hk
  | others same => exact h.others same

theorem Kept.of_run [Nonempty T] (hs : Run.Reachable Start Step s) : s.Kept :=
  hs.invariant (fun _ h => Kept.start h) fun _ _ h hstep => h.step hstep

/-- Without timers there is only the empty heap. -/
theorem start_of_isEmpty [IsEmpty T] (hs : Run.Reachable Start Step s) : s.heap = Heap.new := by
  refine hs.invariant (fun _ h => h.1) fun s s' h hstep => ?_
  cases hstep with
  | @insert t => exact isEmptyElim t
  | @remove t => exact isEmptyElim t
  | popExpired done =>
    simp only [h] at done
    cases done
    rfl
  | others same => exact h

/-! ## What a run shows -/

omit [DecidableEq T] in
/-- The tree as the links and the walk along the bits of a position show it. -/
structure Tree (s : Watched T) : Prop where
  /-- The positions `1..len` are the ones with a timer. -/
  filled : ∀ k, (∃ t, s.heap.timerAt s.links k = some t) ↔ 1 ≤ k ∧ k ≤ s.heap.len
  once : ∀ j k t, s.heap.timerAt s.links j = some t → s.heap.timerAt s.links k = some t → j = k
  root : s.heap.root = s.heap.timerAt s.links 1
  parent : ∀ k t, s.heap.timerAt s.links k = some t → (s.links t).parent = s.heap.timerAt s.links (k / 2)
  left : ∀ k t, s.heap.timerAt s.links k = some t → (s.links t).left = s.heap.timerAt s.links (2 * k)
  right : ∀ k t, s.heap.timerAt s.links k = some t → (s.links t).right = s.heap.timerAt s.links (2 * k + 1)
  /-- The order of a heap. -/
  ordered : ∀ t p, (∃ k, s.heap.timerAt s.links k = some t) → (s.links t).parent = some p →
    (s.links p).deadline ≤ (s.links t).deadline
  /-- The timers in the tree are the book's, with their deadlines. -/
  book : ∀ t d, s.book t = some d ↔ (∃ k, s.heap.timerAt s.links k = some t) ∧ (s.links t).deadline = d

omit [DecidableEq T] in
theorem timerAt_eq_pos {h : Heap T} {m : Links T} {node : Nat → T} (hR : Rep h m node) (k : Nat) :
    h.timerAt m k = pos h.len node k := by
  by_cases hk : 1 ≤ k ∧ k ≤ h.len
  · rw [timerAt_eq hR hk.1 hk.2, pos_of_le hk.1 hk.2]
  · rw [timerAt_none (by omega), pos, if_neg hk]

omit [DecidableEq T] in
theorem Kept.tree (h : s.Kept) : s.Tree := by
  obtain ⟨node, hR, hO, hset⟩ := h.holds
  have hat := timerAt_eq_pos hR
  have hmem : ∀ t, s.book t ≠ none ↔ ∃ k, s.heap.timerAt s.links k = some t := by
    intro t
    rw [← mem_nodes_iff hR, ← hset]
    rfl
  constructor
  · intro k
    simp only [hat, pos_eq_some]
    exact ⟨fun ⟨_, h1, h2, _⟩ => ⟨h1, h2⟩, fun ⟨h1, h2⟩ => ⟨_, h1, h2, rfl⟩⟩
  · intro j k t hj hk
    rw [hat, pos_eq_some] at hj hk
    exact hR.inj j k hj.1 hj.2.1 hk.1 hk.2.1 (hj.2.2.trans hk.2.2.symm)
  · rw [hat]
    exact hR.root
  · intro k t ht
    rw [hat, pos_eq_some] at ht
    obtain ⟨h1, h2, rfl⟩ := ht
    rw [hat]
    exact hR.parent k h1 h2
  · intro k t ht
    rw [hat, pos_eq_some] at ht
    obtain ⟨h1, h2, rfl⟩ := ht
    rw [hat]
    exact hR.left k h1 h2
  · intro k t ht
    rw [hat, pos_eq_some] at ht
    obtain ⟨h1, h2, rfl⟩ := ht
    rw [hat]
    exact hR.right k h1 h2
  · rintro t p ⟨k, hk⟩ hp
    rw [hat, pos_eq_some] at hk
    obtain ⟨h1, h2, rfl⟩ := hk
    rw [hR.parent k h1 h2, pos_eq_some] at hp
    obtain ⟨h3, -, rfl⟩ := hp
    exact hO k (by omega) h2
  · intro t d
    rw [← hmem]
    constructor
    · intro ht
      exact ⟨by simp [ht], (h.entry t d ht).2⟩
    · rintro ⟨ht, rfl⟩
      obtain ⟨d, hd⟩ := Option.ne_none_iff_exists'.1 ht
      rw [hd, (h.entry t d hd).2]

omit [DecidableEq T] in
theorem Tree.of_isEmpty [IsEmpty T] (h : s.heap = Heap.new) : s.Tree := by
  have hat : ∀ k, s.heap.timerAt s.links k = none := fun k => timerAt_none (by rw [h]; exact Nat.eq_zero_or_pos k)
  constructor
  · intro k
    rw [h, Heap.new]
    simp
    omega
  · exact fun _ _ t => isEmptyElim t
  · rw [hat, h, Heap.new]
  all_goals simp

omit [DecidableEq T] in
/-- `first` is the least deadline of the book, and `none` when the book is empty. -/
theorem Kept.first (h : s.Kept) (d : Nat) :
    s.heap.first s.links = some d ↔ (∃ t, s.book t = some d) ∧ ∀ t e, s.book t = some e → d ≤ e := by
  have hleast : ∀ c, s.heap.first s.links = some c →
      (∃ t, s.book t = some c) ∧ ∀ t e, s.book t = some e → c ≤ e := by
    intro c hc
    obtain ⟨hf, -⟩ | ⟨d', hf, ⟨x, hx, hxd⟩, hle⟩ := h.holds.first_spec
    · rw [hf] at hc
      cases hc
    · rw [hf] at hc
      cases hc
      obtain ⟨e, he⟩ := Option.ne_none_iff_exists'.1 hx
      refine ⟨⟨x, by rw [he, ← hxd, (h.entry x e he).2]⟩, fun t e' ht => ?_⟩
      have := hle t (by simp [ht])
      rwa [(h.entry t e' ht).2] at this
  refine ⟨hleast d, fun ⟨⟨t, ht⟩, hle⟩ => ?_⟩
  obtain ⟨-, hempty⟩ | ⟨c, hf, -⟩ := h.holds.first_spec
  · have : t ∈ {t | s.book t ≠ none} := by simp [ht]
    rw [hempty] at this
    exact absurd this (Set.notMem_empty t)
  · obtain ⟨⟨u, hu⟩, hmin⟩ := hleast c hf
    rw [hf, le_antisymm (hmin t d ht) (hle u c hu)]

/-- **The heap in every run**: a complete tree by the bits of the positions, in order, with the book's timers;
its first deadline is the book's least; every insertion of an unlinked timer and every removal returns; and
`pop_expired` takes a timer of least deadline exactly when that is not after `now`. -/
theorem heap_of_run (s : Watched T) (hs : Run.Reachable Start Step s) :
    s.Tree ∧
      (∀ d, s.heap.first s.links = some d ↔ (∃ t, s.book t = some d) ∧ ∀ t e, s.book t = some e → d ≤ e) ∧
      (∀ t deadline, (s.links t).linked = false →
        ∃ r, s.heap.insert s.links t deadline = some r ∧
          Step s ⟨r.1, r.2, update s.book t (some deadline)⟩) ∧
      (∀ t, s.book t ≠ none →
        ∃ r, s.heap.remove s.links t = some r ∧ Step s ⟨r.1, r.2, update s.book t none⟩) ∧
      ∀ now, ∃ out r, s.heap.popExpired s.links now = some (out, r) ∧ Step s ⟨r.1, r.2, strike s.book out⟩ ∧
        (out ≠ none ↔ ∃ t d, s.book t = some d ∧ d ≤ now) ∧
        ∀ t, out = some t → ∃ d, s.book t = some d ∧ ∀ u e, s.book u = some e → d ≤ e := by
  cases isEmpty_or_nonempty T with
  | inl hT =>
    have hnew := start_of_isEmpty hs
    refine ⟨Tree.of_isEmpty hnew, fun d => ?_, fun t => isEmptyElim t, fun t => isEmptyElim t, fun now => ?_⟩
    · simp [Heap.first]
    · have hpop : s.heap.popExpired s.links now = some (none, (s.heap, s.links)) := by
        simp [hnew, Heap.popExpired, Heap.new]
      exact ⟨none, _, hpop, .popExpired hpop, by simp, by simp⟩
  | inr hT =>
    have h := Kept.of_run hs
    refine ⟨h.tree, h.first, fun t deadline hl => ?_, fun t ht => ?_, fun now => ?_⟩
    · obtain ⟨r, hr, -⟩ := h.insert hl deadline
      exact ⟨r, hr, .insert hl hr⟩
    · obtain ⟨r, hr, -⟩ := h.remove ht
      exact ⟨r, hr, .remove ht hr⟩
    · obtain ⟨out, r, hr, -, hnone, hsome⟩ := h.popExpired now
      refine ⟨out, r, hr, .popExpired hr, ⟨fun hne => ?_, ?_⟩, fun t ht => ?_⟩
      · obtain ⟨t, rfl⟩ := Option.ne_none_iff_exists'.1 hne
        obtain ⟨d, hd, hle, -⟩ := hsome t rfl
        exact ⟨t, d, hd, hle⟩
      · rintro ⟨t, d, ht, hd⟩ hout
        exact absurd (hnone hout t d ht) (not_lt.2 hd)
      · obtain ⟨d, hd, -, hle⟩ := hsome t ht
        exact ⟨d, hd, hle⟩

/-- Three timers; one that is not the last goes, and the first runs out. -/
theorem heap_of_run_three : ∃ s : Watched (Fin 3), Run.Reachable Start Step s ∧ s.book 0 = none ∧ s.book 1 = none ∧
    s.heap.first s.links = some 9 := by
  have hnew : Run.Reachable Start Step (⟨.new, fun _ => .new, fun _ => none⟩ : Watched (Fin 3)) := .start ⟨rfl, rfl⟩
  have hone := hnew.tail (@Step.insert _ _ _ 0 7 _ rfl rfl)
  have htwo := hone.tail (@Step.insert _ _ _ 1 5 _ rfl rfl)
  have hthree := htwo.tail (@Step.insert _ _ _ 2 9 _ rfl rfl)
  have hgone := hthree.tail (@Step.remove _ _ _ 0 _ (by simp) rfl)
  have hlast := hgone.tail (@Step.popExpired _ _ _ 6 (some 1) _ rfl)
  refine ⟨_, hlast, rfl, rfl, ((heap_of_run _ hlast).2.1 9).2 ⟨⟨2, rfl⟩, fun t e ht => ?_⟩⟩
  obtain rfl | rfl | rfl : t = 0 ∨ t = 1 ∨ t = 2 := by omega
  · exact nomatch (show none = some e from ht)
  · exact nomatch (show none = some e from ht)
  · exact (Option.some.inj (show some 9 = some e from ht)).le

end Watched

end Timer
