import Mathlib.Data.List.Cycle

/-!
# Rings of links

Items that keep their neighbours inside themselves: `next` and `prev` say what is stored in each. A
list is a ring when each item's `next` is the one after it, the last one's the first, and each item's
`prev` is the one before. Only the values at the items of the list count, so the rules say what an
operation writes and leave the rest to the caller.
-/

namespace Ring

open List

variable {T : Type*} {next prev next' prev' : T → Option T} {t z h : T} {l : List T}

/-- `y` follows `x`, and both say so. -/
def Adj (next prev : T → Option T) (x y : T) : Prop := next x = some y ∧ prev y = some x

def IsRing (next prev : T → Option T) (l : List T) : Prop := Cycle.Chain (Adj next prev) (l : Cycle T)

theorem isRing_nil : IsRing next prev [] := Cycle.Chain.nil _

theorem isRing_singleton : IsRing next prev [t] ↔ next t = some t ∧ prev t = some t :=
  Cycle.chain_singleton _ t

/-- Where the reading begins does not matter. -/
theorem isRing_congr {l' : List T} (h : l ~r l') : IsRing next prev l ↔ IsRing next prev l' := by
  unfold IsRing
  rw [Cycle.coe_eq_coe.2 h]

theorem rotated_append (l l' : List T) : (l ++ l') ~r (l' ++ l) := isRotated_append

/-- A ring from its first item: the chain of the list, closed by the last item. -/
theorem isRing_concat (hh : (l ++ [z]).head? = some h) :
    IsRing next prev (l ++ [z]) ↔ List.IsChain (Adj next prev) (l ++ [z]) ∧ Adj next prev z h := by
  cases l with
  | nil =>
    cases hh
    simp [IsRing]
  | cons a l =>
    cases hh
    rw [IsRing, cons_append, Cycle.chain_coe_cons, ← cons_append, ← cons_append,
      isChain_append, getLast?_append]
    simp

/-- The links inside a list without repetitions are those out of all but the last item and into all
but the first. -/
theorem isChain_inner {R R' : T → T → Prop} : ∀ {l : List T}, List.IsChain R l →
    (∀ x ∈ l.dropLast, ∀ y ∈ l.tail, R x y → R' x y) → List.IsChain R' l
  | [], _, _ => List.IsChain.nil
  | [a], _, _ => List.IsChain.singleton a
  | a :: b :: l, h, hR => by
    rw [isChain_cons_cons] at h ⊢
    refine ⟨hR a (by simp) b (by simp) h.1, isChain_inner h.2 fun x hx y hy => hR x ?_ y ?_⟩
    · simp only [dropLast_cons_cons, mem_cons]
      exact Or.inr hx
    · exact mem_of_mem_tail hy

theorem ne_last {x : T} (hnd : (l ++ [z]).Nodup) (hx : x ∈ l) : x ≠ z := by
  rintro rfl
  rw [nodup_append] at hnd
  exact hnd.2.2 x hx x (by simp) rfl

theorem ne_head {y : T} (hnd : l.Nodup) (hh : l.head? = some h) (hy : y ∈ l.tail) : y ≠ h := by
  rintro rfl
  cases l with
  | nil => cases hh
  | cons a rest =>
    cases hh
    exact (nodup_cons.1 hnd).1 hy

/-- Inside, neither the last item's `next` nor the first one's `prev` is read. -/
theorem isChain_inside (hc : List.IsChain (Adj next prev) (l ++ [z])) (hh : (l ++ [z]).head? = some h)
    (hnd : (l ++ [z]).Nodup) (ht : t ∉ l ++ [z]) (hn : ∀ x, x ≠ t → x ≠ z → next' x = next x)
    (hp : ∀ x, x ≠ t → x ≠ h → prev' x = prev x) : List.IsChain (Adj next' prev') (l ++ [z]) := by
  refine isChain_inner hc fun x hx y hy hxy => ⟨?_, ?_⟩
  · have hxl : x ∈ l := by simpa using hx
    rw [hn x (fun e => ht (e ▸ mem_append_left _ hxl)) (ne_last hnd hxl)]
    exact hxy.1
  · rw [hp y (fun e => ht (e ▸ mem_of_mem_tail hy)) (ne_head hnd hh hy)]
    exact hxy.2

theorem IsRing.congr (hr : IsRing next prev l) (hn : ∀ x ∈ l, next' x = next x)
    (hp : ∀ x ∈ l, prev' x = prev x) : IsRing next' prev' l := by
  rcases eq_nil_or_concat l with rfl | ⟨l, z, rfl⟩
  · exact isRing_nil
  · rw [concat_eq_append] at hr hn hp ⊢
    obtain ⟨h, hh⟩ : ∃ h, (l ++ [z]).head? = some h := by cases l <;> simp
    rw [isRing_concat hh] at hr ⊢
    obtain ⟨hc, h1, h2⟩ := hr
    refine ⟨isChain_inner hc fun x hx y hy hxy => ⟨?_, ?_⟩, ?_, ?_⟩
    · rw [hn x (mem_of_mem_dropLast hx)]; exact hxy.1
    · rw [hp y (mem_of_mem_tail hy)]; exact hxy.2
    · rw [hn z (by simp)]; exact h1
    · rw [hp h (mem_of_head? hh)]; exact h2

theorem IsRing.prev_head (hr : IsRing next prev (l ++ [z]))
    (hh : (l ++ [z]).head? = some h) : prev h = some z :=
  ((isRing_concat hh).1 hr).2.2

/-- `t` goes between the last item and the first. -/
theorem IsRing.insert (hr : IsRing next prev (l ++ [z]))
    (hh : (l ++ [z]).head? = some h) (hnd : (l ++ [z]).Nodup) (ht : t ∉ l ++ [z])
    (h1 : prev' t = some z) (h2 : next' t = some h) (h3 : next' z = some t) (h4 : prev' h = some t)
    (hn : ∀ x, x ≠ t → x ≠ z → next' x = next x) (hp : ∀ x, x ≠ t → x ≠ h → prev' x = prev x) :
    IsRing next' prev' (l ++ [z] ++ [t]) := by
  obtain ⟨hc, -⟩ := (isRing_concat hh).1 hr
  have hh' : (l ++ [z] ++ [t]).head? = some h := by
    rw [head?_append, hh]
    rfl
  rw [isRing_concat hh']
  refine ⟨?_, h2, h4⟩
  rw [isChain_append]
  refine ⟨isChain_inside hc hh hnd ht hn hp, List.IsChain.singleton t, ?_⟩
  simp only [getLast?_append]
  rintro x hx y hy
  cases hx
  cases hy
  exact ⟨h3, h1⟩

/-- The neighbours of the first item of a ring of two or more. -/
theorem IsRing.neighbours (hr : IsRing next prev (t :: (l ++ [z])))
    (hh : (l ++ [z]).head? = some h) : next t = some h ∧ prev t = some z := by
  have hc := (isRing_concat (l := t :: l) rfl).1 hr
  refine ⟨?_, hc.2.2⟩
  have hcc := hc.1
  cases hl : l ++ [z] with
  | nil => simp at hl
  | cons a rest =>
    rw [hl] at hh
    cases hh
    rw [cons_append, hl, isChain_cons_cons] at hcc
    exact hcc.1.1

/-- The first item leaves: its neighbours are linked to each other. -/
theorem IsRing.remove (hr : IsRing next prev (t :: (l ++ [z])))
    (hh : (l ++ [z]).head? = some h) (hnd : (t :: (l ++ [z])).Nodup)
    (h1 : next' z = some h) (h2 : prev' h = some z)
    (hn : ∀ x, x ≠ t → x ≠ z → next' x = next x) (hp : ∀ x, x ≠ t → x ≠ h → prev' x = prev x) :
    IsRing next' prev' (l ++ [z]) := by
  have hc := ((isRing_concat (l := t :: l) rfl).1 hr).1
  have hnd' := (nodup_cons.1 hnd).2
  have ht := (nodup_cons.1 hnd).1
  rw [isRing_concat hh]
  exact ⟨isChain_inside (List.IsChain.tail hc) hh hnd' ht hn hp, h1, h2⟩

/-! ## Reading a ring -/

/-- The items from `t` on, each the step of the one before, up to the one whose step is `stop`. `none`
when a link is missing or `n` items do not reach it. -/
def readTo [DecidableEq T] (step : T → Option T) (stop : T) : Nat → T → Option (List T)
  | 0, _ => none
  | n + 1, t => do
    let u ← step t
    if u = stop then some [t] else (readTo step stop n u).map (t :: ·)

theorem readTo_chain [DecidableEq T] {step : T → Option T} {stop : T} (l : List T) :
    ∀ {t : T}, List.IsChain (fun x y => step x = some y) (t :: l) →
      (∀ z, (t :: l).getLast? = some z → step z = some stop) → stop ∉ l →
      readTo step stop (l.length + 1) t = some (t :: l) := by
  induction l with
  | nil =>
    intro t _ hz _
    simp [readTo, hz t rfl]
  | cons a l ih =>
    intro t hc hz hs
    rw [isChain_cons_cons] at hc
    have hne : a ≠ stop := by rintro rfl; exact hs (by simp)
    have := ih hc.2 (fun z h => hz z (by rw [getLast?_cons_cons]; exact h)) fun h => hs (mem_cons_of_mem _ h)
    rw [readTo, hc.1]
    simp [hne, this]

/-- From its first item a ring is read in order. -/
theorem IsRing.readTo [DecidableEq T] (hr : IsRing next prev (h :: l)) (hnd : (h :: l).Nodup) :
    readTo next h (h :: l).length h = some (h :: l) := by
  obtain ⟨w, z, hw⟩ : ∃ w z, h :: l = w ++ [z] := ⟨_, _, (dropLast_append_getLast (cons_ne_nil h l)).symm⟩
  have hc := hr
  rw [hw, isRing_concat (by rw [← hw]; rfl), ← hw] at hc
  refine readTo_chain l (hc.1.imp fun x y hxy => hxy.1) (fun y hy => ?_) (nodup_cons.1 hnd).1
  rw [hw, getLast?_append] at hy
  cases hy
  exact hc.2.1

theorem IsRing.reverse (hr : IsRing next prev l) : IsRing prev next l.reverse := by
  rcases eq_nil_or_concat l with rfl | ⟨w, z, rfl⟩
  · exact isRing_nil
  · rw [concat_eq_append] at hr ⊢
    obtain ⟨h, hh⟩ : ∃ h, (w ++ [z]).head? = some h := by cases w <;> simp
    obtain ⟨hc, h1, h2⟩ := (isRing_concat hh).1 hr
    have hback : List.IsChain (Adj prev next) (w ++ [z]).reverse :=
      isChain_reverse.2 (hc.imp fun x y hxy => ⟨hxy.2, hxy.1⟩)
    have hlast : (w ++ [z]).reverse.getLast? = some h := by rw [getLast?_reverse, hh]
    obtain ⟨w', hw'⟩ : ∃ w', (w ++ [z]).reverse = w' ++ [h] := by
      rw [getLast?_eq_some_iff] at hlast
      exact hlast
    rw [hw'] at hback ⊢
    refine (isRing_concat ?_).2 ⟨hback, h2, h1⟩
    rw [← hw', head?_reverse, getLast?_append]
    rfl

end Ring
