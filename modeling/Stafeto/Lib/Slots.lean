import Mathlib.Data.Fintype.Card

/-!
# Tables of places

A table has a place for each index, empty or with an entry. The entries may be asked to be pairwise related
(apart from each other, say), and a table may be read as a partial function: a key is looked up in every entry.
-/

namespace Slots

open Function

variable {ι α β : Type*} {t : ι → Option α} {i j : ι} {a b : α} {R : α → α → Prop} {l : List ι}

/-- Each two entries at different places are related. -/
def Pairwise (R : α → α → Prop) (t : ι → Option α) : Prop :=
  ∀ i j a b, i ≠ j → t i = some a → t j = some b → R a b

/-- The first answer of the entries at the places of a list. -/
def look (t : ι → Option α) (f : α → Option β) (l : List ι) : Option β := l.findSome? fun i => (t i).bind f

/-- When no two entries answer, the answer is that of the one that does. -/
theorem look_eq_some {f : α → Option β} (hall : ∀ i, i ∈ l)
    (hone : ∀ i j a b, t i = some a → t j = some b → (f a).isSome → (f b).isSome → i = j) {v : β} :
    look t f l = some v ↔ ∃ i a, t i = some a ∧ f a = some v := by
  unfold look
  constructor
  · intro h
    obtain ⟨i, -, hi⟩ := List.exists_of_findSome?_eq_some h
    obtain ⟨a, ha, hf⟩ := Option.bind_eq_some_iff.1 hi
    exact ⟨i, a, ha, hf⟩
  · rintro ⟨i, a, ha, hf⟩
    cases hfind : l.findSome? (fun i => (t i).bind f) with
    | none =>
      have := List.findSome?_eq_none_iff.1 hfind i (hall i)
      rw [ha, Option.bind_some, hf] at this
      cases this
    | some w =>
      obtain ⟨j, -, hj⟩ := List.exists_of_findSome?_eq_some hfind
      obtain ⟨b, hb, hg⟩ := Option.bind_eq_some_iff.1 hj
      have hij := hone i j a b ha hb (by simp [hf]) (by simp [hg])
      subst hij
      rw [ha] at hb
      cases hb
      rw [← hg, hf]

variable [DecidableEq ι] {ps : List (ι × α)}

theorem Pairwise.clear (h : Pairwise R t) (i : ι) : Pairwise R (update t i none) := by
  intro j k a b hne hj hk
  have hji : j ≠ i := by rintro rfl; simp at hj
  have hki : k ≠ i := by rintro rfl; simp at hk
  rw [update_of_ne hji] at hj
  rw [update_of_ne hki] at hk
  exact h j k a b hne hj hk

/-- An entry that is related to all others takes a place. -/
theorem Pairwise.put (h : Pairwise R t) (hsymm : ∀ a b, R a b → R b a)
    (hnew : ∀ j b, j ≠ i → t j = some b → R a b) : Pairwise R (update t i (some a)) := by
  intro j k b c hne hj hk
  by_cases hji : j = i
  · subst hji
    rw [update_self] at hj
    rw [update_of_ne hne.symm] at hk
    cases hj
    exact hnew k c hne.symm hk
  · rw [update_of_ne hji] at hj
    by_cases hki : k = i
    · subst hki
      rw [update_self] at hk
      cases hk
      exact hsymm _ _ (hnew j b hji hj)
    · rw [update_of_ne hki] at hk
      exact h j k b c hne hj hk

/-! ## Several entries at once -/

/-- Entries put at their places, one after the other. -/
def putAll (t : ι → Option α) : List (ι × α) → ι → Option α
  | [] => t
  | p :: ps => putAll (update t p.1 (some p.2)) ps

/-- Entries at empty places, no two at one. -/
structure Fresh (t : ι → Option α) (ps : List (ι × α)) : Prop where
  nodup : (ps.map Prod.fst).Nodup
  free : ∀ i ∈ ps.map Prod.fst, t i = none

omit [DecidableEq ι] in
/-- Free places, each with one of some entries, as far as there are of both. -/
theorem fresh_zip (hnodup : l.Nodup) (hfree : ∀ i ∈ l, t i = none) (entries : List α) :
    Fresh t (l.zip entries) := by
  have hsub : ∀ (l : List ι) (entries : List α), ((l.zip entries).map Prod.fst).Sublist l := by
    intro l
    induction l with
    | nil => simp
    | cons i l ih =>
      rintro (_ | ⟨e, entries⟩)
      · simp
      · simpa using ih entries
  exact ⟨(hsub l entries).nodup hnodup, fun i hi => hfree i ((hsub l entries).subset hi)⟩

theorem Fresh.tail {p : ι × α} (h : Fresh t (p :: ps)) :
    Fresh (update t p.1 (some p.2)) ps := by
  have hnd := List.nodup_cons.1 (by exact h.nodup : (p.1 :: ps.map Prod.fst).Nodup)
  refine ⟨hnd.2, fun i hi => ?_⟩
  rw [update_of_ne (by rintro rfl; exact hnd.1 hi)]
  exact h.free i (List.mem_cons_of_mem _ hi)

theorem putAll_eq_some (h : Fresh t ps) :
    putAll t ps j = some b ↔ (j, b) ∈ ps ∨ t j = some b := by
  induction ps generalizing t with
  | nil => simp [putAll]
  | cons p ps ih =>
    rw [putAll, ih h.tail, List.mem_cons]
    have hfree : t p.1 = none := h.free p.1 (by simp)
    by_cases hj : j = p.1
    · subst hj
      rw [update_self, hfree]
      simp only [reduceCtorEq, or_false, Option.some.injEq]
      constructor
      · rintro (hmem | hb)
        · exact .inr hmem
        · exact .inl (by rw [← hb])
      · rintro (hb | hmem)
        · exact .inr (congrArg Prod.snd hb).symm
        · exact .inl hmem
    · rw [update_of_ne hj]
      have hne : (j, b) ≠ p := by
        rintro rfl
        exact hj rfl
      simp [hne]

variable [Fintype ι]

/-- The places with an entry. -/
def filled (t : ι → Option α) : Finset ι := Finset.univ.filter fun i => (t i).isSome

theorem filled_put (hi : t i = none) : (filled (update t i (some a))).card = (filled t).card + 1 := by
  have heq : filled (update t i (some a)) = insert i (filled t) := by
    ext j
    by_cases hj : j = i
    · simp [filled, hj]
    · simp [filled, hj]
  rw [heq, Finset.card_insert_of_notMem (by simp [filled, hi])]

theorem filled_replace {c : α} (hi : t i = some a) :
    (filled (update t i (some c))).card = (filled t).card := by
  have heq : filled (update t i (some c)) = filled t := by
    ext j
    by_cases hj : j = i
    · simp [filled, hj, hi]
    · simp [filled, hj]
  rw [heq]

theorem filled_putAll (h : Fresh t ps) :
    (filled (putAll t ps)).card = (filled t).card + ps.length := by
  induction ps generalizing t with
  | nil => simp [putAll]
  | cons p ps ih =>
    rw [putAll, ih h.tail, filled_put (h.free p.1 (by simp)), List.length_cons]
    omega

end Slots
