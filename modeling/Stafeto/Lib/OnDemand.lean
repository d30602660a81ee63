import Mathlib.Data.Finset.Card

/-!
# Places that are filled on demand

A partial map whose places are empty until a value for one is asked for; the one asked may refuse. `Asked`
relates the map before and after a row of such requests to the answers. Every request is for an empty
place, so a set of places pays for the requests: what is granted and what is missing add up.
-/

namespace OnDemand

open Function

variable {α β : Type} [DecidableEq α] {P Q : α → Prop} {f f' f'' : α → Option β} {log log' : List (Option β)} {a : α}

/-- The answers in `log`, each for an empty place that satisfies `P`, take `f` to `f'`. -/
inductive Asked (P : α → Prop) : (α → Option β) → List (Option β) → (α → Option β) → Prop where
  | done {f : α → Option β} : Asked P f [] f
  | granted {f f' : α → Option β} {log : List (Option β)} {a : α} {b : β} : P a → f a = none →
      Asked P (update f a (some b)) log f' → Asked P f (some b :: log) f'
  | refused {f f' : α → Option β} {log : List (Option β)} {a : α} : P a → f a = none →
      Asked P f log f' → Asked P f (none :: log) f'

namespace Asked

theorem trans (h : Asked P f log f') (h' : Asked P f' log' f'') : Asked P f (log ++ log') f'' := by
  induction h with
  | done => exact h'
  | granted hp ha _ ih => exact .granted hp ha (ih h')
  | refused hp ha _ ih => exact .refused hp ha (ih h')

theorem mono (h : Asked P f log f') (hpq : ∀ a, P a → Q a) : Asked Q f log f' := by
  induction h with
  | done => exact .done
  | granted hp ha _ ih => exact .granted (hpq _ hp) ha ih
  | refused hp ha _ ih => exact .refused (hpq _ hp) ha ih

theorem same (h : Asked P f log f') (ha : ¬P a) : f' a = f a := by
  induction h with
  | done => rfl
  | refused _ _ _ ih => exact ih
  | granted hp _ _ ih =>
    rw [ih, update_of_ne]
    rintro rfl
    exact ha hp

theorem values (h : Asked P f log f') (b : β) : (∃ a, f' a = some b) ↔ (∃ a, f a = some b) ∨ some b ∈ log := by
  induction h with
  | done => simp
  | refused _ _ _ ih => simpa using ih
  | @granted f f' log a b' _ ha _ ih =>
    rw [ih, List.mem_cons, Option.some.injEq]
    constructor
    · rintro (⟨c, hc⟩ | hb)
      · by_cases hca : c = a
        · subst hca
          rw [update_self, Option.some.injEq] at hc
          exact .inr (.inl hc.symm)
        · rw [update_of_ne hca] at hc
          exact .inl ⟨c, hc⟩
      · exact .inr (.inr hb)
    · rintro (⟨c, hc⟩ | rfl | hb)
      · have hca : c ≠ a := by
          rintro rfl
          rw [ha] at hc
          cases hc
        exact .inl ⟨c, by rw [update_of_ne hca]; exact hc⟩
      · exact .inl ⟨a, update_self ..⟩
      · exact .inr hb

end Asked

/-- The places of `S` that are empty. -/
def missing (S : Finset α) (f : α → Option β) : Finset α := S.filter fun a => (f a).isNone

theorem missing_update {S : Finset α} (b : β) (hs : a ∈ S) (ha : f a = none) :
    (missing S (update f a (some b))).card + 1 = (missing S f).card := by
  have herase : missing S (update f a (some b)) = (missing S f).erase a := by
    ext c
    simp only [missing]
    by_cases hc : c = a
    · subst hc
      simp
    · simp [hc]
  have hmem : a ∈ missing S f := by simp [missing, hs, ha]
  rw [herase, Finset.card_erase_add_one hmem]

omit [DecidableEq α] in
theorem missing_pos {S : Finset α} (hs : a ∈ S) (ha : f a = none) : 0 < (missing S f).card :=
  Finset.card_pos.2 ⟨a, by simp [missing, hs, ha]⟩

namespace Asked

variable {S : Finset α}

/-- What is granted fills what was missing. -/
theorem granted_add_missing (h : Asked (· ∈ S) f log f') :
    (log.filterMap id).length + (missing S f').card = (missing S f).card := by
  induction h with
  | done => simp
  | refused _ _ _ ih => exact ih
  | @granted _ _ _ _ b hs ha _ ih =>
    have := missing_update b hs ha
    rw [List.filterMap_cons_some (show id (some b) = some b from rfl), List.length_cons]
    omega

/-- At every request something was missing: fewer were granted before it than were missing at first. -/
theorem granted_before (h : Asked (· ∈ S) f log f') {n : Nat} (hn : n < log.length) :
    ((log.take n).filterMap id).length < (missing S f).card := by
  induction h generalizing n with
  | done => simp at hn
  | refused hs ha _ ih =>
    cases n with
    | zero => exact missing_pos hs ha
    | succ n => exact ih (by simpa using hn)
  | @granted _ _ _ _ b hs ha _ ih =>
    cases n with
    | zero => exact missing_pos hs ha
    | succ n =>
      have := ih (by simpa using hn)
      have := missing_update b hs ha
      rw [List.take_succ_cons, List.filterMap_cons_some (show id (some b) = some b from rfl), List.length_cons]
      omega

/-- The requests up to the first that is refused are no more than were missing at first. -/
theorem length_take_le (h : Asked (· ∈ S) f log f') {n : Nat} (hn : ∀ b ∈ log.take n, b.isSome) :
    (log.take (n + 1)).length ≤ (missing S f).card := by
  have hcount : ((log.take n).filterMap id).length = min n log.length := by
    rw [List.length_filterMap_eq_countP, ← List.length_take]
    exact List.countP_eq_length.2 hn
  rw [List.length_take]
  by_cases hlt : n < log.length
  · have := h.granted_before hlt
    omega
  · rw [List.take_of_length_le (by omega)] at hcount
    have := h.granted_add_missing
    omega

end Asked

end OnDemand
