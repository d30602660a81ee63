import Mathlib.Data.Finset.Card
import Mathlib.Data.Fintype.Basic

/-!
# Bit maps

A map of bits is its characteristic function. `firstClear` is what a scan with `trailing_zeros` of
the complement finds; the lemmas split a range and say what a set or cleared bit does to the count of
clear ones.
-/

namespace Bits

open Function

/-- The first clear bit of `p` in `[lo, hi)`. -/
def firstClear (p : Nat → Bool) (lo hi : Nat) : Option Nat :=
  (List.range' lo (hi - lo)).find? (fun i => !p i)

variable {p : Nat → Bool} {lo hi i : Nat}

theorem firstClear_eq_some :
    firstClear p lo hi = some i ↔ lo ≤ i ∧ i < hi ∧ p i = false ∧ ∀ j, lo ≤ j → j < i → p j = true := by
  unfold firstClear
  rw [List.find?_range'_eq_some]
  simp only [Bool.not_eq_true', List.mem_range'_1, Bool.not_not]
  constructor
  · rintro ⟨h1, ⟨h2, h3⟩, h4⟩
    exact ⟨h2, by omega, h1, h4⟩
  · rintro ⟨h1, h2, h3, h4⟩
    exact ⟨h3, ⟨h1, by omega⟩, h4⟩

theorem firstClear_eq_none :
    firstClear p lo hi = none ↔ ∀ i, lo ≤ i → i < hi → p i = true := by
  unfold firstClear
  rw [List.find?_range'_eq_none]
  simp only [Bool.not_not]
  constructor
  · intro h i h1 h2; exact h i h1 (by omega)
  · intro h i h1 h2; exact h i h1 (by omega)

theorem firstClear_skip {m : Nat} (hle : lo ≤ m)
    (hset : ∀ i, lo ≤ i → i < m → p i = true) : firstClear p lo hi = firstClear p m hi := by
  cases h : firstClear p m hi with
  | none =>
    rw [firstClear_eq_none] at h ⊢
    intro i h1 h2
    by_cases hi : i < m
    · exact hset i h1 hi
    · exact h i (by omega) h2
  | some i =>
    rw [firstClear_eq_some] at h ⊢
    obtain ⟨h1, h2, h3, h4⟩ := h
    refine ⟨by omega, h2, h3, fun j hj hji => ?_⟩
    by_cases hj' : j < m
    · exact hset j hj hj'
    · exact h4 j (by omega) hji

/-- A clear bit found in a longer range, cut at `cut`. -/
theorem firstClear_cut {cut : Nat} (h : firstClear p lo hi = some i) :
    firstClear p lo cut = if i < cut then some i else none := by
  obtain ⟨h1, _, h3, h4⟩ := firstClear_eq_some.1 h
  split
  · exact firstClear_eq_some.2 ⟨h1, by assumption, h3, h4⟩
  · exact firstClear_eq_none.2 (fun j hj hjt => h4 j hj (by omega))

/-- The number of clear bits below `n`. -/
def clear (p : Nat → Bool) (n : Nat) : Nat := ((Finset.range n).filter (fun i => p i = false)).card

variable {n : Nat}

theorem clear_set (hi : i < n) (hp : p i = false) :
    clear (update p i true) n + 1 = clear p n := by
  have hsub : (Finset.range n).filter (fun j => update p i true j = false) =
      ((Finset.range n).filter (fun j => p j = false)).erase i := by
    ext j
    by_cases hj : j = i
    · subst hj; simp
    · simp [hj]
  unfold clear
  rw [hsub, Finset.card_erase_add_one]
  simp [hi, hp]

theorem clear_unset (hi : i < n) (hp : p i = true) :
    clear (update p i false) n = clear p n + 1 := by
  have h := clear_set (p := update p i false) hi (by simp)
  rw [← h, update_idem]
  congr 2
  rw [← hp, update_eq_self]

theorem exists_clear (h : 0 < clear p n) : ∃ i, i < n ∧ p i = false := by
  obtain ⟨i, hi⟩ := Finset.card_pos.1 h
  exact ⟨i, by simpa using hi⟩

theorem clear_setAll (l : List Nat) (hnd : l.Nodup) (hl : ∀ i ∈ l, i < n) :
    clear (fun i => p i || decide (i ∈ l)) n + l.countP (fun i => !p i) = clear p n := by
  have hin : (l.filter fun i => !p i).toFinset =
      ((Finset.range n).filter fun i => p i = false).filter (· ∈ l) := by
    ext i
    simp only [List.mem_toFinset, List.mem_filter, Finset.mem_filter, Finset.mem_range, Bool.not_eq_true']
    exact ⟨fun h => ⟨⟨hl i h.1, h.2⟩, h.1⟩, fun h => ⟨h.2, h.1.2⟩⟩
  have hout : ((Finset.range n).filter fun i => (p i || decide (i ∈ l)) = false) =
      ((Finset.range n).filter fun i => p i = false).filter (· ∉ l) := by
    simp [Finset.filter_filter]
  rw [List.countP_eq_length_filter, ← List.toFinset_card_of_nodup (hnd.filter _), hin, clear, hout, Nat.add_comm]
  exact Finset.card_filter_add_card_filter_not _

end Bits
