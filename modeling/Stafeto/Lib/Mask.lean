import Mathlib.Data.Nat.Bitwise
import Stafeto.Lib.Bits

/-!
# Masks of 64 bits

Sets of small numbers kept as the bits of a word. `items` lists them as the usual loop does: the lowest
bit that is set, then the word without it.
-/

namespace Mask

open Bits

/-- The word without some bits: `m & !b`. -/
def without (m b : Nat) : Nat := m &&& ((2 ^ 64 - 1) ^^^ b)

variable {m b i : Nat}

theorem testBit_without (hi : m.testBit i = true → i < 64) :
    (without m b).testBit i = (m.testBit i && !b.testBit i) := by
  unfold without
  rw [Nat.testBit_and, Nat.testBit_xor, Nat.testBit_two_pow_sub_one]
  by_cases hm : m.testBit i = true
  · simp [hi hm]
  · simp [hm]

theorem lt_of_testBit (hm : m < 2 ^ 64) (hi : m.testBit i = true) : i < 64 := by
  by_contra hge
  rw [Nat.testBit_lt_two_pow (lt_of_lt_of_le hm (Nat.pow_le_pow_right (by decide) (by omega)))] at hi
  cases hi

theorem without_of_and_eq_zero (h : m &&& b = 0) (hm : m < 2 ^ 64) : without m b = m := by
  refine Nat.eq_of_testBit_eq fun i => ?_
  have hbit : (m &&& b).testBit i = false := by rw [h, Nat.zero_testBit]
  rw [testBit_without (lt_of_testBit hm)]
  cases hmi : m.testBit i with
  | false => rfl
  | true => simpa [hmi] using hbit

theorem without_low {k : Nat} (h : m < 2 ^ 64) : without m (2 ^ k - 1) = 2 ^ k * (m / 2 ^ k) := by
  refine Nat.eq_of_testBit_eq fun i => ?_
  rw [testBit_without (lt_of_testBit h), mul_comm, Nat.testBit_mul_two_pow, Nat.testBit_div_two_pow]
  by_cases hi : k ≤ i
  · simp [hi]
  · simp [Nat.not_le.1 hi]

variable {a : Nat}

/-- A mask that one part of a word misses reads the other. -/
theorem lor_land_left (h : b &&& m = 0) : (a ||| b) &&& m = a &&& m := by
  rw [Nat.and_or_distrib_right, h, Nat.or_zero]

theorem lor_land_right (h : a &&& m = 0) : (a ||| b) &&& m = b &&& m := by
  rw [Nat.and_or_distrib_right, h, Nat.zero_or]

theorem without_land (a b m : Nat) : without a b &&& m = a &&& without m b := by
  unfold without
  rw [Nat.and_assoc, Nat.and_comm _ m]

theorem land_land_eq_zero (h : b &&& m = 0) : a &&& b &&& m = 0 := by
  rw [Nat.and_assoc, h, Nat.and_zero]

theorem and_bit_eq_zero : m &&& 1 <<< i = 0 ↔ m.testBit i = false := by
  rw [Nat.one_shiftLeft, Nat.and_two_pow]
  cases m.testBit i with
  | true => simp
  | false => simp

theorem testBit_bit {j : Nat} : (1 <<< i).testBit j = decide (i = j) := by
  rw [Nat.one_shiftLeft, Nat.testBit_two_pow]

/-- The number of zeros below the lowest bit that is set. -/
def trailingZeros (m : Nat) : Nat := (firstClear (fun i => !m.testBit i) 0 64).getD 64

theorem trailingZeros_spec (h0 : m ≠ 0) (hm : m < 2 ^ 64) :
    m.testBit (trailingZeros m) = true ∧ trailingZeros m < 64 ∧ ∀ i < trailingZeros m, m.testBit i = false := by
  unfold trailingZeros
  cases hf : firstClear (fun i => !m.testBit i) 0 64 with
  | none =>
    refine absurd (Nat.eq_of_testBit_eq fun i => ?_) h0
    rw [Nat.zero_testBit]
    by_cases hi : i < 64
    · simpa using firstClear_eq_none.1 hf i (Nat.zero_le i) hi
    · exact Nat.testBit_lt_two_pow (lt_of_lt_of_le hm (Nat.pow_le_pow_right (by decide) (by omega)))
  | some k =>
    obtain ⟨-, h2, h3, h4⟩ := firstClear_eq_some.1 hf
    exact ⟨by simpa using h3, h2, fun i hi => by simpa using h4 i (Nat.zero_le i) hi⟩

theorem testBit_dropLowest {k : Nat} (hk : m.testBit k = true) (hlow : ∀ i < k, m.testBit i = false) (i : Nat) :
    (m &&& (m - 1)).testBit i = (m.testBit i && decide (i ≠ k)) := by
  induction k generalizing m i with
  | zero =>
    -- an odd word loses bit 0
    have hodd : m % 2 = 1 := by simpa using hk
    cases i with
    | zero => simp; omega
    | succ i =>
      have hhalf : (m - 1) / 2 = m / 2 := by omega
      rw [Nat.testBit_and, Nat.testBit_succ, Nat.testBit_succ, hhalf]
      simp
  | succ k ih =>
    have heven : m % 2 = 0 := by simpa using hlow 0 k.succ_pos
    cases i with
    | zero => simp [heven]
    | succ i =>
      have hhalf : (m - 1) / 2 = m / 2 - 1 := by omega
      have hrest : ∀ i < k, (m / 2).testBit i = false := fun i hi => by
        rw [← Nat.testBit_succ]
        exact hlow _ (Nat.succ_lt_succ hi)
      rw [Nat.testBit_succ] at hk
      rw [Nat.testBit_and, Nat.testBit_succ, Nat.testBit_succ, hhalf, ← Nat.testBit_and, ih hk hrest]
      simp

/-- The turns of the loop over the bits of a word. -/
def itemsFrom : Nat → Nat → List Nat
  | 0, _ => []
  | fuel + 1, m => if m = 0 then [] else trailingZeros m :: itemsFrom fuel (m &&& (m - 1))

/-- The bits that are set; a word has 64 of them. -/
def items (m : Nat) : List Nat := itemsFrom 64 m

theorem mem_itemsFrom {fuel : Nat} (hm : m < 2 ^ 64) (hfuel : ∀ i, m.testBit i = true → 64 - fuel ≤ i) :
    i ∈ itemsFrom fuel m ↔ m.testBit i = true := by
  induction fuel generalizing m with
  | zero =>
    simp only [itemsFrom, List.not_mem_nil, false_iff]
    intro hi
    have := hfuel i hi
    have := lt_of_testBit hm hi
    omega
  | succ fuel ih =>
    unfold itemsFrom
    by_cases h0 : m = 0
    · simp [h0]
    · obtain ⟨h1, h2, h3⟩ := trailingZeros_spec h0 hm
      have hdrop := testBit_dropLowest h1 h3
      have hle := hfuel _ h1
      rw [if_neg h0, List.mem_cons, ih (lt_of_le_of_lt Nat.and_le_left hm)]
      · rw [hdrop]
        by_cases hi : i = trailingZeros m
        · subst hi; simp [h1]
        · simp [hi]
      · intro j hj
        rw [hdrop] at hj
        simp only [Bool.and_eq_true, decide_eq_true_eq] at hj
        have hge : trailingZeros m ≤ j := by
          by_contra hlt
          rw [h3 j (by omega)] at hj
          exact absurd hj.1 (by simp)
        omega

theorem mem_items (hm : m < 2 ^ 64) : i ∈ items m ↔ m.testBit i = true :=
  mem_itemsFrom hm (by simp)

end Mask
