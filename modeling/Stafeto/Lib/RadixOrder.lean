import Mathlib.Data.List.Flatten
import Mathlib.Data.List.Nodup
import Stafeto.Lib.Radix

/-!
# The tables of a radix tree in post-order

`below` lists the tables of a part of the tree, each after the tables that its words lead to; the root of
the part comes last. `rest` is what is left of such a list when the words of the root before `i` are done.
In a tree that memory holds the list has every table of the part, once.
-/

namespace Radix

variable {W : Type} {L : Layout W} {mem : Nat → W} {root : Nat} {T : TableTree W} {h l p q t c i : Nat}

namespace TableTree

/-- The tables of the `h` levels below a place and of the place itself, each after those below it. -/
def below (L : Layout W) (T : TableTree W) : Nat → Nat → Nat → List Nat
  | 0, l, p => (T.table l p).toList
  | h + 1, l, p =>
    match T.table l p with
    | none => []
    | some t => ((List.range L.fan).flatMap fun i => below L T h (l + 1) (p * L.fan + i)) ++ [t]

/-- What the words from `i` on lead to, and then the table itself. -/
def rest (L : Layout W) (T : TableTree W) (h l p i t : Nat) : List Nat :=
  ((List.range' i (L.fan - i)).flatMap fun i => below L T h (l + 1) (p * L.fan + i)) ++ [t]

theorem below_zero (ht : T.table l p = some t) : below L T 0 l p = [t] := by
  simp [below, ht]

theorem below_none (ht : T.table l p = none) : below L T h l p = [] := by
  cases h with
  | zero => simp [below, ht]
  | succ h => simp [below, ht]

theorem below_succ (ht : T.table l p = some t) : below L T (h + 1) l p = rest L T h l p 0 t := by
  simp [below, rest, ht, List.range_eq_range']

theorem rest_succ (hi : i < L.fan) :
    rest L T h l p i t = below L T h (l + 1) (p * L.fan + i) ++ rest L T h l p (i + 1) t := by
  obtain ⟨n, hn⟩ : ∃ n, L.fan - i = n + 1 := ⟨L.fan - i - 1, by omega⟩
  have hn' : L.fan - (i + 1) = n := by omega
  rw [rest, rest, hn, hn', List.range'_succ, List.flatMap_cons, List.append_assoc]

theorem rest_fan : rest L T h l p L.fan t = [t] := by
  simp [rest]

end TableTree

namespace Holds

open TableTree

/-- Above a table there are tables up to the root. -/
theorem up_pow {k : Nat} (hT : Holds L mem root T) (hc : T.table (l + k) q = some c) :
    ∃ t, T.table l (q / L.fan ^ k) = some t := by
  induction k generalizing q c with
  | zero => exact ⟨c, by simpa using hc⟩
  | succ k ih =>
    obtain ⟨u, hu⟩ := hT.up hc
    obtain ⟨t, ht⟩ := ih hu
    rw [Nat.div_div_eq_div_mul, mul_comm] at ht
    exact ⟨t, ht⟩

theorem mem_below (hT : Holds L mem root T) :
    t ∈ below L T h l p ↔ ∃ k ≤ h, ∃ q, q / L.fan ^ k = p ∧ T.table (l + k) q = some t := by
  induction h generalizing l p with
  | zero =>
    constructor
    · intro ht
      exact ⟨0, Nat.le_refl 0, p, by simp, by simpa [below] using ht⟩
    · rintro ⟨k, hk, q, hq, ht⟩
      obtain rfl : k = 0 := by omega
      obtain rfl : q = p := by simpa using hq
      simpa [below] using ht
  | succ h ih =>
    cases hl : T.table l p with
    | none =>
      rw [below_none hl]
      constructor
      · simp
      · rintro ⟨k, -, q, rfl, ht⟩
        obtain ⟨u, hu⟩ := hT.up_pow ht
        exact nomatch hl.symm.trans hu
    | some u =>
      simp only [below, hl, List.mem_append, List.mem_flatMap, List.mem_range, List.mem_singleton, ih]
      constructor
      · rintro (⟨i, hi, k, hk, q, hq, ht⟩ | rfl)
        · refine ⟨k + 1, by omega, q, ?_, by rw [← ht]; congr 1; omega⟩
          rw [pow_succ, ← Nat.div_div_eq_div_mul, hq, Layout.place_div hi]
        · exact ⟨0, Nat.zero_le _, p, by simp, hl⟩
      · rintro ⟨k, hk, q, hq, ht⟩
        cases k with
        | zero =>
          obtain rfl : q = p := by simpa using hq
          exact .inr (Option.some.inj (ht.symm.trans hl))
        | succ k =>
          rw [Nat.pow_succ, ← Nat.div_div_eq_div_mul] at hq
          refine .inl ⟨q / L.fan ^ k % L.fan, Nat.mod_lt _ L.fan_pos, k, by omega, q, ?_, by rw [← ht]; congr 1; omega⟩
          rw [← hq, mul_comm, Nat.div_add_mod]

/-- No table is there twice. -/
theorem nodup_below (hT : Holds L mem root T) : (below L T h l p).Nodup := by
  induction h generalizing l p with
  | zero =>
    cases hl : T.table l p with
    | none => simp [below, hl]
    | some t => simp [below, hl]
  | succ h ih =>
    cases hl : T.table l p with
    | none => simp [below, hl]
    | some t =>
      simp only [below, hl]
      apply List.Nodup.append
      · rw [List.nodup_flatMap]
        refine ⟨fun i _ => ih, ?_⟩
        apply List.Nodup.pairwise_of_forall_ne List.nodup_range
        intro i hi j hj hij c hci hcj
        -- a table of two children would stand at two places
        obtain ⟨k, -, q, hq, hc⟩ := hT.mem_below.1 hci
        obtain ⟨k', -, q', hq', hc'⟩ := hT.mem_below.1 hcj
        obtain ⟨hk, rfl⟩ := hT.inj hc hc'
        obtain rfl : k = k' := by omega
        omega
      · simp
      · intro c hc hct
        obtain rfl : c = t := by simpa using hct
        obtain ⟨i, -, hi⟩ := List.mem_flatMap.1 hc
        obtain ⟨k, -, q, -, hq⟩ := hT.mem_below.1 hi
        have := (hT.inj hl hq).1
        omega

/-- From the one root, every table is reached. -/
theorem mem_order (hT : Holds L mem root T) (hroot : ∀ p t, T.table 0 p = some t → p = 0) :
    t ∈ below L T (L.depth - 1) 0 0 ↔ ∃ l q, T.table l q = some t := by
  rw [hT.mem_below]
  constructor
  · rintro ⟨k, -, q, -, ht⟩
    exact ⟨0 + k, q, ht⟩
  · rintro ⟨l, q, ht⟩
    have hl := (hT.table ht).1
    rw [← zero_add l] at ht
    obtain ⟨u, hu⟩ := hT.up_pow ht
    exact ⟨l, by omega, q, hroot _ _ hu, ht⟩

end Holds

end Radix
