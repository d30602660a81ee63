import Mathlib.Logic.Equiv.Basic
import Mathlib.Order.Lattice

/-!
# Binary heaps by position

The nodes of a heap stand at the positions `1 .. n`, the root at 1 and the children of `k` at `2 k` and
`2 k + 1`. A heap whose order fails only above one node is put right by letting that node climb, one whose
order fails only below a node by letting it sink past its least child.
-/

namespace BinaryHeap

open Function

variable {ι α : Type*} [LinearOrder α] {key : ι → α} {node : Nat → ι} {n p c : Nat}

/-- No node comes before its parent. -/
def Ordered (key : ι → α) (n : Nat) (node : Nat → ι) : Prop :=
  ∀ k, 2 ≤ k → k ≤ n → key (node (k / 2)) ≤ key (node k)

/-- Ordered, but for the node at `p` and its parent. -/
structure OrderedUp (key : ι → α) (n : Nat) (node : Nat → ι) (p : Nat) : Prop where
  other : ∀ k, 2 ≤ k → k ≤ n → k ≠ p → key (node (k / 2)) ≤ key (node k)
  child : ∀ k, k ≤ n → k / 2 = p → 2 ≤ p → key (node (p / 2)) ≤ key (node k)

/-- Ordered, but for the node at `p` and its children. -/
structure OrderedDown (key : ι → α) (n : Nat) (node : Nat → ι) (p : Nat) : Prop where
  other : ∀ k, 2 ≤ k → k ≤ n → k / 2 ≠ p → key (node (k / 2)) ≤ key (node k)
  child : ∀ k, k ≤ n → k / 2 = p → 2 ≤ p → key (node (p / 2)) ≤ key (node k)

theorem Ordered.root_le (h : Ordered key n node) : ∀ k, 1 ≤ k → k ≤ n → key (node 1) ≤ key (node k) := by
  intro k
  induction k using Nat.strongRecOn with
  | _ k ih =>
    intro h1 hn
    rcases Nat.eq_or_lt_of_le h1 with rfl | h2
    · exact le_refl _
    · exact le_trans (ih (k / 2) (by omega) (by omega) (by omega)) (h k h2 hn)

/-! ## Climbing -/

theorem OrderedUp.done (h : OrderedUp key n node p) (hp : 2 ≤ p → key (node (p / 2)) ≤ key (node p)) :
    Ordered key n node := by
  intro k h2 hn
  by_cases hk : k = p
  · subst hk; exact hp h2
  · exact h.other k h2 hn hk

theorem OrderedUp.step (h : OrderedUp key n node p) (h2 : 2 ≤ p) (hn : p ≤ n)
    (hlt : key (node p) < key (node (p / 2))) : OrderedUp key n (node ∘ Equiv.swap p (p / 2)) (p / 2) := by
  constructor
  · intro k hk hkn hne
    simp only [comp_apply, Equiv.swap_apply_def]
    rcases eq_or_ne k p with rfl | hkp
    · -- the old parent below the node
      simp [hlt.le, show k / 2 ≠ k by omega]
    · rcases eq_or_ne (k / 2) p with hkc | hkc
      · -- a child of the old place
        have hk' : k ≠ p / 2 := by omega
        simpa [hkc, hkp, hk'] using h.child k hkn hkc h2
      · rcases eq_or_ne (k / 2) (p / 2) with hks | hks
        · -- the sibling
          have := h.other k hk hkn hkp
          rw [hks] at this
          simp only [hks, hkp, hne]
          rw [if_neg (by omega)]
          exact le_trans hlt.le this
        · simpa [hkc, hks, hkp, hne] using h.other k hk hkn hkp
  · intro k hkn hk h4
    simp only [comp_apply, Equiv.swap_apply_def]
    have hq := h.other (p / 2) h4 (by omega) (by omega)
    have hqq : p / 2 / 2 ≠ p ∧ p / 2 / 2 ≠ p / 2 := by omega
    rw [if_neg hqq.1, if_neg hqq.2]
    rcases eq_or_ne k p with rfl | hkp
    · simpa using hq
    · have hk' : k ≠ p / 2 := by omega
      have := h.other k (by omega) hkn hkp
      rw [hk] at this
      simpa [hkp, hk'] using le_trans hq this

/-! ## Sinking -/

theorem OrderedDown.done (h : OrderedDown key n node p)
    (hp : ∀ k, 2 ≤ k → k ≤ n → k / 2 = p → key (node p) ≤ key (node k)) : Ordered key n node := by
  intro k h2 hn
  by_cases hk : k / 2 = p
  · rw [hk]; exact hp k h2 hn hk
  · exact h.other k h2 hn hk

theorem OrderedDown.step (h : OrderedDown key n node (c / 2)) (h2 : 2 ≤ c) (hn : c ≤ n)
    (hleast : ∀ k, k ≤ n → k / 2 = c / 2 → 2 ≤ k → key (node c) ≤ key (node k))
    (hlt : key (node c) < key (node (c / 2))) : OrderedDown key n (node ∘ Equiv.swap c (c / 2)) c := by
  constructor
  · intro k hk hkn hne
    simp only [comp_apply, Equiv.swap_apply_def]
    rcases eq_or_ne k (c / 2) with rfl | hkp
    · -- the child in its new place, below what was above the node
      have := h.child c hn rfl hk
      simpa [hne, show c / 2 / 2 ≠ c / 2 by omega, show c / 2 ≠ c by omega] using this
    · rcases eq_or_ne (k / 2) (c / 2) with hks | hks
      · rcases eq_or_ne k c with rfl | hkc
        · simp [hlt.le, show k / 2 ≠ k by omega]
        · simpa [hks, hkc, hkp, show c / 2 ≠ c by omega] using hleast k hkn hks hk
      · have hkc : k ≠ c := by rintro rfl; exact hks rfl
        simpa [hne, hks, hkc, hkp] using h.other k hk hkn hks
  · intro k hkn hk _
    simp only [comp_apply, Equiv.swap_apply_def]
    have hkc : k ≠ c ∧ k ≠ c / 2 := by omega
    have := h.other k (by omega) hkn (by omega)
    rw [hk] at this
    simpa [hkc, show c / 2 ≠ c by omega] using this

/-! ## One node less -/

/-- The last node in the place of another one: it climbs when it comes before the parent there. -/
theorem Ordered.replace_up (h : Ordered key n node) (h2 : 2 ≤ p) (hp : p < n)
    (hlt : key (node n) < key (node (p / 2))) : OrderedUp key (n - 1) (update node p (node n)) p := by
  have hq : ∀ k, k ≠ p → update node p (node n) k = node k := fun k hk => update_of_ne hk ..
  constructor
  · intro k hk hkn hne
    rw [hq k hne]
    rcases eq_or_ne (k / 2) p with hkp | hkp
    · rw [hkp, update_self]
      have h1 := h p h2 (by omega)
      have h3 := h k hk (by omega)
      rw [hkp] at h3
      exact le_trans hlt.le (le_trans h1 h3)
    · rw [hq _ hkp]
      exact h k hk (by omega)
  · intro k hkn hk _
    rw [hq _ (by omega), hq k (by omega)]
    have h3 := h k (by omega) (by omega)
    rw [hk] at h3
    exact le_trans (h p h2 (by omega)) h3

/-- And it sinks when not. -/
theorem Ordered.replace_down (h : Ordered key n node) (h1 : 1 ≤ p) (hp : p < n)
    (hle : 2 ≤ p → key (node (p / 2)) ≤ key (node n)) :
    OrderedDown key (n - 1) (update node p (node n)) p := by
  have hq : ∀ k, k ≠ p → update node p (node n) k = node k := fun k hk => update_of_ne hk ..
  constructor
  · intro k hk hkn hne
    rw [hq _ hne]
    rcases eq_or_ne k p with rfl | hkp
    · rw [update_self]
      exact hle hk
    · rw [hq k hkp]
      exact h k hk (by omega)
  · intro k hkn hk h2
    rw [hq _ (by omega), hq k (by omega)]
    have h3 := h k (by omega) (by omega)
    rw [hk] at h3
    exact le_trans (h p h2 (by omega)) h3

theorem Ordered.append (h : Ordered key n node) {node' : Nat → ι} (hn : ∀ k, k ≤ n → node' k = node k) :
    OrderedUp key (n + 1) node' (n + 1) := by
  constructor
  · intro k hk hkn hne
    rw [hn k (by omega), hn _ (by omega)]
    exact h k hk (by omega)
  · intro k hkn hk _
    omega

end BinaryHeap
