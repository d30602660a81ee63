import Mathlib.Algebra.Group.Nat.Defs
import Mathlib.Logic.Function.Basic

/-!
# Radix trees of tables in word memory

A tree whose nodes are tables of `fan` words that lie in a memory. A word of a table leads to a table of
the next level, or it is a leaf. `TableTree` says where the tables are and what the leaves hold, by the level
and the digits on the way there read as one number: the table of level `l` on the path `p` has its word
`i` at the place `p * fan + i` of level `l`. `Holds` connects the two. No table stands at two places, so
the word at one place is written without a change of any other.
-/

namespace Radix

open Function

/-- How the tables lie in memory: a table is named by an address that satisfies `Table`, and the words of
two tables never meet. -/
structure Layout (W : Type) where
  fan : Nat
  depth : Nat
  zero : W
  child : Nat → W
  slot : Nat → Nat → Nat
  Table : Nat → Prop
  fan_pos : 0 < fan
  slot_inj : ∀ {t u i j}, Table t → Table u → i < fan → j < fan → slot t i = slot u j → t = u ∧ i = j

structure TableTree (W : Type) where
  table : Nat → Nat → Option Nat
  leaf : Nat → Nat → W

variable {W : Type} {L : Layout W} {mem : Nat → W} {root : Nat} {T : TableTree W} {l p q t c i : Nat} {w : W}

open TableTree

theorem Layout.place_div (hi : i < L.fan) : (p * L.fan + i) / L.fan = p := by
  rw [mul_comm, Nat.mul_add_div L.fan_pos, Nat.div_eq_of_lt hi, add_zero]

theorem Layout.place_mod (hi : i < L.fan) : (p * L.fan + i) % L.fan = i := by
  rw [mul_comm, Nat.mul_add_mod, Nat.mod_eq_of_lt hi]

namespace TableTree

/-- What the word at a place of a level says. -/
def entry (L : Layout W) (T : TableTree W) (l q : Nat) : W :=
  match T.table (l + 1) q with
  | some c => L.child c
  | none => T.leaf l q

/-- The tree with another leaf at one place. -/
def setLeaf (T : TableTree W) (l q : Nat) (w : W) : TableTree W where
  table := T.table
  leaf := fun k r => if k = l ∧ r = q then w else T.leaf k r

/-- The tree with one more table, below a place of level `l`. -/
def link (T : TableTree W) (l q c : Nat) : TableTree W where
  table := fun k r => if k = l + 1 ∧ r = q then some c else T.table k r
  leaf := T.leaf

/-- The tree of a root alone. -/
def single (L : Layout W) (root : Nat) : TableTree W where
  table := fun l p => if l = 0 ∧ p = 0 then some root else none
  leaf := fun _ _ => L.zero

theorem entry_table (h : T.table (l + 1) q = some c) : T.entry L l q = L.child c := by
  simp [entry, h]

theorem entry_leaf (h : T.table (l + 1) q = none) : T.entry L l q = T.leaf l q := by
  simp [entry, h]

theorem table_link_self : (T.link l q c).table (l + 1) q = some c := by
  simp [link]

theorem table_link_of_ne (h : ¬(p = l + 1 ∧ t = q)) : (T.link l q c).table p t = T.table p t := by
  simp [link, if_neg h]

/-- A table of the larger tree is the new one, or one that was there. -/
theorem table_link_cases (h : (T.link l q c).table p t = some i) :
    (p = l + 1 ∧ t = q) ∧ c = i ∨ ¬(p = l + 1 ∧ t = q) ∧ T.table p t = some i := by
  by_cases hp : p = l + 1 ∧ t = q
  · obtain ⟨rfl, rfl⟩ := hp
    exact .inl ⟨⟨rfl, rfl⟩, Option.some.inj (table_link_self.symm.trans h)⟩
  · exact .inr ⟨hp, by rwa [table_link_of_ne hp] at h⟩

theorem leaf_setLeaf_self : (T.setLeaf l q w).leaf l q = w := by
  simp [setLeaf]

theorem leaf_setLeaf_of_ne (h : ¬(p = l ∧ t = q)) : (T.setLeaf l q w).leaf p t = T.leaf p t := by
  simp [setLeaf, if_neg h]

end TableTree

/-- The tables of the tree are in memory: every word says what the tree has at its place, no table stands
at two places, and only a place without a table below holds a leaf. -/
structure Holds (L : Layout W) (mem : Nat → W) (root : Nat) (T : TableTree W) : Prop where
  root : T.table 0 0 = some root
  table : ∀ {l p t}, T.table l p = some t → l < L.depth ∧ L.Table t
  inj : ∀ {l p k r t}, T.table l p = some t → T.table k r = some t → l = k ∧ p = r
  up : ∀ {l q c}, T.table (l + 1) q = some c → ∃ t, T.table l (q / L.fan) = some t
  word : ∀ {l p t i}, T.table l p = some t → i < L.fan → mem (L.slot t i) = T.entry L l (p * L.fan + i)
  inner : ∀ {l q c}, T.table (l + 1) q = some c → T.leaf l q = L.zero
  bare : ∀ {l q}, T.table l (q / L.fan) = none → T.leaf l q = L.zero

namespace Holds

section
variable (h : Holds L mem root T)
include h

section
variable (ht : T.table l (q / L.fan) = some t)
include ht

theorem read :
    mem (L.slot t (q % L.fan)) = T.entry L l q := by
  have hw := h.word ht (Nat.mod_lt q L.fan_pos)
  rwa [mul_comm, Nat.div_add_mod] at hw

omit ht in
/-- The words that the tree reads are all that matters of the memory. -/
theorem congr {mem' : Nat → W}
    (hm : ∀ {l p t i}, T.table l p = some t → i < L.fan → mem' (L.slot t i) = mem (L.slot t i)) :
    Holds L mem' root T :=
  { h with word := fun ht hi => (hm ht hi).trans (h.word ht hi) }

/-- Two words of the tree at one address are the word of one place. -/
theorem slot_eq_iff {k r u : Nat}
    (hu : T.table k r = some u) (hi : i < L.fan) :
    L.slot u i = L.slot t (q % L.fan) ↔ k = l ∧ r * L.fan + i = q := by
  constructor
  · intro hs
    obtain ⟨rfl, rfl⟩ := L.slot_inj (h.table hu).2 (h.table ht).2 hi (Nat.mod_lt q L.fan_pos) hs
    obtain ⟨rfl, rfl⟩ := h.inj hu ht
    exact ⟨rfl, by rw [mul_comm, Nat.div_add_mod]⟩
  · rintro ⟨rfl, rfl⟩
    rw [Layout.place_div hi] at ht
    obtain rfl : t = u := Option.some.inj (ht.symm.trans hu)
    rw [Layout.place_mod hi]

/-- **A leaf is written at one place.** -/
theorem set
    (hq : T.table (l + 1) q = none) :
    Holds L (update mem (L.slot t (q % L.fan)) w) root (T.setLeaf l q w) where
  root := h.root
  table := h.table
  inj := h.inj
  up := h.up
  word := by
    intro k r u i hu hi
    by_cases hs : L.slot u i = L.slot t (q % L.fan)
    · obtain ⟨rfl, rfl⟩ := (h.slot_eq_iff ht hu hi).1 hs
      have hn : (T.setLeaf k (r * L.fan + i) w).table (k + 1) (r * L.fan + i) = none := hq
      rw [hs, update_self, entry_leaf hn, leaf_setLeaf_self]
    · rw [update_of_ne hs, h.word hu hi]
      unfold entry
      rw [leaf_setLeaf_of_ne fun hkq => hs ((h.slot_eq_iff ht hu hi).2 hkq)]
      rfl
  inner := by
    intro k r c hc
    have hne : ¬(k = l ∧ r = q) := by
      rintro ⟨rfl, rfl⟩
      exact nomatch hq.symm.trans hc
    rw [leaf_setLeaf_of_ne hne]
    exact h.inner hc
  bare := by
    intro k r hr
    have hne : ¬(k = l ∧ r = q) := by
      rintro ⟨rfl, rfl⟩
      exact nomatch hr.symm.trans ht
    rw [leaf_setLeaf_of_ne hne]
    exact h.bare hr

/-- **An empty table is linked at an empty place.** The new table has no table and no leaf below it, since
nothing is below a place that leads nowhere. -/
theorem link (hl : l + 1 < L.depth)
    (hq : T.table (l + 1) q = none) (hleaf : T.leaf l q = L.zero) (hc : L.Table c)
    (hfresh : ∀ k r, T.table k r ≠ some c) (hzero : ∀ i < L.fan, mem (L.slot c i) = L.zero) :
    Holds L (update mem (L.slot t (q % L.fan)) (L.child c)) root (T.link l q c) where
  root := by
    exact h.root
  table := by
    intro k r u hu
    obtain ⟨⟨rfl, -⟩, rfl⟩ | ⟨-, hu⟩ := table_link_cases hu
    · exact ⟨hl, hc⟩
    · exact h.table hu
  inj := by
    intro k r k' r' u hu hu'
    obtain ⟨⟨rfl, rfl⟩, rfl⟩ | ⟨-, hv⟩ := table_link_cases hu <;>
      obtain ⟨⟨rfl, rfl⟩, he⟩ | ⟨-, hv'⟩ := table_link_cases hu'
    · exact ⟨rfl, rfl⟩
    · exact absurd hv' (hfresh k' r')
    · exact absurd (he ▸ hv) (hfresh k r)
    · exact h.inj hv hv'
  up := by
    intro k r u hu
    have hold : ∃ u, T.table k (r / L.fan) = some u := by
      obtain ⟨⟨hk, rfl⟩, -⟩ | ⟨-, hu⟩ := table_link_cases hu
      · obtain rfl := Nat.succ.inj hk
        exact ⟨t, ht⟩
      · exact h.up hu
    obtain ⟨v, hv⟩ := hold
    by_cases hk : k = l + 1 ∧ r / L.fan = q
    · obtain ⟨rfl, hr⟩ := hk
      rw [hr] at hv
      exact nomatch hq.symm.trans hv
    · exact ⟨v, by rw [table_link_of_ne hk]; exact hv⟩
  word := by
    intro k r u i hu hi
    obtain ⟨⟨rfl, rfl⟩, rfl⟩ | ⟨-, hu⟩ := table_link_cases hu
    · -- a word of the new table
      have hne : L.slot c i ≠ L.slot t (r % L.fan) := by
        intro hs
        obtain ⟨rfl, -⟩ := L.slot_inj hc (h.table ht).2 hi (Nat.mod_lt r L.fan_pos) hs
        exact hfresh _ _ ht
      have hnone : (T.link l r c).table (l + 1 + 1) (r * L.fan + i) = none := by
        rw [table_link_of_ne (by rintro ⟨h0, -⟩; omega)]
        cases hv : T.table (l + 1 + 1) (r * L.fan + i) with
        | none => rfl
        | some v =>
          obtain ⟨v', hv'⟩ := h.up hv
          rw [Layout.place_div hi] at hv'
          exact nomatch hq.symm.trans hv'
      rw [update_of_ne hne, hzero i hi, entry_leaf hnone]
      exact (h.bare (by rwa [Layout.place_div hi])).symm
    · by_cases hs : L.slot u i = L.slot t (q % L.fan)
      · obtain ⟨rfl, rfl⟩ := (h.slot_eq_iff ht hu hi).1 hs
        rw [hs, update_self, entry_table table_link_self]
      · rw [update_of_ne hs, h.word hu hi]
        have hne : ¬(k + 1 = l + 1 ∧ r * L.fan + i = q) := fun hkq =>
          hs ((h.slot_eq_iff ht hu hi).2 ⟨Nat.succ.inj hkq.1, hkq.2⟩)
        unfold entry
        rw [table_link_of_ne hne]
        rfl
  inner := by
    intro k r u hu
    obtain ⟨⟨hk, rfl⟩, -⟩ | ⟨-, hu⟩ := table_link_cases hu
    · obtain rfl := Nat.succ.inj hk
      exact hleaf
    · exact h.inner hu
  bare := by
    intro k r hr
    by_cases hk : k = l + 1 ∧ r / L.fan = q
    · obtain ⟨rfl, rfl⟩ := hk
      exact nomatch table_link_self.symm.trans hr
    · rw [table_link_of_ne hk] at hr
      exact h.bare hr

end

end

end Holds

theorem table_single : (single L root).table l p = some t ↔ (l = 0 ∧ p = 0) ∧ root = t := by
  rw [single, Option.ite_none_right_eq_some, Option.some.injEq]

/-- A table of zeros alone is the tree with nothing below its root. -/
theorem holds_single (hd : 0 < L.depth) (hr : L.Table root) (hzero : ∀ i < L.fan, mem (L.slot root i) = L.zero) :
    Holds L mem root (single L root) where
  root := by simp [single]
  table := by
    intro l p t ht
    obtain ⟨⟨rfl, -⟩, rfl⟩ := table_single.1 ht
    exact ⟨hd, hr⟩
  inj := by
    intro l p k r t ht hu
    obtain ⟨⟨rfl, rfl⟩, -⟩ := table_single.1 ht
    obtain ⟨⟨rfl, rfl⟩, -⟩ := table_single.1 hu
    exact ⟨rfl, rfl⟩
  up := by
    intro l q c hc
    simp [single] at hc
  word := by
    intro l p t i ht hi
    obtain ⟨-, rfl⟩ := table_single.1 ht
    rw [hzero i hi]
    simp [entry, single]
  inner := fun _ => rfl
  bare := fun _ => rfl

end Radix
