import Mathlib.Algebra.BigOperators.Group.Finset.Piecewise
import Mathlib.Algebra.Order.BigOperators.Group.Finset

/-!
# Ledgers of accounts that open one another

Every account may hold things itself and may open further accounts, each with an amount that it takes off its
own. `source` names the account that another was opened from. `owed` is what an account still has of its
amount, which may go back to the source in parts; `used` is what it spent of that. A ledger balances when
everything spent is held or owed, and nothing is spent that is not there. All that the accounts hold
together is then covered by those without a source.
-/

namespace Ledger

open Finset

variable {ι : Type} [DecidableEq ι]

/-- What the nodes with the key `p` are worth together. -/
def collect (nodes : Finset ι) (key : ι → Option ι) (val : ι → Nat) (p : ι) : Nat :=
  ∑ x ∈ nodes, if key x = some p then val x else 0

variable {nodes : Finset ι} {key key' source source' : ι → Option ι} {val val' own own' used used' owed owed' : ι → Nat}
  {c p q : ι} {n : Nat}

theorem collect_congr (hk : ∀ x ∈ nodes, key' x = key x) (hv : ∀ x ∈ nodes, key x = some p → val' x = val x) :
    collect nodes key' val' p = collect nodes key val p := by
  refine sum_congr rfl fun x hx => ?_
  rw [hk x hx]
  split
  · next h => exact hv x hx h
  · rfl

theorem collect_insert (hc : c ∉ nodes) :
    collect (insert c nodes) key val p = (if key c = some p then val c else 0) + collect nodes key val p :=
  sum_insert hc

theorem collect_erase (key : ι → Option ι) (val : ι → Nat) (p : ι) (hc : c ∈ nodes) :
    (if key c = some p then val c else 0) + collect (nodes.erase c) key val p = collect nodes key val p := by
  rw [← collect_insert (notMem_erase c nodes), insert_erase hc]

/-- One node is worth more or less than before. -/
theorem sum_change (hc : c ∈ nodes) (hv : ∀ x ∈ nodes, x ≠ c → val' x = val x) :
    ∑ x ∈ nodes, val' x + val c = ∑ x ∈ nodes, val x + val' c := by
  have hrest : ∑ x ∈ nodes.erase c, val' x = ∑ x ∈ nodes.erase c, val x :=
    sum_congr rfl fun x hx => hv x (mem_of_mem_erase hx) (ne_of_mem_erase hx)
  have hold := add_sum_erase nodes val hc
  have hnew := add_sum_erase nodes val' hc
  omega

theorem collect_change (key : ι → Option ι) (p : ι) (hc : c ∈ nodes) (hv : ∀ x ∈ nodes, x ≠ c → val' x = val x) :
    collect nodes key val' p + (if key c = some p then val c else 0) =
      collect nodes key val p + if key c = some p then val' c else 0 := by
  have hsame : ∀ x ∈ nodes, x ≠ c →
      (fun x => if key x = some p then val' x else 0) x = (fun x => if key x = some p then val x else 0) x :=
    fun x hx hxc => by simp [hv x hx hxc]
  exact sum_change hc hsame

theorem collect_eq_zero (h : ∀ x ∈ nodes, key x = some p → val x = 0) : collect nodes key val p = 0 := by
  refine sum_eq_zero fun x hx => ?_
  split
  · next hk => exact h x hx hk
  · rfl

/-- Every node with a key counts at one place. -/
theorem sum_collect (hk : ∀ x ∈ nodes, ∀ p, key x = some p → p ∈ nodes) :
    ∑ p ∈ nodes, collect nodes key val p = ∑ x ∈ nodes, if key x = none then 0 else val x := by
  unfold collect
  rw [sum_comm]
  refine sum_congr rfl fun x hx => ?_
  cases hx' : key x with
  | none => simp
  | some p =>
    have hp := hk x hx p hx'
    simp only [Option.some.injEq, reduceCtorEq, if_false]
    rw [sum_ite_eq nodes p fun _ => val x, if_pos hp]

/-- The accounts balance. -/
structure Balanced (nodes : Finset ι) (source : ι → Option ι) (own used owed : ι → Nat) : Prop where
  spent : ∀ p ∈ nodes, used p = own p + collect nodes source owed p
  room : ∀ p ∈ nodes, used p ≤ owed p
  known : ∀ p ∈ nodes, ∀ q, source p = some q → q ∈ nodes

namespace Balanced

section
variable (h : Balanced nodes source own used owed)
include h

theorem congr (hs : ∀ x ∈ nodes, source' x = source x)
    (ho : ∀ x ∈ nodes, own' x = own x) (hu : ∀ x ∈ nodes, used' x = used x) (hw : ∀ x ∈ nodes, owed' x = owed x) :
    Balanced nodes source' own' used' owed' where
  spent := fun p hp => by
    rw [hu p hp, ho p hp, h.spent p hp, collect_congr hs fun x hx _ => hw x hx]
  room := fun p hp => by
    rw [hu p hp, hw p hp]
    exact h.room p hp
  known := fun p hp q hq => h.known p hp q (by rwa [hs p hp] at hq)

theorem charge (hn : used p + n ≤ owed p)
    (ho : ∀ x ∈ nodes, own' x = own x + if x = p then n else 0)
    (hu : ∀ x ∈ nodes, used' x = used x + if x = p then n else 0) : Balanced nodes source own' used' owed where
  spent := fun x hx => by
    rw [hu x hx, ho x hx, h.spent x hx]
    omega
  room := fun x hx => by
    have := h.room x hx
    rw [hu x hx]
    split
    · next he => rw [he]; exact hn
    · omega
  known := h.known

theorem own_le (hp : p ∈ nodes) : own p ≤ used p := by
  have := h.spent p hp
  omega

theorem refund (ho : ∀ x ∈ nodes, own x = own' x + if x = p then n else 0)
    (hu : ∀ x ∈ nodes, used x = used' x + if x = p then n else 0) : Balanced nodes source own' used' owed where
  spent := fun x hx => by
    have h1 := h.spent x hx
    have h2 := ho x hx
    have h3 := hu x hx
    omega
  room := fun x hx => by
    have h1 := h.room x hx
    have h3 := hu x hx
    omega
  known := h.known

/-- A new account, with an amount that its source held. -/
theorem add (hc : c ∉ nodes) (hq : ∀ q, source' c = some q → q ∈ nodes)
    (hs : ∀ x ∈ nodes, source' x = source x) (ho : ∀ x ∈ nodes, own x = own' x + if source' c = some x then n else 0)
    (hu : ∀ x ∈ nodes, used' x = used x) (hw : ∀ x ∈ nodes, owed' x = owed x) (hoc : own' c = used' c)
    (huc : used' c ≤ n) (hwc : owed' c = n) : Balanced (insert c nodes) source' own' used' owed' where
  spent := fun p hp => by
    rw [collect_insert hc, collect_congr hs fun x hx _ => hw x hx, hwc]
    rcases mem_insert.1 hp with rfl | hp
    · -- no account has the new one as its source
      have hzero : collect nodes source owed p = 0 :=
        collect_eq_zero fun x hx hxp => absurd (h.known x hx p hxp) hc
      rw [hoc, hzero, if_neg fun he => hc (hq p he)]
      rfl
    · rw [hu p hp, h.spent p hp, ho p hp, Nat.add_assoc]
  room := fun p hp => by
    rcases mem_insert.1 hp with rfl | hp
    · omega
    · rw [hu p hp, hw p hp]
      exact h.room p hp
  known := fun p hp r hr => by
    rcases mem_insert.1 hp with rfl | hp
    · exact mem_insert_of_mem (hq r hr)
    · exact mem_insert_of_mem (h.known p hp r (by rwa [hs p hp] at hr))

/-- A part that an account did not spend is let go: its source holds it again. -/
theorem release (hc : c ∈ nodes) (hn : used c + n ≤ owed c)
    (hw : ∀ x ∈ nodes, owed x = owed' x + if x = c then n else 0)
    (ho : ∀ x ∈ nodes, own' x = own x + if source c = some x then n else 0) :
    Balanced nodes source own' used owed' where
  spent := fun p hp => by
    have h1 := h.spent p hp
    have h2 := ho p hp
    have h3 := hw c hc
    rw [if_pos rfl] at h3
    have h4 := collect_change source p hc (fun x hx hxc => by
      have := hw x hx
      rw [if_neg hxc] at this
      omega : ∀ x ∈ nodes, x ≠ c → owed' x = owed x)
    by_cases hs : source c = some p
    · rw [if_pos hs] at h2
      rw [if_pos hs, if_pos hs] at h4
      omega
    · rw [if_neg hs] at h2
      rw [if_neg hs, if_neg hs] at h4
      omega
  room := fun p hp => by
    have h1 := h.room p hp
    have h3 := hw p hp
    by_cases he : p = c
    · subst he
      rw [if_pos rfl] at h3
      omega
    · rw [if_neg he] at h3
      omega
  known := h.known

/-- An account goes that owes nothing and that no other came from. -/
theorem close (hc : c ∈ nodes) (h0 : owed c = 0)
    (hs : ∀ x ∈ nodes, source x ≠ some c) : Balanced (nodes.erase c) source own used owed where
  spent := fun p hp => by
    have hp' := mem_of_mem_erase hp
    have := collect_erase source owed p hc
    rw [h0, ite_self] at this
    rw [h.spent p hp']
    omega
  room := fun p hp => h.room p (mem_of_mem_erase hp)
  known := fun p hp q hq => by
    have hp' := mem_of_mem_erase hp
    refine mem_erase.2 ⟨?_, h.known p hp' q hq⟩
    rintro rfl
    exact hs p hp' hq

/-- **All that is held is covered by the accounts without a source.** -/
theorem total :
    ∑ p ∈ nodes, own p ≤ ∑ p ∈ nodes, if source p = none then owed p else 0 := by
  have hused : ∑ p ∈ nodes, used p = ∑ p ∈ nodes, own p + ∑ p ∈ nodes, if source p = none then 0 else owed p := by
    rw [← sum_collect h.known, ← sum_add_distrib]
    exact sum_congr rfl h.spent
  have howed : ∑ p ∈ nodes, owed p =
      (∑ p ∈ nodes, if source p = none then owed p else 0) + ∑ p ∈ nodes, if source p = none then 0 else owed p := by
    rw [← sum_add_distrib]
    refine sum_congr rfl fun p _ => ?_
    split <;> omega
  have hroom : ∑ p ∈ nodes, used p ≤ ∑ p ∈ nodes, owed p := sum_le_sum h.room
  omega

end

end Balanced

end Ledger
