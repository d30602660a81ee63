import Mathlib.Data.List.Nodup
import Mathlib.Data.List.Infix

/-!
# Stacks of named cells

A structure that takes cells one after the other and gives them back in the opposite order is a stack. Often its
counts alone say which cells are on it: the list `names` of their names, in the order in which they were taken, and
a function `f` from the names to the cells. A cell more is a name at the end and a value of `f` there; cells given
back are names off the end, with `f` as it was.
-/

namespace NamedStack

open Function List

variable {ν α : Type*} {names : List ν} {f g : ν → α} {n : ν} {x : α} {l : List α}

section Push

variable [DecidableEq ν]

theorem map_push (hn : n ∉ names) : (names ++ [n]).map (update f n x) = names.map f ++ [x] := by
  rw [map_append, map_singleton, update_self]
  congr 1
  refine map_congr_left fun q hq => ?_
  rw [update_of_ne]
  rintro rfl
  exact hn hq

theorem nodup_push (h : (names.map f).Nodup) (hn : n ∉ names) (hx : x ∉ names.map f) :
    ((names ++ [n]).map (update f n x)).Nodup := by
  rw [map_push hn, nodup_append]
  refine ⟨h, by simp, fun a ha b hb hab => hx ?_⟩
  rw [← mem_singleton.1 hb, ← hab]
  exact ha

theorem forall_push {P : α → Prop} (h : ∀ q ∈ names, P (f q)) (hx : P x) :
    ∀ q ∈ names ++ [n], P (update f n x q) := by
  intro q hq
  by_cases hqn : q = n
  · rw [hqn, update_self]
    exact hx
  · rw [update_of_ne hqn]
    rw [mem_append, mem_singleton] at hq
    exact h q (hq.resolve_right hqn)

end Push

/-- The last cells of a stack and what is left make up the stack. -/
theorem popped {l' : List α} {room : Nat} (h : l' = l.take (l.length - room)) :
    l.reverse.take room ++ l'.reverse = l.reverse := by
  have hdrop : l'.reverse = l.reverse.drop room := by
    rw [h, reverse_take]
    obtain hle | hle := le_total room l.length
    · rw [Nat.sub_sub_self hle]
    · rw [drop_eq_nil_of_le (by simp; omega), drop_eq_nil_of_le (by simpa using hle)]
  rw [hdrop, take_append_drop]

/-- A stack that grew has its old cells under their old names. -/
theorem same_of_grown {names' : List ν} (hn : names <+: names')
    (hl : names.map f ++ l = names'.map g) : ∀ q ∈ names, f q = g q := by
  obtain ⟨rest, rfl⟩ := hn
  rw [map_append] at hl
  exact map_inj_left.1 (append_inj hl (by simp)).1

/-! ## Items with what leads them

Items `0..n`, before some of which something else is taken. -/

section Led

variable (lead : Nat → List ν) (item : Nat → ν)

/-- The items up to `n`, each behind what leads it. -/
def led (n : Nat) : List ν := (range n).flatMap fun i => lead i ++ [item i]

theorem led_succ (n : Nat) : led lead item (n + 1) = led lead item n ++ lead n ++ [item n] := by
  simp [led, range_succ]

theorem led_pred {n : Nat} (hn : 0 < n) :
    led lead item n = led lead item (n - 1) ++ lead (n - 1) ++ [item (n - 1)] := by
  obtain ⟨n, rfl⟩ := Nat.exists_eq_succ_of_ne_zero hn.ne'
  exact led_succ lead item n

theorem led_mono {n n' : Nat} (h : n ≤ n') : led lead item n <+: led lead item n' := by
  induction h with
  | refl => exact prefix_rfl
  | step _ ih =>
    rw [led_succ, append_assoc]
    exact ih.trans (prefix_append _ _)

theorem mem_led {n : Nat} {q : ν} : q ∈ led lead item n ↔ ∃ i < n, q ∈ lead i ∨ q = item i := by
  simp [led]

/-- The order of the items and what leads them: each comes after everything for smaller numbers, and an item after
what leads it. -/
theorem led_pairwise {R : ν → ν → Prop} (n : Nat)
    (hstep : ∀ i < n, (lead i ++ [item i]).Pairwise R)
    (hlater : ∀ i j, i < j → j < n → ∀ a ∈ lead i ++ [item i], ∀ b ∈ lead j ++ [item j], R a b) :
    (led lead item n).Pairwise R := by
  induction n with
  | zero => simp [led]
  | succ n ih =>
    rw [led_succ, append_assoc, pairwise_append]
    refine ⟨ih (fun i hi => hstep i (by omega)) (fun i j hij hj => hlater i j hij (by omega)), hstep n (by omega), ?_⟩
    intro a ha b hb
    obtain ⟨i, hi, ha⟩ := (mem_led lead item).1 ha
    refine hlater i n hi (by omega) a ?_ b hb
    simpa using ha

end Led

end NamedStack
