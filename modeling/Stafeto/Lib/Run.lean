import Mathlib.Logic.Relation

/-!
# Runs of a transition system

A system is a predicate on its first states and a relation between a state and the next one.
Everything a kernel component promises "in every reachable state" is proved with one rule:
the property holds at the start and every step keeps it.
-/

namespace Run

open List

variable {σ : Type*} {init : σ → Prop} {step : σ → σ → Prop}

/-- The states the system can be in. -/
def Reachable (init : σ → Prop) (step : σ → σ → Prop) (s : σ) : Prop :=
  ∃ s₀, init s₀ ∧ Relation.ReflTransGen step s₀ s

theorem Reachable.start {s : σ} (h : init s) : Reachable init step s := ⟨s, h, .refl⟩

theorem Reachable.tail {s s' : σ} (h : Reachable init step s) (hs : step s s') : Reachable init step s' := by
  obtain ⟨s₀, h0, hr⟩ := h
  exact ⟨s₀, h0, hr.tail hs⟩

theorem Reachable.trans {s s' : σ} (h : Reachable init step s) (hr : Relation.ReflTransGen step s s') :
    Reachable init step s' := by
  obtain ⟨s₀, h0, hr0⟩ := h
  exact ⟨s₀, h0, hr0.trans hr⟩

/-- What a step preserves, a run preserves. -/
theorem preserved {P : σ → Prop} (hstep : ∀ s s', P s → step s s' → P s') {s s' : σ} (h : P s)
    (hr : Relation.ReflTransGen step s s') : P s' := by
  induction hr with
  | refl => exact h
  | tail _ hs ih => exact hstep _ _ ih hs

/-- The invariant rule. -/
theorem Reachable.invariant {P : σ → Prop} (hinit : ∀ s, init s → P s)
    (hstep : ∀ s s', P s → step s s' → P s') {s : σ} (h : Reachable init step s) : P s := by
  obtain ⟨s₀, h0, hr⟩ := h
  exact preserved hstep (hinit s₀ h0) hr

/-! ## Traces -/

/-- What holds at every place of a trace, with what came before it, holds when one more event comes. -/
theorem places_append {α : Type*} {P : List α → α → Prop} {tr : List α} {e : α}
    (h : ∀ pre f post, tr = pre ++ f :: post → P pre f) (he : P tr e) :
    ∀ pre f post, tr ++ [e] = pre ++ f :: post → P pre f := by
  intro pre f post hsplit
  rcases eq_nil_or_concat post with rfl | ⟨post', z, rfl⟩
  · obtain ⟨rfl, hfe⟩ := append_inj' hsplit rfl
    rw [cons.injEq] at hfe
    exact hfe.1 ▸ he
  · rw [concat_eq_append, ← cons_append, ← append_assoc] at hsplit
    exact h pre f post' (append_inj' hsplit rfl).1

/-- Something with `p` came, and nothing with `q` since. -/
def Since {α : Type*} (p q : α → Prop) (tr : List α) : Prop :=
  ∃ pre e post, tr = pre ++ e :: post ∧ p e ∧ ∀ x ∈ post, ¬ q x

theorem not_since_nil {α : Type*} {p q : α → Prop} : ¬ Since p q [] := by
  rintro ⟨pre, e, post, h, -⟩
  simp at h

/-- One more event is the last place, or leaves it where it was. -/
theorem last_append {α : Type*} {P : List α → α → Prop} {q : α → Prop} {tr : List α} {e : α} :
    (∃ pre f post, tr ++ [e] = pre ++ f :: post ∧ P pre f ∧ ∀ x ∈ post, ¬ q x) ↔
      P tr e ∨ ¬ q e ∧ ∃ pre f post, tr = pre ++ f :: post ∧ P pre f ∧ ∀ x ∈ post, ¬ q x := by
  constructor
  · rintro ⟨pre, f, post, hsplit, hf, hpost⟩
    rcases eq_nil_or_concat post with rfl | ⟨post', z, rfl⟩
    · obtain ⟨rfl, hfe⟩ := append_inj' hsplit rfl
      rw [cons.injEq] at hfe
      exact Or.inl (hfe.1 ▸ hf)
    · rw [concat_eq_append, ← cons_append, ← append_assoc] at hsplit
      obtain ⟨rfl, hez⟩ := append_inj' hsplit rfl
      rw [cons.injEq] at hez
      refine Or.inr ⟨?_, pre, f, post', rfl, hf, fun x hx => hpost x (by simp [hx])⟩
      rw [hez.1]
      exact hpost z (by simp)
  · rintro (he | ⟨he, pre, f, post, rfl, hf, hpost⟩)
    · exact ⟨tr, e, [], rfl, he, by simp⟩
    · refine ⟨pre, f, post ++ [e], by simp, hf, fun x hx => ?_⟩
      rcases mem_append.1 hx with hx | hx
      · exact hpost x hx
      · rwa [mem_singleton.1 hx]

@[simp] theorem since_append {α : Type*} {p q : α → Prop} {tr : List α} {e : α} :
    Since p q (tr ++ [e]) ↔ p e ∨ ¬ q e ∧ Since p q tr :=
  last_append

theorem since_append_of_not {α : Type*} {p q : α → Prop} {tr : List α} {e : α} (hp : ¬ p e) (hq : ¬ q e) :
    Since p q (tr ++ [e]) ↔ Since p q tr := by
  simp [hp, hq]

end Run
