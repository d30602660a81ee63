import Mathlib.Data.List.Basic

/-!
# Programs that stop

`Triple` is a rule of pre- and postconditions for programs that stop with an error: besides what holds when the
program returns it says what holds at each stop, the loss of power among them, so that a statement about every
moment of a program is a statement about its stops.
-/

namespace Program

open List

/-- A program over a state: what it returns, or why it stopped, and the state it left. -/
def Prog (σ ε α : Type) : Type := σ → Except ε α × σ

namespace Prog
variable {σ ε α γ : Type} {f : α → Prog σ ε γ} {a : α} {s s' : σ} {e : ε}

instance : Monad (Prog σ ε) where
  pure a := fun s => (.ok a, s)
  bind m f := fun s =>
    match m s with
    | (.ok a, s') => f a s'
    | (.error e, s') => (.error e, s')

def stop (e : ε) : Prog σ ε α := fun s => (.error e, s)

/-- The program, and when it stops, `f` of the reason. -/
def onStop (m : Prog σ ε α) (f : ε → Prog σ ε α) : Prog σ ε α := fun s =>
  match m s with
  | (.ok a, s') => (.ok a, s')
  | (.error e, s') => f e s'

theorem bind_ok {m : Prog σ ε α} (h : m s = (.ok a, s')) :
    (m >>= f) s = f a s' := by
  simp [bind, h]

theorem bind_error {m : Prog σ ε α} (h : m s = (.error e, s')) :
    (m >>= f) s = (.error e, s') := by
  simp [bind, h]

theorem onStop_ok {m : Prog σ ε α} {f : ε → Prog σ ε α} (h : m s = (.ok a, s')) :
    onStop m f s = (.ok a, s') := by
  simp [onStop, h]

theorem onStop_error {m : Prog σ ε α} {f : ε → Prog σ ε α} (h : m s = (.error e, s')) :
    onStop m f s = f e s' := by
  simp [onStop, h]

/-- The program for each member of a list, in order. -/
def each {τ : Type} (f : τ → Prog σ ε Unit) : List τ → Prog σ ε Unit
  | [] => pure ()
  | x :: xs => do
    f x
    each f xs

/-- An end of a program: `Q` when it returned, `E` when it stopped. -/
def Meets (Q : α → σ → Prop) (E : ε → σ → Prop) : Except ε α × σ → Prop
  | (.ok a, s) => Q a s
  | (.error e, s) => E e s

/-- What a program that starts in `P` leaves. -/
def Triple (P : σ → Prop) (m : Prog σ ε α) (Q : α → σ → Prop) (E : ε → σ → Prop) : Prop := ∀ s, P s → Meets Q E (m s)

variable {P P' : σ → Prop} {Q Q' : α → σ → Prop} {R : γ → σ → Prop} {E E' F : ε → σ → Prop} {m : Prog σ ε α}

theorem Triple.pure (h : ∀ s, P s → Q a s) : Triple P (Pure.pure a : Prog σ ε α) Q E := h

theorem Triple.stop (h : ∀ s, P s → E e s) : Triple P (Prog.stop e : Prog σ ε α) Q E := h

theorem Triple.bind (hm : Triple P m Q E) (hf : ∀ a, Triple (Q a) (f a) R E) :
    Triple P (m >>= f) R E := by
  intro s hs
  have h := hm s hs
  have hbind : (m >>= f) s = match m s with
    | (.ok a, s') => f a s'
    | (.error e, s') => (.error e, s') := rfl
  rw [hbind]
  rcases hrun : m s with ⟨r | r, s'⟩ <;> rw [hrun] at h
  · exact h
  · exact hf r s' h

theorem Triple.conseq (h : Triple P m Q E) (hP : ∀ s, P' s → P s) (hQ : ∀ a s, Q a s → Q' a s)
    (hE : ∀ e s, E e s → E' e s) : Triple P' m Q' E' := by
  intro s hs
  have h' := h s (hP s hs)
  rcases hrun : m s with ⟨r | r, s'⟩ <;> rw [hrun] at h'
  · exact hE r s' h'
  · exact hQ r s' h'

theorem Triple.and_const {C : Prop} (h : Triple P m Q E) :
    Triple (fun s => C ∧ P s) m (fun a s => C ∧ Q a s) (fun e s => C ∧ E e s) := by
  rintro s ⟨hC, hs⟩
  have h' := h s hs
  rcases hrun : m s with ⟨r | r, s'⟩ <;> rw [hrun] at h'
  · exact ⟨hC, h'⟩
  · exact ⟨hC, h'⟩

/-- A handler sees the stop of the program and the state it left. -/
theorem Triple.onStop {f : ε → Prog σ ε α} (hm : Triple P m Q F) (hf : ∀ e, Triple (F e) (f e) Q E) :
    Triple P (Prog.onStop m f) Q E := by
  intro s hs
  have h := hm s hs
  unfold Prog.onStop
  rcases hrun : m s with ⟨r | r, s'⟩ <;> rw [hrun] at h
  · exact hf r s' h
  · exact h

/-- A loop keeps what one round keeps. -/
theorem Triple.each {τ : Type} {f : τ → Prog σ ε Unit} {l : List τ}
    (hf : ∀ x ∈ l, Triple P (f x) (fun _ => P) E) : Triple P (Prog.each f l) (fun _ => P) E := by
  induction l with
  | nil => exact Triple.pure fun s hs => hs
  | cons x l ih =>
    refine (hf x mem_cons_self).bind fun _ => ?_
    exact ih fun y hy => hf y (mem_cons_of_mem x hy)

/-- A loop over numbers: what holds before round `i` holds after it for `i + 1`. -/
theorem Triple.eachRange {I : Nat → σ → Prop} {f : Nat → Prog σ ε Unit} {k : Nat}
    (hf : ∀ i, i < k → Triple (I i) (f i) (fun _ => I (i + 1)) E) :
    Triple (I 0) (Prog.each f (range k)) (fun _ => I k) E := by
  have hfrom : ∀ len start, start + len = k →
      Triple (I start) (Prog.each f (range' start len)) (fun _ => I k) E := by
    intro len
    induction len with
    | zero =>
      rintro start rfl
      exact Triple.pure fun s hs => hs
    | succ len ih =>
      intro start hk
      refine (hf start (by omega)).bind fun _ => ?_
      exact ih (start + 1) (by omega)
  rw [range_eq_range']
  exact hfrom k 0 (Nat.zero_add k)

end Prog

end Program
