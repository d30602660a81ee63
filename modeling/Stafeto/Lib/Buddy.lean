import Mathlib.Algebra.Order.Group.Nat
import Mathlib.Data.Nat.Bitwise
import Mathlib.Order.Interval.Finset.Nat

/-!
# Buddy blocks

A block of order `o` is a run of `2 ^ o` frames that begins at a multiple of its length; its buddy is the
other half of the block of the next order. A layout says of each frame which block it belongs to, and of
what kind, so that the blocks are disjoint by construction; `Whole` says that the frames of a block agree.

`Whole.complete` is what merging is for: where no two buddies are both free, a free run of `2 ^ k` frames
lies in one free block.
-/

namespace Buddy

/-- Frame `f` is in the block of order `o` at `p`. -/
def In (o p f : Nat) : Prop := f / 2 ^ o = p / 2 ^ o

instance (o p f : Nat) : Decidable (In o p f) := inferInstanceAs (Decidable (_ = _))

variable {o p f k r : Nat}

theorem in_self : In o p p := rfl

theorem in_iff (h : 2 ^ o ∣ p) : In o p f ↔ p ≤ f ∧ f < p + 2 ^ o := by
  obtain ⟨q, rfl⟩ := h
  have hpos := Nat.two_pow_pos o
  unfold In
  rw [Nat.mul_div_cancel_left _ hpos, Nat.div_eq_iff hpos, mul_comm q]
  omega

/-- Two blocks with a frame in common: the one of the larger order has all of the other. -/
theorem in_of_le {o' p' f' : Nat} (hle : o' ≤ o) (h1 : In o' p' f) (h2 : In o p f) (h3 : In o' p' f') : In o p f' := by
  obtain ⟨d, rfl⟩ := Nat.exists_eq_add_of_le hle
  unfold In at *
  rw [Nat.pow_add, ← Nat.div_div_eq_div_mul] at *
  rw [h3, ← h1, h2]

theorem eq_of_in {q : Nat} (hp : 2 ^ o ∣ p) (hq : 2 ^ o ∣ q) (h1 : In o p f) (h2 : In o q f) : p = q := by
  rw [in_iff hp] at h1
  rw [in_iff hq] at h2
  obtain ⟨a, rfl⟩ := hp
  obtain ⟨b, rfl⟩ := hq
  have h3 : a < b + 1 := Nat.lt_of_mul_lt_mul_left (a := 2 ^ o) (by rw [mul_add]; omega)
  have h4 : b < a + 1 := Nat.lt_of_mul_lt_mul_left (a := 2 ^ o) (by rw [mul_add]; omega)
  rw [show a = b by omega]

/-! ## Buddies -/

theorem xor_two_pow (q : Nat) : 2 ^ o * q ^^^ 2 ^ o = 2 ^ o * (2 * (q / 2) + (1 - q % 2)) := by
  have h1 : q ^^^ 1 = 2 * (q / 2) + (1 - q % 2) := by
    have hd := Nat.xor_div_two (a := q) (b := 1)
    have hm := Nat.xor_mod_two_eq (m := q) (n := 1)
    simp only [show 1 / 2 = 0 from rfl, Nat.xor_zero] at hd
    omega
  rw [← h1, mul_comm, mul_comm _ (q ^^^ 1), ← Nat.shiftLeft_eq, ← Nat.shiftLeft_eq, Nat.shiftLeft_xor_distrib,
    Nat.one_shiftLeft]

theorem buddy_dvd (h : 2 ^ o ∣ p) : 2 ^ o ∣ p ^^^ 2 ^ o := by
  obtain ⟨q, rfl⟩ := h
  rw [xor_two_pow]
  exact dvd_mul_right ..

theorem buddy_ne : p ^^^ 2 ^ o ≠ p := by
  intro h
  have := congrArg (fun x => x.testBit o) h
  simp at this

theorem buddy_buddy : p ^^^ 2 ^ o ^^^ 2 ^ o = p := by rw [Nat.xor_assoc, Nat.xor_self, Nat.xor_zero]

theorem min_buddy (h : 2 ^ o ∣ p) : min p (p ^^^ 2 ^ o) = 2 ^ (o + 1) * (p / 2 ^ (o + 1)) := by
  obtain ⟨q, rfl⟩ := h
  have hpos := Nat.two_pow_pos o
  have hdiv : 2 ^ o * q / 2 ^ (o + 1) = q / 2 := by
    rw [pow_succ, ← Nat.div_div_eq_div_mul, Nat.mul_div_cancel_left _ hpos]
  rw [xor_two_pow, hdiv, Nat.mul_min_mul_left, pow_succ, mul_assoc]
  congr 1
  omega

theorem min_buddy_dvd (h : 2 ^ o ∣ p) : 2 ^ (o + 1) ∣ min p (p ^^^ 2 ^ o) := by
  rw [min_buddy h]
  exact dvd_mul_right ..

theorem in_min_buddy (h : 2 ^ o ∣ p) : In (o + 1) (min p (p ^^^ 2 ^ o)) f ↔ In o p f ∨ In o (p ^^^ 2 ^ o) f := by
  rw [min_buddy h]
  obtain ⟨q, rfl⟩ := h
  have hpos := Nat.two_pow_pos o
  have hdiv : ∀ x, x / 2 ^ (o + 1) = x / 2 ^ o / 2 := by
    intro x
    rw [pow_succ, Nat.div_div_eq_div_mul]
  unfold In
  rw [xor_two_pow, Nat.mul_div_cancel_left _ (Nat.two_pow_pos (o + 1)), hdiv, hdiv, Nat.mul_div_cancel_left _ hpos,
    Nat.mul_div_cancel_left _ hpos]
  omega

theorem in_halves (h : 2 ^ (o + 1) ∣ p) : In (o + 1) p f ↔ In o p f ∨ In o (p + 2 ^ o) f := by
  have ho : 2 ^ o ∣ p := Nat.dvd_trans (Nat.pow_dvd_pow 2 (Nat.le_succ o)) h
  rw [in_iff h, in_iff ho, in_iff (Nat.dvd_add ho (Nat.dvd_refl _))]
  omega

theorem upper_buddy (h : 2 ^ (o + 1) ∣ p) : (p + 2 ^ o) ^^^ 2 ^ o = p := by
  obtain ⟨q, rfl⟩ := h
  have : 2 ^ (o + 1) * q + 2 ^ o = 2 ^ o * (2 * q + 1) := by rw [Nat.pow_succ, Nat.mul_add, Nat.mul_assoc, Nat.mul_one]
  rw [this, xor_two_pow, Nat.pow_succ, Nat.mul_assoc]
  congr 1
  omega

/-! ## Layouts -/

/-- Which block a frame belongs to: its kind, its order and its first frame. -/
abbrev Layout (κ : Type*) := Nat → Option (κ × Nat × Nat)

variable {κ : Type*} {w : Layout κ} {M : Nat} {c : κ}

structure Whole (M : Nat) (w : Layout κ) : Prop where
  order : ∀ {f c o p}, w f = some (c, o, p) → o ≤ M
  aligned : ∀ {f c o p}, w f = some (c, o, p) → 2 ^ o ∣ p
  mem : ∀ {f c o p}, w f = some (c, o, p) → In o p f
  all : ∀ {f c o p}, w f = some (c, o, p) → ∀ f', In o p f' → w f' = some (c, o, p)

theorem Whole.start (h : Whole M w) (hf : w f = some (c, o, p)) : w p = some (c, o, p) := h.all hf p in_self

/-- The frames of a block, with a kind. -/
def paint (w : Layout κ) (c : κ) (o p : Nat) : Layout κ := fun f => if In o p f then some (c, o, p) else w f

theorem paint_in (h : In o p f) : paint w c o p f = some (c, o, p) := if_pos h

theorem paint_out (h : ¬In o p f) : paint w c o p f = w f := if_neg h

/-- Other blocks in the place of some: no block, old or new, has frames on both sides. -/
theorem Whole.glue (h : Whole M w) {D : Nat → Prop} [DecidablePred D] {w' : Layout κ}
    (hnew : ∀ {f c o p}, D f → w' f = some (c, o, p) →
      o ≤ M ∧ 2 ^ o ∣ p ∧ In o p f ∧ ∀ f', In o p f' → D f' ∧ w' f' = some (c, o, p))
    (hold : ∀ {f c o p}, ¬D f → w f = some (c, o, p) → ∀ f', In o p f' → ¬D f') :
    Whole M fun f => if D f then w' f else w f := by
  have hcases : ∀ {f c o p}, (if D f then w' f else w f) = some (c, o, p) → o ≤ M ∧ 2 ^ o ∣ p ∧ In o p f ∧
      ∀ f', In o p f' → (if D f' then w' f' else w f') = some (c, o, p) := by
    intro f c o p hf
    split_ifs at hf with hD
    · obtain ⟨h1, h2, h3, h4⟩ := hnew hD hf
      exact ⟨h1, h2, h3, fun f' hf' => (if_pos (h4 f' hf').1).trans (h4 f' hf').2⟩
    · exact ⟨h.order hf, h.aligned hf, h.mem hf, fun f' hf' => (if_neg (hold hD hf f' hf')).trans (h.all hf f' hf')⟩
  exact ⟨fun hf => (hcases hf).1, fun hf => (hcases hf).2.1, fun hf => (hcases hf).2.2.1, fun hf => (hcases hf).2.2.2⟩

/-- A block in the place of frames of no larger block. -/
theorem Whole.paint (h : Whole M w) (ho : o ≤ M) (hp : 2 ^ o ∣ p)
    (hin : ∀ f c' o' p', w f = some (c', o', p') → In o p f → o' ≤ o) : Whole M (paint w c o p) := by
  refine h.glue (fun hD hf => ?_) fun hD hf f' hf' hm' => ?_
  · cases hf
    exact ⟨ho, hp, hD, fun f' hf' => ⟨hf', rfl⟩⟩
  · exact hD (in_of_le (hin f' _ _ _ (h.all hf f' hf') hm') hf' hm' (h.mem hf))

theorem Whole.split (h : Whole M w) (hp : w p = some (c, o + 1, p)) (c₁ c₂ : κ) :
    Whole M (Buddy.paint (Buddy.paint w c₁ o p) c₂ o (p + 2 ^ o)) := by
  have hal := h.aligned hp
  have hlo : 2 ^ o ∣ p := dvd_trans (Nat.pow_dvd_pow 2 (Nat.le_succ o)) hal
  have hhi : 2 ^ o ∣ p + 2 ^ o := Nat.dvd_add hlo (Nat.dvd_refl _)
  have hle : o ≤ M := Nat.le_of_succ_le (h.order hp)
  have hsame : Buddy.paint (Buddy.paint w c₁ o p) c₂ o (p + 2 ^ o) = fun f => if In (o + 1) p f then
      if In o (p + 2 ^ o) f then some (c₂, o, p + 2 ^ o) else some (c₁, o, p) else w f := by
    funext f
    simp only [Buddy.paint, in_halves hal]
    by_cases hm : In o (p + 2 ^ o) f
    · simp [hm]
    · simp [hm]
  have hdisj : ∀ {f}, In o p f → ¬In o (p + 2 ^ o) f := by
    intro f h1 h2
    have := eq_of_in hlo hhi h1 h2
    omega
  rw [hsame]
  refine h.glue (fun hD hf => ?_) fun hD hf f' hf' hm' => ?_
  · split_ifs at hf with hm
    · cases hf
      exact ⟨hle, hhi, hm, fun f' hf' => ⟨(in_halves hal).2 (.inr hf'), if_pos hf'⟩⟩
    · cases hf
      exact ⟨hle, hlo, ((in_halves hal).1 hD).resolve_right hm,
        fun f' hf' => ⟨(in_halves hal).2 (.inl hf'), if_neg (hdisj hf')⟩⟩
  · have hw := h.all hp f' hm'
    rw [h.all hf f' hf'] at hw
    cases hw
    exact hD (h.mem hf)

/-! ## Completeness -/

/-- Where no two buddies are both of a kind, a run of that kind lies in one block. -/
theorem Whole.complete (h : Whole M w) (hk : k ≤ M)
    (hcanon : ∀ o p, o < M → w p = some (c, o, p) → w (p ^^^ 2 ^ o) ≠ some (c, o, p ^^^ 2 ^ o))
    (hall : ∀ f, In k r f → ∃ o p, w f = some (c, o, p)) : ∃ o p, k ≤ o ∧ w p = some (c, o, p) := by
  by_contra hno
  have hsmall : ∀ f o p, w f = some (c, o, p) → o < k := by
    intro f o p hf
    by_contra hge
    exact hno ⟨o, p, by omega, h.start hf⟩
  -- a block of the least order among those of the run
  have hex : ∃ o, ∃ f p, In k r f ∧ w f = some (c, o, p) := by
    obtain ⟨o, p, hf⟩ := hall r in_self
    exact ⟨o, r, p, in_self, hf⟩
  classical
  obtain ⟨f, p, hf, hw⟩ := Nat.find_spec hex
  obtain ⟨o, ho⟩ : ∃ o, o = Nat.find hex := ⟨_, rfl⟩
  rw [← ho] at hw
  have hleast : ∀ o' f p, In k r f → w f = some (c, o', p) → o ≤ o' := by
    intro o' f p h1 h2
    rw [ho]
    exact Nat.find_min' hex ⟨f, p, h1, h2⟩
  have hok := hsmall f o p hw
  have hal := h.aligned hw
  -- its buddy is in the run as well
  have hbin : In (o + 1) (min p (p ^^^ 2 ^ o)) (p ^^^ 2 ^ o) := (in_min_buddy hal).2 (Or.inr in_self)
  have hpin : In (o + 1) (min p (p ^^^ 2 ^ o)) f := (in_min_buddy hal).2 (Or.inl (h.mem hw))
  have hrun : In k r (p ^^^ 2 ^ o) := in_of_le hok hpin hf hbin
  obtain ⟨o', p', hw'⟩ := hall _ hrun
  rcases Nat.eq_or_lt_of_le (hleast o' _ p' hrun hw') with rfl | hlt
  · have : p' = p ^^^ 2 ^ o := eq_of_in (h.aligned hw') (buddy_dvd hal) (h.mem hw') in_self
    subst this
    exact hcanon o p (by omega) (h.start hw) hw'
  · -- a larger block there would have the first one too
    have := h.all hw' f (in_of_le hlt hbin (h.mem hw') hpin)
    rw [hw] at this
    cases this
    exact lt_irrefl _ hlt

/-! ## Counting -/

/-- The number of frames below `n` with a property. -/
def count (P : Nat → Prop) [DecidablePred P] (n : Nat) : Nat := ((Finset.range n).filter P).card

theorem count_add {P Q : Nat → Prop} [DecidablePred P] [DecidablePred Q] {n : Nat} (hp : 2 ^ o ∣ p) (hn : p + 2 ^ o ≤ n)
    (hQ : ∀ f, Q f ↔ P f ∨ In o p f) (hP : ∀ f, In o p f → ¬P f) : count Q n = count P n + 2 ^ o := by
  have hunion : (Finset.range n).filter Q = (Finset.range n).filter P ∪ Finset.Ico p (p + 2 ^ o) := by
    ext f
    simp only [Finset.mem_filter, Finset.mem_range, Finset.mem_union, Finset.mem_Ico, hQ, ← in_iff hp]
    constructor
    · rintro ⟨h1, h2 | h2⟩
      · exact Or.inl ⟨h1, h2⟩
      · exact Or.inr h2
    · rintro (⟨h1, h2⟩ | h2)
      · exact ⟨h1, Or.inl h2⟩
      · exact ⟨by have := (in_iff hp).1 h2; omega, Or.inr h2⟩
  have hdisj : Disjoint ((Finset.range n).filter P) (Finset.Ico p (p + 2 ^ o)) := by
    rw [Finset.disjoint_left]
    intro f h1 h2
    rw [Finset.mem_Ico, ← in_iff hp] at h2
    exact hP f h2 (Finset.mem_filter.1 h1).2
  unfold count
  rw [hunion, Finset.card_union_of_disjoint hdisj, Nat.card_Ico]
  omega

end Buddy
