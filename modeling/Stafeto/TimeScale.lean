import Mathlib.Tactic

/-!
# The time scale (lib/abi/src/time.rs)

Counter ticks become nanoseconds by a multiply and a shift, `(t * M) >> S`, and nanoseconds become ticks by
an estimate with a second such fraction and a loop that climbs from it to the least tick that reaches the
deadline.

Both fractions are made by `Fraction::of`, a long division one bit at a time. Its loop keeps
`mul * den + rest = num * 2^shift` with `rest < den` (`Fraction.Divides`), and everything else follows from
that equation: the value is never above the exact quotient and less than one below it, the estimate is never
above the least tick, and the two rounding errors together are bounded by `M + M'`, which gives the number of
rounds of the loop for counters up to 1 GHz.

The `while` loops are given a number of rounds and return `none` when it is used up; the theorems say that
they return.
-/

namespace TimeScale

def NANOS_PER_SEC : Nat := 10 ^ 9

def U64_MAX : Nat := 2 ^ 64 - 1

/-- `Fraction` (time.rs:32). -/
structure Fraction where
  mul : Nat
  shift : Nat
deriving DecidableEq, Repr

/-- The loop of `Fraction::of` (time.rs:46), in words of 64 bits. -/
def Fraction.ofLoop (den : Nat) : Nat → Nat → Nat → Nat → Option Fraction
  | 0, _, _, _ => none
  | rounds + 1, mul, rest, shift =>
    if mul < 2 ^ 63 then
      let bit := decide (den - rest ≤ rest)
      ofLoop den rounds ((2 * mul + bit.toNat) % 2 ^ 64)
        (if bit then rest - (den - rest) else 2 * rest % 2 ^ 64) (shift + 1)
    else some ⟨mul, shift⟩

/-- `Fraction::of` (time.rs:41): a shift of 128 or more would not fit the word that `apply` shifts. -/
def Fraction.of (num den : Nat) : Option Fraction := ofLoop den 128 (num / den) (num % den) 0

/-- `apply` (time.rs:57): a product of 128 bits, shifted; saturates. -/
def Fraction.apply (f : Fraction) (v : Nat) : Nat :=
  let product := (v * f.mul % 2 ^ 128) / 2 ^ (f.shift % 128)
  if U64_MAX < product then U64_MAX else product

/-- `Scale` (time.rs:23). -/
structure Scale where
  hz : Nat
  toNs : Fraction
  toTicks : Fraction
deriving DecidableEq, Repr

/-- `Scale::new` (time.rs:70). -/
def Scale.new (hz : Nat) : Option Scale :=
  if hz = 0 then none
  else do
    let toNs ← Fraction.of NANOS_PER_SEC hz
    let toTicks ← Fraction.of hz NANOS_PER_SEC
    return ⟨hz, toNs, toTicks⟩

/-- `ticks_to_ns` (time.rs:87). -/
def Scale.ticksToNs (s : Scale) (ticks : Nat) : Nat := s.toNs.apply ticks

/-- `estimate` (time.rs:106). -/
def Scale.estimate (s : Scale) (ns : Nat) : Nat := s.toTicks.apply ns

/-- The loop of `ns_to_ticks` (time.rs:100) from `ticks` on, with at most `rounds` rounds. -/
def Scale.climb (s : Scale) (ns : Nat) : Nat → Nat → Option Nat
  | rounds, ticks =>
    if ticks < U64_MAX ∧ s.ticksToNs ticks < ns then
      match rounds with
      | 0 => none
      | rounds + 1 => s.climb ns rounds (ticks + 1)
    else some ticks

/-- `ns_to_ticks` (time.rs:96). Each round adds a tick, so no more rounds than ticks are ever made. -/
def Scale.nsToTicks (s : Scale) (ns : Nat) : Option Nat := s.climb ns U64_MAX (s.estimate ns)

open Fraction

/-! ## The long division -/

/-- What the loop keeps: `rest` is the remainder of `num * 2^shift` by `den`. -/
structure Fraction.Divides (num den mul rest shift : Nat) : Prop where
  eq : mul * den + rest = num * 2 ^ shift
  rest_lt : rest < den

theorem Fraction.divides_start {num den : Nat} (hden : 0 < den) :
    Divides num den (num / den) (num % den) 0 :=
  ⟨by rw [pow_zero, mul_one, mul_comm, Nat.div_add_mod], Nat.mod_lt _ hden⟩

section
variable {num den mul rest shift : Nat}

/-- One round: the next bit of the quotient. -/
theorem Fraction.Divides.round (h : Divides num den mul rest shift) :
    Divides num den (2 * mul + (decide (den - rest ≤ rest)).toNat)
      (if den - rest ≤ rest then rest - (den - rest) else 2 * rest) (shift + 1) := by
  have hlt := h.rest_lt
  have hnum : num * 2 ^ (shift + 1) = 2 * (mul * den) + 2 * rest := by
    rw [pow_succ, ← mul_assoc, ← h.eq]
    ring
  by_cases hbit : den - rest ≤ rest
  · refine ⟨?_, by simp only [hbit, if_true]; omega⟩
    have hmul : (2 * mul + 1) * den = 2 * (mul * den) + den := by ring
    simp only [hbit, if_true, decide_true, Bool.toNat_true]
    omega
  · refine ⟨?_, by simp only [hbit, if_false]; omega⟩
    simp only [hbit, if_false, decide_false, Bool.toNat_false, hnum]
    ring

/-- A round is only made while the shift is below 127: the quotient of `2^shift` by `den` is at most `mul`. -/
theorem Fraction.Divides.shift_lt (h : Divides num den mul rest shift) (hnum : 0 < num) (hden : den ≤ 2 ^ 64)
    (hmul : mul < 2 ^ 63) : shift < 127 := by
  have h1 : 2 ^ shift ≤ num * 2 ^ shift := Nat.le_mul_of_pos_left _ hnum
  have h2 : mul * den + rest < 2 ^ 63 * den := by
    have := Nat.mul_le_mul_right den (Nat.succ_le_of_lt hmul)
    have hlt := h.rest_lt
    rw [Nat.succ_eq_add_one, add_mul] at this
    omega
  have h4 : 2 ^ shift < 2 ^ 127 := by
    have := h.eq
    omega
  exact (Nat.pow_lt_pow_iff_right (by norm_num)).1 h4

/-- What `of` returns: a multiplier with its top bit set, a shift that fits, and the division's equation. -/
structure Fraction.Approximates (f : Fraction) (num den : Nat) : Prop where
  mul_ge : 2 ^ 63 ≤ f.mul
  mul_lt : f.mul < 2 ^ 64
  shift_lt : f.shift < 128
  divides : ∃ rest, Divides num den f.mul rest f.shift

/-- The loop returns while its rounds and its shift together make 128. -/
theorem Fraction.ofLoop_spec (hnum : 0 < num) (hden : den ≤ 2 ^ 64) (rounds : Nat)
    (h : Divides num den mul rest shift) (hmul : mul < 2 ^ 64) (hsum : rounds + shift = 128) (hpos : 0 < rounds) :
    ∃ f, ofLoop den rounds mul rest shift = some f ∧ f.Approximates num den := by
  induction rounds generalizing mul rest shift with
  | zero => omega
  | succ rounds ih =>
    by_cases hsmall : mul < 2 ^ 63
    · have hshift := h.shift_lt hnum hden hsmall
      have hbit : (decide (den - rest ≤ rest)).toNat ≤ 1 := Bool.toNat_le _
      have hfit : 2 * mul + (decide (den - rest ≤ rest)).toNat < 2 ^ 64 := by omega
      have hround := h.round
      have hrest : (if decide (den - rest ≤ rest) = true then rest - (den - rest) else 2 * rest % 2 ^ 64) =
          if den - rest ≤ rest then rest - (den - rest) else 2 * rest := by
        simp only [decide_eq_true_eq]
        split_ifs with hc
        · rfl
        · exact Nat.mod_eq_of_lt (by omega)
      obtain ⟨f, hf, happ⟩ := ih hround hfit (by omega) (by omega)
      refine ⟨f, ?_, happ⟩
      rw [ofLoop, if_pos hsmall]
      simp only [hrest, Nat.mod_eq_of_lt hfit]
      exact hf
    · refine ⟨⟨mul, shift⟩, by rw [ofLoop, if_neg hsmall], not_lt.1 hsmall, hmul, ?_, rest, h⟩
      simp only
      omega

/-- **`Fraction::of` returns**, for every numerator and denominator of 64 bits that are not 0. -/
theorem Fraction.of_spec (num den : Nat) (hnum : 0 < num) (hlt : num < 2 ^ 64) (hden : 0 < den) (hle : den < 2 ^ 64) :
    ∃ f, of num den = some f ∧ f.Approximates num den :=
  ofLoop_spec hnum hle.le 128 (divides_start hden) (lt_of_le_of_lt (Nat.div_le_self _ _) hlt) rfl (by norm_num)

end

/-! ## Multiplying by a fraction -/

namespace Fraction

variable {f : Fraction} {num den v : Nat}

section
variable (h : f.Approximates num den)
include h

/-- The product fits its 128 bits and the shift is in range. -/
theorem apply_eq (hv : v < 2 ^ 64) :
    f.apply v = min (v * f.mul / 2 ^ f.shift) U64_MAX := by
  have hfit : v * f.mul < 2 ^ 128 := by
    calc v * f.mul < 2 ^ 64 * 2 ^ 64 := Nat.mul_lt_mul'' hv h.mul_lt
      _ = 2 ^ 128 := by norm_num
  unfold apply
  rw [Nat.mod_eq_of_lt hfit, Nat.mod_eq_of_lt h.shift_lt]
  simp only
  split_ifs with hc
  · exact (min_eq_right hc.le).symm
  · exact (min_eq_left (not_lt.1 hc)).symm

omit h in
theorem apply_le (f : Fraction) (v : Nat) : f.apply v ≤ U64_MAX := by
  unfold apply
  simp only
  split_ifs with hc
  · exact le_rfl
  · exact not_lt.1 hc

theorem apply_mono {w : Nat} (hvw : v ≤ w) (hw : w < 2 ^ 64) :
    f.apply v ≤ f.apply w := by
  rw [apply_eq h (lt_of_le_of_lt hvw hw), apply_eq h hw]
  exact min_le_min_right _ (Nat.div_le_div_right (Nat.mul_le_mul_right _ hvw))

/-- The fraction is rounded down, so the product is. -/
theorem mul_den_le : f.mul * den ≤ num * 2 ^ f.shift := by
  obtain ⟨rest, hd⟩ := h.divides
  rw [← hd.eq]
  exact Nat.le_add_right _ _

theorem lt_succ_mul_den : num * 2 ^ f.shift < (f.mul + 1) * den := by
  obtain ⟨rest, hd⟩ := h.divides
  have hlt := hd.rest_lt
  rw [← hd.eq, add_mul]
  omega

/-- Never above the exact quotient. -/
theorem apply_le_div (hden : 0 < den) (hv : v < 2 ^ 64) :
    f.apply v ≤ v * num / den := by
  rw [apply_eq h hv, Nat.le_div_iff_mul_le hden]
  have hpow : 0 < 2 ^ f.shift := by positivity
  refine Nat.le_of_mul_le_mul_right ?_ hpow
  calc min (v * f.mul / 2 ^ f.shift) U64_MAX * den * 2 ^ f.shift
      ≤ v * f.mul / 2 ^ f.shift * den * 2 ^ f.shift := by gcongr; exact min_le_left _ _
    _ = v * f.mul / 2 ^ f.shift * 2 ^ f.shift * den := by ring
    _ ≤ v * f.mul * den := Nat.mul_le_mul_right _ (Nat.div_mul_le_self _ _)
    _ = v * (f.mul * den) := by ring
    _ ≤ v * (num * 2 ^ f.shift) := Nat.mul_le_mul_left _ (mul_den_le h)
    _ = v * num * 2 ^ f.shift := by ring

/-- At most one below the exact quotient, as long as that is no more than `2^63`. -/
theorem div_le_apply (hv : v < 2 ^ 64)
    (hq : v * num / den ≤ 2 ^ 63) : v * num / den ≤ f.apply v + 1 := by
  obtain ⟨rest, hd⟩ := h.divides
  have hden : 0 < den := lt_of_le_of_lt (Nat.zero_le _) hd.rest_lt
  have hpow : 0 < 2 ^ f.shift := by positivity
  generalize hqq : v * num / den = q at *
  have hlo : q * den ≤ v * num := by rw [← hqq]; exact Nat.div_mul_le_self _ _
  have hhi : v * num < (q + 1) * den := by rw [← hqq, add_mul, one_mul]; exact Nat.lt_div_mul_add hden
  -- all of it in units of `1 / (den * 2^shift)`
  have hexact : v * f.mul * den + v * rest = v * num * 2 ^ f.shift := by
    rw [mul_assoc v, ← mul_add, hd.eq, mul_assoc]
  have herr : v * rest ≤ den * 2 ^ f.shift := by
    by_contra hcon
    have hup : v * num * 2 ^ f.shift < (q + 1) * den * 2 ^ f.shift := Nat.mul_lt_mul_of_pos_right hhi hpow
    have h1 : v * f.mul * den < q * 2 ^ f.shift * den := by
      have : (q + 1) * den * 2 ^ f.shift = q * 2 ^ f.shift * den + den * 2 ^ f.shift := by ring
      omega
    have h2 : v * 2 ^ 63 < 2 ^ 63 * 2 ^ f.shift :=
      calc v * 2 ^ 63 ≤ v * f.mul := Nat.mul_le_mul_left _ h.mul_ge
        _ < q * 2 ^ f.shift := Nat.lt_of_mul_lt_mul_right h1
        _ ≤ 2 ^ 63 * 2 ^ f.shift := Nat.mul_le_mul_right _ hq
    have h3 : v < 2 ^ f.shift := by
      rw [mul_comm (2 ^ 63)] at h2
      exact Nat.lt_of_mul_lt_mul_right h2
    have h4 : v * rest ≤ 2 ^ f.shift * den := Nat.mul_le_mul h3.le hd.rest_lt.le
    rw [mul_comm (2 ^ f.shift)] at h4
    omega
  have hlow : q * den * 2 ^ f.shift ≤ v * num * 2 ^ f.shift := Nat.mul_le_mul_right _ hlo
  rw [apply_eq h hv]
  have hdiv : q - 1 ≤ v * f.mul / 2 ^ f.shift := by
    rw [Nat.le_div_iff_mul_le hpow]
    refine Nat.le_of_mul_le_mul_right ?_ hden
    have : (q - 1) * 2 ^ f.shift * den = q * den * 2 ^ f.shift - den * 2 ^ f.shift := by
      rw [Nat.sub_mul, Nat.sub_mul]
      ring_nf
    omega
  have hmax : q - 1 ≤ U64_MAX := by unfold U64_MAX; omega
  omega

end

end Fraction

/-! ## The climb to the least tick -/

namespace Scale

variable {s : Scale} {ns ticks : Nat}

/-- The loop stops at the first tick that reaches the deadline, or at the last tick of all. -/
theorem climb_spec (s : Scale) (ns rounds : Nat) (hle : ticks ≤ U64_MAX)
    (hend : ∃ n ≤ rounds, ticks + n = U64_MAX ∨ ns ≤ s.ticksToNs (ticks + n)) :
    ∃ r, s.climb ns rounds ticks = some r ∧ ticks ≤ r ∧ r ≤ U64_MAX ∧
      (∀ t, ticks ≤ t → t < r → s.ticksToNs t < ns) ∧ (r < U64_MAX → ns ≤ s.ticksToNs r) := by
  induction rounds generalizing ticks with
  | zero =>
    obtain ⟨n, hn, hend⟩ := hend
    obtain rfl : n = 0 := by omega
    rw [add_zero] at hend
    refine ⟨ticks, ?_, le_rfl, hle, fun t h1 h2 => by omega, fun hlt => ?_⟩
    · unfold climb
      rw [if_neg (by omega)]
    · omega
  | succ rounds ih =>
    by_cases hgo : ticks < U64_MAX ∧ s.ticksToNs ticks < ns
    · obtain ⟨n, hn, hend⟩ := hend
      have hn0 : n ≠ 0 := by
        rintro rfl
        rw [add_zero] at hend
        omega
      obtain ⟨n, rfl⟩ := Nat.exists_eq_succ_of_ne_zero hn0
      rw [Nat.succ_eq_add_one, ← add_assoc, add_right_comm] at hend
      obtain ⟨r, hr, h1, h2, h3, h4⟩ := ih (by omega : ticks + 1 ≤ U64_MAX) ⟨n, by omega, hend⟩
      refine ⟨r, ?_, by omega, h2, fun t ht1 ht2 => ?_, h4⟩
      · unfold climb
        rw [if_pos hgo]
        exact hr
      · obtain rfl | hne := eq_or_ne t ticks
        · exact hgo.2
        · exact h3 t (by omega) ht2
    · refine ⟨ticks, ?_, le_rfl, hle, fun t h1 h2 => by omega, fun hlt => ?_⟩
      · unfold climb
        rw [if_neg hgo]
      · by_contra hcon
        exact hgo ⟨hlt, not_le.1 hcon⟩

/-- A loop that returns in few rounds returns the same in more. -/
theorem climb_mono {rounds : Nat} (more : Nat) (hmore : rounds ≤ more) {r : Nat}
    (h : s.climb ns rounds ticks = some r) : s.climb ns more ticks = some r := by
  induction rounds generalizing more ticks with
  | zero =>
    unfold climb at h ⊢
    split_ifs at h ⊢ with hgo
    exact h
  | succ rounds ih =>
    obtain ⟨more, rfl⟩ := Nat.exists_eq_succ_of_ne_zero (by omega : more ≠ 0)
    unfold climb at h ⊢
    split_ifs at h ⊢ with hgo
    · exact ih more (by omega) h
    · exact h

/-- What `Scale::new` builds for every frequency of 64 bits that is not 0. -/
structure Made (s : Scale) (hz : Nat) : Prop where
  hz_pos : 0 < hz
  ns : s.toNs.Approximates NANOS_PER_SEC hz
  ticks : s.toTicks.Approximates hz NANOS_PER_SEC

theorem new_spec {hz : Nat} (hpos : 0 < hz) (hlt : hz < 2 ^ 64) : ∃ s, Scale.new hz = some s ∧ s.Made hz := by
  obtain ⟨f, hf, hfa⟩ := of_spec NANOS_PER_SEC hz (by decide) (by decide) hpos hlt
  obtain ⟨g, hg, hga⟩ := of_spec hz NANOS_PER_SEC hpos hlt (by decide) (by decide)
  refine ⟨⟨hz, f, g⟩, ?_, hpos, hfa, hga⟩
  unfold Scale.new
  rw [if_neg hpos.ne', hf, hg]
  rfl

section
variable {hz : Nat}

/-- The estimate is not above any tick that reaches the deadline: both fractions are rounded down. -/
theorem estimate_le (h : s.Made hz) (hns : ns < 2 ^ 64) {t : Nat} (ht : t < 2 ^ 64) (hreach : ns ≤ s.ticksToNs t) :
    s.estimate ns ≤ t := by
  have h1 : ns ≤ t * NANOS_PER_SEC / hz := hreach.trans (apply_le_div h.ns h.hz_pos ht)
  have h2 : ns * hz ≤ t * NANOS_PER_SEC := (Nat.le_div_iff_mul_le h.hz_pos).1 h1
  have hpos : 0 < NANOS_PER_SEC := by decide
  calc s.estimate ns ≤ ns * hz / NANOS_PER_SEC := apply_le_div h.ticks hpos hns
    _ ≤ t * NANOS_PER_SEC / NANOS_PER_SEC := Nat.div_le_div_right h2
    _ = t := Nat.mul_div_cancel _ hpos

/-- The two errors together: `2^(S+S')` is not much above the product of the multipliers. -/
theorem pow_mul_pow_le (h : s.Made hz) :
    2 ^ s.toNs.shift * 2 ^ s.toTicks.shift ≤
      s.toNs.mul * s.toTicks.mul + s.toNs.mul + s.toTicks.mul := by
  have h1 := lt_succ_mul_den h.ns
  have h2 := lt_succ_mul_den h.ticks
  have h3 : 2 ^ s.toNs.shift * 2 ^ s.toTicks.shift * (NANOS_PER_SEC * hz) <
      (s.toNs.mul + 1) * (s.toTicks.mul + 1) * (NANOS_PER_SEC * hz) := by
    calc 2 ^ s.toNs.shift * 2 ^ s.toTicks.shift * (NANOS_PER_SEC * hz)
        = (NANOS_PER_SEC * 2 ^ s.toNs.shift) * (hz * 2 ^ s.toTicks.shift) := by ring
      _ < ((s.toNs.mul + 1) * hz) * ((s.toTicks.mul + 1) * NANOS_PER_SEC) := Nat.mul_lt_mul'' h1 h2
      _ = (s.toNs.mul + 1) * (s.toTicks.mul + 1) * (NANOS_PER_SEC * hz) := by ring
  have h4 := Nat.lt_of_mul_lt_mul_right h3
  have h5 : (s.toNs.mul + 1) * (s.toTicks.mul + 1) =
      s.toNs.mul * s.toTicks.mul + s.toNs.mul + s.toTicks.mul + 1 := by ring
  omega

/-- A counter of at most 1 GHz: the second fraction is at most 1. -/
theorem toTicks_mul_le (h : s.Made hz) (hslow : hz ≤ NANOS_PER_SEC) : s.toTicks.mul ≤ 2 ^ s.toTicks.shift := by
  have h1 := mul_den_le h.ticks
  have hpos : 0 < NANOS_PER_SEC := by decide
  refine Nat.le_of_mul_le_mul_right ?_ hpos
  calc s.toTicks.mul * NANOS_PER_SEC ≤ hz * 2 ^ s.toTicks.shift := h1
    _ ≤ NANOS_PER_SEC * 2 ^ s.toTicks.shift := Nat.mul_le_mul_right _ hslow
    _ = 2 ^ s.toTicks.shift * NANOS_PER_SEC := mul_comm _ _

/-- Two multipliers with their top bits set. -/
theorem half_sum_le_mul {a b : Nat} (ha : 2 ^ 63 ≤ a) (hb : 2 ^ 63 ≤ b) : 2 ^ 62 * (a + b) ≤ a * b := by
  nlinarith [Nat.mul_le_mul (Nat.sub_le_sub_right ha (2 ^ 62)) (Nat.sub_le_sub_right hb (2 ^ 62)),
    Nat.sub_add_cancel (show 2 ^ 62 ≤ a by omega), Nat.sub_add_cancel (show 2 ^ 62 ≤ b by omega)]

/-- **`n + 1` ticks past the estimate reach a deadline of at most `n * 2^62` nanoseconds.** -/
theorem reaches_after (h : s.Made hz) (hslow : hz ≤ NANOS_PER_SEC) {n : Nat} (hn : n ≤ 2) (hns : ns ≤ n * 2 ^ 62) :
    s.estimate ns + (n + 1) < 2 ^ 64 ∧ ns ≤ s.ticksToNs (s.estimate ns + (n + 1)) := by
  have hns64 : ns < 2 ^ 64 := by omega
  have hB := toTicks_mul_le h hslow
  have hAB := pow_mul_pow_le h
  have hhalf := half_sum_le_mul h.ns.mul_ge h.ticks.mul_ge
  have hposB : 0 < 2 ^ s.toTicks.shift := by positivity
  have hposA : 0 < 2 ^ s.toNs.shift := by positivity
  have hquot : ns * s.toTicks.mul / 2 ^ s.toTicks.shift ≤ ns := by
    calc ns * s.toTicks.mul / 2 ^ s.toTicks.shift ≤ ns * 2 ^ s.toTicks.shift / 2 ^ s.toTicks.shift :=
          Nat.div_le_div_right (Nat.mul_le_mul_left _ hB)
      _ = ns := Nat.mul_div_cancel _ hposB
  have hest : s.estimate ns = ns * s.toTicks.mul / 2 ^ s.toTicks.shift := by
    unfold estimate
    rw [apply_eq h.ticks hns64]
    exact min_eq_left (by unfold U64_MAX; omega)
  have hlt : ns * s.toTicks.mul < (s.estimate ns + 1) * 2 ^ s.toTicks.shift := by
    rw [hest, add_mul, one_mul]
    exact Nat.lt_div_mul_add hposB
  have hfit : s.estimate ns + (n + 1) < 2 ^ 64 := by omega
  refine ⟨hfit, ?_⟩
  unfold ticksToNs
  rw [apply_eq h.ns hfit]
  refine le_min ?_ (by unfold U64_MAX; omega)
  rw [Nat.le_div_iff_mul_le hposA]
  refine Nat.le_of_mul_le_mul_right ?_ hposB
  generalize s.estimate ns = k at *
  generalize 2 ^ s.toNs.shift = A at *
  generalize 2 ^ s.toTicks.shift = B at *
  generalize s.toNs.mul = M at *
  generalize s.toTicks.mul = N at *
  calc ns * A * B = ns * (A * B) := by ring
    _ ≤ ns * (M * N + M + N) := by gcongr
    _ = ns * N * M + ns * (M + N) := by ring
    _ ≤ (k + 1) * B * M + ns * (M + N) := by gcongr
    _ ≤ (k + 1) * B * M + n * 2 ^ 62 * (M + N) := by gcongr
    _ = (k + 1) * B * M + n * (2 ^ 62 * (M + N)) := by ring
    _ ≤ (k + 1) * B * M + n * (M * N) := by gcongr
    _ ≤ (k + 1) * B * M + n * (M * B) := by gcongr
    _ = (k + (n + 1)) * M * B := by ring

end

/-- **The time scale of every counter.** For every frequency the fractions exist; the nanoseconds of a tick are
monotone, never above the exact value and at most 1 below it; a deadline's tick is the least that reaches it,
or the last one; and the loop makes few rounds for a counter of at most 1 GHz. -/
theorem scale_spec (hz : Nat) (hpos : 1 ≤ hz) (hlt : hz < 2 ^ 64) :
    ∃ s, Scale.new hz = some s ∧
      (∀ f ∈ [s.toNs, s.toTicks], 2 ^ 63 ≤ f.mul ∧ f.mul < 2 ^ 64 ∧ f.shift < 128) ∧
      (∀ t u, t ≤ u → u < 2 ^ 64 → s.ticksToNs t ≤ s.ticksToNs u) ∧
      (∀ t < 2 ^ 64, s.ticksToNs t ≤ t * 10 ^ 9 / hz ∧
        (t * 10 ^ 9 / hz ≤ 2 ^ 63 → t * 10 ^ 9 / hz ≤ s.ticksToNs t + 1)) ∧
      (∀ ns < 2 ^ 64, ∃ r, s.nsToTicks ns = some r ∧
        ((∃ t < 2 ^ 64, ns ≤ s.ticksToNs t) → IsLeast {t | t < 2 ^ 64 ∧ ns ≤ s.ticksToNs t} r) ∧
        ((∀ t < 2 ^ 64, s.ticksToNs t < ns) → r = 2 ^ 64 - 1) ∧
        (hz ≤ 10 ^ 9 →
          (ns ≤ 2 ^ 62 → s.climb ns 2 (s.estimate ns) = some r) ∧
          (ns ≤ 2 ^ 63 → s.climb ns 3 (s.estimate ns) = some r))) := by
  obtain ⟨s, hs, h⟩ := new_spec hpos hlt
  refine ⟨s, hs, ?_, fun t u htu hu => apply_mono h.ns htu hu, ?_, ?_⟩
  · intro f hf
    simp only [List.mem_cons, List.not_mem_nil, or_false] at hf
    obtain rfl | rfl := hf
    · exact ⟨h.ns.mul_ge, h.ns.mul_lt, h.ns.shift_lt⟩
    · exact ⟨h.ticks.mul_ge, h.ticks.mul_lt, h.ticks.shift_lt⟩
  · intro t ht
    exact ⟨apply_le_div h.ns hpos ht, fun hq => div_le_apply h.ns ht hq⟩
  · intro ns hns
    have hest : s.estimate ns ≤ U64_MAX := apply_le _ _
    obtain ⟨r, hr, hle, hmax, hbelow, hreach⟩ := climb_spec s ns U64_MAX hest
      ⟨U64_MAX - s.estimate ns, Nat.sub_le _ _, .inl (by omega)⟩
    have hr64 : r < 2 ^ 64 := by unfold U64_MAX at hmax; omega
    -- a climb that is known to end soon ends at the same tick
    have hsoon : ∀ n ≤ 2, hz ≤ 10 ^ 9 → ns ≤ n * 2 ^ 62 → s.climb ns (n + 1) (s.estimate ns) = some r := by
      intro n hn hslow hsmall
      obtain ⟨hfit, hafter⟩ := reaches_after h hslow hn hsmall
      obtain ⟨r', hr', -⟩ := climb_spec s ns (n + 1) hest ⟨n + 1, le_rfl, .inr hafter⟩
      have hsame := climb_mono U64_MAX (by unfold U64_MAX; omega) hr'
      rw [hr] at hsame
      rw [hr', ← hsame]
    refine ⟨r, hr, ?_, ?_, fun hslow => ⟨fun hsmall => hsoon 1 (by omega) hslow (by omega),
      fun hsmall => hsoon 2 le_rfl hslow (by omega)⟩⟩
    · rintro ⟨t, ht, htn⟩
      -- whatever reaches the deadline is not below the loop's end
      have hlower : ∀ u < 2 ^ 64, ns ≤ s.ticksToNs u → r ≤ u := by
        intro u hu hun
        by_contra hcon
        have := hbelow u (estimate_le h hns hu hun) (not_le.1 hcon)
        omega
      refine ⟨⟨hr64, ?_⟩, fun u hu => hlower u hu.1 hu.2⟩
      obtain hlast | hlast := hmax.lt_or_eq
      · exact hreach hlast
      · exact htn.trans (apply_mono h.ns (by unfold U64_MAX at hlast; omega) hr64)
    · intro hnone
      by_contra hcon
      have := hreach (lt_of_le_of_ne hmax hcon)
      have := hnone r hr64
      omega

end Scale

/-- The counter of QEMU `virt`. -/
theorem Scale.scale_spec_of_virt : ∃ s, Scale.new 62500000 = some s ∧ s.nsToTicks 17 = some 2 := by
  obtain ⟨s, hs, -, -, -, h⟩ := Scale.scale_spec 62500000 (by decide) (by decide)
  refine ⟨s, hs, ?_⟩
  have hval : s = ⟨62500000, ⟨2 ^ 63, 59⟩, ⟨2 ^ 63, 67⟩⟩ := by
    have : Scale.new 62500000 = some ⟨62500000, ⟨2 ^ 63, 59⟩, ⟨2 ^ 63, 67⟩⟩ := by decide +kernel
    rw [hs] at this
    exact Option.some.inj this
  subst hval
  decide +kernel

end TimeScale
