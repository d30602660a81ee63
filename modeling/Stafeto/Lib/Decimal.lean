import Mathlib.Data.List.Basic
import Mathlib.Data.List.Induction
import Mathlib.Tactic.Ring

/-!
# Numbers in decimal digits

`put n v` writes `v` in `n` ASCII digits, zeros first, and `value` reads it back; the order of the numbers is that of
their strings, byte by byte. `text v` writes it in as many digits as it takes.
-/

namespace Decimal

def isDigit (c : UInt8) : Bool := 48 ≤ c && c ≤ 57

/-- `v` in `n` digits. -/
def put : Nat → Nat → List UInt8
  | 0, _ => []
  | n + 1, v => put n (v / 10) ++ [UInt8.ofNat (48 + v % 10)]

/-- `v` in as many digits as it takes. -/
def text (v : Nat) : List UInt8 :=
  if v < 10 then [UInt8.ofNat (48 + v)] else text (v / 10) ++ [UInt8.ofNat (48 + v % 10)]

/-- The number that digits write. -/
def value (b : List UInt8) : Nat := b.foldl (fun v c => v * 10 + (c.toNat - 48)) 0

@[simp] theorem value_snoc (b : List UInt8) (c : UInt8) : value (b ++ [c]) = value b * 10 + (c.toNat - 48) := by
  simp [value]

theorem isDigit_iff {c : UInt8} : isDigit c = true ↔ ∃ d < 10, c = UInt8.ofNat (48 + d) := by
  simp only [isDigit, Bool.and_eq_true, UInt8.le_iff_toNat_le]
  constructor
  · rintro ⟨h1, h2⟩
    refine ⟨c.toNat - 48, ?_, ?_⟩
    · simp at h2
      omega
    · rw [show 48 + (c.toNat - 48) = c.toNat by simp at h1; omega, UInt8.ofNat_toNat]
  · rintro ⟨d, hd, rfl⟩
    simp
    omega

theorem toNat_digit {d : Nat} (h : d < 10) : (UInt8.ofNat (48 + d)).toNat = 48 + d := by
  rw [UInt8.toNat_ofNat', Nat.mod_eq_of_lt (by omega)]

@[simp] theorem length_put (n v : Nat) : (put n v).length = n := by
  induction n generalizing v with
  | zero => rfl
  | succ n ih => simp [put, ih]

theorem isDigit_put (n v : Nat) : ∀ c ∈ put n v, isDigit c = true := by
  induction n generalizing v with
  | zero => simp [put]
  | succ n ih =>
    intro c hc
    rcases List.mem_append.1 hc with hc | hc
    · exact ih _ c hc
    · exact isDigit_iff.2 ⟨v % 10, by omega, List.mem_singleton.1 hc⟩

variable {n v : Nat}

theorem value_put (h : v < 10 ^ n) : value (put n v) = v := by
  induction n generalizing v with
  | zero =>
    simp only [pow_zero, Nat.lt_one_iff] at h
    simp [put, value, h]
  | succ n ih =>
    rw [put, value_snoc, ih (by rw [pow_succ] at h; omega), toNat_digit (by omega)]
    omega

variable {b : List UInt8}

theorem value_lt (h : ∀ c ∈ b, isDigit c = true) : value b < 10 ^ b.length := by
  induction b using List.reverseRecOn with
  | nil => simp [value]
  | append_singleton b c ih =>
    obtain ⟨d, hd, rfl⟩ := isDigit_iff.1 (h c (by simp))
    have := ih fun x hx => h x (by simp [hx])
    rw [value_snoc, toNat_digit hd, List.length_append, List.length_singleton]
    omega

theorem put_value (h : ∀ c ∈ b, isDigit c = true) : put b.length (value b) = b := by
  induction b using List.reverseRecOn with
  | nil => rfl
  | append_singleton b c ih =>
    obtain ⟨d, hd, rfl⟩ := isDigit_iff.1 (h c (by simp))
    rw [value_snoc, toNat_digit hd, List.length_append, List.length_singleton, put]
    rw [show (value b * 10 + (48 + d - 48)) / 10 = value b by omega, ih fun x hx => h x (by simp [hx])]
    rw [show (value b * 10 + (48 + d - 48)) % 10 = d by omega]

/-! ## The order -/

theorem append_lt_append_iff {a a' b' : List UInt8} (h : a.length = a'.length) :
    a ++ b < a' ++ b' ↔ a < a' ∨ a = a' ∧ b < b' := by
  induction a generalizing a' with
  | nil =>
    cases a' with
    | nil => simp
    | cons x a' => simp at h
  | cons x a ih =>
    cases a' with
    | nil => simp at h
    | cons x' a' =>
      simp only [List.cons_append, List.cons_lt_cons_iff, ih (Nat.succ.inj h), List.cons.injEq]
      tauto

/-- **At one width the strings are in the order of the numbers.** -/
theorem put_lt_put_iff {w : Nat} (hv : v < 10 ^ n) (hw : w < 10 ^ n) : put n v < put n w ↔ v < w := by
  induction n generalizing v w with
  | zero =>
    simp [put]
    omega
  | succ n ih =>
    have hinj : put n (v / 10) = put n (w / 10) ↔ v / 10 = w / 10 := by
      constructor
      · intro h
        rw [← value_put (n := n) (v := v / 10) (by omega), h, value_put (by omega)]
      · intro h
        rw [h]
    rw [put, put, append_lt_append_iff (by simp), ih (by omega) (by omega), hinj]
    have hlast : [UInt8.ofNat (48 + v % 10)] < [UInt8.ofNat (48 + w % 10)] ↔ v % 10 < w % 10 := by
      rw [List.cons_lt_cons_iff, UInt8.lt_iff_toNat_lt, toNat_digit (by omega), toNat_digit (by omega)]
      simp
    rw [hlast]
    omega

theorem put_inj {w : Nat} (hv : v < 10 ^ n) (hw : w < 10 ^ n) (h : put n v = put n w) : v = w := by
  rw [← value_put hv, h, value_put hw]

end Decimal
