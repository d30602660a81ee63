import Stafeto.Lib.Bytes
import Stafeto.Lib.Decimal

/-!
# Calendar times (lib/pkgfmt/src/time.rs)

Seconds since 1970 and their text `YYYY-MM-DDThh:mm:ssZ`. A date counts its days from 1 March of the year
0, so that a leap day is the last of its year; both ways are closed formulas. The numbers stay far inside
64 bits for the years the text can write. A text is its bytes; whatever `parse` accepts is ASCII.
-/

namespace Pkgfmt.Time

open ByteStr Decimal List Option

def TEXT_LEN : Nat := 20

/-- The last second of the year 9999. -/
def LAST : Nat := 253402300799

/-- `is_leap` (time.rs:11). -/
def isLeap (y : Int) : Bool := (y.tmod 4 == 0 && y.tmod 100 != 0) || y.tmod 400 == 0

/-- `month_days` (time.rs:15). -/
def monthDays (y m : Int) : Int :=
  if m = 2 then if isLeap y then 29 else 28
  else if m = 4 ∨ m = 6 ∨ m = 9 ∨ m = 11 then 30
  else 31

/-- `days_from_civil` (time.rs:25). -/
def daysFromCivil (y m d : Int) : Int :=
  let y := if m ≤ 2 then y - 1 else y
  let era := y / 400
  let yoe := y - era * 400
  let doy := (153 * (if 2 < m then m - 3 else m + 9) + 2).tdiv 5 + d - 1
  let doe := yoe * 365 + yoe.tdiv 4 - yoe.tdiv 100 + doy
  era * 146097 + doe - 719468

/-- `civil_from_days` (time.rs:34). -/
def civilFromDays (z : Int) : Int × Int × Int :=
  let z := z + 719468
  let era := z / 146097
  let doe := z - era * 146097
  let yoe := (doe - doe.tdiv 1460 + doe.tdiv 36524 - doe.tdiv 146096).tdiv 365
  let y := yoe + era * 400
  let doy := doe - (365 * yoe + yoe.tdiv 4 - yoe.tdiv 100)
  let mp := (5 * doy + 2).tdiv 153
  let d := doy - (153 * mp + 2).tdiv 5 + 1
  let m := if mp < 10 then mp + 3 else mp - 9
  (if m ≤ 2 then y + 1 else y, m, d)

/-- `digits` (time.rs:47). -/
def digits (b : Bytes) : Option Int :=
  b.foldlM (fun v c => if isDigit c then some (v * 10 + ((c.toNat : Int) - 48)) else none) 0

/-- `parse` (time.rs:60). -/
def parse (b : Bytes) : Option Nat := do
  if b.length ≠ TEXT_LEN ∨ b.getD 4 0 ≠ 45 ∨ b.getD 7 0 ≠ 45 ∨ b.getD 10 0 ≠ 84 ∨ b.getD 13 0 ≠ 58 ∨ b.getD 16 0 ≠ 58 ∨
      b.getD 19 0 ≠ 90 then none
  let y ← digits (slice b 0 4)
  let m ← digits (slice b 5 2)
  let d ← digits (slice b 8 2)
  let h ← digits (slice b 11 2)
  let mi ← digits (slice b 14 2)
  let s ← digits (slice b 17 2)
  if y < 1970 ∨ ¬ (1 ≤ m ∧ m ≤ 12) ∨ d < 1 ∨ monthDays y m < d ∨ 23 < h ∨ 59 < mi ∨ 59 < s then none
  some (daysFromCivil y m d * 86400 + h * 3600 + mi * 60 + s).toNat

/-- The closure `put` of `format` (time.rs:101): the last `n` digits of `v`. -/
def putDigits : Nat → Int → Bytes
  | 0, _ => []
  | n + 1, v => putDigits n (v.tdiv 10) ++ [48 + UInt8.ofInt (v.tmod 10)]

/-- `from_utf8` of the buffer, which holds ASCII alone. -/
def asciiText (b : Bytes) : Option Bytes := if b.all (· < 128) then some b else none

/-- `format` (time.rs:92). -/
def format (secs : Nat) : Option Bytes :=
  if LAST < secs then none
  else
    let days := secs / 86400
    let rest := secs % 86400
    let (y, m, d) := civilFromDays days
    asciiText (putDigits 4 y ++ [45] ++ putDigits 2 m ++ [45] ++ putDigits 2 d ++ [84] ++
      putDigits 2 (rest / 3600 : Nat) ++ [58] ++ putDigits 2 (rest % 3600 / 60 : Nat) ++ [58] ++
      putDigits 2 (rest % 60 : Nat) ++ [90])

/-! ## The calendar -/

/-- A date and a time of day. -/
structure Moment where
  year : Nat
  month : Nat
  day : Nat
  hour : Nat
  minute : Nat
  second : Nat
  deriving DecidableEq, Repr

namespace Moment

/-- The days of a month of the Gregorian calendar. -/
def monthLength (year month : Nat) : Nat :=
  if month = 2 then if (4 ∣ year ∧ ¬ 100 ∣ year) ∨ 400 ∣ year then 29 else 28
  else if month ∈ [4, 6, 9, 11] then 30
  else 31

/-- A moment there is, of the years 1970 to 9999. -/
structure Real (c : Moment) : Prop where
  year : 1970 ≤ c.year ∧ c.year ≤ 9999
  month : 1 ≤ c.month ∧ c.month ≤ 12
  day : 1 ≤ c.day ∧ c.day ≤ monthLength c.year c.month
  hour : c.hour ≤ 23
  minute : c.minute ≤ 59
  second : c.second ≤ 59

/-- `YYYY-MM-DDThh:mm:ssZ`. -/
def text (c : Moment) : Bytes :=
  put 4 c.year ++ [45] ++ put 2 c.month ++ [45] ++ put 2 c.day ++ [84] ++ put 2 c.hour ++ [58] ++ put 2 c.minute ++
    [58] ++ put 2 c.second ++ [90]

/-- What `parse` computes of it. -/
def seconds (c : Moment) : Nat :=
  (daysFromCivil c.year c.month c.day * 86400 + c.hour * 3600 + c.minute * 60 + c.second).toNat

end Moment

open Moment

variable {y : Nat}

theorem isLeap_iff : isLeap y = true ↔ (y % 4 = 0 ∧ y % 100 ≠ 0) ∨ y % 400 = 0 := by
  have h4 : (y : Int).tmod 4 = (y % 4 : Nat) := rfl
  have h100 : (y : Int).tmod 100 = (y % 100 : Nat) := rfl
  have h400 : (y : Int).tmod 400 = (y % 400 : Nat) := rfl
  unfold isLeap
  rw [h4, h100, h400]
  simp only [Bool.or_eq_true, Bool.and_eq_true, beq_iff_eq, bne_iff_ne]
  omega

theorem monthDays_eq (y m : Nat) : monthDays y m = monthLength y m := by
  unfold monthDays monthLength
  have hm : ∀ k : Nat, (m : Int) = k ↔ m = k := fun k => Nat.cast_inj
  have hleap : isLeap y = true ↔ (4 ∣ y ∧ ¬ 100 ∣ y) ∨ 400 ∣ y := by
    rw [isLeap_iff]
    omega
  by_cases h2 : m = 2
  · subst h2
    by_cases hy : isLeap y = true
    · simp [hy, hleap.1 hy]
    · simp [hy, (not_congr hleap).1 hy]
  · rw [if_neg (by omega), if_neg h2]
    by_cases h30 : m ∈ [4, 6, 9, 11]
    · rw [if_pos h30, if_pos (by simp at h30; omega)]
      rfl
    · rw [if_neg h30, if_neg (by simp at h30; omega)]
      rfl

/-! ## Days -/

/-- The days from 1 March of the year 0 to 1 March of the year `y`. -/
def march (y : Nat) : Nat := 365 * y + y / 4 - y / 100 + y / 400

/-- 400 years are an era, of as many days each. -/
theorem march_era (y era : Nat) : march (y + 400 * era) = march y + 146097 * era := by
  have hle : y / 100 ≤ y / 4 := Nat.div_le_div_left (by decide) (by decide)
  unfold march
  rw [show (y + 400 * era) / 4 = y / 4 + 100 * era by omega, show (y + 400 * era) / 100 = y / 100 + 4 * era by omega,
    show (y + 400 * era) / 400 = y / 400 + era by omega]
  omega

theorem isLeap_era (y era : Nat) : isLeap (y + 400 * era : Nat) = isLeap y := by
  rw [Bool.eq_iff_iff, isLeap_iff, isLeap_iff]
  omega

theorem march_succ (y : Nat) : march (y + 1) = march y + 365 + (isLeap (y + 1 : Nat)).toNat := by
  have hall : ∀ r < 400, march (r + 1) = march r + 365 + (isLeap (r + 1 : Nat)).toNat := by decide +kernel
  have h := hall (y % 400) (Nat.mod_lt y (by decide))
  rw [← Nat.mod_add_div y 400, add_right_comm, march_era, march_era, isLeap_era, h]
  omega

theorem march_mono : Monotone march := monotone_nat_of_le_succ fun y => by
  have := march_succ y
  omega

/-- The months since March of the year 0. -/
def months (y m : Nat) : Nat := 12 * y + m - 3

/-- The days before the month `mp` of a year that begins in March. -/
def before (mp : Nat) : Nat := (153 * mp + 2) / 5

variable {m : Nat}

theorem daysFromCivil_eq {d : Nat} (hy : 1 ≤ y) (hm : 1 ≤ m ∧ m ≤ 12) :
    daysFromCivil y m d = march (months y m / 12) + before (months y m % 12) + d - 719469 := by
  have hY : ((if (m : Int) ≤ 2 then (y : Int) - 1 else y)) = (months y m / 12 : Nat) := by
    unfold months
    split_ifs <;> omega
  have hmp : (if 2 < (m : Int) then (m : Int) - 3 else m + 9) = (months y m % 12 : Nat) := by
    unfold months
    split_ifs <;> omega
  unfold daysFromCivil march before
  simp only
  rw [hY, hmp]
  generalize months y m / 12 = a
  generalize months y m % 12 = b
  rw [Int.tdiv_eq_ediv_of_nonneg (by omega), Int.tdiv_eq_ediv_of_nonneg (by omega), Int.tdiv_eq_ediv_of_nonneg (by omega)]
  omega

/-- A month ends where the next one begins, and the last one, February, with the year. -/
theorem before_add_monthLength (hy : 1 ≤ y) (hm : 1 ≤ m ∧ m ≤ 12) :
    before (months y m % 12) + monthLength y m = if months y m % 12 = 11 then 365 + (isLeap (months y m / 12 + 1 : Nat)).toNat
      else before (months y m % 12 + 1) := by
  have hr : months y m % 12 = (m + 9) % 12 := by
    unfold months
    omega
  by_cases h2 : m = 2
  · subst h2
    have hq : months y 2 / 12 + 1 = y := by
      unfold months
      omega
    have hlen : (monthLength y 2 : Int) = if isLeap y then 29 else 28 := by
      rw [← monthDays_eq]
      rfl
    have : before 11 = 337 := rfl
    rw [hq, hr, if_pos rfl]
    cases hl : isLeap y with
    | true => simp [hl] at hlen ⊢; omega
    | false => simp [hl] at hlen ⊢; omega
  · have hall : ∀ m, m ≤ 12 → 1 ≤ m → m ≠ 2 → (m + 9) % 12 ≠ 11 ∧
        before ((m + 9) % 12) + (if m ∈ [4, 6, 9, 11] then 30 else 31) = before ((m + 9) % 12 + 1) := by decide
    obtain ⟨h11, hnext⟩ := hall m hm.2 hm.1 h2
    rw [hr, if_neg h11, ← hnext, monthLength, if_neg h2]

theorem before_mono : Monotone before := fun a b h => Nat.div_le_div_right (by omega)

/-- **Later dates have more days.** -/
theorem daysFromCivil_lt {d u v w : Nat} (hy : 1 ≤ y) (hy' : 1 ≤ u) (hm : 1 ≤ m ∧ m ≤ 12)
    (hm' : 1 ≤ v ∧ v ≤ 12) (hd : d ≤ monthLength y m) (hd' : 1 ≤ w)
    (hlt : 12 * y + m < 12 * u + v ∨ 12 * y + m = 12 * u + v ∧ d < w) :
    daysFromCivil y m d < daysFromCivil u v w := by
  rw [daysFromCivil_eq hy hm, daysFromCivil_eq hy' hm']
  have hmonth := before_add_monthLength hy hm
  have hlt' : months y m < months u v ∨ months y m = months u v ∧ d < w := by
    unfold months
    omega
  generalize months y m = a at *
  generalize months u v = a' at *
  rcases hlt' with h | ⟨rfl, h⟩
  · by_cases hq : a / 12 < a' / 12
    · have hmono := march_mono hq
      rw [Nat.succ_eq_add_one, march_succ] at hmono
      split_ifs at hmonth with h11
      · omega
      · have : before (a % 12 + 1) ≤ 337 := before_mono (show a % 12 + 1 ≤ 11 by omega)
        omega
    · -- the same year: a later month
      have hq : a / 12 = a' / 12 := by omega
      have : before (a % 12 + 1) ≤ before (a' % 12) := before_mono (by omega)
      rw [if_neg (by omega)] at hmonth
      rw [hq]
      omega
  · omega

/-! ## Years of an era -/

/-- The year of a day of an era. -/
def yearOf (doe : Nat) : Nat := (doe - doe / 1460 + doe / 36524 - doe / 146096) / 365

theorem yearOf_mono : Monotone yearOf := monotone_nat_of_le_succ fun doe => by
  apply Nat.div_le_div_right
  omega

theorem yearOf_ends : ∀ y < 400, yearOf (march y) = y ∧ yearOf (march (y + 1) - 1) = y := by
  decide +kernel

theorem yearOf_spec {doe : Nat} (h : doe ≤ 146096) :
    yearOf doe ≤ 399 ∧ march (yearOf doe) ≤ doe ∧ doe < march (yearOf doe + 1) := by
  have htop : yearOf doe ≤ 399 := le_trans (yearOf_mono h) (by decide)
  refine ⟨htop, ?_, ?_⟩
  · by_contra hc
    obtain ⟨y, hy⟩ : ∃ y, yearOf doe = y + 1 := by
      refine Nat.exists_eq_succ_of_ne_zero fun h0 => hc ?_
      rw [h0]
      exact Nat.zero_le doe
    rw [hy] at hc
    have := yearOf_mono (show doe ≤ march (y + 1) - 1 by omega)
    rw [(yearOf_ends y (by omega)).2] at this
    omega
  · by_contra hc
    rcases Nat.lt_or_ge (yearOf doe) 399 with hlt | hge
    · have := yearOf_mono (not_lt.1 hc)
      rw [(yearOf_ends _ (by omega)).1] at this
      omega
    · rw [show yearOf doe = 399 by omega, show march (399 + 1) = 146097 from rfl] at hc
      omega

/-- **`civil_from_days`** gives the date of a day. -/
theorem civilFromDays_spec {z : Nat} (hz : z ≤ 2932896) :
    ∃ y m d : Nat, civilFromDays z = ((y : Int), (m : Int), (d : Int)) ∧ daysFromCivil y m d = z ∧
      (1970 ≤ y ∧ y ≤ 9999) ∧ (1 ≤ m ∧ m ≤ 12) ∧ 1 ≤ d ∧ d ≤ monthLength y m := by
  obtain ⟨era, hera⟩ : ∃ era, era = (z + 719468) / 146097 := ⟨_, rfl⟩
  obtain ⟨doe, hdoe⟩ : ∃ doe, doe = (z + 719468) % 146097 := ⟨_, rfl⟩
  obtain ⟨hy1, hy2, hy3⟩ := yearOf_spec (show doe ≤ 146096 by omega)
  obtain ⟨yoe, hyoe⟩ : ∃ yoe, yoe = yearOf doe := ⟨_, rfl⟩
  rw [← hyoe] at hy1 hy2 hy3
  obtain ⟨doy, hdoy⟩ : ∃ doy, doy = doe - march yoe := ⟨_, rfl⟩
  have hlast : doy ≤ 364 + (isLeap (yoe + 400 * era + 1 : Nat)).toNat := by
    rw [add_right_comm, isLeap_era]
    rw [march_succ] at hy3
    omega
  obtain ⟨mp, hmp⟩ : ∃ mp, mp = (5 * doy + 2) / 153 := ⟨_, rfl⟩
  have hbool : (isLeap (yoe + 400 * era + 1 : Nat)).toNat ≤ 1 := Bool.toNat_le _
  have hmp11 : mp ≤ 11 := by omega
  have hfrom : before mp ≤ doy := by
    unfold before
    omega
  have hciv : civilFromDays z = (((if mp < 10 then yoe + 400 * era else yoe + 400 * era + 1 : Nat) : Int),
      ((if mp < 10 then mp + 3 else mp - 9 : Nat) : Int), ((doy - before mp + 1 : Nat) : Int)) := by
    have h1 : (z : Int) + 719468 - (era : Int) * 146097 = doe := by omega
    have h2 : ((z : Int) + 719468) / 146097 = era := by omega
    have h3 : ((doe : Int) - (doe : Int).tdiv 1460 + (doe : Int).tdiv 36524 - (doe : Int).tdiv 146096).tdiv 365 = yoe := by
      rw [show (doe : Int).tdiv 1460 = (doe / 1460 : Nat) from rfl,
        show (doe : Int).tdiv 36524 = (doe / 36524 : Nat) from rfl,
        show (doe : Int).tdiv 146096 = (doe / 146096 : Nat) from rfl, Int.tdiv_eq_ediv_of_nonneg (by omega), hyoe, yearOf]
      omega
    have h4 : (doe : Int) - (365 * (yoe : Int) + (yoe : Int).tdiv 4 - (yoe : Int).tdiv 100) = doy := by
      rw [show (yoe : Int).tdiv 4 = (yoe / 4 : Nat) from rfl, show (yoe : Int).tdiv 100 = (yoe / 100 : Nat) from rfl]
      unfold march at *
      omega
    have h5 : (5 * (doy : Int) + 2).tdiv 153 = mp := by
      rw [Int.tdiv_eq_ediv_of_nonneg (by omega)]
      omega
    have h6 : (153 * (mp : Int) + 2).tdiv 5 = before mp := by
      rw [Int.tdiv_eq_ediv_of_nonneg (by omega), before]
      omega
    unfold civilFromDays
    simp only [h1, h2, h3, h4, h5, h6, Prod.mk.injEq]
    by_cases hm : mp < 10
    · have hm' : (mp : Int) < 10 := by omega
      simp only [hm, hm', if_true]
      rw [if_neg (by omega)]
      omega
    · have hm' : ¬ (mp : Int) < 10 := by omega
      simp only [hm, hm', if_false]
      rw [if_pos (by omega)]
      omega
  have hmonths : months (if mp < 10 then yoe + 400 * era else yoe + 400 * era + 1) (if mp < 10 then mp + 3 else mp - 9) =
      12 * (yoe + 400 * era) + mp := by
    unfold months
    split_ifs <;> omega
  have hdays : march (yoe + 400 * era) + doy = z + 719468 := by
    rw [march_era]
    omega
  obtain ⟨y, hy⟩ : ∃ y, y = if mp < 10 then yoe + 400 * era else yoe + 400 * era + 1 := ⟨_, rfl⟩
  obtain ⟨m, hm⟩ : ∃ m, m = if mp < 10 then mp + 3 else mp - 9 := ⟨_, rfl⟩
  rw [← hy, ← hm] at hciv hmonths
  have hy1 : 1 ≤ y := by
    rw [hy]
    split_ifs <;> omega
  have hm12 : 1 ≤ m ∧ m ≤ 12 := by
    rw [hm]
    split_ifs <;> omega
  have hquot : months y m / 12 = yoe + 400 * era ∧ months y m % 12 = mp := by omega
  have hd : doy - before mp + 1 ≤ monthLength y m := by
    have hmonth := before_add_monthLength hy1 hm12
    rw [hquot.1, hquot.2] at hmonth
    split_ifs at hmonth with h11
    · omega
    · have : doy < before (mp + 1) := by
        unfold before
        omega
      omega
  have hz' : daysFromCivil y m (doy - before mp + 1 : Nat) = z := by
    rw [daysFromCivil_eq hy1 hm12, hquot.1, hquot.2]
    omega
  refine ⟨y, m, _, hciv, hz', ⟨?_, ?_⟩, hm12, by omega, hd⟩
  · by_contra hlt
    have := daysFromCivil_lt (u := 1970) (v := 1) (w := 1) hy1 (by omega) hm12 (by omega) hd (by omega) (by omega)
    rw [hz'] at this
    exact absurd this (by have : daysFromCivil (1970 : Nat) (1 : Nat) (1 : Nat) = 0 := by decide
                          omega)
  · by_contra hlt
    have := daysFromCivil_lt (y := 9999) (m := 12) (d := 31) (by omega) hy1 (by omega) hm12 (by decide)
      (show 1 ≤ doy - before mp + 1 by omega) (by omega)
    rw [hz'] at this
    exact absurd this (by have : daysFromCivil (9999 : Nat) (12 : Nat) (31 : Nat) = 2932896 := by decide
                          omega)

/-! ## Digits -/

theorem digits_eq (b : Bytes) : digits b = if b.all isDigit then some (value b : Int) else none := by
  unfold digits
  induction b using reverseRecOn with
  | nil => rfl
  | append_singleton b c ih =>
    rw [foldlM_append, ih]
    by_cases hb : b.all isDigit = true
    · by_cases hc : isDigit c = true
      · rw [if_pos hb, if_pos (by simp [hb, hc])]
        obtain ⟨d, hd, rfl⟩ := isDigit_iff.1 hc
        simp only [foldlM_cons, foldlM_nil, hc, if_true, Option.bind_eq_bind, Option.bind_some, Option.pure_def,
          value_snoc, toNat_digit hd]
        congr 1
        omega
      · rw [if_pos hb, if_neg (by simp [hc])]
        simp [hc]
    · rw [if_neg hb, if_neg (by rw [all_append, Bool.and_eq_true]; tauto)]
      rfl

theorem digits_put {n v : Nat} (h : v < 10 ^ n) : digits (put n v) = some (v : Int) := by
  rw [digits_eq, if_pos (all_eq_true.2 (isDigit_put n v)), value_put h]

variable {b : Bytes}

theorem digits_eq_some {v : Int} (h : digits b = some v) :
    ∃ w : Nat, v = w ∧ w < 10 ^ b.length ∧ b = put b.length w := by
  rw [digits_eq] at h
  split_ifs at h with hall
  cases h
  rw [List.all_eq_true] at hall
  exact ⟨value b, rfl, value_lt hall, (put_value hall).symm⟩

theorem putDigits_eq (n v : Nat) : putDigits n v = put n v := by
  induction n generalizing v with
  | zero => rfl
  | succ n ih =>
    rw [putDigits, put, show (v : Int).tdiv 10 = (v / 10 : Nat) from rfl, ih,
      show (v : Int).tmod 10 = (v % 10 : Nat) from rfl]
    have hall : ∀ d < 10, 48 + UInt8.ofInt (d : Nat) = UInt8.ofNat (48 + d) := by decide
    rw [hall (v % 10) (by omega)]

/-! ## The text -/

theorem drop_eq_cons {n : Nat} (h : n < b.length) : b.drop n = b.getD n 0 :: b.drop (n + 1) := by
  rw [drop_eq_getElem_cons h, getD_eq_getElem?_getD, getElem?_eq_getElem h, getD_some]

theorem drop_eq_slice (b : Bytes) (n k : Nat) : b.drop n = slice b n k ++ b.drop (n + k) := by
  rw [slice, ← drop_drop, take_append_drop]

/-- The fields of a text of the right length. -/
theorem eq_fields (h : b.length = 20) :
    b = slice b 0 4 ++ [b.getD 4 0] ++ slice b 5 2 ++ [b.getD 7 0] ++ slice b 8 2 ++ [b.getD 10 0] ++ slice b 11 2 ++
      [b.getD 13 0] ++ slice b 14 2 ++ [b.getD 16 0] ++ slice b 17 2 ++ [b.getD 19 0] := by
  have hend : b.drop 20 = [] := drop_eq_nil_of_le (by omega)
  conv_lhs =>
    rw [← drop_zero (l := b), drop_eq_slice b 0 4, drop_eq_cons (n := 4) (by omega), drop_eq_slice b 5 2,
      drop_eq_cons (n := 7) (by omega), drop_eq_slice b 8 2, drop_eq_cons (n := 10) (by omega), drop_eq_slice b 11 2,
      drop_eq_cons (n := 13) (by omega), drop_eq_slice b 14 2, drop_eq_cons (n := 16) (by omega), drop_eq_slice b 17 2,
      drop_eq_cons (n := 19) (by omega), hend]
  simp

variable {c : Moment}

theorem year_lt (h : c.Real) : c.year < 10 ^ 4 := lt_of_le_of_lt h.year.2 (by decide)

theorem month_lt (h : c.Real) : c.month < 10 ^ 2 := lt_of_le_of_lt h.month.2 (by decide)

theorem day_lt (h : c.Real) : c.day < 10 ^ 2 := by
  have hd := h.day.2
  have : monthLength c.year c.month ≤ 31 := by
    unfold monthLength
    split_ifs <;> decide
  omega

theorem hour_lt (h : c.Real) : c.hour < 10 ^ 2 := lt_of_le_of_lt h.hour (by decide)

theorem minute_lt (h : c.Real) : c.minute < 10 ^ 2 := lt_of_le_of_lt h.minute (by decide)

theorem second_lt (h : c.Real) : c.second < 10 ^ 2 := lt_of_le_of_lt h.second (by decide)

theorem slice_text (c : Moment) : slice c.text 0 4 = put 4 c.year ∧ slice c.text 5 2 = put 2 c.month ∧
    slice c.text 8 2 = put 2 c.day ∧ slice c.text 11 2 = put 2 c.hour ∧ slice c.text 14 2 = put 2 c.minute ∧
    slice c.text 17 2 = put 2 c.second := by
  refine ⟨?_, ?_, ?_, ?_, ?_, ?_⟩ <;>
    simp [Moment.text, slice, drop_append, drop_eq_nil_of_le]

/-- **`parse`** reads the texts of the moments there are. -/
theorem parse_eq_some {t : Bytes} {s : Nat} : parse t = some s ↔ ∃ c : Moment, c.Real ∧ t = c.text ∧ s = c.seconds := by
  constructor
  · intro h
    unfold parse at h
    split_ifs at h with hshape
    · cases h
    · push Not at hshape
      obtain ⟨hlen, h4, h7, h10, h13, h16, h19⟩ := hshape
      obtain ⟨y, hy, h⟩ := bind_eq_some_iff.1 h
      obtain ⟨m, hm, h⟩ := bind_eq_some_iff.1 h
      obtain ⟨d, hd, h⟩ := bind_eq_some_iff.1 h
      obtain ⟨hh, hhh, h⟩ := bind_eq_some_iff.1 h
      obtain ⟨mi, hmi, h⟩ := bind_eq_some_iff.1 h
      obtain ⟨sec, hsec, h⟩ := bind_eq_some_iff.1 h
      have hl : ∀ p n, p + n ≤ 20 → (slice t p n).length = n := fun p n hp => by
        rw [length_slice, hlen, TEXT_LEN]
        omega
      obtain ⟨y, rfl, hy1, hy2⟩ := digits_eq_some hy
      obtain ⟨m, rfl, hm1, hm2⟩ := digits_eq_some hm
      obtain ⟨d, rfl, hd1, hd2⟩ := digits_eq_some hd
      obtain ⟨hh, rfl, hh1, hh2⟩ := digits_eq_some hhh
      obtain ⟨mi, rfl, hmi1, hmi2⟩ := digits_eq_some hmi
      obtain ⟨sec, rfl, hsec1, hsec2⟩ := digits_eq_some hsec
      rw [hl _ _ (by omega)] at hy1 hy2 hm2 hd2 hh2 hmi2 hsec2
      rw [monthDays_eq] at h
      split_ifs at h with hreal
      · cases h
      · push Not at hreal
        refine ⟨⟨y, m, d, hh, mi, sec⟩, ⟨?_, ?_, ?_, ?_, ?_, ?_⟩, ?_, (some.inj h).symm⟩
        · simp only
          omega
        · simp only
          omega
        · simp only
          omega
        · simp only
          omega
        · simp only
          omega
        · simp only
          omega
        · rw [eq_fields hlen, h4, h7, h10, h13, h16, h19, hy2, hm2, hd2, hh2, hmi2, hsec2]
          rfl
  · rintro ⟨c, hc, rfl, rfl⟩
    obtain ⟨s1, s2, s3, s4, s5, s6⟩ := slice_text c
    unfold parse
    simp only [bind_eq_bind, s1, s2, s3, s4, s5, s6, digits_put (year_lt hc), digits_put (month_lt hc),
      digits_put (day_lt hc), digits_put (hour_lt hc), digits_put (minute_lt hc), digits_put (second_lt hc),
      bind_some, monthDays_eq]
    obtain ⟨h1, h2, h3, h4, h5, h6⟩ := hc
    rw [if_neg, if_neg]
    · rfl
    · omega
    · simp [Moment.text, TEXT_LEN]

/-- **`format`** writes the text of the moment. -/
theorem format_eq {s : Nat} (h : s ≤ LAST) : ∃ c : Moment, c.Real ∧ c.seconds = s ∧ format s = some c.text := by
  unfold LAST at h
  obtain ⟨y, m, d, hciv, hdays, hy, hm, hd⟩ := civilFromDays_spec (z := s / 86400) (by omega)
  have hreal : (⟨y, m, d, s % 86400 / 3600, s % 86400 % 3600 / 60, s % 86400 % 60⟩ : Moment).Real :=
    ⟨hy, hm, hd, by simp only; omega, by simp only; omega, by simp only; omega⟩
  refine ⟨_, hreal, ?_, ?_⟩
  · unfold seconds
    rw [hdays]
    simp only
    omega
  · unfold format
    rw [if_neg (by unfold LAST; omega)]
    simp only [hciv, putDigits_eq]
    have hascii : (Moment.text ⟨y, m, d, s % 86400 / 3600, s % 86400 % 3600 / 60, s % 86400 % 60⟩).all (· < 128) = true := by
      have hdig : ∀ n v, (put n v).all (· < 128) = true := fun n v => all_eq_true.2 fun x hx => by
        obtain ⟨e, he, rfl⟩ := isDigit_iff.1 (isDigit_put n v x hx)
        simp only [decide_eq_true_eq, UInt8.lt_iff_toNat_lt, toNat_digit he]
        show 48 + e < 128
        omega
      simp only [Moment.text, all_append, hdig]
      rfl
    exact if_pos hascii

/-! ## The order -/

/-- One moment is before another, field by field. -/
def Moment.Before (c c' : Moment) : Prop :=
  c.year < c'.year ∨ c.year = c'.year ∧ (c.month < c'.month ∨ c.month = c'.month ∧ (c.day < c'.day ∨ c.day = c'.day ∧
    (c.hour < c'.hour ∨ c.hour = c'.hour ∧ (c.minute < c'.minute ∨ c.minute = c'.minute ∧ c.second < c'.second))))

variable {c' : Moment}

theorem text_lt_iff (h : c.Real) (h' : c'.Real) : c.text < c'.text ↔ c.Before c' := by
  have hput : ∀ {n v w : Nat} {a b : Bytes} {x : UInt8}, v < 10 ^ n → w < 10 ^ n →
      (put n v ++ ([x] ++ a) < put n w ++ ([x] ++ b) ↔ v < w ∨ v = w ∧ a < b) := by
    intro n v w a b x hv hw
    rw [append_lt_append_iff (by simp), put_lt_put_iff hv hw, append_lt_append_iff rfl]
    have hx : ¬ ([x] : Bytes) < [x] := List.lt_irrefl _
    constructor
    · rintro (h | ⟨h, h2 | h2⟩)
      · exact Or.inl h
      · exact absurd h2 hx
      · exact Or.inr ⟨put_inj hv hw h, h2.2⟩
    · rintro (h | ⟨rfl, h⟩)
      · exact Or.inl h
      · exact Or.inr ⟨rfl, Or.inr ⟨rfl, h⟩⟩
  have hlast : ∀ {v w : Nat}, v < 10 ^ 2 → w < 10 ^ 2 → (put 2 v ++ [90] < put 2 w ++ [90] ↔ v < w) := by
    intro v w hv hw
    rw [← append_nil [(90 : UInt8)], hput hv hw]
    simp
  unfold Moment.text Moment.Before
  simp only [append_assoc]
  rw [hput (year_lt h) (year_lt h'), hput (month_lt h) (month_lt h'), hput (day_lt h) (day_lt h'),
    hput (hour_lt h) (hour_lt h'), hput (minute_lt h) (minute_lt h'), hlast (second_lt h) (second_lt h')]

theorem days_nonneg (h : c.Real) :
    0 ≤ daysFromCivil c.year c.month c.day ∧ daysFromCivil c.year c.month c.day ≤ 2932896 := by
  obtain ⟨hy, hm, hd, -, -, -⟩ := h
  have hfirst : daysFromCivil (1970 : Nat) (1 : Nat) (0 : Nat) = -1 := by decide
  have hlast : daysFromCivil (10000 : Nat) (1 : Nat) (1 : Nat) = 2932897 := by decide
  have h1 := daysFromCivil_lt (y := 1970) (m := 1) (d := 0) (u := c.year) (by omega) (by omega) (by omega) hm
    (Nat.zero_le _) hd.1 (by omega)
  have h2 := daysFromCivil_lt (y := c.year) (u := 10000) (v := 1) (w := 1) (by omega) (by omega) hm (by omega)
    hd.2 (by omega) (by omega)
  omega

theorem seconds_lt_of_before (h : c.Real) (h' : c'.Real) (hlt : c.Before c') : c.seconds < c'.seconds := by
  have h0 := days_nonneg h
  have h0' := days_nonneg h'
  obtain ⟨hy, hm, hd, hh, hmi, hs⟩ := h
  obtain ⟨hy', hm', hd', hh', hmi', hs'⟩ := h'
  unfold Moment.seconds Moment.Before at *
  by_cases hday : 12 * c.year + c.month < 12 * c'.year + c'.month ∨
      12 * c.year + c.month = 12 * c'.year + c'.month ∧ c.day < c'.day
  · have := daysFromCivil_lt (by omega) (by omega) hm hm' hd.2 hd'.1 hday
    omega
  · -- the same day
    have h1 : c.year = c'.year := by omega
    have h2 : c.month = c'.month := by omega
    have h3 : c.day = c'.day := by omega
    rw [h1, h2, h3]
    rw [h1, h2, h3] at h0
    omega

theorem before_trichotomy (c c' : Moment) : c.Before c' ∨ c = c' ∨ c'.Before c := by
  by_cases h : c = c'
  · exact Or.inr (Or.inl h)
  · rw [Moment.mk.injEq] at h
    unfold Moment.Before
    omega

theorem seconds_lt_iff (h : c.Real) (h' : c'.Real) : c.seconds < c'.seconds ↔ c.Before c' := by
  refine ⟨fun hlt => ?_, seconds_lt_of_before h h'⟩
  rcases before_trichotomy c c' with hb | rfl | hb
  · exact hb
  · exact absurd hlt (lt_irrefl _)
  · have := seconds_lt_of_before h' h hb
    omega

theorem seconds_le (h : c.Real) : c.seconds ≤ LAST := by
  have h0 := days_nonneg h
  obtain ⟨-, -, -, hh, hmi, hs⟩ := h
  unfold Moment.seconds LAST
  omega

/-- **Calendar times.** `format` and `parse` undo each other, `parse` accepts exactly the texts of the moments there
are from 1970 to 9999, and later times have later texts. -/
theorem time_texts :
    (∀ s ≤ LAST, ∃ t, format s = some t ∧ parse t = some s) ∧
    (∀ t s, parse t = some s → s ≤ LAST ∧ format s = some t) ∧
    (∀ t, (parse t).isSome = true ↔ ∃ c : Moment, c.Real ∧ t = c.text) ∧
    ∀ t t' s s', parse t = some s → parse t' = some s' → (s < s' ↔ t < t') := by
  refine ⟨fun s hs => ?_, fun t s hp => ?_, fun t => ?_, fun t t' s s' hp hp' => ?_⟩
  · obtain ⟨c, hc, hsec, hf⟩ := format_eq hs
    exact ⟨c.text, hf, parse_eq_some.2 ⟨c, hc, rfl, hsec.symm⟩⟩
  · obtain ⟨c, hc, rfl, rfl⟩ := parse_eq_some.1 hp
    refine ⟨seconds_le hc, ?_⟩
    obtain ⟨c', hc', hsec, hf⟩ := format_eq (seconds_le hc)
    -- the moment is the one with these seconds
    have : c' = c := by
      rcases before_trichotomy c' c with hb | he | hb
      · have := seconds_lt_of_before hc' hc hb
        omega
      · exact he
      · have := seconds_lt_of_before hc hc' hb
        omega
    rw [hf, this]
  · rw [isSome_iff_exists]
    constructor
    · rintro ⟨s, hs⟩
      obtain ⟨c, hc, ht, -⟩ := parse_eq_some.1 hs
      exact ⟨c, hc, ht⟩
    · rintro ⟨c, hc, ht⟩
      exact ⟨c.seconds, parse_eq_some.2 ⟨c, hc, ht, rfl⟩⟩
  · obtain ⟨c, hc, rfl, rfl⟩ := parse_eq_some.1 hp
    obtain ⟨c', hc', rfl, rfl⟩ := parse_eq_some.1 hp'
    rw [seconds_lt_iff hc hc', text_lt_iff hc hc']

end Pkgfmt.Time
