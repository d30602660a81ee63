import Mathlib.Data.List.Basic
import Mathlib.Tactic.Ring

/-!
# Byte strings with fields at fixed places

A record on a disk or in a message is a string of bytes with numbers, low byte first, and short strings at
fixed places. A writer puts the fields one after the other; a reader slices them out. The lemmas say what a
slice of such a string is: `slice_append_left` and `slice_append_right` walk over the fields before it, and
`ofLe_le` reads a number back.
-/

namespace ByteStr

abbrev Bytes := List UInt8

/-- The bytes `pos .. pos + len`, fewer when the string ends before. -/
def slice (b : Bytes) (pos len : Nat) : Bytes := (b.drop pos).take len

def zeros (n : Nat) : Bytes := List.replicate n 0

/-- The number `n` in `w` bytes, low byte first. -/
def le : Nat → Nat → Bytes
  | 0, _ => []
  | w + 1, n => UInt8.ofNat n :: le w (n / 256)

/-- The number the bytes write, low byte first. -/
def ofLe : Bytes → Nat
  | [] => 0
  | x :: xs => x.toNat + 256 * ofLe xs

@[simp] theorem length_zeros (n : Nat) : (zeros n).length = n := List.length_replicate

@[simp] theorem length_le (w n : Nat) : (le w n).length = w := by
  induction w generalizing n with
  | zero => rfl
  | succ w ih => simp only [le, List.length_cons, ih]

theorem ofLe_le (w n : Nat) : ofLe (le w n) = n % 256 ^ w := by
  induction w generalizing n with
  | zero => simp only [le, ofLe, pow_zero, Nat.mod_one]
  | succ w ih =>
    simp only [le, ofLe, ih, UInt8.toNat_ofNat']
    have hmul : 256 ^ (w + 1) = 256 * 256 ^ w := by ring
    rw [hmul, Nat.mod_mul]

variable {n : Nat}

theorem ofLe_le_of_lt {w : Nat} (h : n < 256 ^ w) : ofLe (le w n) = n := by
  rw [ofLe_le, Nat.mod_eq_of_lt h]

@[simp] theorem ofNat_ofLe_le_8 (x : UInt64) : UInt64.ofNat (ofLe (le 8 x.toNat)) = x := by
  rw [ofLe_le_of_lt (by exact x.toNat_lt), UInt64.ofNat_toNat]

@[simp] theorem ofNat_ofLe_le_4 (x : UInt32) : UInt32.ofNat (ofLe (le 4 x.toNat)) = x := by
  rw [ofLe_le_of_lt (by exact x.toNat_lt), UInt32.ofNat_toNat]

/-! ## Slices -/

theorem length_slice (b : Bytes) (p n : Nat) : (slice b p n).length = min n (b.length - p) := by
  simp [slice]

theorem slice_append_self (x y : Bytes) (hn : x.length = n) : slice (x ++ y) 0 n = x := by
  simp [slice, ← hn]

variable {p : Nat}

theorem slice_append_left (x y : Bytes) (h : p + n ≤ x.length) :
    slice (x ++ y) p n = slice x p n := by
  unfold slice
  rw [List.drop_append_of_le_length (by omega), List.take_append_of_le_length (by simp; omega)]

theorem slice_append_right (x y : Bytes) (h : x.length ≤ p) :
    slice (x ++ y) p n = slice y (p - x.length) n := by
  unfold slice
  rw [List.drop_append, List.drop_eq_nil_of_le h, List.nil_append]

theorem slice_self (x : Bytes) (hn : x.length = n) : slice x 0 n = x := by
  simp [slice, ← hn]

variable {i : Nat}

/-- The `i`-th part of a string written part by part. -/
theorem slice_flatten (parts : List Bytes) {x : Bytes} (hx : parts[i]? = some x)
    (hp : (parts.take i).flatten.length = p) (hn : x.length = n) : slice parts.flatten p n = x := by
  obtain ⟨hi, rfl⟩ := List.getElem?_eq_some_iff.1 hx
  have hsplit : parts.flatten = (parts.take i).flatten ++ (parts[i] ++ (parts.drop (i + 1)).flatten) := by
    rw [← List.flatten_cons, ← List.drop_eq_getElem_cons hi, ← List.flatten_append, List.take_append_drop]
  rw [hsplit, slice_append_right _ _ (by omega), hp, Nat.sub_self, slice_append_self _ _ hn]

variable {k : Nat}

/-- The `i`-th of equally long pieces. -/
theorem slice_flatMap {α : Type*} (f : α → Bytes) (hf : ∀ a, (f a).length = k) (xs : List α)
    (hi : i < xs.length) : slice (xs.flatMap f) (k * i) k = f xs[i] := by
  induction xs generalizing i with
  | nil => exact absurd hi (Nat.not_lt_zero i)
  | cons x xs ih =>
    rw [List.flatMap_cons]
    cases i with
    | zero => rw [Nat.mul_zero, slice_append_self _ _ (hf x), List.getElem_cons_zero]
    | succ i =>
      have hle : (f x).length ≤ k * (i + 1) := by
        rw [hf, Nat.mul_succ]
        omega
      have hsub : k * (i + 1) - (f x).length = k * i := by
        rw [hf, Nat.mul_succ]
        omega
      rw [slice_append_right _ _ hle, hsub, ih (by simpa using hi), List.getElem_cons_succ]

theorem length_flatMap_of_length {α : Type*} (f : α → Bytes) (hf : ∀ a, (f a).length = k)
    (xs : List α) : (xs.flatMap f).length = k * xs.length := by
  induction xs with
  | nil => rfl
  | cons x xs ih =>
    rw [List.flatMap_cons, List.length_append, hf, List.length_cons, Nat.mul_succ]
    omega

/-! ## Fields of a fixed length -/

/-- The `n` bytes at `pos`, zeros where the string ends before. -/
def field (b : Bytes) (pos n : Nat) : Vector UInt8 n := Vector.ofFn fun i => b.getD (pos + i) 0

variable {b : Bytes}

theorem field_eq_of_slice {v : Vector UInt8 n} (h : slice b p n = v.toList) :
    field b p n = v := by
  apply Vector.ext
  intro i hi
  have hget : (slice b p n)[i]? = v.toList[i]? := by rw [h]
  have hv : v.toList[i]? = some v[i] := by simp
  rw [hv, slice, List.getElem?_take_of_lt hi, List.getElem?_drop] at hget
  simp [field, hget]

/-- A string at the front of a field, with zeros after it. -/
theorem toList_field_zero (h : b.length ≤ n) :
    (field b 0 n).toList = b ++ zeros (n - b.length) := by
  apply List.ext_getElem
  · simp
    omega
  intro i h1 h2
  simp only [field, Vector.getElem_toList, Vector.getElem_ofFn, zero_add, List.getElem_append, zeros,
    List.getElem_replicate, List.getD_eq_getElem?_getD]
  split
  · next hi => rw [List.getElem?_eq_getElem hi, Option.getD_some]
  · next hi => rw [List.getElem?_eq_none (by omega), Option.getD_none]

/-! ## Blocks of a string -/

/-- The string cut into `n` blocks of `k` bytes. -/
def blocks (k : Nat) (b : Bytes) (n : Nat) : List Bytes := (List.range n).map fun i => slice b (k * i) k

@[simp] theorem length_blocks (k : Nat) (b : Bytes) (n : Nat) : (blocks k b n).length = n := by
  simp [blocks]

theorem getElem_blocks (hi : i < (blocks k b n).length) :
    (blocks k b n)[i] = slice b (k * i) k := by
  simp [blocks]

theorem flatten_blocks (h : b.length = k * n) : (blocks k b n).flatten = b := by
  have hpre : ∀ m, ((List.range m).map fun i => slice b (k * i) k).flatten = b.take (k * m) := by
    intro m
    induction m with
    | zero => simp
    | succ m ih =>
      rw [List.range_succ, List.map_append, List.flatten_append, ih, Nat.mul_succ, List.take_add]
      simp [slice]
  rw [blocks, hpre n, ← h, List.take_length]

end ByteStr
