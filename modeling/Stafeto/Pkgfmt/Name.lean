import Stafeto.Lib.Bytes

/-!
# Names and their fields (pkgfmt/src/lib.rs)

The name of a key, a package or a repository is 1 to 63 bytes of `[a-z0-9-]`. In a record it stands in a field
of 64 bytes: the length, the name, zeros.
-/

namespace Pkgfmt

open ByteStr

abbrev Digest := Vector UInt8 32
abbrev Field := Vector UInt8 64

/-- A byte of a name. -/
def nameByte (c : UInt8) : Bool := (97 ≤ c && c ≤ 122) || (48 ≤ c && c ≤ 57) || c == 45

def nameRule (b : Bytes) : Bool := !b.isEmpty && b.length ≤ 63 && b.all nameByte

/-- `Name` (lib.rs:126). -/
structure Name where
  text : Bytes
  rule : nameRule text = true

namespace Name

@[ext] theorem ext {a b : Name} (h : a.text = b.text) : a = b := by
  cases a
  cases b
  simp_all

instance : DecidableEq Name := fun a b =>
  if h : a.text = b.text then .isTrue (ext h) else .isFalse fun hab => h (hab ▸ rfl)

/-- `new` (lib.rs:138). -/
def new (b : Bytes) : Option Name := if h : nameRule b = true then some ⟨b, h⟩ else none

end Name

/-- The bytes of a field of 64 bytes (store.rs:211). -/
def fieldBytes (f : Field) : Bytes := slice f.toList 1 (min f[0].toNat 63)

/-- The field of a string of at most 63 bytes: its length, its bytes, zeros. -/
def putField (text : Bytes) : Field := field (UInt8.ofNat text.length :: text) 0 64

/-- `to_field` (store.rs:225). -/
def toField (text : Bytes) : Option Field := if text.length > 63 then none else some (putField text)

namespace Name

/-- `to_field` (lib.rs:161). -/
def toField (n : Name) : Field := putField n.text

/-- `from_field` (lib.rs:168). -/
def fromField (f : Field) : Option Name :=
  if f[0] = 0 ∨ f[0].toNat > 63 then none
  else if (slice f.toList (1 + f[0].toNat) 64).any (· != 0) then none
  else Name.new (slice f.toList 1 f[0].toNat)

end Name

variable {text : Bytes}

section
variable (h : text.length ≤ 63)
include h

theorem toList_putField :
    (putField text).toList = UInt8.ofNat text.length :: (text ++ zeros (63 - text.length)) := by
  have hlen : (UInt8.ofNat text.length :: text).length ≤ 64 := by
    rw [List.length_cons]
    omega
  have hsub : 64 - (text.length + 1) = 63 - text.length := by omega
  rw [putField, toList_field_zero hlen, List.length_cons, hsub, List.cons_append]

omit h in
theorem putField_zero : (putField text)[0] = UInt8.ofNat text.length := by
  simp [putField, field]

theorem toNat_putField_zero : (putField text)[0].toNat = text.length := by
  rw [putField_zero, UInt8.toNat_ofNat_of_lt' (by simp only [UInt8.size]; omega)]

theorem slice_putField_text :
    slice (putField text).toList 1 text.length = text := by
  rw [toList_putField h]
  simp [slice]

theorem slice_putField_rest :
    slice (putField text).toList (1 + text.length) 64 = zeros (63 - text.length) := by
  rw [toList_putField h]
  simp [slice, zeros, add_comm]

@[simp] theorem fieldBytes_putField :
    fieldBytes (putField text) = text := by
  rw [fieldBytes, toNat_putField_zero h, toList_putField h, min_eq_left h]
  simp [slice]

end

theorem Name.length_text (n : Name) : 0 < n.text.length ∧ n.text.length ≤ 63 := by
  have h := n.rule
  simp only [nameRule, Bool.and_eq_true, Bool.not_eq_true', List.isEmpty_eq_false_iff, decide_eq_true_eq] at h
  exact ⟨List.length_pos_iff.2 h.1.1, h.1.2⟩

/-- **A name is read back from its field.** -/
theorem Name.fromField_toField (n : Name) : Name.fromField n.toField = some n := by
  obtain ⟨hpos, hle⟩ := n.length_text
  have h0 := toNat_putField_zero hle
  have hne : (putField n.text)[0] ≠ 0 := by
    intro h
    rw [h] at h0
    exact absurd h0 (by simp; omega)
  rw [Name.fromField, Name.toField, if_neg (by rw [h0]; rintro (h | h); exacts [hne h, by omega]), h0,
    slice_putField_rest hle, if_neg (by simp [zeros]), slice_putField_text hle, Name.new, dif_pos n.rule]

/-- What `from_field` accepts is the field of the name it gives. -/
theorem Name.toField_of_fromField {f : Field} {n : Name} (h : Name.fromField f = some n) : n.toField = f := by
  unfold Name.fromField at h
  split at h
  · cases h
  next h0 =>
  split at h
  · cases h
  next hz =>
  unfold Name.new at h
  split at h
  next hr =>
    obtain rfl := Option.some.inj h
    have hlen : (slice f.toList 1 f[0].toNat).length = f[0].toNat := by
      rw [length_slice, Vector.length_toList]
      omega
    have hall : ∀ x ∈ slice f.toList (1 + f[0].toNat) 64, x = 0 := by simpa using hz
    have hlen' : (slice f.toList (1 + f[0].toNat) 64).length = 63 - f[0].toNat := by
      rw [length_slice, Vector.length_toList]
      omega
    have hzeros : slice f.toList (1 + f[0].toNat) 64 = zeros (63 - f[0].toNat) := by
      rw [← hlen']
      exact List.eq_replicate_of_mem hall
    have hsplit : f.toList = f[0] :: (slice f.toList 1 f[0].toNat ++ slice f.toList (1 + f[0].toNat) 64) := by
      have hhead : f.toList = f[0] :: f.toList.drop 1 := by
        rw [← Vector.getElem_toList (h := by simp), ← List.drop_eq_getElem_cons]
        rfl
      have htail : slice f.toList (1 + f[0].toNat) 64 = (f.toList.drop 1).drop f[0].toNat := by
        rw [slice, List.drop_drop, List.take_of_length_le (by simp)]
      rw [htail, slice, List.take_append_drop, ← hhead]
    apply Vector.toList_inj.1
    rw [Name.toField, toList_putField (by rw [hlen]; omega), hlen, ← hzeros, UInt8.ofNat_toNat, ← hsplit]
  next => cases h

/-- **The fields of names**: `from_field` accepts exactly what `to_field` writes, and reads its name. -/
theorem Name.fromField_eq_some_iff (f : Field) (n : Name) : Name.fromField f = some n ↔ n.toField = f :=
  ⟨Name.toField_of_fromField, fun h => h ▸ n.fromField_toField⟩

end Pkgfmt
