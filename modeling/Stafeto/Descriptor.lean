import Stafeto.Lib.Mask

/-!
# Descriptors of translation tables (kcore/src/paging.rs)

The 64-bit words of a stage-1 table with a 4 KiB granule: the output address in bits 12 to 47, the type in
bits 0 and 1, the access and the memory type in the bits around them. A descriptor is put together out of
parts that no mask reads together, and every fact here comes from that: `and_descriptor` for a mask that
misses the address, `oa_descriptor` for the address.
-/

namespace Paging

open Mask

def PAGE_SIZE : Nat := 4096
def BLOCK_2M : Nat := 2 <<< 20
/-- Output address bits [47:12] of a descriptor. -/
def OA_MASK : Nat := 0x0000FFFFFFFFF000
def VALID : Nat := 1
/-- Bit 1: table (levels 0-2) or page (level 3); clear for a block. -/
def TABLE_OR_PAGE : Nat := 1 <<< 1
def AP_EL0 : Nat := 1 <<< 6
def AP_READ_ONLY : Nat := 1 <<< 7
def SH_INNER : Nat := 0b11 <<< 8
def AF : Nat := 1 <<< 10
def NG : Nat := 1 <<< 11
def PXN : Nat := 1 <<< 53
def UXN : Nat := 1 <<< 54
/-- The bits a change of access rewrites. -/
def PERMISSIONS : Nat := AP_EL0 ||| AP_READ_ONLY ||| PXN ||| UXN
def MAIR_NORMAL : Nat := 0
def MAIR_DEVICE : Nat := 1
def MAIR_UNCACHED : Nat := 2
def ATTR_SHIFT : Nat := 2
def ATTR_NORMAL : Nat := MAIR_NORMAL <<< ATTR_SHIFT
def ATTR_DEVICE : Nat := MAIR_DEVICE <<< ATTR_SHIFT
def ATTR_UNCACHED : Nat := MAIR_UNCACHED <<< ATTR_SHIFT

/-- `Memory` (paging.rs:44). -/
inductive Memory where
  | normal
  | uncached
  | device
  deriving DecidableEq, Repr

/-- `Attrs` (paging.rs:52). -/
structure Attrs where
  memory : Memory
  write : Bool
  kernelExec : Bool
  user : Bool
  userExec : Bool
  deriving DecidableEq, Repr

namespace Attrs

/-- `is_user_none` (paging.rs:142). -/
def isUserNone (a : Attrs) : Bool := !a.user && !a.write && !a.kernelExec && !a.userExec

/-- `is_valid` (paging.rs:148). -/
def isValid (a : Attrs) : Bool :=
  let exec := a.kernelExec || a.userExec
  !(a.write && exec) && !(a.memory == .device && exec) && !(a.userExec && !a.user) && !(a.user && a.kernelExec)

/-- `bits` (paging.rs:158). -/
def bits (a : Attrs) : Nat :=
  let d := AF
  let d := d ||| match a.memory with
    | .normal => ATTR_NORMAL ||| SH_INNER
    | .uncached => ATTR_UNCACHED ||| SH_INNER
    | .device => ATTR_DEVICE
  let d := if a.user then d ||| (AP_EL0 ||| NG) else d
  let d := if !a.write then d ||| AP_READ_ONLY else d
  let d := if !a.kernelExec then d ||| PXN else d
  if !a.userExec then d ||| UXN else d

end Attrs

/-- `page_descriptor` (paging.rs:181). -/
def pageDescriptor (pa : Nat) (attrs : Attrs) : Nat := (pa &&& OA_MASK) ||| attrs.bits ||| TABLE_OR_PAGE ||| VALID

/-- `block_descriptor` (paging.rs:185). -/
def blockDescriptor (pa : Nat) (attrs : Attrs) : Nat := (pa &&& OA_MASK) ||| attrs.bits ||| VALID

/-- `table_descriptor` (paging.rs:189). -/
def tableDescriptor (pa : Nat) : Nat := (pa &&& OA_MASK) ||| TABLE_OR_PAGE ||| VALID

/-- `is_table_or_page` (paging.rs:255). -/
def isTableOrPage (d : Nat) : Bool := d &&& (VALID ||| TABLE_OR_PAGE) == (VALID ||| TABLE_OR_PAGE)

/-! ## What a descriptor says -/

/-- The bits of a leaf besides its address and its type: what `bits` made. -/
def attrBits (d : Nat) : Nat := without d (OA_MASK ||| TABLE_OR_PAGE ||| VALID)

/-- AP[2] is clear. -/
def Writable (d : Nat) : Prop := d &&& AP_READ_ONLY = 0

/-- The kernel or a program may fetch instructions through the leaf. -/
def Executable (d : Nat) : Prop := d &&& PXN = 0 ∨ d &&& UXN = 0

instance (d : Nat) : Decidable (Writable d) := inferInstanceAs (Decidable (_ = _))
instance (d : Nat) : Decidable (Executable d) := inferInstanceAs (Decidable (_ ∨ _))

/-- W^X for one leaf. -/
def Safe (d : Nat) : Prop := ¬(Writable d ∧ Executable d)

instance (d : Nat) : Decidable (Safe d) := inferInstanceAs (Decidable (¬_))

variable {d : Nat}

/-- Only the four bits of the access matter for W^X. -/
theorem safe_congr {e : Nat} (h : d &&& PERMISSIONS = e &&& PERMISSIONS) (hd : Safe d) : Safe e := by
  have hread : ∀ m, PERMISSIONS &&& m = m → d &&& m = e &&& m := by
    intro m hm
    rw [← hm, ← Nat.and_assoc, ← Nat.and_assoc, h]
  rintro ⟨hw, hx⟩
  refine hd ⟨(hread AP_READ_ONLY (by decide)).trans hw, ?_⟩
  rcases hx with hp | hu
  · exact .inl ((hread PXN (by decide)).trans hp)
  · exact .inr ((hread UXN (by decide)).trans hu)

theorem isTableOrPage_iff : isTableOrPage d = true ↔ d &&& VALID ≠ 0 ∧ d &&& TABLE_OR_PAGE ≠ 0 := by
  have hV : d &&& VALID = d % 2 := Nat.and_one_is_mod d
  have hT : d &&& TABLE_OR_PAGE = 2 * (d / 2 % 2) := by
    rw [show TABLE_OR_PAGE = 2 ^ 1 from rfl, Nat.and_two_pow, Nat.testBit_eq_decide_div_mod_eq]
    rcases Nat.mod_two_eq_zero_or_one (d / 2) with h | h
    · simp [h]
    · simp [h]
  have hVT : d &&& (VALID ||| TABLE_OR_PAGE) = d % 4 := Nat.and_two_pow_sub_one_eq_mod d 2
  have h3 : VALID ||| TABLE_OR_PAGE = 3 := rfl
  unfold isTableOrPage
  rw [beq_iff_eq, hVT, h3]
  omega

theorem oa_lt (d : Nat) : d &&& OA_MASK < 2 ^ 48 := lt_of_le_of_lt Nat.and_le_right (by decide)

theorem and_oa {pa : Nat} (h : pa % PAGE_SIZE = 0) (hlt : pa < 2 ^ 48) : pa &&& OA_MASK = pa := by
  have hmask : OA_MASK = (2 ^ 36 - 1) <<< 12 := by decide
  obtain ⟨n, rfl⟩ : ∃ n, pa = n <<< 12 := ⟨pa / PAGE_SIZE, by
    rw [Nat.shiftLeft_eq]; unfold PAGE_SIZE at *; omega⟩
  have hn : n < 2 ^ 36 := by
    rw [Nat.shiftLeft_eq] at hlt
    omega
  rw [hmask, ← Nat.shiftLeft_and_distrib, Nat.and_two_pow_sub_one_eq_mod, Nat.mod_eq_of_lt hn]

/-! ## Leaves

An output address, the bits of the attributes, and a type that both leave free. -/

section leaf

variable {pa b k m : Nat} {a : Attrs}

theorem and_descriptor (hm : OA_MASK &&& m = 0) : ((pa &&& OA_MASK) ||| b) &&& m = b &&& m :=
  lor_land_right (land_land_eq_zero hm)

theorem oa_descriptor (hb : b &&& OA_MASK = 0) (h : pa % PAGE_SIZE = 0) (hlt : pa < 2 ^ 48) :
    ((pa &&& OA_MASK) ||| b) &&& OA_MASK = pa := by
  rw [lor_land_left hb, Nat.and_assoc, Nat.and_self, and_oa h hlt]

theorem Attrs.bits_oa (a : Attrs) : a.bits &&& OA_MASK = 0 := by
  obtain ⟨m, w, k, u, e⟩ := a
  cases m <;> cases w <;> cases k <;> cases u <;> cases e <;> decide

theorem Attrs.bits_type (a : Attrs) : a.bits &&& (VALID ||| TABLE_OR_PAGE) = 0 := by
  obtain ⟨m, w, k, u, e⟩ := a
  cases m <;> cases w <;> cases k <;> cases u <;> cases e <;> decide

theorem Attrs.attrBits_bits (a : Attrs) : attrBits a.bits = a.bits := by
  obtain ⟨m, w, k, u, e⟩ := a
  cases m <;> cases w <;> cases k <;> cases u <;> cases e <;> decide

theorem Attrs.safe_bits (h : a.isValid = true) : Safe a.bits := by
  obtain ⟨m, w, k, u, e⟩ := a
  revert h
  cases m <;> cases w <;> cases k <;> cases u <;> cases e <;> decide

/-- A leaf of the type `k`. -/
def leafDescriptor (pa : Nat) (a : Attrs) (k : Nat) : Nat := (pa &&& OA_MASK) ||| (a.bits ||| k)

theorem pageDescriptor_eq : pageDescriptor pa a = leafDescriptor pa a (TABLE_OR_PAGE ||| VALID) := by
  simp only [pageDescriptor, leafDescriptor, Nat.lor_assoc]

theorem blockDescriptor_eq : blockDescriptor pa a = leafDescriptor pa a VALID := by
  simp only [blockDescriptor, leafDescriptor, Nat.lor_assoc]

theorem oa_leaf (hk : k &&& OA_MASK = 0) (h : pa % PAGE_SIZE = 0) (hlt : pa < 2 ^ 48) :
    leafDescriptor pa a k &&& OA_MASK = pa :=
  oa_descriptor (by rw [lor_land_left hk, a.bits_oa]) h hlt

theorem attrBits_leaf (hk : attrBits k = 0) : attrBits (leafDescriptor pa a k) = a.bits := by
  rw [← a.attrBits_bits]
  exact (and_descriptor (by decide)).trans (lor_land_left hk)

theorem type_leaf (hm : (VALID ||| TABLE_OR_PAGE) &&& m = m) : leafDescriptor pa a k &&& m = k &&& m := by
  have hoa : OA_MASK &&& (VALID ||| TABLE_OR_PAGE) = 0 := by decide
  have h0 : OA_MASK &&& m = 0 := by rw [← hm, ← Nat.and_assoc, hoa, Nat.zero_and]
  rw [leafDescriptor, and_descriptor h0]
  exact lor_land_right (by rw [← hm, ← Nat.and_assoc, a.bits_type, Nat.zero_and])

theorem safe_leaf (hk : k &&& PERMISSIONS = 0) (h : a.isValid = true) : Safe (leafDescriptor pa a k) :=
  safe_congr (by rw [leafDescriptor, and_descriptor (by decide), lor_land_left hk]) (a.safe_bits h)

end leaf

/-- What level 3 of a tree holds besides zeros. -/
structure IsPage (d : Nat) : Prop where
  page : isTableOrPage d = true
  safe : Safe d

/-- What level 2 holds besides zeros and tables. -/
structure IsBlock (d : Nat) : Prop where
  valid : d &&& VALID ≠ 0
  block : d &&& TABLE_OR_PAGE = 0
  aligned : (d &&& OA_MASK) % BLOCK_2M = 0
  safe : Safe d

section made

variable {pa : Nat} {a : Attrs}

theorem isPage_pageDescriptor (h : a.isValid = true) : IsPage (pageDescriptor pa a) := by
  rw [pageDescriptor_eq]
  refine ⟨isTableOrPage_iff.2 ⟨?_, ?_⟩, safe_leaf (by decide) h⟩
  · rw [type_leaf (by decide)]
    decide
  · rw [type_leaf (by decide)]
    decide

theorem isBlock_blockDescriptor (h : a.isValid = true) (hpa : pa % BLOCK_2M = 0) (hlt : pa < 2 ^ 48) :
    IsBlock (blockDescriptor pa a) := by
  have hpage : pa % PAGE_SIZE = 0 := by
    rw [show BLOCK_2M = PAGE_SIZE * 512 from rfl] at hpa
    exact Nat.mod_eq_zero_of_dvd (dvd_trans (Dvd.intro _ rfl) (Nat.dvd_of_mod_eq_zero hpa))
  rw [blockDescriptor_eq]
  refine ⟨?_, ?_, ?_, safe_leaf (by decide) h⟩
  · rw [type_leaf (by decide)]
    decide
  · rw [type_leaf (by decide)]
    decide
  · rw [oa_leaf (by decide) hpage hlt]
    exact hpa

theorem isTable_tableDescriptor (pa : Nat) : isTableOrPage (tableDescriptor pa) = true := by
  have hread : ∀ m, OA_MASK &&& m = 0 → tableDescriptor pa &&& m = (TABLE_OR_PAGE ||| VALID) &&& m := by
    intro m hm
    rw [tableDescriptor, Nat.lor_assoc, and_descriptor hm]
  refine isTableOrPage_iff.2 ⟨?_, ?_⟩
  · rw [hread VALID (by decide)]
    decide
  · rw [hread TABLE_OR_PAGE (by decide)]
    decide

theorem oa_tableDescriptor (h : pa % PAGE_SIZE = 0) (hlt : pa < 2 ^ 48) : tableDescriptor pa &&& OA_MASK = pa := by
  rw [tableDescriptor, Nat.lor_assoc, oa_descriptor (by decide) h hlt]

theorem IsPage.ne_zero (h : IsPage d) : d ≠ 0 := by
  rintro rfl
  exact absurd h.page (by decide)

theorem IsBlock.ne_zero (h : IsBlock d) : d ≠ 0 := by
  rintro rfl
  exact absurd h.valid (by decide)

end made

/-! ## A change of access -/

/-- The descriptor that `protect_page` writes (paging.rs:458). -/
def changeAccess (old : Nat) (attrs : Attrs) : Nat := without old PERMISSIONS ||| (attrs.bits &&& PERMISSIONS)

section access

variable {old m : Nat} {a : Attrs}

theorem changeAccess_and (h0 : PERMISSIONS &&& m = 0) (hm : m < 2 ^ 64) : changeAccess old a &&& m = old &&& m := by
  rw [changeAccess, lor_land_left (land_land_eq_zero h0), without_land,
    without_of_and_eq_zero (by rw [Nat.and_comm, h0]) hm]

theorem changeAccess_permissions : changeAccess old a &&& PERMISSIONS = a.bits &&& PERMISSIONS := by
  have hold : without old PERMISSIONS &&& PERMISSIONS = 0 := by
    rw [without_land, show without PERMISSIONS PERMISSIONS = 0 by decide, Nat.and_zero]
  rw [changeAccess, lor_land_right hold, Nat.and_assoc, Nat.and_self]

theorem without_changeAccess : without (changeAccess old a) PERMISSIONS = without old PERMISSIONS :=
  changeAccess_and (by decide) (by decide)

theorem isPage_changeAccess (h : IsPage old) (ha : a.isValid = true) : IsPage (changeAccess old a) := by
  obtain ⟨hv, ht⟩ := isTableOrPage_iff.1 h.page
  refine ⟨isTableOrPage_iff.2 ⟨?_, ?_⟩, safe_congr changeAccess_permissions.symm (a.safe_bits ha)⟩
  · rwa [changeAccess_and (by decide) (by decide)]
  · rwa [changeAccess_and (by decide) (by decide)]

theorem oa_changeAccess : changeAccess old a &&& OA_MASK = old &&& OA_MASK := changeAccess_and (by decide) (by decide)

end access

end Paging
