import Mathlib.Data.List.Pairwise
import Mathlib.Order.Interval.Finset.Nat
import Stafeto.Pkgfmt.Name

/-!
# The format of the package store (pkgd/src/store.rs)

The disk is blocks of 4 KiB: two superblocks, a table of five blocks that a superblock names, and the extents
the records of the table name. `Table` is what the 20,480 bytes of a table hold; `Table.bytes` writes it and
`Table.parse` reads it back (`parse_bytes`). `Table.check` is the rules a table keeps, and `Sound` the same
rules said of places and not of a sorted list (`check_eq_ok_iff`). `findFree` is the first fit every extent of
the store comes from (`findFree_spec`, `free_extents`).

Numbers of the format are `UInt64` and `UInt32`; blocks of the disk are counted in `Nat`, and a sum that the
code takes modulo 2^64 says so.
-/

namespace Store

open ByteStr Pkgfmt Function

def BLOCK : Nat := 4096
/-- The superblocks, and the first block the table of a new store takes. -/
def SUPERS : Nat := 2
def TABLE_BLOCKS : Nat := 5
def TABLE_BYTES : Nat := 20480
def PACKAGES : Nat := 64
def RECORDS : Nat := 66
def REPOS : Nat := 16
def HEADER : Nat := 64
def RECORD_SIZE : Nat := 256
def REPO_SIZE : Nat := 64
def REPOS_AT : Nat := HEADER + RECORDS * RECORD_SIZE

abbrev Slot := Fin RECORDS

theorem repos_pos : 0 < REPOS := by decide

def SETTINGS_SLOT : Slot := ⟨64, by decide⟩
def REVOKED_SLOT : Slot := ⟨65, by decide⟩

/-- `STAFSTOR` and `STAFTBL1`. -/
def SUPER_MAGIC : Bytes := [83, 84, 65, 70, 83, 84, 79, 82]
def TABLE_MAGIC : Bytes := [83, 84, 65, 70, 84, 66, 76, 49]
def VERSION : Nat := 1

def EMPTY : UInt8 := 0
def PACKAGE : UInt8 := 1
def SETTINGS : UInt8 := 2
def REVOKED_LIST : UInt8 := 3
def WORLD : UInt8 := 1
def DEPENDENCY : UInt8 := 2
def REVOKED : UInt8 := 4
def NO_REPO : UInt8 := 0xFF

/-- The codes of the package service's refusals (proto_pkg). -/
inductive Code where
  | notAllowed
  | badSignature
  | badHash
  | badManifest
  | untrustedKey
  | conflict
  | noSpace
  | noMemory
  | tooLong
  | inImage
  | neededBy
  | rollback
  | wrongSeries
  | revoked
  | badPackage
  | notFound
  | busy
  | noBuffer
  | io
  | noFlush
  | damaged
  | invalid
  deriving DecidableEq

/-! ## Extents -/

/-- A run of blocks (store.rs:50). -/
structure Extent where
  first : Nat
  blocks : Nat
  deriving DecidableEq

/-- `end` (store.rs:57): saturates at the last number of 64 bits. -/
def Extent.stop (e : Extent) : Nat := min (e.first + e.blocks) (2 ^ 64 - 1)

/-- Two extents without a block in common, said of their ends. -/
def Apart (a b : Extent) : Prop := a.first + a.blocks ≤ b.first ∨ b.first + b.blocks ≤ a.first

variable {a : Extent}

theorem Apart.symm {b : Extent} (h : Apart a b) : Apart b a := Or.symm h

def Extent.Has (e : Extent) (b : Nat) : Prop := e.first ≤ b ∧ b < e.first + e.blocks

variable {e : Extent}

theorem Apart.not_has (h : Apart a e) {b : Nat} (hb : a.Has b) : ¬e.Has b := by
  obtain ⟨h1, h2⟩ := hb
  rintro ⟨h3, h4⟩
  rcases h with h | h <;> omega

/-- The extent lies between the superblocks and the end of a disk of `n` blocks. -/
def Extent.Fits (e : Extent) (n : Nat) : Prop := SUPERS ≤ e.first ∧ e.first + e.blocks ≤ n

/-! ## Superblocks -/

/-- `Superblock` (store.rs:74). -/
structure Superblock where
  blocks : UInt64
  generation : UInt64
  tableFirst : UInt64
  tableLen : UInt32
  tableSha : Digest
  deriving DecidableEq

/-- `SuperError` (store.rs:64). -/
inductive SuperError where
  | magic
  | version
  | blockSize
  | blocks
  | hash
  deriving DecidableEq

variable {p n : Nat}

section
variable (sha256 : Bytes → Digest)

/-- The 96 bytes a superblock hashes: the numbers, the hash of the table, zeros (store.rs:88-95). -/
def Superblock.parts (s : Superblock) : List Bytes :=
  [SUPER_MAGIC, le 4 VERSION, le 4 BLOCK, le 8 s.blocks.toNat, le 8 s.generation.toNat, le 8 s.tableFirst.toNat,
    le 4 s.tableLen.toNat, zeros 4, s.tableSha.toList, zeros 16]

def Superblock.front (s : Superblock) : Bytes := s.parts.flatten

/-- `encode` (store.rs:83). -/
def Superblock.encode (s : Superblock) : Bytes :=
  s.front ++ ((sha256 s.front).toList ++ zeros (BLOCK - 128))

/-- The hash of the block itself (store.rs:117). -/
def ownHash (b : Bytes) : Bool := (sha256 (slice b 0 96)).toList == slice b 96 32

/-- `decode` (store.rs:99). -/
def Superblock.decode (b : Bytes) (diskBlocks : UInt64) : Except SuperError Superblock :=
  if b.length < 128 ∨ slice b 0 8 ≠ SUPER_MAGIC then .error .magic
  else if ofLe (slice b 8 4) ≠ VERSION then .error .version
  else if ofLe (slice b 12 4) ≠ BLOCK then .error .blockSize
  else if UInt64.ofNat (ofLe (slice b 16 8)) ≠ diskBlocks then .error .blocks
  else if !ownHash sha256 b then .error .hash
  else .ok
    { blocks := diskBlocks
      generation := UInt64.ofNat (ofLe (slice b 24 8))
      tableFirst := UInt64.ofNat (ofLe (slice b 32 8))
      tableLen := UInt32.ofNat (ofLe (slice b 40 4))
      tableSha := field b 48 32 }

@[simp] theorem Superblock.length_front (s : Superblock) : s.front.length = 96 := by
  simp [Superblock.front, Superblock.parts, SUPER_MAGIC]

@[simp] theorem Superblock.length_encode (s : Superblock) : (s.encode sha256).length = BLOCK := by
  simp [Superblock.encode, BLOCK]

theorem Superblock.slice_encode (s : Superblock) {i : Nat} {x : Bytes} (hx : s.parts[i]? = some x)
    (hp : (s.parts.take i).flatten.length = p) (hn : x.length = n) (h : p + n ≤ 96) :
    slice (s.encode sha256) p n = x := by
  rw [Superblock.encode, slice_append_left _ _ (by rw [s.length_front]; exact h)]
  exact slice_flatten _ hx hp hn

theorem Superblock.ownHash_encode (s : Superblock) : ownHash sha256 (s.encode sha256) = true := by
  have hfront : slice (s.encode sha256) 0 96 = s.front := slice_append_self _ _ s.length_front
  have hown : slice (s.encode sha256) 96 32 = (sha256 s.front).toList := by
    rw [Superblock.encode, slice_append_right _ _ (by simp), s.length_front]
    exact slice_append_self _ _ (by simp)
  rw [ownHash, hfront, hown, beq_self_eq_true]

/-- **A superblock is read back on the disk it was made for.** -/
theorem Superblock.decode_encode (s : Superblock) :
    Superblock.decode sha256 (s.encode sha256) s.blocks = .ok s := by
  have hmagic : slice (s.encode sha256) 0 8 = SUPER_MAGIC :=
    s.slice_encode sha256 (i := 0) rfl rfl rfl (by decide)
  have hversion : slice (s.encode sha256) 8 4 = le 4 VERSION :=
    s.slice_encode sha256 (i := 1) rfl (by simp [Superblock.parts, SUPER_MAGIC]) (by simp) (by decide)
  have hblock : slice (s.encode sha256) 12 4 = le 4 BLOCK :=
    s.slice_encode sha256 (i := 2) rfl (by simp [Superblock.parts, SUPER_MAGIC]) (by simp) (by decide)
  have hblocks : slice (s.encode sha256) 16 8 = le 8 s.blocks.toNat :=
    s.slice_encode sha256 (i := 3) rfl (by simp [Superblock.parts, SUPER_MAGIC]) (by simp) (by decide)
  have hgen : slice (s.encode sha256) 24 8 = le 8 s.generation.toNat :=
    s.slice_encode sha256 (i := 4) rfl (by simp [Superblock.parts, SUPER_MAGIC]) (by simp) (by decide)
  have hfirst : slice (s.encode sha256) 32 8 = le 8 s.tableFirst.toNat :=
    s.slice_encode sha256 (i := 5) rfl (by simp [Superblock.parts, SUPER_MAGIC]) (by simp) (by decide)
  have hlen : slice (s.encode sha256) 40 4 = le 4 s.tableLen.toNat :=
    s.slice_encode sha256 (i := 6) rfl (by simp [Superblock.parts, SUPER_MAGIC]) (by simp) (by decide)
  have hsha : slice (s.encode sha256) 48 32 = s.tableSha.toList :=
    s.slice_encode sha256 (i := 8) rfl (by simp [Superblock.parts, SUPER_MAGIC]) (by simp) (by decide)
  have hv : ofLe (le 4 VERSION) = VERSION := ofLe_le_of_lt (by decide)
  have hb : ofLe (le 4 BLOCK) = BLOCK := ofLe_le_of_lt (by decide)
  unfold Superblock.decode
  rw [hmagic, hversion, hblock, hblocks, hgen, hfirst, hlen, field_eq_of_slice hsha, hv, hb, s.ownHash_encode sha256]
  simp [BLOCK]

/-- A block that breaks its own hash is no superblock. -/
theorem Superblock.decode_of_not_ownHash {b : Bytes} (h : ownHash sha256 b = false) (n : UInt64) :
    ∃ e, Superblock.decode sha256 b n = .error e := by
  unfold Superblock.decode
  simp only [h, Bool.not_false, if_true]
  split_ifs <;> exact ⟨_, rfl⟩

end

/-! ## Records -/

/-- `Record` (store.rs:137). -/
structure Record where
  kind : UInt8
  flags : UInt8
  /-- The index of the repository in the table's part of repositories. -/
  repo : UInt8
  first : UInt64
  blocks : UInt32
  length : UInt64
  /-- The serial of the revocation list, 0 for the others. -/
  number : UInt64
  installed : UInt64
  sha256 : Digest
  name : Field
  version : Field
  deriving DecidableEq

namespace Record

/-- `EMPTY` (store.rs:157). -/
def empty : Record := ⟨EMPTY, 0, NO_REPO, 0, 0, 0, 0, 0, .replicate 32 0, .replicate 64 0, .replicate 64 0⟩

/-- `extent` (store.rs:171). -/
def extent (r : Record) : Extent := ⟨r.first.toNat, r.blocks.toNat⟩

/-- The fields of the 256 bytes in their order, the zeros between and after them. -/
def parts (r : Record) : List Bytes :=
  [[r.kind, r.flags, r.repo, 0], le 8 r.first.toNat, le 4 r.blocks.toNat, le 8 r.length.toNat, le 8 r.number.toNat,
    le 8 r.installed.toNat, r.sha256.toList, r.name.toList, r.version.toList, zeros 56]

/-- `encode` (store.rs:178). -/
def encode (r : Record) : Bytes := r.parts.flatten

/-- `decode` (store.rs:193). -/
def decode (b : Bytes) : Record where
  kind := b.getD 0 0
  flags := b.getD 1 0
  repo := b.getD 2 0
  first := UInt64.ofNat (ofLe (slice b 4 8))
  blocks := UInt32.ofNat (ofLe (slice b 12 4))
  length := UInt64.ofNat (ofLe (slice b 16 8))
  number := UInt64.ofNat (ofLe (slice b 24 8))
  installed := UInt64.ofNat (ofLe (slice b 32 8))
  sha256 := field b 40 32
  name := field b 72 64
  version := field b 136 64

def nameBytes (r : Record) : Bytes := fieldBytes r.name

def versionBytes (r : Record) : Bytes := fieldBytes r.version

@[simp] theorem length_encode (r : Record) : r.encode.length = RECORD_SIZE := by
  simp [encode, parts, RECORD_SIZE]

theorem decode_encode (r : Record) : decode r.encode = r := by
  have hfirst : slice r.encode 4 8 = le 8 r.first.toNat := slice_flatten r.parts (i := 1) rfl rfl (by simp)
  have hblocks : slice r.encode 12 4 = le 4 r.blocks.toNat :=
    slice_flatten r.parts (i := 2) rfl (by simp [parts]) (by simp)
  have hlength : slice r.encode 16 8 = le 8 r.length.toNat :=
    slice_flatten r.parts (i := 3) rfl (by simp [parts]) (by simp)
  have hnumber : slice r.encode 24 8 = le 8 r.number.toNat :=
    slice_flatten r.parts (i := 4) rfl (by simp [parts]) (by simp)
  have hinstalled : slice r.encode 32 8 = le 8 r.installed.toNat :=
    slice_flatten r.parts (i := 5) rfl (by simp [parts]) (by simp)
  have hsha : slice r.encode 40 32 = r.sha256.toList :=
    slice_flatten r.parts (i := 6) rfl (by simp [parts]) (by simp)
  have hname : slice r.encode 72 64 = r.name.toList :=
    slice_flatten r.parts (i := 7) rfl (by simp [parts]) (by simp)
  have hversion : slice r.encode 136 64 = r.version.toList :=
    slice_flatten r.parts (i := 8) rfl (by simp [parts]) (by simp)
  have hfront : r.encode = r.kind :: r.flags :: r.repo :: 0 :: (r.parts.drop 1).flatten := rfl
  unfold decode
  rw [hfirst, hblocks, hlength, hnumber, hinstalled, field_eq_of_slice hsha, field_eq_of_slice hname,
    field_eq_of_slice hversion, hfront]
  simp

end Record

/-- `version_ok` (store.rs:236). -/
def versionOk (f : Field) : Bool :=
  1 ≤ f.head.toNat && f.head.toNat ≤ 63 && (slice f.toList 1 f.head.toNat).all (fun b => 0x21 ≤ b && b < 0x7f) &&
    (slice f.toList (1 + f.head.toNat) 64).all (· == 0)

/-- The place of a repository: a length and 31 bytes, and the serial. -/
structure Repo where
  name : Vector UInt8 32
  serial : UInt64
  deriving DecidableEq

namespace Repo

def free : Repo := ⟨.replicate 32 0, 0⟩

def parts (r : Repo) : List Bytes := [r.name.toList, le 8 r.serial.toNat, zeros 24]

def encode (r : Repo) : Bytes := r.parts.flatten

def decode (b : Bytes) : Repo := ⟨field b 0 32, UInt64.ofNat (ofLe (slice b 32 8))⟩

@[simp] theorem length_encode (r : Repo) : r.encode.length = REPO_SIZE := by
  simp [encode, parts, REPO_SIZE]

theorem decode_encode (r : Repo) : decode r.encode = r := by
  have hname : slice r.encode 0 32 = r.name.toList := slice_flatten r.parts (i := 0) rfl rfl (by simp)
  have hserial : slice r.encode 32 8 = le 8 r.serial.toNat :=
    slice_flatten r.parts (i := 1) rfl (by simp [parts]) (by simp)
  rw [decode, field_eq_of_slice hname, hserial, ofNat_ofLe_le_8]

end Repo

open List

/-! ## The table -/

/-- `TableError` (store.rs:245). -/
inductive TableError where
  | header
  | generation
  | record (i : Slot)
  | extents
  deriving DecidableEq

/-- What the bytes of a table hold (store.rs:247). -/
@[ext] structure Table where
  generation : UInt64
  records : Slot → Record
  repos : Fin REPOS → Repo

namespace Table

/-- `init` (store.rs:264). -/
def init (generation : UInt64) : Table := ⟨generation, fun _ => Record.empty, fun _ => Repo.free⟩

/-- `set_generation` (store.rs:280). -/
def setGeneration (t : Table) (generation : UInt64) : Table := { t with generation }

/-- `record` (store.rs:288). -/
def record (t : Table) (i : Slot) : Record := t.records i

/-- `set_record` (store.rs:293). -/
def setRecord (t : Table) (i : Slot) (r : Record) : Table := { t with records := update t.records i r }

/-- `repo` (store.rs:299). -/
def repo (t : Table) (i : Fin REPOS) : Option (Bytes × UInt64) :=
  let r := t.repos i
  if r.name[0] = 0 then none else some (slice r.name.toList 1 (min r.name[0].toNat 31), r.serial)

/-- `set_repo` (store.rs:311). -/
def setRepo (t : Table) (i : Fin REPOS) (name : Bytes) (serial : UInt64) : Table :=
  if name.isEmpty || name.length > 31 then t
  else { t with repos := update t.repos i ⟨field (UInt8.ofNat name.length :: name) 0 32, serial⟩ }

/-- `find_repo` (store.rs:323). -/
def findRepo (t : Table) (name : Bytes) : Option (Fin REPOS) :=
  (finRange REPOS).find? fun i => (t.repo i).any (·.1 == name)

/-- The header of 64 bytes. -/
def header (t : Table) : List Bytes :=
  [TABLE_MAGIC, le 4 VERSION, le 8 t.generation.toNat, le 4 RECORDS, le 4 REPOS, zeros 36]

/-- The bytes of the table: the header, the records, the repositories, zeros. -/
def bytes (t : Table) : Bytes :=
  t.header.flatten ++ ((finRange RECORDS).flatMap (fun i => (t.records i).encode) ++
    ((finRange REPOS).flatMap (fun i => (t.repos i).encode) ++ zeros (TABLE_BYTES - (REPOS_AT + REPOS * REPO_SIZE))))

/-- The header of `check` (store.rs:330-339), and the records and repositories the accessors read. -/
def parse (b : Bytes) : Except TableError Table :=
  if slice b 0 8 ≠ TABLE_MAGIC ∨ ofLe (slice b 8 4) ≠ VERSION ∨ ofLe (slice b 20 4) ≠ RECORDS ∨
      ofLe (slice b 24 4) ≠ REPOS ∨ (slice b 28 36).any (· != 0) then .error .header
  else .ok
    { generation := UInt64.ofNat (ofLe (slice b 12 8))
      records := fun i => Record.decode (slice b (HEADER + RECORD_SIZE * i) RECORD_SIZE)
      repos := fun i => Repo.decode (slice b (REPOS_AT + REPO_SIZE * i) REPO_SIZE) }

@[simp] theorem length_header (t : Table) : t.header.flatten.length = HEADER := by
  simp [header, TABLE_MAGIC, HEADER]

@[simp] theorem length_bytes (t : Table) : t.bytes.length = TABLE_BYTES := by
  have hrec := length_flatMap_of_length (fun i => (t.records i).encode) (fun i => (t.records i).length_encode)
    (finRange RECORDS)
  have hrep := length_flatMap_of_length (fun i => (t.repos i).encode) (fun i => (t.repos i).length_encode)
    (finRange REPOS)
  rw [bytes, length_append, length_append, length_append, hrec, hrep, length_header, length_zeros]
  decide

theorem slice_bytes_header (t : Table) {i : Nat} {x : Bytes} (hx : t.header[i]? = some x)
    (hp : (t.header.take i).flatten.length = p) (hn : x.length = n) (h : p + n ≤ HEADER) :
    slice t.bytes p n = x := by
  rw [bytes, slice_append_left _ _ (by rw [length_header]; exact h)]
  exact slice_flatten _ hx hp hn

theorem slice_bytes_record (t : Table) (i : Slot) :
    slice t.bytes (HEADER + RECORD_SIZE * i) RECORD_SIZE = (t.records i).encode := by
  have hlen := length_flatMap_of_length (fun i => (t.records i).encode) (fun i => (t.records i).length_encode)
    (finRange RECORDS)
  have hi : (i : Nat) < (finRange RECORDS).length := by rw [length_finRange]; exact i.2
  have hend : RECORD_SIZE * (i : Nat) + RECORD_SIZE ≤ RECORD_SIZE * (finRange RECORDS).length := by
    exact Nat.mul_le_mul_left _ hi
  rw [bytes, slice_append_right _ _ (by rw [length_header]; omega), length_header, Nat.add_sub_cancel_left,
    slice_append_left _ _ (by rw [hlen]; exact hend),
    slice_flatMap _ (fun i => (t.records i).length_encode) _ hi]
  simp

theorem slice_bytes_repo (t : Table) (i : Fin REPOS) :
    slice t.bytes (REPOS_AT + REPO_SIZE * i) REPO_SIZE = (t.repos i).encode := by
  have hrec := length_flatMap_of_length (fun i => (t.records i).encode) (fun i => (t.records i).length_encode)
    (finRange RECORDS)
  have hrep := length_flatMap_of_length (fun i => (t.repos i).encode) (fun i => (t.repos i).length_encode)
    (finRange REPOS)
  have hi : (i : Nat) < (finRange REPOS).length := by rw [length_finRange]; exact i.2
  have hend : REPO_SIZE * (i : Nat) + REPO_SIZE ≤ REPO_SIZE * (finRange REPOS).length := by
    exact Nat.mul_le_mul_left _ hi
  have hat : REPOS_AT = HEADER + RECORD_SIZE * (finRange RECORDS).length := by
    rfl
  have hsub : REPOS_AT + REPO_SIZE * i - HEADER - RECORD_SIZE * (finRange RECORDS).length = REPO_SIZE * i := by
    omega
  rw [bytes, slice_append_right _ _ (by rw [length_header]; omega), length_header,
    slice_append_right _ _ (by rw [hrec]; omega), hrec, hsub, slice_append_left _ _ (by rw [hrep]; exact hend),
    slice_flatMap _ (fun i => (t.repos i).length_encode) _ hi]
  simp

/-- **A table is read back from its bytes.** -/
theorem parse_bytes (t : Table) : parse t.bytes = .ok t := by
  have hmagic : slice t.bytes 0 8 = TABLE_MAGIC := t.slice_bytes_header (i := 0) rfl rfl rfl (by decide)
  have hversion : slice t.bytes 8 4 = le 4 VERSION := t.slice_bytes_header (i := 1) rfl rfl (by simp) (by decide)
  have hgen : slice t.bytes 12 8 = le 8 t.generation.toNat :=
    t.slice_bytes_header (i := 2) rfl (by simp [header, TABLE_MAGIC]) (by simp) (by decide)
  have hrecords : slice t.bytes 20 4 = le 4 RECORDS :=
    t.slice_bytes_header (i := 3) rfl (by simp [header, TABLE_MAGIC]) (by simp) (by decide)
  have hrepos : slice t.bytes 24 4 = le 4 REPOS :=
    t.slice_bytes_header (i := 4) rfl (by simp [header, TABLE_MAGIC]) (by simp) (by decide)
  have hzero : slice t.bytes 28 36 = zeros 36 :=
    t.slice_bytes_header (i := 5) rfl (by simp [header, TABLE_MAGIC]) (by simp) (by decide)
  have hv : ofLe (le 4 VERSION) = VERSION := ofLe_le_of_lt (by decide)
  have hr : ofLe (le 4 RECORDS) = RECORDS := ofLe_le_of_lt (by decide)
  have hp : ofLe (le 4 REPOS) = REPOS := ofLe_le_of_lt (by decide)
  have hz : (zeros 36).any (· != 0) = false := by decide
  unfold parse
  rw [hmagic, hversion, hgen, hrecords, hrepos, hzero, hv, hr, hp, hz]
  simp only [ne_eq, not_true_eq_false, Bool.false_eq_true, or_self, if_false, slice_bytes_record,
    slice_bytes_repo, Record.decode_encode, Repo.decode_encode, ofNat_ofLe_le_8]

end Table

/-! ## The extents of a table, and the first free run -/

/-- One step of the sort of `occupied` and `find_free` (store.rs:413-421, 442-450): the extent goes after
those that do not begin behind it. -/
def put (e : Extent) : List Extent → List Extent
  | [] => [e]
  | x :: xs => if e.first < x.first then e :: x :: xs else x :: put e xs

/-- The extents one after the other through `put`. -/
def gather (l : List Extent) : List Extent := l.foldl (fun acc e => put e acc) []

theorem put_perm (e : Extent) (l : List Extent) : (put e l).Perm (e :: l) := by
  induction l with
  | nil => exact .refl _
  | cons x xs ih =>
    unfold put
    split
    · exact .refl _
    · exact (ih.cons x).trans (.swap e x xs)

variable {l : List Extent}

theorem put_sorted (h : l.Pairwise (·.first ≤ ·.first)) :
    (put e l).Pairwise (·.first ≤ ·.first) := by
  induction l with
  | nil => simp [put]
  | cons x xs ih =>
    rw [pairwise_cons] at h
    unfold put
    split
    next hlt =>
      refine pairwise_cons.2 ⟨?_, pairwise_cons.2 h⟩
      intro y hy
      rcases mem_cons.1 hy with rfl | hy
      · omega
      · have := h.1 y hy
        omega
    next hge =>
      refine pairwise_cons.2 ⟨?_, ih h.2⟩
      intro y hy
      rcases mem_cons.1 ((put_perm e xs).mem_iff.1 hy) with rfl | hy
      · omega
      · exact h.1 y hy

theorem foldl_put_perm (l acc : List Extent) : (l.foldl (fun acc e => put e acc) acc).Perm (l ++ acc) := by
  induction l generalizing acc with
  | nil => exact .refl _
  | cons e l ih =>
    refine (ih (put e acc)).trans ?_
    exact ((put_perm e acc).append_left l).trans perm_middle

theorem foldl_put_sorted (l acc : List Extent) (h : acc.Pairwise (·.first ≤ ·.first)) :
    (l.foldl (fun acc e => put e acc) acc).Pairwise (·.first ≤ ·.first) := by
  induction l generalizing acc with
  | nil => exact h
  | cons e l ih => exact ih (put e acc) (put_sorted h)

theorem gather_perm (l : List Extent) : (gather l).Perm l := by
  simpa [gather] using foldl_put_perm l []

theorem gather_sorted (l : List Extent) : (gather l).Pairwise (·.first ≤ ·.first) :=
  foldl_put_sorted l [] .nil

/-- The walk of `find_free` (store.rs:451-458). -/
def scan (need : Nat) : Nat → List Extent → Nat
  | p, [] => p
  | p, e :: es => if (p + need) % 2 ^ 64 ≤ e.first then p else scan need (max p e.stop) es

/-- `find_free` (store.rs:436). -/
def findFree (occupied taken : List Extent) (blocks need : Nat) : Option Nat :=
  let p := scan need SUPERS (gather (occupied ++ taken))
  if (p + need) % 2 ^ 64 ≤ blocks then some p else none

/-- Where the walk stops is clear of the extents, and before every place that is. -/
theorem scan_spec {need : Nat} (hn : n + need < 2 ^ 64)
    (hl : l.Pairwise (·.first ≤ ·.first)) (hfit : ∀ e ∈ l, e.first + e.blocks ≤ n) (hp : p ≤ n) :
    p ≤ scan need p l ∧ scan need p l ≤ n ∧ (∀ e ∈ l, Apart ⟨scan need p l, need⟩ e) ∧
      ∀ b, p ≤ b → (∀ e ∈ l, Apart ⟨b, need⟩ e) → scan need p l ≤ b := by
  induction l generalizing p with
  | nil => exact ⟨le_rfl, hp, fun e he => absurd he not_mem_nil, fun b hb _ => hb⟩
  | cons x xs ih =>
    rw [pairwise_cons] at hl
    have hx := hfit x mem_cons_self
    have hmod : (p + need) % 2 ^ 64 = p + need := Nat.mod_eq_of_lt (by omega)
    have hstop : x.stop = x.first + x.blocks := by
      unfold Extent.stop
      omega
    unfold scan
    rw [hmod]
    split
    next hle =>
      refine ⟨le_rfl, hp, ?_, fun b hb _ => hb⟩
      intro e he
      rcases mem_cons.1 he with rfl | he
      · exact .inl hle
      · exact .inl (hle.trans (hl.1 e he))
    next hgt =>
      obtain ⟨h1, h2, h3, h4⟩ := ih hl.2 (fun e he => hfit e (mem_cons_of_mem x he))
        (p := max p x.stop) (by omega)
      refine ⟨by omega, h2, forall_mem_cons.2 ⟨.inr (by dsimp only; omega), h3⟩, fun b hb hall => ?_⟩
      obtain ⟨hx', hall⟩ := forall_mem_cons.1 hall
      refine h4 b ?_ hall
      rcases hx' with h | h
      · dsimp only at h
        omega
      · dsimp only at h
        omega

theorem Extent.apart_of_not_has (ha : 0 < a.blocks) (he : 0 < e.blocks) (h : ∀ x, a.Has x → ¬e.Has x) :
    Apart a e := by
  unfold Has at h
  have h1 := h a.first ⟨le_rfl, by omega⟩
  have h2 := h e.first
  unfold Apart
  omega

/-- **The run `find_free` names is inside the disk and clear of every extent it was given.** -/
theorem findFree_spec {occupied taken : List Extent} {need : Nat} (hn : n + need < 2 ^ 64)
    (hfit : ∀ e ∈ occupied ++ taken, e.first + e.blocks ≤ n) (hs : SUPERS ≤ n)
    (h : findFree occupied taken n need = some p) :
    (Extent.mk p need).Fits n ∧ ∀ e ∈ occupied ++ taken, Apart ⟨p, need⟩ e := by
  have hperm := gather_perm (occupied ++ taken)
  obtain ⟨h1, h2, h3, -⟩ := scan_spec hn (gather_sorted (occupied ++ taken))
    (fun e he => hfit e (hperm.mem_iff.1 he)) hs
  unfold findFree at h
  dsimp only at h
  rw [Nat.mod_eq_of_lt (by omega)] at h
  split at h
  next hle =>
    obtain rfl := Option.some.inj h
    refine ⟨⟨h1, hle⟩, ?_⟩
    intro e he
    exact h3 e (hperm.mem_iff.2 he)
  next => cases h

variable {t : Table} {i : Slot} {own : Extent}

namespace Table

/-- The extent of the record at `i`, when there is one. -/
def extentAt (t : Table) (i : Slot) : Option Extent :=
  if (t.record i).kind = EMPTY then none else some (t.record i).extent

/-- The extents the records name. -/
def extents (t : Table) : List Extent := (finRange RECORDS).filterMap t.extentAt

/-- `occupied` (store.rs:411). -/
def occupied (t : Table) (own : Extent) : List Extent := gather (own :: t.extents)

/-- The kind of the records of a place (store.rs:336-340). -/
def slotKind (i : Slot) : UInt8 :=
  if i = SETTINGS_SLOT then SETTINGS else if i = REVOKED_SLOT then REVOKED_LIST else PACKAGE

/-- The repository at place `n` is there. -/
def hasRepo (t : Table) (n : Nat) : Bool := if h : n < REPOS then (t.repo ⟨n, h⟩).isSome else false

/-- The name and the version of the package at `i`; a name is in the table once (store.rs:348-355). -/
def named (t : Table) (i : Slot) : Bool :=
  (Name.fromField (t.record i).name).isSome && versionOk (t.record i).version &&
    (finRange RECORDS).all fun j =>
      !(j < i) || (t.record j).kind != PACKAGE || (t.record j).nameBytes != (t.record i).nameBytes

/-- The rules of one record (store.rs:341-376). -/
def recordOk (t : Table) (i : Slot) : Bool :=
  let r := t.record i
  if r.kind = EMPTY then r == Record.empty
  else
    r.kind == slotKind i && r.flags &&& ~~~(WORLD ||| DEPENDENCY ||| REVOKED) == 0 && r.length != 0 &&
      r.blocks.toNat == (r.length.toNat + (BLOCK - 1)) / BLOCK && (PACKAGES ≤ i.val || t.named i) &&
      (if PACKAGES ≤ i.val then r.repo == NO_REPO else t.hasRepo r.repo.toNat) &&
      !(i.val < PACKAGES && r.repo == NO_REPO)

/-- `inside` (store.rs:383). -/
def inside (blocks : Nat) (e : Extent) : Bool := e.first ≤ blocks && e.blocks ≤ blocks - e.first

/-- The walk over the sorted extents (store.rs:395-401). -/
def clear (blocks : Nat) : Nat → List Extent → Bool
  | _, [] => true
  | stop, e :: es => !(e.first < stop || blocks < e.stop) && clear blocks e.stop es

/-- `check` (store.rs:330) of a table whose header was right. -/
def check (t : Table) (generation : UInt64) (blocks first : Nat) : Except TableError Unit :=
  let own : Extent := ⟨first, TABLE_BLOCKS⟩
  if t.generation ≠ generation then .error .generation
  else
    match (finRange RECORDS).find? fun i => !t.recordOk i with
    | some i => .error (.record i)
    | none =>
      if !inside blocks own || t.extents.any fun e => !inside blocks e then .error .extents
      else if !clear blocks SUPERS (t.occupied own) then .error .extents
      else .ok ()

/-- A record is there. -/
def Used (t : Table) (i : Slot) : Prop := (t.record i).kind ≠ EMPTY

instance (t : Table) (i : Slot) : Decidable (t.Used i) := inferInstanceAs (Decidable (_ ≠ _))

/-- The rules of a record that is there, those that need no other record. -/
@[mk_iff] structure Fine (i : Slot) (r : Record) : Prop where
  kind : r.kind = slotKind i
  flags : r.flags &&& ~~~(WORLD ||| DEPENDENCY ||| REVOKED) = 0
  length : r.length ≠ 0
  blocks : r.blocks.toNat = (r.length.toNat + (BLOCK - 1)) / BLOCK
  named : i.val < PACKAGES → (∃ name : Name, name.toField = r.name) ∧ versionOk r.version = true
  repo : PACKAGES ≤ i.val → r.repo = NO_REPO

/-- The rules of the records and their places, without the table's own: no two packages have one name, and each is of
a repository that is there. -/
structure Laid (t : Table) (n : Nat) : Prop where
  empty : ∀ i, ¬t.Used i → t.record i = Record.empty
  fine : ∀ i, t.Used i → Fine i (t.record i)
  repo : ∀ i : Slot, t.Used i → i.val < PACKAGES → t.hasRepo (t.record i).repo.toNat = true
  names : ∀ i j : Slot, i ≠ j → i.val < PACKAGES → j.val < PACKAGES → t.Used i → t.Used j →
    (t.record i).nameBytes ≠ (t.record j).nameBytes
  fits : ∀ i, t.Used i → (t.record i).extent.Fits n
  apart : ∀ i j, i ≠ j → t.Used i → t.Used j → Apart (t.record i).extent (t.record j).extent

/-- The rules of a table that lies at `own` on a disk of `blocks`. -/
structure Sound (t : Table) (blocks : Nat) (own : Extent) : Prop extends t.Laid blocks where
  own_fits : own.Fits blocks
  own_apart : ∀ i, t.Used i → Apart own (t.record i).extent

theorem slotKind_ne_empty (i : Slot) : slotKind i ≠ EMPTY := by
  unfold slotKind
  split
  · decide
  split <;> decide

theorem slotKind_eq_package (h : i.val < PACKAGES) : slotKind i = PACKAGE := by
  unfold slotKind
  rw [if_neg, if_neg]
  · rintro rfl
    exact absurd h (by decide)
  · rintro rfl
    exact absurd h (by decide)

theorem hasRepo_noRepo (t : Table) : t.hasRepo NO_REPO.toNat = false := by
  unfold hasRepo
  rw [dif_neg (by decide)]

/-- What the rules of `check` for one record say. -/
theorem recordOk_iff (hu : t.Used i) : t.recordOk i = true ↔ Fine i (t.record i) ∧
    (i.val < PACKAGES → t.hasRepo (t.record i).repo.toNat = true ∧
      ∀ j < i, (t.record j).kind = PACKAGE → (t.record j).nameBytes ≠ (t.record i).nameBytes) := by
  have hname : (Name.fromField (t.record i).name).isSome = true ↔ ∃ name : Name, name.toField = (t.record i).name := by
    rw [Option.isSome_iff_exists]
    exact exists_congr fun name => ⟨Name.toField_of_fromField, fun h => h ▸ name.fromField_toField⟩
  have hnamed : t.named i = true ↔ ((∃ name : Name, name.toField = (t.record i).name) ∧
      versionOk (t.record i).version = true) ∧
        ∀ j < i, (t.record j).kind = PACKAGE → (t.record j).nameBytes ≠ (t.record i).nameBytes := by
    simp only [named, Bool.and_eq_true, hname, all_eq_true, mem_finRange, forall_const, Bool.or_eq_true,
      Bool.not_eq_true', decide_eq_false_iff_not, bne_iff_ne, or_assoc, imp_iff_not_or]
  have hno : t.hasRepo (t.record i).repo.toNat = true → (t.record i).repo ≠ NO_REPO := by
    intro hrepo hno
    rw [hno, hasRepo_noRepo] at hrepo
    cases hrepo
  unfold recordOk
  rw [if_neg hu, fine_iff]
  by_cases hi : PACKAGES ≤ i.val
  · simp [hi, Nat.not_lt.2 hi, and_assoc]
  · simp only [hi, Nat.not_le.1 hi, decide_false, decide_true, Bool.false_or, Bool.true_and, Bool.and_eq_true,
      beq_iff_eq, bne_iff_ne, Bool.not_eq_true', beq_eq_false_iff_ne, hnamed, if_false, forall_const, false_implies]
    tauto

/-- The rules of `check` for the records, of the table as a whole. -/
theorem laid_iff : t.Laid n ↔ (∀ i, t.recordOk i = true) ∧ (∀ i, t.Used i → (t.record i).extent.Fits n) ∧
    ∀ i j, i ≠ j → t.Used i → t.Used j → Apart (t.record i).extent (t.record j).extent := by
  have hempty : ∀ i, ¬t.Used i → (t.recordOk i = true ↔ t.record i = Record.empty) := by
    intro i hu
    rw [recordOk, if_pos (not_not.1 hu), beq_iff_eq]
  refine ⟨fun h => ⟨fun i => ?_, h.fits, h.apart⟩, fun ⟨h, hfits, hapart⟩ => ?_⟩
  · by_cases hu : t.Used i
    · refine (recordOk_iff hu).2 ⟨h.fine i hu, fun hi => ⟨h.repo i hu hi, fun j hj hk => ?_⟩⟩
      exact h.names j i (ne_of_lt hj) (lt_trans hj hi) hi (by rw [Used, hk]; decide) hu
    · exact (hempty i hu).2 (h.empty i hu)
  · have hrec := fun i hu => (recordOk_iff hu).1 (h i)
    -- of two packages one is at the earlier place
    have hlt : ∀ i j : Slot, i < j → j.val < PACKAGES → t.Used i → t.Used j →
        (t.record i).nameBytes ≠ (t.record j).nameBytes := by
      intro i j hij hj hui huj
      refine ((hrec j huj).2 hj).2 i hij ?_
      rw [(hrec i hui).1.kind, slotKind_eq_package (lt_trans hij hj)]
    refine ⟨fun i hu => (hempty i hu).1 (h i), fun i hu => (hrec i hu).1, fun i hu hi => ((hrec i hu).2 hi).1, ?_, hfits,
      hapart⟩
    intro i j hne hi hj hui huj
    rcases lt_or_gt_of_ne hne with hij | hij
    · exact hlt i j hij hj hui huj
    · exact (hlt j i hij hi huj hui).symm

theorem extentAt_eq_some :
    t.extentAt i = some e ↔ t.Used i ∧ (t.record i).extent = e := by
  unfold extentAt Used
  split
  next h => simp [h]
  next h => simp [h]

theorem mem_extents : e ∈ t.extents ↔ ∃ i, t.Used i ∧ (t.record i).extent = e := by
  simp [extents, extentAt_eq_some]

theorem mem_occupied :
    e ∈ t.occupied own ↔ e = own ∨ ∃ i, t.Used i ∧ (t.record i).extent = e := by
  rw [occupied, (gather_perm _).mem_iff, mem_cons, mem_extents]

theorem clear_iff (lo : Nat) (hn : n < 2 ^ 64) (hfit : ∀ e ∈ l, e.first + e.blocks ≤ n) :
    clear n lo l = true ↔ (∀ e ∈ l, lo ≤ e.first) ∧ l.Pairwise fun a b => a.first + a.blocks ≤ b.first := by
  induction l generalizing lo with
  | nil => simp [clear]
  | cons e es ih =>
    have he := hfit e mem_cons_self
    have hstop : e.stop = e.first + e.blocks := by
      unfold Extent.stop
      omega
    have ih' := ih e.stop fun x hx => hfit x (mem_cons_of_mem e hx)
    simp only [clear, Bool.and_eq_true, Bool.not_eq_true', Bool.or_eq_false_iff, decide_eq_false_iff_not,
      not_lt, ih', pairwise_cons, forall_mem_cons]
    rw [hstop]
    constructor
    · rintro ⟨⟨h1, -⟩, h2, h3⟩
      refine ⟨⟨h1, fun x hx => ?_⟩, h2, h3⟩
      have := h2 x hx
      omega
    · rintro ⟨⟨h1, -⟩, h2, h3⟩
      exact ⟨⟨h1, he⟩, h2, h3⟩

theorem Fine.blocks_pos {r : Record} (h : Fine i r) : 0 < r.extent.blocks := by
  have hpos : 0 < r.length.toNat := Nat.pos_of_ne_zero fun h0 => h.length (UInt64.toNat_inj.1 h0)
  simp only [Record.extent, h.blocks, BLOCK]
  omega

theorem pairwise_extents {R : Extent → Extent → Prop} (hR : ∀ a b, R a b → R b a) :
    t.extents.Pairwise R ↔
      ∀ i j, i ≠ j → t.Used i → t.Used j → R (t.record i).extent (t.record j).extent := by
  rw [extents, pairwise_filterMap]
  simp only [extentAt_eq_some]
  constructor
  · intro h i j hij hi hj
    have hsymm : Std.Symm fun a b => ∀ x, t.Used a ∧ (t.record a).extent = x →
        ∀ y, t.Used b ∧ (t.record b).extent = y → R x y :=
      ⟨fun a b hab x hx y hy => hR _ _ (hab y hy x hx)⟩
    exact h.forall (mem_finRange i) (mem_finRange j) hij _ ⟨hi, rfl⟩ _ ⟨hj, rfl⟩
  · intro h
    refine (nodup_finRange RECORDS).pairwise_of_forall_ne ?_
    rintro i - j - hij a ⟨hi, rfl⟩ b ⟨hj, rfl⟩
    exact h i j hij hi hj

/-- The extents of a table that keeps the rules, in order. -/
theorem Sound.occupied (hs : t.Sound n own) (hown : 0 < own.blocks) :
    (∀ e ∈ t.occupied own, 0 < e.blocks ∧ e.Fits n) ∧
      (t.occupied own).Pairwise fun a b => a.first + a.blocks ≤ b.first := by
  have hperm := gather_perm (own :: t.extents)
  have hfits : ∀ e ∈ t.occupied own, 0 < e.blocks ∧ e.Fits n := by
    intro e he
    rcases mem_occupied.1 he with rfl | ⟨i, hi, rfl⟩
    · exact ⟨hown, hs.own_fits⟩
    · exact ⟨(hs.fine i hi).blocks_pos, hs.fits i hi⟩
  have hall : (own :: t.extents).Pairwise Apart := by
    rw [pairwise_cons, pairwise_extents fun a b => Apart.symm]
    refine ⟨?_, hs.apart⟩
    intro e he
    obtain ⟨i, hi, rfl⟩ := mem_extents.1 he
    exact hs.own_apart i hi
  -- of two extents without a block in common the one that begins first ends first
  have hapart := (hperm.pairwise_iff (fun h => h.symm)).2 hall
  refine ⟨hfits, (hapart.and (gather_sorted _)).imp_of_mem ?_⟩
  intro a b _ hb hab
  have hb' := (hfits b hb).1
  rcases hab.1 with h | h
  · exact h
  · omega

/-- **`check` is the rules of `Sound`.** -/
theorem check_eq_ok_iff {g : UInt64} (hn : n < 2 ^ 64) :
    t.check g n p = .ok () ↔ t.generation = g ∧ t.Sound n ⟨p, TABLE_BLOCKS⟩ := by
  have hperm := gather_perm (⟨p, TABLE_BLOCKS⟩ :: t.extents)
  have hinside : ∀ e : Extent, inside n e = true ↔ e.first + e.blocks ≤ n := by
    intro e
    simp only [inside, Bool.and_eq_true, decide_eq_true_eq]
    omega
  constructor
  · intro h
    unfold check at h
    dsimp only at h
    split at h
    · cases h
    next hg =>
    split at h
    · cases h
    next hrec =>
    split at h
    · cases h
    next hin =>
    split at h
    · cases h
    next hclear =>
    have hrec' : ∀ i, t.recordOk i = true := by simpa using hrec
    simp only [Bool.not_eq_true, Bool.or_eq_false_iff, Bool.not_eq_false', any_eq_false, hinside] at hin
    have hfit : ∀ e ∈ t.occupied ⟨p, TABLE_BLOCKS⟩, e.first + e.blocks ≤ n := by
      intro e he
      rcases mem_cons.1 (hperm.mem_iff.1 he) with rfl | he
      · exact hin.1
      · exact hin.2 e he
    obtain ⟨hlo, hpair⟩ := (clear_iff SUPERS hn hfit).1 (by simpa using hclear)
    have hall : (⟨p, TABLE_BLOCKS⟩ :: t.extents).Pairwise Apart :=
      (hperm.pairwise_iff (fun h => h.symm)).1 (hpair.imp fun h => Or.inl h)
    rw [pairwise_cons, pairwise_extents fun a b => Apart.symm] at hall
    have hmem : ∀ i, t.Used i → (t.record i).extent ∈ t.extents := fun i hi => mem_extents.2 ⟨i, hi, rfl⟩
    have hocc : ∀ i, t.Used i → (t.record i).extent ∈ t.occupied ⟨p, TABLE_BLOCKS⟩ := fun i hi =>
      mem_occupied.2 (.inr ⟨i, hi, rfl⟩)
    refine ⟨not_not.1 hg, laid_iff.2 ⟨hrec', ?_, hall.2⟩, ⟨hlo _ (mem_occupied.2 (.inl rfl)), hin.1⟩, ?_⟩
    · exact fun i hi => ⟨hlo _ (hocc i hi), hfit _ (hocc i hi)⟩
    · exact fun i hi => hall.1 _ (hmem i hi)
  · rintro ⟨rfl, hs⟩
    obtain ⟨hfits, hpair⟩ := hs.occupied (show 0 < TABLE_BLOCKS by decide)
    have hclear := (clear_iff SUPERS hn fun e he => (hfits e he).2.2).2 ⟨fun e he => (hfits e he).2.1, hpair⟩
    have hrec : (finRange RECORDS).find? (fun i => !t.recordOk i) = none := by
      rw [find?_eq_none]
      intro i _
      simp [(laid_iff.1 hs.toLaid).1 i]
    have hany : (t.extents.any fun e => !inside n e) = false := by
      rw [any_eq_false]
      intro e he
      have h2 := (hfits e (hperm.mem_iff.2 (mem_cons_of_mem _ he))).2.2
      rw [(hinside e).2 h2]
      simp
    unfold check
    rw [if_neg (not_not.2 rfl), hrec]
    rw [(hinside _).2 hs.own_fits.2, hany, hclear]
    simp

end Table

/-! ## Free blocks -/

/-- `free_blocks` (store.rs:462), with the differences of 64 bits. -/
def freeBlocks (occupied : List Extent) (blocks : Nat) : Nat :=
  (((blocks : Int) - SUPERS - (occupied.map Extent.blocks).sum) % 2 ^ 64).toNat

/-- The `need` blocks from `b` on lie on a disk of `n` blocks and in none of the extents. -/
def FreeRun (l : List Extent) (n need b : Nat) : Prop :=
  (Extent.mk b need).Fits n ∧ ∀ e ∈ l, ∀ x, (Extent.mk b need).Has x → ¬e.Has x

instance (e : Extent) (b : Nat) : Decidable (e.Has b) := inferInstanceAs (Decidable (_ ∧ _))

/-- The blocks of a disk past the superblocks that no extent holds. -/
def unheld (l : List Extent) (n : Nat) : Finset Nat := (Finset.Ico SUPERS n).filter fun b => ∀ e ∈ l, ¬e.Has b

theorem card_unheld (hfits : ∀ e ∈ l, e.Fits n)
    (hl : l.Pairwise fun a b => a.first + a.blocks ≤ b.first) :
    (unheld l n).card + (l.map Extent.blocks).sum = n - SUPERS := by
  induction l with
  | nil => simp [unheld]
  | cons e l ih =>
    rw [pairwise_cons] at hl
    obtain ⟨⟨h1, h2⟩, hfits⟩ := forall_mem_cons.1 hfits
    have hcut : unheld (e :: l) n = unheld l n \ Finset.Ico e.first (e.first + e.blocks) := by
      ext b
      simp only [unheld, Finset.mem_filter, Finset.mem_sdiff, Finset.mem_Ico, forall_mem_cons, ← Extent.Has.eq_def]
      tauto
    have hsub : Finset.Ico e.first (e.first + e.blocks) ⊆ unheld l n := by
      intro b hb
      rw [Finset.mem_Ico] at hb
      refine Finset.mem_filter.2 ⟨Finset.mem_Ico.2 (by omega), fun x hx hxb => ?_⟩
      have := hl.1 x hx
      have := hxb.1
      omega
    have hle := Finset.card_le_card hsub
    have := ih hfits hl.2
    rw [hcut, Finset.card_sdiff_of_subset hsub]
    simp only [Nat.card_Ico, map_cons, sum_cons] at hle ⊢
    omega

/-- **Free extents.** -/
theorem free_extents :
    (∀ (occupied taken : List Extent) (n need : Nat), 1 ≤ need → (occupied ++ taken).length ≤ 2 * (RECORDS + 1) + 16 →
      SUPERS + need < 2 ^ 64 → (∀ e ∈ occupied ++ taken, 1 ≤ e.blocks ∧ e.first + e.blocks + need < 2 ^ 64) →
      (∀ b, findFree occupied taken n need = some b ↔ IsLeast {b | FreeRun (occupied ++ taken) n need b} b) ∧
        (findFree occupied taken n need = none ↔ ¬∃ b, FreeRun (occupied ++ taken) n need b)) ∧
    ∀ (t : Table) (g : UInt64) (n p : Nat), n < 2 ^ 64 → t.check g n p = .ok () →
      (t.occupied ⟨p, TABLE_BLOCKS⟩).Perm (⟨p, TABLE_BLOCKS⟩ :: t.extents) ∧
        (t.occupied ⟨p, TABLE_BLOCKS⟩).Pairwise (·.first < ·.first) ∧
        SUPERS + ((t.occupied ⟨p, TABLE_BLOCKS⟩).map Extent.blocks).sum ≤ n ∧
        freeBlocks (t.occupied ⟨p, TABLE_BLOCKS⟩) n = (unheld (t.occupied ⟨p, TABLE_BLOCKS⟩) n).card := by
  refine ⟨fun occupied taken n need hneed _ hs hl => ?_, fun t g n p hn h => ?_⟩
  · have hmem : ∀ e, e ∈ gather (occupied ++ taken) ↔ e ∈ occupied ++ taken := fun e => (gather_perm _).mem_iff
    have hbound : ∀ e ∈ gather (occupied ++ taken), e.first + e.blocks ≤ 2 ^ 64 - 1 - need := fun e he => by
      have := (hl e ((hmem e).1 he)).2
      omega
    obtain ⟨h1, h2, h3, h4⟩ := scan_spec (show 2 ^ 64 - 1 - need + need < 2 ^ 64 by omega) (gather_sorted _) hbound
      (show SUPERS ≤ _ by omega)
    have hleast : ∀ b, FreeRun (occupied ++ taken) n need b → scan need SUPERS (gather (occupied ++ taken)) ≤ b := by
      rintro b ⟨hfits, hb⟩
      refine h4 b hfits.1 fun e he => ?_
      rw [hmem] at he
      exact Extent.apart_of_not_has hneed (hl e he).1 (hb e he)
    unfold findFree
    generalize scan need SUPERS (gather (occupied ++ taken)) = q at *
    dsimp only
    rw [Nat.mod_eq_of_lt (by omega)]
    by_cases hq : q + need ≤ n
    · have hfree : FreeRun (occupied ++ taken) n need q :=
        ⟨⟨h1, hq⟩, fun e he x hx => (h3 e ((hmem e).2 he)).not_has hx⟩
      rw [if_pos hq]
      refine ⟨fun b => ⟨?_, fun hb => congrArg some ?_⟩, by simpa using ⟨q, hfree⟩⟩
      · rintro ⟨⟩
        exact ⟨hfree, fun b hb => hleast b hb⟩
      · exact le_antisymm (hleast b hb.1) (hb.2 hfree)
    · have hnone : ¬∃ b, FreeRun (occupied ++ taken) n need b := by
        rintro ⟨b, hb⟩
        have := hleast b hb
        have := hb.1.2
        simp only at this
        omega
      rw [if_neg hq]
      exact ⟨fun b => ⟨(by cases ·), fun hb => absurd ⟨b, hb.1⟩ hnone⟩, by simpa using hnone⟩
  · obtain ⟨hfits, hpair⟩ := ((Table.check_eq_ok_iff hn).1 h).2.occupied (show 0 < TABLE_BLOCKS by decide)
    have hcard := card_unheld (fun e he => (hfits e he).2) hpair
    have hown := (hfits _ (Table.mem_occupied.2 (.inl rfl))).2
    have hle : SUPERS ≤ n := hown.1.trans (by have := hown.2; omega)
    refine ⟨gather_perm _, hpair.imp_of_mem fun {a b} ha _ hab => ?_, by omega, ?_⟩
    · have := (hfits a ha).1
      omega
    · unfold freeBlocks
      omega

/-- A run behind two extents, and the free blocks of a disk with an empty table. -/
theorem free_extents_two :
    IsLeast {b | FreeRun ([⟨9, 3⟩] ++ [⟨2, 5⟩]) 20 8 b} 12 ∧
      (let t : Table := ⟨7, fun _ => Record.empty, fun _ => Repo.free⟩
       t.check 7 20 2 = .ok () ∧ (unheld (t.occupied ⟨2, TABLE_BLOCKS⟩) 20).card = 13) := by
  refine ⟨((free_extents.1 [⟨9, 3⟩] [⟨2, 5⟩] 20 8 (by decide) (by decide) (by decide) (by decide)).1 12).1 (by decide), ?_⟩
  intro t
  have hcheck : t.check 7 20 2 = .ok () := by decide +kernel
  refine ⟨hcheck, (free_extents.2 t 7 20 2 (by decide) hcheck).2.2.2.symm.trans (by decide +kernel)⟩

/-- An extent without a block hides a run that it does not meet. -/
theorem empty_extent_hides : findFree [⟨5, 0⟩] [] 20 8 = some 5 ∧ FreeRun [⟨5, 0⟩] 20 8 2 := by
  refine ⟨by decide, ⟨by decide, by decide⟩, fun e he x _ hx => ?_⟩
  rw [mem_singleton.1 he] at hx
  exact absurd hx.1 (Nat.not_le.2 hx.2)

namespace Table

/-! ## Tables that keep the rules -/

@[simp] theorem record_setRecord_self (t : Table) (i : Slot) (r : Record) : (t.setRecord i r).record i = r := by
  simp [setRecord, record]

theorem record_setRecord_of_ne {j : Slot} (h : j ≠ i) (r : Record) :
    (t.setRecord i r).record j = t.record j := by
  simp [setRecord, record, update_of_ne h]

theorem used_setRecord_of_ne {j : Slot} (h : j ≠ i) (r : Record) :
    (t.setRecord i r).Used j ↔ t.Used j := by
  rw [Used, record_setRecord_of_ne h, Used]

theorem used_setRecord_self {r : Record} : (t.setRecord i r).Used i ↔ r.kind ≠ EMPTY := by
  rw [Used, record_setRecord_self]

theorem Laid.setEmpty (h : t.Laid n) (i : Slot) : (t.setRecord i Record.empty).Laid n := by
  have hu : ∀ j, (t.setRecord i Record.empty).Used j → j ≠ i ∧ t.Used j := by
    intro j hj
    have hne : j ≠ i := by
      rintro rfl
      exact used_setRecord_self.1 hj rfl
    exact ⟨hne, (used_setRecord_of_ne hne _).1 hj⟩
  have hr : ∀ j, j ≠ i → (t.setRecord i Record.empty).record j = t.record j := fun j hj => record_setRecord_of_ne hj _
  refine ⟨?_, ?_, ?_, ?_, ?_, ?_⟩
  · intro j hj
    by_cases hne : j = i
    · rw [hne, record_setRecord_self]
    · rw [hr j hne]
      exact h.empty j fun hu' => hj ((used_setRecord_of_ne hne _).2 hu')
  · intro j hj
    rw [hr j (hu j hj).1]
    exact h.fine j (hu j hj).2
  · intro j hj hlt
    rw [hr j (hu j hj).1]
    exact h.repo j (hu j hj).2 hlt
  · intro j k hjk hj hk huj huk
    rw [hr j (hu j huj).1, hr k (hu k huk).1]
    exact h.names j k hjk hj hk (hu j huj).2 (hu k huk).2
  · intro j hj
    rw [hr j (hu j hj).1]
    exact h.fits j (hu j hj).2
  · intro j k hjk huj huk
    rw [hr j (hu j huj).1, hr k (hu k huk).1]
    exact h.apart j k hjk (hu j huj).2 (hu k huk).2

/-- A record put at a place: it keeps the rules, its name is no other's, and its extent is inside the disk and clear of
the others. -/
theorem Laid.setRecord (h : t.Laid n) {r : Record} (hfine : Fine i r)
    (hrepo : i.val < PACKAGES → t.hasRepo r.repo.toNat = true)
    (hname : ∀ j : Slot, j ≠ i → i.val < PACKAGES → j.val < PACKAGES → t.Used j → (t.record j).nameBytes ≠ r.nameBytes)
    (hfit : r.extent.Fits n) (hapart : ∀ j, j ≠ i → t.Used j → Apart r.extent (t.record j).extent) :
    (t.setRecord i r).Laid n := by
  have hr : ∀ j, j ≠ i → (t.setRecord i r).record j = t.record j := fun j hj => record_setRecord_of_ne hj _
  have hu : ∀ j, j ≠ i → (t.setRecord i r).Used j → t.Used j := fun j hj => (used_setRecord_of_ne hj _).1
  refine ⟨?_, ?_, ?_, ?_, ?_, ?_⟩
  · intro j hj
    by_cases hne : j = i
    · subst hne
      exact absurd (used_setRecord_self.2 (hfine.kind ▸ slotKind_ne_empty j)) hj
    · rw [hr j hne]
      exact h.empty j fun hu' => hj ((used_setRecord_of_ne hne _).2 hu')
  · intro j hj
    by_cases hne : j = i
    · subst hne
      rw [record_setRecord_self]
      exact hfine
    · rw [hr j hne]
      exact h.fine j (hu j hne hj)
  · intro j hj hlt
    by_cases hne : j = i
    · subst hne
      rw [record_setRecord_self]
      exact hrepo hlt
    · rw [hr j hne]
      exact h.repo j (hu j hne hj) hlt
  · intro j k hjk hj hk huj huk
    by_cases hji : j = i
    · subst hji
      rw [record_setRecord_self, hr k hjk.symm]
      exact (hname k hjk.symm hj hk (hu k hjk.symm huk)).symm
    · by_cases hki : k = i
      · subst hki
        rw [record_setRecord_self, hr j hjk]
        exact hname j hjk hk hj (hu j hjk huj)
      · rw [hr j hji, hr k hki]
        exact h.names j k hjk hj hk (hu j hji huj) (hu k hki huk)
  · intro j hj
    by_cases hne : j = i
    · subst hne
      rw [record_setRecord_self]
      exact hfit
    · rw [hr j hne]
      exact h.fits j (hu j hne hj)
  · intro j k hjk huj huk
    by_cases hji : j = i
    · subst hji
      rw [record_setRecord_self, hr k hjk.symm]
      exact hapart k hjk.symm (hu k hjk.symm huk)
    · by_cases hki : k = i
      · subst hki
        rw [record_setRecord_self, hr j hjk]
        exact (hapart j hjk (hu j hjk huj)).symm
      · rw [hr j hji, hr k hki]
        exact h.apart j k hjk (hu j hji huj) (hu k hki huk)

theorem Laid.setGeneration (h : t.Laid n) (g : UInt64) : (t.setGeneration g).Laid n :=
  ⟨h.empty, h.fine, h.repo, h.names, h.fits, h.apart⟩

theorem Laid.setFlags (h : t.Laid n) (hu : t.Used i) {flags : UInt8}
    (hf : flags &&& ~~~(WORLD ||| DEPENDENCY ||| REVOKED) = 0) :
    (t.setRecord i { t.record i with flags }).Laid n := by
  have hfine := h.fine i hu
  refine h.setRecord ⟨hfine.kind, hf, hfine.length, hfine.blocks, hfine.named, hfine.repo⟩ (h.repo i hu) ?_
    (h.fits i hu) fun j hj huj => h.apart i j hj.symm hu huj
  intro j hj hi hjn huj
  exact h.names j i hj hjn hi huj hu

theorem hasRepo_setRepo {i : Fin REPOS} {name : Bytes} {serial : UInt64} {k : Nat}
    (h : t.hasRepo k = true) : (t.setRepo i name serial).hasRepo k = true := by
  unfold setRepo
  split
  · exact h
  next hname =>
  unfold hasRepo at h ⊢
  split at h
  next hk =>
    rw [dif_pos hk]
    by_cases hki : (⟨k, hk⟩ : Fin REPOS) = i
    · simp only [Bool.or_eq_true, List.isEmpty_iff, decide_eq_true_eq, not_or] at hname
      have hlen : name.length ≠ 0 := fun h0 => hname.1 (List.length_eq_zero_iff.1 h0)
      have hzero : (field (UInt8.ofNat name.length :: name) 0 32)[0] ≠ 0 := by
        intro h0
        have h1 : UInt8.ofNat name.length = 0 := by simpa [field] using h0
        have h2 := congrArg UInt8.toNat h1
        rw [UInt8.toNat_ofNat_of_lt' (by simp only [UInt8.size]; omega)] at h2
        exact hlen h2
      simp [repo, hki, if_neg hzero]
    · simp only [repo, update_of_ne hki]
      exact h
  next => cases h

theorem Laid.setRepo (h : t.Laid n) (i : Fin REPOS) (name : Bytes) (serial : UInt64) :
    (t.setRepo i name serial).Laid n := by
  have hrec : (t.setRepo i name serial).records = t.records := by
    unfold Table.setRepo
    split <;> rfl
  have hr : ∀ j, (t.setRepo i name serial).record j = t.record j := fun j => congrFun hrec j
  have hu : ∀ j, (t.setRepo i name serial).Used j ↔ t.Used j := fun j => by rw [Used, hr j, Used]
  refine ⟨?_, ?_, ?_, ?_, ?_, ?_⟩
  · exact fun j hj => (hr j).trans (h.empty j fun hu' => hj ((hu j).2 hu'))
  · exact fun j hj => (hr j) ▸ h.fine j ((hu j).1 hj)
  · exact fun j hj hlt => (hr j) ▸ hasRepo_setRepo (h.repo j ((hu j).1 hj) hlt)
  · intro j k hjk hj hk huj huk
    rw [hr j, hr k]
    exact h.names j k hjk hj hk ((hu j).1 huj) ((hu k).1 huk)
  · exact fun j hj => (hr j) ▸ h.fits j ((hu j).1 hj)
  · intro j k hjk huj huk
    rw [hr j, hr k]
    exact h.apart j k hjk ((hu j).1 huj) ((hu k).1 huk)

end Table

end Store
