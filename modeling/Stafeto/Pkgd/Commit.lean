import Stafeto.Lib.CrashDisk
import Stafeto.Lib.Program
import Stafeto.Pkgd.Store

/-!
# The steps that touch the disk (pkgd/src/commit.rs)

`format` lays out an empty store, `transact` makes a new table the store's state and `openStore` finds the state at
a start. They run over a device whose writes and flushes have fates, and a device without fates left has lost its
power. The state a superblock names is a table and the files its records name; `Stands` says that the medium
has it whatever becomes of the cache.

A transaction whose superblock failed leaves a doubt: its table and files are whole on the medium, and its
superblock is there or not. `Inv` is the state that stands, the copy of the superblock that is not in use, and the
doubts. Everything a job writes before its superblock keeps `Inv` (`Inv.write`), a superblock is written as a doubt
(`Inv.cons`, `Inv.doubt`), the flush after it makes it the state (`Inv.committed`), and from `Inv` a start finds the
state or a doubt (`Inv.openStore`).
-/

namespace Commit

open ByteStr Pkgfmt Store CrashDisk List Program Program.Prog UInt64 Superblock

abbrev Block := Bytes

/-- The device (commit.rs:104): the disk, what will become of the next writes and flushes, and what the file
service will answer to the next layers. -/
structure Device where
  disk : Disk Block
  sectors : UInt64
  fates : List Fate
  answers : List (Option Code)

/-- `blocks` (worker.rs:291): a block is eight sectors. -/
def Device.blocks (d : Device) : Nat := d.sectors.toNat / 8

theorem Device.blocks_lt (d : Device) : d.blocks < 2 ^ 61 := by
  have h := d.sectors.toNat_lt
  unfold Device.blocks
  omega

/-- Why a program over the device stopped: the power went, or the refusals of a transaction (commit.rs:328). `Io`
is two here: `superIo` is that of the superblock's write or of the flush after it. -/
inductive Stop where
  | lost
  | io
  | superIo
  | noSpace
  | attach (code : Code)
  deriving DecidableEq

abbrev Prog := Program.Prog Device Stop

/-- The blocks `vs` from `first` on, one request of the device (worker.rs:226); one past the end is refused. -/
def writeBlocks (first : Nat) (vs : List Block) : Prog Unit := fun d =>
  if d.blocks < first + vs.length then (.error .io, d)
  else
    match d.fates with
    | [] => (.error .lost, d)
    | .done :: fates => (.ok (), { d with disk := d.disk.writeAll (fun _ => true) first vs, fates })
    | .failed took :: fates => (.error .io, { d with disk := d.disk.writeAll took first vs, fates })

/-- `write` of one block. -/
def write (b : Nat) (v : Block) : Prog Unit := writeBlocks b [v]

def flush : Prog Unit := fun d =>
  match d.fates with
  | [] => (.error .lost, d)
  | .done :: fates => (.ok (), { d with disk := d.disk.flush fun _ => true, fates })
  | .failed took :: fates => (.error .io, { d with disk := d.disk.flush took, fates })

def diskBlocks : Prog UInt64 := fun d => (.ok (ofNat d.blocks), d)

/-- `attach` of a layer: the file service takes it or gives a code. -/
def attach : Prog Unit := fun d =>
  match d.answers with
  | [] => (.ok (), d)
  | none :: answers => (.ok (), { d with answers })
  | some code :: answers => (.error (.attach code), { d with answers })

/-- `Opened` (commit.rs:140). -/
structure Opened where
  superblock : Superblock
  /-- The copy that holds the superblock; the next one goes to the other. -/
  copy : Fin 2
  deriving DecidableEq

/-- `table_extent` (commit.rs:147). -/
def Opened.tableExtent (o : Opened) : Extent := ⟨o.superblock.tableFirst.toNat, TABLE_BLOCKS⟩

/-- `Start` (commit.rs:157), with the table of a good store. -/
inductive Start where
  | store (opened : Opened) (table : Table)
  | blank
  | damaged

section
variable (sha256 : Bytes → Digest)

/-! ## Reading -/

/-- `read_table` (commit.rs:190): none when a block is not read. -/
def readTable (read : Nat → Option Block) (first : Nat) : Option Bytes :=
  ((range TABLE_BLOCKS).mapM fun i => read (first + i)).map flatten

/-- `load` (commit.rs:168). -/
def load (read : Nat → Option Block) (sb : Superblock) : Option Table :=
  if sb.tableLen.toNat ≠ TABLE_BYTES ∨ sb.tableFirst.toNat < SUPERS then none
  else if 2 ^ 64 ≤ sb.tableFirst.toNat + TABLE_BLOCKS ∨ sb.blocks.toNat < sb.tableFirst.toNat + TABLE_BLOCKS then none
  else
    match readTable read sb.tableFirst.toNat with
    | none => none
    | some b =>
      if sha256 b ≠ sb.tableSha then none
      else
        match Table.parse b with
        | .error _ => none
        | .ok t =>
          match t.check sb.generation sb.blocks.toNat sb.tableFirst.toNat with
          | .ok () => some t
          | .error _ => none

/-- The superblock of one copy, none when it is not read or not good (commit.rs:205-211). -/
def superAt (read : Nat → Option Block) (blocks : UInt64) (copy : Fin 2) : Option Superblock :=
  match read copy with
  | none => none
  | some b => (decode sha256 b blocks).toOption

/-- The copies in the order they are tried (commit.rs:212-215). -/
def order (a b : Option Superblock) : List (Fin 2) :=
  match a, b with
  | some a, some b => if b.generation > a.generation then [1, 0] else [0, 1]
  | _, _ => [0, 1]

/-- The first copy in that order whose table is whole (commit.rs:216-225). -/
def choose (found : Fin 2 → Option Superblock) (load : Superblock → Option Table) : Option Start :=
  (order (found 0) (found 1)).findSome? fun copy =>
    (found copy).bind fun sb => (load sb).map fun t => Start.store ⟨sb, copy⟩ t

/-- `open` (commit.rs:199). -/
def openStore (read : Nat → Option Block) (blocks : UInt64) : Start :=
  match choose (superAt sha256 read blocks) (load sha256 read) with
  | some start => start
  | none =>
    let zeros := [(0 : Fin 2), 1].all fun copy => (read copy).any fun b => b.all (· == 0)
    if zeros then .blank else .damaged

/-! ## Writing -/

/-- `superblock_of` (commit.rs:248). -/
def superblockOf (blocks : UInt64) (t : Table) (first : Nat) : Superblock :=
  ⟨blocks, t.generation, ofNat first, UInt32.ofNat TABLE_BYTES, sha256 t.bytes⟩

/-- The five blocks of a table. -/
def tableBlocks (t : Table) : List Block := ByteStr.blocks BLOCK t.bytes TABLE_BLOCKS

/-- `write_table` (commit.rs:259). -/
def writeTable (t : Table) (first : Nat) : Prog Unit := do
  each (fun i => write (first + i) (slice t.bytes (BLOCK * i) BLOCK)) (range TABLE_BLOCKS)
  flush

/-- `write_super` (commit.rs:271). -/
def writeSuper (copy : Fin 2) (sb : Superblock) : Prog Unit := do
  write copy (sb.encode sha256)
  flush

/-- The table of a new store: the official repository, `stafeto`, has the first place (commit.rs:232-234). -/
def formatted : Table := (Table.init 1).setRepo ⟨0, repos_pos⟩ [115, 116, 97, 102, 101, 116, 111] 0

/-- `format` (commit.rs:233). -/
def format : Prog (Opened × Table) := do
  writeTable formatted SUPERS
  let blocks ← diskBlocks
  let sb := superblockOf sha256 blocks formatted SUPERS
  writeSuper sha256 0 sb
  pure (⟨sb, 0⟩, formatted)

/-- `Kind` (commit.rs:303). -/
inductive Kind where
  | install
  | remove
  | settings
  | serial
  | world
  | revoked
  deriving DecidableEq

/-- The layers come before the superblock (commit.rs:381). -/
def Kind.attachFirst : Kind → Bool
  | .install | .settings => true
  | _ => false

/-- `Change` (commit.rs:327): how many layers go and how many come. -/
structure Change where
  kind : Kind
  detach : Nat
  attach : Nat

/-- `undo` (commit.rs:353): the layers that went come back, whatever the file service says. -/
def undo (change : Change) : Prog Unit :=
  each (fun _ => onStop attach fun _ => pure ()) (range change.detach)

/-- `free_table_extent` (commit.rs:425). -/
def freeTableExtent (accepted next : Table) (o : Opened) : Option Nat :=
  findFree (accepted.occupied o.tableExtent) (next.occupied o.tableExtent) o.superblock.blocks.toNat TABLE_BLOCKS

/-- The layers of a transaction (commit.rs:382-392). -/
def layers (change : Change) : Prog Unit :=
  if change.kind.attachFirst then
    each (fun _ => onStop attach fun e => do undo change; stop e)
      (range change.attach)
  else pure ()

/-- `transact` (commit.rs:370). -/
def transact (o : Opened) (accepted next : Table) (change : Change) : Prog Opened := do
  flush
  match freeTableExtent accepted next o with
  | none => stop .noSpace
  | some first =>
    writeTable next first
    layers change
    let blocks ← diskBlocks
    let sb := superblockOf sha256 blocks next first
    onStop (writeSuper sha256 (1 - o.copy) sb) fun e =>
      if e = .io then do
        if change.kind.attachFirst then undo change
        stop .superIo
      else stop e
    pure ⟨sb, 1 - o.copy⟩

/-! ## What a start chooses -/

variable {sha256} {c : Fin 2} {sb : Superblock} {first : Nat}

theorem copy_cases (c : Fin 2) : c = 0 ∧ 1 - c = 1 ∨ c = 1 ∧ 1 - c = 0 := by
  revert c
  decide

/-- The other copy is no good or older: the state is the copy in use. -/
theorem choose_of_older {found : Fin 2 → Option Superblock} {load : Superblock → Option Table}
    {t : Table} (hc : found c = some sb) (ht : load sb = some t)
    (ho : ∀ sb', found (1 - c) = some sb' → sb'.generation < sb.generation) :
    choose found load = some (.store ⟨sb, c⟩ t) := by
  rcases copy_cases c with ⟨h0, h1⟩ | ⟨h0, h1⟩
  · subst h0
    cases h : found 1 with
    | none => simp [choose, order, hc, ht, h]
    | some sb' =>
      have hlt : ¬sb.generation < sb'.generation := fun hgt => UInt64.lt_irrefl _ (UInt64.lt_trans hgt (ho sb' h))
      simp [choose, order, hc, ht, h, hlt]
  · subst h0
    cases h : found 0 with
    | none => simp [choose, order, hc, ht, h]
    | some sb' =>
      have hlt : sb'.generation < sb.generation := ho sb' h
      simp [choose, order, hc, ht, h, hlt]

/-- The other copy is newer: its state when its table is whole, else the copy in use. -/
theorem choose_of_newer {found : Fin 2 → Option Superblock} {load : Superblock → Option Table}
    {sb' : Superblock} {t : Table} (hc : found c = some sb) (ht : load sb = some t)
    (ho : found (1 - c) = some sb') (hlt : sb.generation < sb'.generation) :
    choose found load = some (((load sb').map fun t' => Start.store ⟨sb', 1 - c⟩ t').getD (.store ⟨sb, c⟩ t)) := by
  have hnot : ¬sb'.generation < sb.generation := fun h => UInt64.lt_irrefl _ (UInt64.lt_trans h hlt)
  rcases copy_cases c with ⟨h0, h1⟩ | ⟨h0, h1⟩
  · rw [h1] at ho
    subst h0
    cases h : load sb' with
    | none => simp [choose, order, hc, ht, ho, h, hlt]
    | some t' => simp [choose, order, hc, ho, h, hlt]
  · rw [h1] at ho
    subst h0
    cases h : load sb' with
    | none => simp [choose, order, hc, ht, ho, h, hnot]
    | some t' => simp [choose, order, hc, ho, h, hnot]

theorem length_tableBlocks (t : Table) : (tableBlocks t).length = TABLE_BLOCKS := length_blocks _ _ _

theorem flatten_tableBlocks (t : Table) : (tableBlocks t).flatten = t.bytes :=
  flatten_blocks (by rw [t.length_bytes]; rfl)

theorem readTable_some (m : Nat → Block) (first : Nat) :
    readTable (fun b => some (m b)) first = some ((range TABLE_BLOCKS).map fun i => m (first + i)).flatten := by
  rfl

theorem readTable_of_blocks {m : Nat → Block} {t : Table}
    (h : ∀ i (hi : i < (tableBlocks t).length), m (first + i) = (tableBlocks t)[i]) :
    readTable (fun b => some (m b)) first = some t.bytes := by
  have hmap : (range TABLE_BLOCKS).map (fun i => m (first + i)) = tableBlocks t := by
    apply ext_getElem
    · rw [length_map, length_range, length_tableBlocks]
    · intro i h1 h2
      rw [getElem_map, getElem_range]
      exact h i h2
  rw [readTable_some, hmap, flatten_tableBlocks]

theorem toNat_first {n : Nat} (hn : n < 2 ^ 61) (hfit : (Extent.mk first TABLE_BLOCKS).Fits n) :
    (ofNat first).toNat = first := by
  have h2 : first + TABLE_BLOCKS ≤ n := hfit.2
  rw [toNat_ofNat_of_lt' (by simp only [size]; omega)]

theorem toNat_blocks {n : Nat} (hn : n < 2 ^ 61) : (ofNat n).toNat = n :=
  toNat_ofNat_of_lt' (by simp only [size]; omega)

/-- A superblock of a good table finds the table where it reads the bytes of it, and nothing where the hash differs. -/
theorem load_superblockOf {m : Nat → Block} {n : Nat} {t : Table} {b : Bytes} (hn : n < 2 ^ 61)
    (hs : t.Sound n ⟨first, TABLE_BLOCKS⟩) (hb : readTable (fun b => some (m b)) first = some b)
    (hsha : sha256 b = sha256 t.bytes → b = t.bytes) :
    load sha256 (fun b => some (m b)) (superblockOf sha256 (ofNat n) t first) =
      if b = t.bytes then some t else none := by
  have hfit := hs.own_fits
  have h1 : SUPERS ≤ first := hfit.1
  have h2 : first + TABLE_BLOCKS ≤ n := hfit.2
  have hcheck : t.check t.generation n first = .ok () := (Table.check_eq_ok_iff (by omega)).2 ⟨rfl, hs⟩
  unfold load
  simp only [superblockOf, toNat_first hn hfit, toNat_blocks hn]
  rw [if_neg (by rintro (h | h); exacts [h (by decide), by omega]), if_neg (by rintro (h | h) <;> omega), hb]
  dsimp only
  by_cases hh : b = t.bytes
  · rw [if_neg (not_not.2 (congrArg sha256 hh)), if_pos hh, hh, Table.parse_bytes]
    dsimp only
    rw [hcheck]
  · rw [if_pos fun h => hh (hsha h), if_neg hh]

/-! ## The state on the medium -/

/-- What a torn write leaves: a superblock that breaks its own hash, anything elsewhere. -/
def torn (sha256 : Bytes → Digest) (b : Nat) (v : Block) : Prop := b < SUPERS → ownHash sha256 v = false

/-- The blocks of a file: its bytes, with zeros to the end of the last block. -/
def fileBlocks (file : Bytes) : List Block :=
  let n := (file.length + (BLOCK - 1)) / BLOCK
  ByteStr.blocks BLOCK (file ++ zeros (BLOCK * n - file.length)) n

/-- The state a superblock names, with the file of each record. -/
structure State where
  opened : Opened
  table : Table
  files : Slot → Bytes

/-- A state whose superblock was tried: where its table went, and its files. -/
structure Attempt where
  first : Nat
  table : Table
  files : Slot → Bytes

/-- The medium has the files of the records. -/
def Kept (d : Disk Block) (t : Table) (files : Slot → Bytes) : Prop :=
  ∀ i, t.Used i → (files i).length = (t.record i).length.toNat ∧
    d.HoldsAll (t.record i).first.toNat (fileBlocks (files i))

/-- The medium of `n` blocks has the state. -/
structure Stands (sha256 : Bytes → Digest) (n : Nat) (d : Disk Block) (st : State) : Prop where
  superblock : st.opened.superblock = superblockOf sha256 (ofNat n) st.table st.opened.tableExtent.first
  held : d.Holds st.opened.copy (st.opened.superblock.encode sha256)
  table : d.HoldsAll st.opened.tableExtent.first (tableBlocks st.table)
  sound : st.table.Sound n st.opened.tableExtent
  files : Kept d st.table st.files

/-- The superblock of an attempt. -/
def Attempt.superblock (sha256 : Bytes → Digest) (n : Nat) (a : Attempt) : Superblock :=
  superblockOf sha256 (ofNat n) a.table a.first

/-- `next` is one generation after `t`; after the last number comes 0. -/
def Follows (t next : Table) : Prop :=
  next.generation.toNat = t.generation.toNat + 1 ∨ next.generation < t.generation

/-- An attempt after the state `st` whose table was good and whose files are on the medium. -/
structure Whole (n : Nat) (d : Disk Block) (st : State) (a : Attempt) : Prop where
  generation : Follows st.table a.table
  sound : a.table.Sound n ⟨a.first, TABLE_BLOCKS⟩
  files : Kept d a.table a.files

/-- What the copy of the superblock that is not in use can be: nothing good, an older one, or a doubt's. -/
def Other (sha256 : Bytes → Digest) (n : Nat) (st : State) (doubts : List Attempt) (v : Block) : Prop :=
  (∀ sb, decode sha256 v (ofNat n) = .ok sb → sb.generation < st.table.generation) ∨
    ∃ a ∈ doubts, v = (a.superblock sha256 n).encode sha256

/-- The disk between two operations: the state stands, and each doubt is whole. -/
structure Inv (sha256 : Bytes → Digest) (n : Nat) (d : Disk Block) (st : State) (doubts : List Attempt) : Prop where
  stands : Stands sha256 n d st
  other : ∀ v, d.May (torn sha256) ((1 - st.opened.copy : Fin 2) : Nat) v → Other sha256 n st doubts v
  whole : ∀ a ∈ doubts, Whole n d st a

/-- The bytes of a record's extent, cut to its length (worker.rs:1025). -/
def readFile (m : Nat → Block) (r : Record) : Bytes :=
  ((range r.blocks.toNat).map fun i => m (r.first.toNat + i)).flatten.take r.length.toNat

variable {n b : Nat} {d : Disk Block} {st : State} {doubts : List Attempt} {t next : Table} {files : Slot → Bytes}
  {m : Nat → Block} {i : Slot} {v : Block} {took : Nat → Bool} {a : Attempt} {change : Change}

theorem length_fileBlocks (file : Bytes) : (fileBlocks file).length = (file.length + (BLOCK - 1)) / BLOCK :=
  length_blocks _ _ _

theorem flatten_fileBlocks (file : Bytes) : (fileBlocks file).flatten.take file.length = file := by
  have hle : file.length ≤ BLOCK * ((file.length + (BLOCK - 1)) / BLOCK) := by
    unfold BLOCK
    omega
  unfold fileBlocks
  rw [flatten_blocks, take_left]
  rw [length_append, length_zeros]
  omega

theorem Kept.length_eq (h : Kept d t files) (hs : t.Laid n) (hu : t.Used i) :
    (fileBlocks (files i)).length = (t.record i).extent.blocks := by
  rw [length_fileBlocks, (h i hu).1, Record.extent, (hs.fine i hu).blocks]

theorem Kept.write (h : Kept d t files) (hs : t.Laid n)
    (hb : ∀ i, t.Used i → ¬(t.record i).extent.Has b) : Kept (d.write b v) t files := by
  intro i hu
  refine ⟨(h i hu).1, (h i hu).2.write ?_⟩
  have hnot := hb i hu
  rw [h.length_eq hs hu]
  simp only [Extent.Has, Record.extent] at hnot ⊢
  omega

theorem Kept.flush (h : Kept d t files) : Kept (d.flush took) t files :=
  fun i hu => ⟨(h i hu).1, (h i hu).2.flush⟩

/-- **A kept file is read back after any loss of power.** -/
theorem Kept.readFile (h : Kept d t files) (hs : t.Laid n) (hm : d.Survives (torn sha256) m)
    (hu : t.Used i) : readFile m (t.record i) = files i := by
  have hlen := h.length_eq hs hu
  have hmap : (range (t.record i).blocks.toNat).map (fun k => m ((t.record i).first.toNat + k)) =
      fileBlocks (files i) := by
    apply ext_getElem
    · rw [length_map, length_range, hlen, Record.extent]
    · intro k h1 h2
      rw [getElem_map, getElem_range]
      exact (h i hu).2.survives hm h2
  rw [Commit.readFile, hmap, ← (h i hu).1, flatten_fileBlocks]

/-! ## What keeps the state -/

/-- The block is outside the superblocks, the table and files of the state, and the files of the doubts. -/
structure Clear (st : State) (doubts : List Attempt) (b : Nat) : Prop where
  supers : SUPERS ≤ b
  table : ¬st.opened.tableExtent.Has b
  files : ∀ i, st.table.Used i → ¬(st.table.record i).extent.Has b
  doubts : ∀ a ∈ doubts, ∀ i, a.table.Used i → ¬(a.table.record i).extent.Has b

theorem Stands.write (h : Stands sha256 n d st) (hc : (st.opened.copy : Nat) ≠ b)
    (ht : ¬st.opened.tableExtent.Has b) (hf : ∀ i, st.table.Used i → ¬(st.table.record i).extent.Has b) :
    Stands sha256 n (d.write b v) st where
  superblock := h.superblock
  held := h.held.write hc
  table := by
    refine h.table.write ?_
    rw [length_tableBlocks]
    simp only [Extent.Has, Opened.tableExtent] at ht ⊢
    omega
  sound := h.sound
  files := h.files.write h.sound.toLaid hf

theorem Stands.flush (h : Stands sha256 n d st) : Stands sha256 n (d.flush took) st where
  superblock := h.superblock
  held := h.held.flush
  table := h.table.flush
  sound := h.sound
  files := h.files.flush

section
variable (h : Inv sha256 n d st doubts)
include h

/-- A write to a clear block keeps the state and the doubts. -/
theorem Inv.write (hb : Clear st doubts b) :
    Inv sha256 n (d.write b v) st doubts where
  stands := by
    have h2 := hb.supers
    exact h.stands.write (by unfold SUPERS at h2; omega) hb.table hb.files
  other := by
    intro w hw
    have h2 := hb.supers
    exact h.other w (Disk.may_write_of_ne (by unfold SUPERS at h2; omega) hw)
  whole := by
    intro a ha
    have hw := h.whole a ha
    exact ⟨hw.generation, hw.sound, hw.files.write hw.sound.toLaid (hb.doubts a ha)⟩

theorem Inv.flush : Inv sha256 n (d.flush took) st doubts where
  stands := h.stands.flush
  other := fun w hw => h.other w (Disk.may_flush hw)
  whole := by
    intro a ha
    have hw := h.whole a ha
    exact ⟨hw.generation, hw.sound, hw.files.flush⟩

/-- A whole attempt may be counted as a doubt. -/
theorem Inv.cons (ha : Whole n d st a) :
    Inv sha256 n d st (a :: doubts) where
  stands := h.stands
  other := by
    intro v hv
    rcases h.other v hv with hold | ⟨a', ha', hva⟩
    · exact .inl hold
    · exact .inr ⟨a', mem_cons_of_mem a ha', hva⟩
  whole := by
    intro a' ha'
    rcases mem_cons.1 ha' with rfl | ha'
    · exact ha
    · exact h.whole a' ha'

/-- The copy of the superblock that is not in use may become what it can be. -/
theorem Inv.writeOther (hv : Other sha256 n st doubts v) :
    Inv sha256 n (d.write ((1 - st.opened.copy : Fin 2) : Nat) v) st doubts := by
  have hlt : ((1 - st.opened.copy : Fin 2) : Nat) < SUPERS := (1 - st.opened.copy).2
  have hnot : ∀ e : Extent, SUPERS ≤ e.first → ¬e.Has ((1 - st.opened.copy : Fin 2) : Nat) := by
    rintro e he ⟨h1, -⟩
    omega
  refine ⟨?_, ?_, ?_⟩
  · refine h.stands.write ?_ (hnot _ h.stands.sound.own_fits.1) fun i hu => hnot _ (h.stands.sound.fits i hu).1
    rcases copy_cases st.opened.copy with ⟨h0, h1⟩ | ⟨h0, h1⟩ <;> rw [h0] <;> decide
  · intro w hw
    rcases Disk.may_write_self hw with hw | rfl | hw
    · exact h.other w hw
    · exact hv
    · left
      intro sb hsb
      obtain ⟨e, he⟩ := decode_of_not_ownHash sha256 (hw hlt) (ofNat n)
      rw [he] at hsb
      cases hsb
  · intro a ha
    have hw := h.whole a ha
    exact ⟨hw.generation, hw.sound, hw.files.write hw.sound.toLaid fun i hu => hnot _ (hw.sound.fits i hu).1⟩

theorem Inv.doubt (ha : a ∈ doubts) :
    Inv sha256 n (d.write ((1 - st.opened.copy : Fin 2) : Nat) ((a.superblock sha256 n).encode sha256)) st doubts :=
  h.writeOther (.inr ⟨a, ha, rfl⟩)

end

/-- The state an attempt makes of `st` when its superblock is on the medium. -/
def Attempt.state (sha256 : Bytes → Digest) (n : Nat) (st : State) (a : Attempt) : State :=
  ⟨⟨a.superblock sha256 n, 1 - st.opened.copy⟩, a.table, a.files⟩

/-- The flush after the superblock makes a doubt whose table is on the medium the state, and leaves no doubt. -/
theorem Inv.committed (hn : n < 2 ^ 61) (h : Inv sha256 n d st doubts) (ha : Whole n d st a)
    (hg : a.table.generation.toNat = st.table.generation.toNat + 1) (ht : d.HoldsAll a.first (tableBlocks a.table))
    (hc : d.cached ((1 - st.opened.copy : Fin 2) : Nat) = (a.superblock sha256 n).encode sha256) :
    Inv sha256 n (d.flush fun _ => true) (a.state sha256 n st) [] := by
  have hfirst : (a.state sha256 n st).opened.tableExtent = ⟨a.first, TABLE_BLOCKS⟩ := by
    simp [Attempt.state, Opened.tableExtent, Attempt.superblock, superblockOf, toNat_first hn ha.sound.own_fits]
  refine ⟨⟨?_, ?_, ?_, ?_, ha.files.flush⟩, ?_, fun a ha => absurd ha not_mem_nil⟩
  · rw [hfirst]
    rfl
  · have hh := Disk.holds_flush (d := d) (b := ((1 - st.opened.copy : Fin 2) : Nat))
    rw [hc] at hh
    exact hh
  · rw [hfirst]
    exact ht.flush
  · rw [hfirst]
    exact ha.sound
  · intro v hv
    have hback : (1 - (a.state sha256 n st).opened.copy : Fin 2) = st.opened.copy := by
      change (1 - (1 - st.opened.copy) : Fin 2) = st.opened.copy
      generalize st.opened.copy = c
      revert c
      decide
    rw [hback] at hv
    have hv' := Disk.May.eq_of_holds h.stands.held (Disk.may_flush hv)
    left
    intro sb hsb
    have hblocks : st.opened.superblock.blocks = ofNat n := by
      rw [h.stands.superblock]
      rfl
    rw [hv', ← hblocks, decode_encode] at hsb
    have hsb' := Except.ok.inj hsb
    have hgen : sb.generation = st.table.generation := by
      rw [← hsb', h.stands.superblock]
      rfl
    rw [hgen]
    change st.table.generation.toNat < a.table.generation.toNat
    omega

theorem superAt_encode (hc : m c = sb.encode sha256) (hb : sb.blocks = ofNat n) :
    superAt sha256 (fun b => some (m b)) (ofNat n) c = some sb := by
  unfold superAt
  dsimp only
  rw [hc, ← hb, decode_encode]
  rfl

theorem superAt_eq_some
    (h : superAt sha256 (fun b => some (m b)) (ofNat n) c = some sb) :
    decode sha256 (m c) (ofNat n) = .ok sb := by
  unfold superAt at h
  dsimp only at h
  cases hd : decode sha256 (m c) (ofNat n) with
  | error e =>
    rw [hd] at h
    cases h
  | ok sb' =>
    rw [hd] at h
    exact congrArg Except.ok (Option.some.inj h)

theorem Stands.found (hn : n < 2 ^ 61) (h : Stands sha256 n d st) (hm : d.Survives (torn sha256) m) :
    superAt sha256 (fun b => some (m b)) (ofNat n) st.opened.copy = some st.opened.superblock ∧
      load sha256 (fun b => some (m b)) st.opened.superblock = some st.table ∧
      st.opened.superblock.generation = st.table.generation := by
  have hsb := h.superblock
  have hfound := superAt_encode ((hm st.opened.copy).eq_of_holds h.held)
    (by rw [hsb]; rfl : st.opened.superblock.blocks = ofNat n)
  have hread := readTable_of_blocks fun i hi => h.table.survives hm hi
  have hload : load sha256 (fun b => some (m b))
      (superblockOf sha256 (ofNat n) st.table st.opened.tableExtent.first) = some st.table :=
    (load_superblockOf hn h.sound hread fun _ => rfl).trans (if_pos rfl)
  refine ⟨hfound, ?_, ?_⟩
  · rw [hsb, hload]
  · rw [hsb]
    rfl

/-- The copy that is not in use has nothing good or is older. -/
theorem Stands.openStore_older (hn : n < 2 ^ 61) (h : Stands sha256 n d st) (hm : d.Survives (torn sha256) m)
    (hold : ∀ sb, superAt sha256 (fun b => some (m b)) (ofNat n) (1 - st.opened.copy) = some sb →
      sb.generation < st.table.generation) :
    openStore sha256 (fun b => some (m b)) (ofNat n) = .store st.opened st.table := by
  obtain ⟨hfound, hload, hgen⟩ := h.found hn hm
  unfold Commit.openStore
  rw [choose_of_older hfound hload fun sb hsb => hgen ▸ hold sb hsb]

/-- The copy that is not in use has the superblock of a newer attempt: the attempt when its table is whole. -/
theorem Stands.openStore_newer (hn : n < 2 ^ 61) (h : Stands sha256 n d st) (hm : d.Survives (torn sha256) m)
    (ha : a.table.Sound n ⟨a.first, TABLE_BLOCKS⟩) (hlt : st.table.generation < a.table.generation)
    (hv : m ((1 - st.opened.copy : Fin 2) : Nat) = (a.superblock sha256 n).encode sha256) {b : Bytes}
    (hb : readTable (fun b => some (m b)) a.first = some b) (hsha : sha256 b = sha256 a.table.bytes → b = a.table.bytes) :
    openStore sha256 (fun b => some (m b)) (ofNat n) =
      if b = a.table.bytes then .store (a.state sha256 n st).opened a.table else .store st.opened st.table := by
  obtain ⟨hfound, hload, hgen⟩ := h.found hn hm
  have hother := superAt_encode hv (rfl : (a.superblock sha256 n).blocks = ofNat n)
  unfold Commit.openStore
  rw [choose_of_newer hfound hload hother (hgen ▸ hlt), Attempt.superblock, load_superblockOf hn ha hb hsha]
  by_cases hbytes : b = a.table.bytes
  · rw [if_pos hbytes, if_pos hbytes]
    rfl
  · rw [if_neg hbytes, if_neg hbytes]
    rfl

/-- **A start after a loss of power finds the state, or a newer doubt whose table is whole.** -/
theorem Inv.openStore (hn : n < 2 ^ 61) (h : Inv sha256 n d st doubts) (hm : d.Survives (torn sha256) m)
    (hsha : ∀ a ∈ doubts, st.table.generation < a.table.generation →
      ∀ b, readTable (fun b => some (m b)) a.first = some b → sha256 b = sha256 a.table.bytes → b = a.table.bytes) :
    openStore sha256 (fun b => some (m b)) (ofNat n) = .store st.opened st.table ∨
      ∃ a ∈ doubts, st.table.generation < a.table.generation ∧
        openStore sha256 (fun b => some (m b)) (ofNat n) = .store (a.state sha256 n st).opened a.table := by
  rcases h.other _ (hm ((1 - st.opened.copy : Fin 2) : Nat)) with hold | ⟨a, ha, hv⟩
  · exact .inl (h.stands.openStore_older hn hm fun sb hsb => hold sb (superAt_eq_some hsb))
  have hw := h.whole a ha
  rcases hw.generation with hnext | hold
  · have hlt : st.table.generation < a.table.generation := by
      rw [lt_iff_toNat_lt]
      omega
    have hb := readTable_some m a.first
    rw [h.stands.openStore_newer hn hm hw.sound hlt hv hb (hsha a ha hlt _ hb)]
    split
    · exact .inr ⟨a, ha, hlt, rfl⟩
    · exact .inl rfl
  · left
    refine h.stands.openStore_older hn hm ?_
    intro sb hsb
    rw [superAt_encode hv (rfl : (a.superblock sha256 n).blocks = ofNat n)] at hsb
    obtain rfl := Option.some.inj hsb
    exact hold

/-! ## Rules for the operations -/

section Rules
open Program.Prog

/-- A device of `n` blocks whose disk is in `P`. -/
def On (n : Nat) (P : Disk Block → Prop) (d : Device) : Prop := d.blocks = n ∧ P d.disk

variable {P Q : Disk Block → Prop} {E : Stop → Device → Prop}

/-- The device stopped a write or a flush: the power went, or it reported a failure. -/
def Broke (e : Stop) : Prop := e = .lost ∨ e = .io

theorem writeBlocks_triple (first : Nat) (vs : List Block)
    (hP : ∀ d i (hi : i < vs.length), P d → P (d.write (first + i) vs[i])) :
    Triple (On n P) (writeBlocks first vs)
      (fun _ d => first + vs.length ≤ n ∧ On n (fun d => P d ∧ d.CachedAll first vs) d)
      (fun e d => Broke e ∧ On n P d) := by
  rintro dev ⟨hn, hd⟩
  unfold writeBlocks
  split
  · exact ⟨.inr rfl, hn, hd⟩
  next hle =>
  split
  · exact ⟨.inl rfl, hn, hd⟩
  · exact ⟨hn ▸ Nat.not_lt.1 hle, hn, Disk.writeAll_induction hP hd, Disk.cachedAll_writeAll⟩
  · exact ⟨.inr rfl, hn, Disk.writeAll_induction hP hd⟩

theorem flush_triple (hP : ∀ d took, P d → P (d.flush took)) (hQ : ∀ d, P d → Q (d.flush fun _ => true)) :
    Triple (On n P) flush (fun _ => On n Q) (fun e d => Broke e ∧ On n P d) := by
  rintro dev ⟨hn, hd⟩
  unfold Commit.flush
  split
  · exact ⟨.inl rfl, hn, hd⟩
  · exact ⟨hn, hQ _ hd⟩
  · exact ⟨.inr rfl, hn, hP _ _ hd⟩

theorem diskBlocks_bind {α : Type} {R : α → Device → Prop} {k : UInt64 → Prog α} (h : Triple (On n P) (k (ofNat n)) R E) :
    Triple (On n P) (diskBlocks >>= k) R E := by
  intro dev hd
  have hk := h dev hd
  rw [← hd.1] at hk
  exact hk

/-- A refused layer is the only way `attach` stops; the disk is as it was. -/
theorem attach_triple :
    Triple (On n P) attach (fun _ => On n P) (fun e d => (∃ code, e = .attach code) ∧ On n P d) := by
  rintro dev ⟨hn, hd⟩
  unfold Commit.attach
  split
  · exact ⟨hn, hd⟩
  · exact ⟨hn, hd⟩
  · exact ⟨⟨_, rfl⟩, hn, hd⟩

theorem undo_triple :
    Triple (On n P) (undo change) (fun _ => On n P) E := by
  refine Triple.each fun _ _ => ?_
  exact attach_triple.onStop fun e => Triple.pure fun s hs => hs.2

theorem layers_triple :
    Triple (On n P) (layers change) (fun _ => On n P) (fun e d => (∃ code, e = .attach code) ∧ On n P d) := by
  unfold layers
  split
  · refine Triple.each fun _ _ => ?_
    refine attach_triple.onStop fun e => ?_
    have hu : Triple (fun d => (∃ code, e = .attach code) ∧ On n P d) (undo change)
        (fun _ d => (∃ code, e = .attach code) ∧ On n P d)
        (fun e d => (∃ code, e = .attach code) ∧ On n P d) :=
      (undo_triple (E := fun _ _ => False)).and_const.conseq (fun _ h => h) (fun _ _ h => h) fun _ _ h => h.2.elim
    exact hu.bind fun _ => Triple.stop fun s hs => hs
  · exact Triple.pure fun s hs => hs

theorem writeTable_triple
    (hP : ∀ d b v, first ≤ b → b < first + TABLE_BLOCKS → P d → P (d.write b v))
    (hF : ∀ d took, P d → P (d.flush took)) :
    Triple (On n P) (writeTable t first)
      (fun _ d => first + TABLE_BLOCKS ≤ n ∧ On n (fun d => P d ∧ d.HoldsAll first (tableBlocks t)) d)
      (fun e d => Broke e ∧ On n P d) := by
  -- before round `i` the first `i` blocks of the table are in the cache
  let I : Nat → Disk Block → Prop := fun i d => P d ∧ ∀ j, j < i →
    first + j < n ∧ d.cached (first + j) = slice t.bytes (BLOCK * j) BLOCK
  have hloop : Triple (On n (I 0)) (each
      (fun i => write (first + i) (slice t.bytes (BLOCK * i) BLOCK)) (range TABLE_BLOCKS))
      (fun _ => On n (I TABLE_BLOCKS)) (fun e d => Broke e ∧ On n P d) := by
    refine Triple.eachRange (I := fun i => On n (I i)) fun i hi => ?_
    refine (writeBlocks_triple (first + i) [slice t.bytes (BLOCK * i) BLOCK] ?_).conseq
      (fun _ h => h) ?_ ?_
    · rintro d k hk ⟨hd, hc⟩
      obtain rfl : k = 0 := by simpa using hk
      refine ⟨hP d _ _ (by omega) (by omega) hd, ?_⟩
      intro j hj
      rw [Disk.cached_write_of_ne (by omega)]
      exact hc j hj
    · rintro _ dev ⟨hle, hn, ⟨hd, hc⟩, hnew⟩
      refine ⟨hn, hd, ?_⟩
      intro j hj
      rcases Nat.lt_succ_iff_lt_or_eq.1 hj with hj | rfl
      · exact hc j hj
      · exact ⟨hle, hnew 0 (by simp)⟩
    · rintro e dev ⟨he, hn, hd, -⟩
      exact ⟨he, hn, hd⟩
  have hflush : Triple (On n (I TABLE_BLOCKS)) flush
      (fun _ d => first + TABLE_BLOCKS ≤ n ∧ On n (fun d => P d ∧ d.HoldsAll first (tableBlocks t)) d)
      (fun e d => Broke e ∧ On n P d) := by
    refine Triple.conseq (flush_triple
      (Q := fun d => first + TABLE_BLOCKS ≤ n ∧ P d ∧ d.HoldsAll first (tableBlocks t)) ?_ ?_) (fun _ h => h) ?_ ?_
    · rintro d took ⟨hd, hc⟩
      exact ⟨hF d took hd, fun j hj => ⟨(hc j hj).1, Disk.cached_flush.trans (hc j hj).2⟩⟩
    · rintro d ⟨hd, hc⟩
      have hlast := (hc 4 (by decide)).1
      refine ⟨by unfold TABLE_BLOCKS; omega, hF d _ hd, Disk.CachedAll.holdsAll ?_⟩
      intro i hi
      rw [(hc i hi).2]
      exact (getElem_blocks _).symm
    · rintro _ dev ⟨hn, hle, hd⟩
      exact ⟨hle, hn, hd⟩
    · rintro e dev ⟨he, hn, hd, -⟩
      exact ⟨he, hn, hd⟩
  refine Triple.conseq (hloop.bind fun _ => hflush) ?_ (fun _ _ h => h) (fun _ _ h => h)
  rintro dev ⟨hn, hd⟩
  exact ⟨hn, hd, fun j hj => absurd hj (Nat.not_lt_zero j)⟩

/-- The write of a superblock and its flush. -/
theorem writeSuper_rule (sha256 : Bytes → Digest) (sb : Superblock) (hW : ∀ d, P d → P (d.write c (sb.encode sha256)))
    (hF : ∀ d took, P d → P (d.flush took))
    (hQ : ∀ d, P d → d.cached c = sb.encode sha256 → Q (d.flush fun _ => true)) :
    Triple (On n P) (writeSuper sha256 c sb) (fun _ => On n Q) (fun e d => Broke e ∧ On n P d) := by
  refine Triple.bind (Q := fun _ => On n fun d => P d ∧ d.cached c = sb.encode sha256) ?_ fun _ => ?_
  · refine (writeBlocks_triple _ [sb.encode sha256] ?_).conseq (fun _ h => h) ?_ (fun _ _ h => h)
    · intro d i hi hd
      obtain rfl : i = 0 := by simpa using hi
      exact hW d hd
    · rintro _ dev ⟨-, hn', hd, hc⟩
      exact ⟨hn', hd, hc 0 (by simp)⟩
  · refine Triple.conseq (flush_triple ?_ fun d h => hQ d h.1 h.2) (fun _ h => h) (fun _ _ h => h) ?_
    · exact fun d took h => ⟨hF d took h.1, Disk.cached_flush.trans h.2⟩
    · rintro e dev ⟨he, hn', hd, -⟩
      exact ⟨he, hn', hd⟩

/-! ## A transaction -/

/-- The next table as a job leaves it to `transact`: its records by the rules, and a file for each of them. -/
structure Ready (n : Nat) (next : Table) (files : Slot → Bytes) : Prop where
  laid : next.Laid n
  length : ∀ i, next.Used i → (files i).length = (next.record i).length.toNat

/-- The files of the next table are written, flushed or not. -/
def Written (d : Disk Block) (next : Table) (files : Slot → Bytes) : Prop :=
  ∀ i, next.Used i → d.CachedAll (next.record i).first.toNat (fileBlocks (files i))

/-- What a stopped transaction leaves: only at the superblock does it leave more than the state it found. -/
def Left (sha256 : Bytes → Digest) (n : Nat) (st : State) (doubts : List Attempt) (next : Table)
    (files : Slot → Bytes) (e : Stop) (d : Disk Block) : Prop :=
  (e ≠ .superIo ∧ Inv sha256 n d st doubts) ∨
    (e = .superIo ∨ e = .lost) ∧ ∃ first, freeTableExtent st.table next st.opened = some first ∧
      Inv sha256 n d st (⟨first, next, files⟩ :: doubts) ∧ d.HoldsAll first (tableBlocks next)

/-- The disk after a superblock that was written and flushed: the attempt is the state when it is a generation on. -/
def Made (sha256 : Bytes → Digest) (n : Nat) (st : State) (doubts : List Attempt) (a : Attempt) (d : Disk Block) : Prop :=
  Inv sha256 n d st (a :: doubts) ∧
    (a.table.generation.toNat = st.table.generation.toNat + 1 → Inv sha256 n d (a.state sha256 n st) [])

/-- The write of the superblock and its flush: the state is the attempt, or the attempt is a doubt. -/
theorem writeSuper_triple (hn : n < 2 ^ 61) (st : State) (doubts : List Attempt) (a : Attempt) :
    Triple (On n fun d => Inv sha256 n d st doubts ∧ Whole n d st a ∧ d.HoldsAll a.first (tableBlocks a.table))
      (writeSuper sha256 (1 - st.opened.copy) (a.superblock sha256 n)) (fun _ => On n (Made sha256 n st doubts a))
      (fun e d => Broke e ∧
        On n (fun d => Inv sha256 n d st (a :: doubts) ∧ d.HoldsAll a.first (tableBlocks a.table)) d) := by
  have hrule := writeSuper_rule (n := n) (c := 1 - st.opened.copy) sha256 (a.superblock sha256 n)
    (P := fun d => Inv sha256 n d st (a :: doubts) ∧ d.HoldsAll a.first (tableBlocks a.table))
    (Q := Made sha256 n st doubts a) ?_ (fun d took h => ⟨h.1.flush, h.2.flush⟩) ?_
  · refine hrule.conseq ?_ (fun _ _ h => h) (fun _ _ h => h)
    rintro dev ⟨hn', hd, hw, ht⟩
    exact ⟨hn', hd.cons hw, ht⟩
  · rintro d ⟨hd, ht⟩
    refine ⟨hd.doubt mem_cons_self, ht.write ?_⟩
    have h1 : SUPERS ≤ a.first := (hd.whole a mem_cons_self).sound.own_fits.1
    have h2 : ((1 - st.opened.copy : Fin 2) : Nat) < SUPERS := (1 - st.opened.copy).2
    omega
  · rintro d ⟨hd, ht⟩ hc
    exact ⟨hd.flush, fun hg => hd.committed hn (hd.whole a mem_cons_self) hg ht hc⟩

theorem Written.flush (h : Written d next files) : Written (d.flush took) next files :=
  fun i hu => (h i hu).flush

theorem Written.kept (h : Written d next files) (hr : Ready n next files) :
    Kept (d.flush fun _ => true) next files :=
  fun i hu => ⟨hr.length i hu, (h i hu).holdsAll⟩

/-- The place of the next table: inside the disk, clear of the state and of the next records. -/
theorem freeTableExtent_spec (hn : n < 2 ^ 61) (h : Stands sha256 n d st) (hr : Ready n next files)
    (hf : freeTableExtent st.table next st.opened = some first) :
    (Extent.mk first TABLE_BLOCKS).Fits n ∧ Apart ⟨first, TABLE_BLOCKS⟩ st.opened.tableExtent ∧
      (∀ i, st.table.Used i → Apart ⟨first, TABLE_BLOCKS⟩ (st.table.record i).extent) ∧
      ∀ i, next.Used i → Apart ⟨first, TABLE_BLOCKS⟩ (next.record i).extent := by
  have hblocks : st.opened.superblock.blocks.toNat = n := by
    rw [h.superblock]
    exact toNat_blocks hn
  have hs := h.sound
  have h2 : SUPERS ≤ n := by
    have h1 := hs.own_fits.1
    have h2 := hs.own_fits.2
    omega
  unfold freeTableExtent at hf
  rw [hblocks] at hf
  have hfit : ∀ e ∈ st.table.occupied st.opened.tableExtent ++ next.occupied st.opened.tableExtent,
      e.first + e.blocks ≤ n := by
    intro e he
    rcases mem_append.1 he with he | he
    · rcases Table.mem_occupied.1 he with rfl | ⟨i, hi, rfl⟩
      · exact hs.own_fits.2
      · exact (hs.fits i hi).2
    · rcases Table.mem_occupied.1 he with rfl | ⟨i, hi, rfl⟩
      · exact hs.own_fits.2
      · exact (hr.laid.fits i hi).2
  obtain ⟨hfits, hapart⟩ := findFree_spec (by unfold TABLE_BLOCKS; omega) hfit h2 hf
  refine ⟨hfits, ?_, ?_, ?_⟩
  · exact hapart _ (mem_append.2 (.inl (Table.mem_occupied.2 (.inl rfl))))
  · exact fun i hi => hapart _ (mem_append.2 (.inl (Table.mem_occupied.2 (.inr ⟨i, hi, rfl⟩))))
  · exact fun i hi => hapart _ (mem_append.2 (.inr (Table.mem_occupied.2 (.inr ⟨i, hi, rfl⟩))))

/-- What is on the disk when a transaction comes to its superblock. -/
def Prepared (sha256 : Bytes → Digest) (n : Nat) (st : State) (doubts : List Attempt) (a : Attempt)
    (d : Disk Block) : Prop :=
  Inv sha256 n d st doubts ∧ Whole n d st a ∧ d.HoldsAll a.first (tableBlocks a.table)

/-- **A transaction leaves the next state when it returns, and when it stops the state it found or, at its
superblock, a doubt.** The place it takes for its table is to be clear of the files of the doubts. -/
theorem transact_triple (hn : n < 2 ^ 61) (st : State) (doubts : List Attempt) (change : Change)
    (hr : Ready n next files) (hgen : Follows st.table next)
    (hclear : ∀ first, freeTableExtent st.table next st.opened = some first →
      ∀ a ∈ doubts, ∀ i, a.table.Used i → Apart ⟨first, TABLE_BLOCKS⟩ (a.table.record i).extent) :
    Triple (On n fun d => Inv sha256 n d st doubts ∧ Written d next files)
      (transact sha256 st.opened st.table next change)
      (fun o => On n fun d => ∃ first, freeTableExtent st.table next st.opened = some first ∧
        o = ((⟨first, next, files⟩ : Attempt).state sha256 n st).opened ∧
        Made sha256 n st doubts ⟨first, next, files⟩ d)
      (fun e => On n (Left sha256 n st doubts next files e)) := by
  have hbroke : ∀ e : Stop, Broke e → e ≠ .superIo := by
    rintro e (rfl | rfl) <;> decide
  refine Triple.bind (Q := fun _ => On n fun d => Inv sha256 n d st doubts ∧ Kept d next files) ?_ fun _ => ?_
  · refine Triple.conseq (flush_triple ?_ ?_) (fun _ h => h) (fun _ _ h => h) ?_
    · exact fun d took h => ⟨h.1.flush, h.2.flush⟩
    · exact fun d h => ⟨h.1.flush, h.2.kept hr⟩
    · rintro e dev ⟨he, hn', hd, -⟩
      exact ⟨hn', .inl ⟨hbroke e he, hd⟩⟩
  cases hfree : freeTableExtent st.table next st.opened with
  | none =>
    refine Triple.stop ?_
    rintro dev ⟨hn', hd, -⟩
    exact ⟨hn', .inl ⟨by decide, hd⟩⟩
  | some first =>
    let a : Attempt := ⟨first, next, files⟩
    let E : Stop → Device → Prop := fun e => On n (Left sha256 n st doubts next files e)
    have htable : Triple (On n fun d => Inv sha256 n d st doubts ∧ Kept d next files) (writeTable next first)
        (fun _ => On n (Prepared sha256 n st doubts a)) E := by
      refine Triple.conseq (writeTable_triple ?_ ?_) (fun _ h => h) ?_ ?_
      · rintro d b v hb1 hb2 ⟨hd, hk⟩
        obtain ⟨hfits, htab, hold, hnew⟩ := freeTableExtent_spec hn hd.stands hr hfree
        have hhas : (Extent.mk first TABLE_BLOCKS).Has b := ⟨hb1, hb2⟩
        have h2 : SUPERS ≤ first := hfits.1
        exact ⟨hd.write ⟨by omega, htab.not_has hhas, fun i hi => (hold i hi).not_has hhas,
          fun a ha i hi => (hclear first hfree a ha i hi).not_has hhas⟩,
          hk.write hr.laid fun i hi => (hnew i hi).not_has hhas⟩
      · exact fun d took h => ⟨h.1.flush, h.2.flush⟩
      · rintro _ dev ⟨-, hn', ⟨hd, hk⟩, ht⟩
        obtain ⟨hfits, -, -, hapart⟩ := freeTableExtent_spec hn hd.stands hr hfree
        exact ⟨hn', hd, ⟨hgen, ⟨hr.laid, hfits, hapart⟩, hk⟩, ht⟩
      · rintro e dev ⟨he, hn', hd, -⟩
        exact ⟨hn', .inl ⟨hbroke e he, hd⟩⟩
    have hlayers : Triple (On n (Prepared sha256 n st doubts a)) (layers change)
        (fun _ => On n (Prepared sha256 n st doubts a)) E := by
      refine layers_triple.conseq (fun _ h => h) (fun _ _ h => h) ?_
      rintro e dev ⟨⟨code, rfl⟩, hn', hd, -⟩
      exact ⟨hn', .inl ⟨Stop.noConfusion, hd⟩⟩
    have hlast : Triple (On n (Prepared sha256 n st doubts a))
        (onStop (writeSuper sha256 (1 - st.opened.copy) (a.superblock sha256 n)) fun e =>
          if e = .io then do
            if change.kind.attachFirst then undo change
            stop .superIo
          else stop e)
        (fun _ => On n (Made sha256 n st doubts a)) E := by
      let I : Disk Block → Prop := fun d => Inv sha256 n d st (a :: doubts) ∧ d.HoldsAll a.first (tableBlocks a.table)
      have hdoubt : ∀ e dev, (e = Stop.superIo ∨ e = .lost) → On n I dev → E e dev :=
        fun e dev he hI => ⟨hI.1, .inr ⟨he, first, hfree, hI.2⟩⟩
      refine Triple.onStop (writeSuper_triple hn st doubts a) fun e => ?_
      split
      next he =>
        have hstop : Triple (On n I) (stop Stop.superIo : Prog Unit) (fun _ => On n (Made sha256 n st doubts a)) E :=
          Triple.stop fun dev h => hdoubt _ dev (.inl rfl) h
        refine Triple.conseq ?_ (fun _ h => h.2) (fun _ _ h => h) (fun _ _ h => h)
        split
        · exact undo_triple.bind fun _ => hstop
        · exact hstop
      next he =>
        refine Triple.stop ?_
        rintro dev ⟨hb, hI⟩
        exact hdoubt e dev (.inr (hb.resolve_right he)) hI
    refine htable.bind fun _ => hlayers.bind fun _ => diskBlocks_bind (hlast.bind fun _ => Triple.pure ?_)
    rintro dev ⟨hn', hd⟩
    exact ⟨hn', first, rfl, rfl, hd⟩

/-! ## A new store -/

theorem record_formatted (i : Slot) : formatted.record i = Record.empty := rfl

theorem not_used_formatted (i : Slot) : ¬formatted.Used i := fun h => h rfl

theorem formatted_laid : formatted.Laid n where
  empty := fun i _ => record_formatted i
  fine := fun i hu => absurd hu (not_used_formatted i)
  repo := fun i hu => absurd hu (not_used_formatted i)
  names := fun i _ _ _ _ hu => absurd hu (not_used_formatted i)
  fits := fun i hu => absurd hu (not_used_formatted i)
  apart := fun i _ _ hu => absurd hu (not_used_formatted i)

theorem formatted_sound (hn : SUPERS + TABLE_BLOCKS ≤ n) : formatted.Sound n ⟨SUPERS, TABLE_BLOCKS⟩ :=
  ⟨formatted_laid, ⟨le_refl SUPERS, hn⟩, fun i hu => absurd hu (not_used_formatted i)⟩

/-- The state of a new store. -/
def formattedState (sha256 : Bytes → Digest) (n : Nat) : State :=
  ⟨⟨superblockOf sha256 (ofNat n) formatted SUPERS, 0⟩, formatted, fun _ => []⟩

/-- A disk on which no superblock was written: what the two blocks are is no superblock. -/
def Blank (sha256 : Bytes → Digest) (n : Nat) (d : Disk Block) : Prop :=
  ∀ c : Fin 2, ∃ v, d.Holds c v ∧ ∀ sb, decode sha256 v (ofNat n) ≠ .ok sb

/-- **`format` of a blank disk gives a store whose state is the empty table.** -/
theorem format_triple (hE : ∀ e d, E e d) :
    Triple (On n (Blank sha256 n)) (format sha256)
      (fun r d => r = ((formattedState sha256 n).opened, formatted) ∧
        On n (fun d => Inv sha256 n d (formattedState sha256 n) []) d) E := by
  have hsupers : ∀ c : Fin 2, (c : Nat) < SUPERS := fun c => c.2
  have hblank : ∀ d b v, SUPERS ≤ b → Blank sha256 n d → Blank sha256 n (d.write b v) := by
    intro d b v hb hd c
    obtain ⟨w, hw, hbad⟩ := hd c
    have hc := hsupers c
    exact ⟨w, hw.write (by omega), hbad⟩
  have hflush : ∀ d took, Blank sha256 n d → Blank sha256 n (d.flush took) := by
    intro d took hd c
    obtain ⟨w, hw, hbad⟩ := hd c
    exact ⟨w, hw.flush, hbad⟩
  -- after the table: the second copy is still no superblock, and the first one is written next
  let P : Disk Block → Prop := fun d => SUPERS + TABLE_BLOCKS ≤ n ∧ d.HoldsAll SUPERS (tableBlocks formatted) ∧
    ∃ v, d.Holds ((1 : Fin 2) : Nat) v ∧ ∀ sb, decode sha256 v (ofNat n) ≠ .ok sb
  have htable : Triple (On n (Blank sha256 n)) (writeTable formatted SUPERS) (fun _ => On n P) E := by
    refine Triple.conseq (writeTable_triple (fun d b v h1 _ hd => hblank d b v h1 hd) hflush) (fun _ h => h) ?_
      (fun e d _ => hE e d)
    rintro _ dev ⟨hle, hn', hd, ht⟩
    exact ⟨hn', hle, ht, hd 1⟩
  have hsuper := writeSuper_rule (n := n) (c := 0) sha256 (superblockOf sha256 (ofNat n) formatted SUPERS) (P := P)
    (Q := fun d => Inv sha256 n d (formattedState sha256 n) []) ?_ ?_ ?_
  · refine htable.bind fun _ => diskBlocks_bind (Triple.bind (hsuper.conseq (fun _ h => h) (fun _ _ h => h)
      fun e d _ => hE e d) fun _ => Triple.pure ?_)
    exact fun dev hd => ⟨rfl, hd⟩
  · rintro d ⟨hle, ht, v, hv, hbad⟩
    exact ⟨hle, ht.write (.inl (by decide)), v, hv.write (by decide), hbad⟩
  · rintro d took ⟨hle, ht, v, hv, hbad⟩
    exact ⟨hle, ht.flush, v, hv.flush, hbad⟩
  · rintro d ⟨hle, ht, v, hv, hbad⟩ hc
    refine ⟨⟨rfl, ?_, ht.flush, formatted_sound hle, fun i hu => absurd hu (not_used_formatted i)⟩, ?_,
      fun a ha => absurd ha not_mem_nil⟩
    · have hh := Disk.holds_flush (d := d) (b := ((0 : Fin 2) : Nat))
      rw [hc] at hh
      exact hh
    · intro w hw
      obtain rfl := Disk.May.eq_of_holds hv.flush hw
      exact .inl fun sb' hsb' => absurd hsb' (hbad sb')

end Rules

/-! ## A device that does what it is told -/

section Progress
variable {dev : Device} {fs : List Fate} {copy : Fin 2} {o : Opened}

theorem writeBlocks_done {vs : List Block} (hf : dev.fates = .done :: fs)
    (hle : first + vs.length ≤ dev.blocks) :
    writeBlocks first vs dev =
      (.ok (), { dev with disk := dev.disk.writeAll (fun _ => true) first vs, fates := fs }) := by
  unfold writeBlocks
  rw [if_neg (Nat.not_lt.2 hle), hf]

theorem write_done (hf : dev.fates = .done :: fs) (hb : b < dev.blocks) :
    write b v dev = (.ok (), { dev with disk := dev.disk.write b v, fates := fs }) :=
  writeBlocks_done hf hb

theorem flush_done (hf : dev.fates = .done :: fs) :
    flush dev = (.ok (), { dev with disk := dev.disk.flush fun _ => true, fates := fs }) := by
  unfold Commit.flush
  rw [hf]

/-- The disk once a table is written and flushed. -/
def withTable (d : Disk Block) (first : Nat) (t : Table) : Disk Block :=
  (d.writeAll (fun _ => true) first (tableBlocks t)).flush fun _ => true

theorem eachWrite_done (first k i : Nat) (f : Nat → Block)
    (hf : dev.fates = replicate k .done ++ fs) (hle : first + i + k ≤ dev.blocks) :
    each (fun j => write (first + j) (f j)) (range' i k) dev =
      (.ok (), { dev with
        disk := dev.disk.writeAll (fun _ => true) (first + i) ((range' i k).map f), fates := fs }) := by
  induction k generalizing i dev with
  | zero =>
    obtain ⟨disk, sectors, fates, answers⟩ := dev
    obtain rfl : fates = fs := hf
    rfl
  | succ k ih =>
    have hw := write_done (b := first + i) (v := f i) hf (by omega)
    have hle' : first + (i + 1) + k ≤ dev.blocks := by omega
    refine (bind_ok hw).trans ((ih (i + 1) rfl (by exact hle')).trans ?_)
    rfl

theorem writeTable_done (hf : dev.fates = replicate 6 .done ++ fs)
    (hle : first + TABLE_BLOCKS ≤ dev.blocks) :
    writeTable t first dev = (.ok (), { dev with disk := withTable dev.disk first t, fates := fs }) := by
  have hf' : dev.fates = replicate TABLE_BLOCKS .done ++ (.done :: fs) := hf
  have hloop := eachWrite_done first TABLE_BLOCKS 0 (fun i => slice t.bytes (BLOCK * i) BLOCK) hf' hle
  exact (bind_ok hloop).trans (flush_done rfl)

theorem writeSuper_done (hf : dev.fates = .done :: .done :: fs)
    (hle : SUPERS ≤ dev.blocks) :
    writeSuper sha256 copy sb dev =
      (.ok (), { dev with disk := (dev.disk.write copy (sb.encode sha256)).flush fun _ => true, fates := fs }) := by
  have hc : (copy : Nat) < SUPERS := copy.2
  exact (bind_ok (write_done hf (by omega))).trans (flush_done rfl)

theorem writeSuper_failed
    (hf : dev.fates = .done :: .failed took :: fs) (hle : SUPERS ≤ dev.blocks) :
    writeSuper sha256 copy sb dev =
      (.error .io, { dev with disk := (dev.disk.write copy (sb.encode sha256)).flush took, fates := fs }) := by
  have hc : (copy : Nat) < SUPERS := copy.2
  exact (bind_ok (write_done hf (by omega))).trans rfl

/-- **`format` of a device that does what it is told returns.** -/
theorem format_done (sha256 : Bytes → Digest) (hf : dev.fates = replicate 8 .done ++ fs)
    (hle : SUPERS + TABLE_BLOCKS ≤ dev.blocks) :
    format sha256 dev = (.ok (⟨superblockOf sha256 (ofNat dev.blocks) formatted SUPERS, 0⟩, formatted),
      { dev with
        disk := ((withTable dev.disk SUPERS formatted).write 0
          ((superblockOf sha256 (ofNat dev.blocks) formatted SUPERS).encode sha256)).flush fun _ => true,
        fates := fs }) := by
  have hsupers : SUPERS ≤ dev.blocks := by omega
  have hf' : dev.fates = replicate 6 .done ++ (.done :: .done :: fs) := hf
  refine (bind_ok (writeTable_done hf' hle)).trans ?_
  exact (bind_ok (writeSuper_done rfl (by exact hsupers))).trans rfl

theorem layers_done (ha : dev.answers = []) : layers change dev = (.ok (), dev) := by
  have hattach : attach dev = (.ok (), dev) := by
    unfold attach
    rw [ha]
  have heach : ∀ l : List Nat, each (fun _ => onStop attach fun e => do
      undo change
      stop e) l dev = (.ok (), dev) := by
    intro l
    induction l with
    | nil => rfl
    | cons x l ih =>
      exact (bind_ok (onStop_ok hattach)).trans ih
  unfold layers
  split
  · exact heach _
  · rfl

/-- A transaction up to its superblock. -/
theorem transact_upto
    (hf : dev.fates = replicate 7 .done ++ fs) (ha : dev.answers = [])
    (hfree : freeTableExtent t next o = some first) (hle : first + TABLE_BLOCKS ≤ dev.blocks) :
    transact sha256 o t next change dev =
      (onStop
          (writeSuper sha256 (1 - o.copy) (superblockOf sha256 (ofNat dev.blocks) next first)) (fun e =>
            if e = .io then do
              if change.kind.attachFirst then undo change
              stop .superIo
            else stop e) >>= fun _ =>
        pure ⟨superblockOf sha256 (ofNat dev.blocks) next first, 1 - o.copy⟩)
        { dev with disk := withTable (dev.disk.flush fun _ => true) first next, fates := fs } := by
  have hf' : dev.fates = .done :: (replicate 6 .done ++ fs) := hf
  refine (bind_ok (flush_done hf')).trans ?_
  rw [hfree]
  refine (bind_ok (writeTable_done rfl (by exact hle))).trans ?_
  exact (bind_ok (layers_done (by exact ha))).trans rfl

/-- **A transaction on a device that does what it is told returns.** -/
theorem transact_done (sha256 : Bytes → Digest) (change : Change)
    (hf : dev.fates = replicate 9 .done ++ fs) (ha : dev.answers = [])
    (hfree : freeTableExtent t next o = some first) (hle : first + TABLE_BLOCKS ≤ dev.blocks)
    (hs : SUPERS ≤ dev.blocks) :
    transact sha256 o t next change dev =
      (.ok ⟨superblockOf sha256 (ofNat dev.blocks) next first, 1 - o.copy⟩,
        { dev with
          disk := ((withTable (dev.disk.flush fun _ => true) first next).write ((1 - o.copy : Fin 2) : Nat)
            ((superblockOf sha256 (ofNat dev.blocks) next first).encode sha256)).flush fun _ => true,
          fates := fs }) := by
  have hf' : dev.fates = replicate 7 .done ++ (.done :: .done :: fs) := hf
  refine (transact_upto hf' ha hfree hle).trans ?_
  exact (bind_ok (onStop_ok (writeSuper_done rfl (by exact hs)))).trans rfl

/-- A transaction whose last flush reports a failure. -/
theorem transact_failed (sha256 : Bytes → Digest)
    (hf : dev.fates = replicate 8 .done ++ (.failed took :: fs)) (ha : dev.answers = [])
    (hd : change.detach = 0) (hfree : freeTableExtent t next o = some first) (hle : first + TABLE_BLOCKS ≤ dev.blocks)
    (hs : SUPERS ≤ dev.blocks) :
    transact sha256 o t next change dev =
      (.error .superIo,
        { dev with
          disk := ((withTable (dev.disk.flush fun _ => true) first next).write ((1 - o.copy : Fin 2) : Nat)
            ((superblockOf sha256 (ofNat dev.blocks) next first).encode sha256)).flush took,
          fates := fs }) := by
  have hf' : dev.fates = replicate 7 .done ++ (.done :: .failed took :: fs) := hf
  refine (transact_upto hf' ha hfree hle).trans ?_
  refine bind_error ?_
  refine (onStop_error (writeSuper_failed rfl (by exact hs))).trans ?_
  rw [if_pos rfl, undo, hd]
  split <;> rfl

end Progress

end

end Commit
