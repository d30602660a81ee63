import Stafeto.Pkgd.Commit
import Stafeto.Pkgd.Plans

/-!
# The jobs of the package service and what a loss of power leaves (pkgd/src/jobs.rs)

The worker takes one job at a time: the receipt of the packages of a group, a removal, a serial, the flag "world", a
settings blob, a list of revocations. A job writes its data into an extent it chose from the accepted table, and
`commit::transact` makes the next table the state. `exec` runs one job over a device whose power may go at any
operation and whose operations may report a failure; `run` runs a list of them and keeps the transactions tried.

Beside the state the worker keeps, `Service` has the bytes written for each record and the doubts: the transactions
whose superblock failed since the state was accepted. `SInv` holds between jobs, and the two theorems about runs say
what a start after a loss of power finds.
-/

namespace Jobs

open ByteStr Pkgfmt Store CrashDisk Program Commit Plans Function List

/-- The worker's state (worker.rs:579, shared.rs). -/
structure Service where
  device : Device
  opened : Opened
  table : Table
  group : Group
  /-- A write of the data failed: the commit answers it. -/
  failed : Bool
  /-- The bytes written for each record of the table. -/
  files : Slot → Bytes
  /-- The transactions since the state whose superblock failed. -/
  doubts : List Attempt

def Service.state (s : Service) : State := ⟨s.opened, s.table, s.files⟩

/-- The label of a session, which is not 0. -/
def Label : Type := { label : UInt64 // label ≠ 0 }

/-- A job (shared.rs:97) and the receipt's traffic between jobs. What the rest of the service answers comes with it:
whether memory was there, whether the check of the file passed, what refused a blob. -/
inductive Job where
  | begin (owner : Label) (name version : Bytes) (size : UInt64) (sha256 : Digest) (repo : Bytes) (world memory : Bool)
  /-- FEED: bytes of the client into the object of the receipt. -/
  | feed (bytes : Bytes)
  /-- One write of the worker: the next `blocks` whole blocks of the receipt. -/
  | pump (blocks : Nat)
  | commit (owner : Label) (number : UInt32) (last : Bool)
  | cancel
  | remove (entries images : List Entry) (names : List Bytes)
  | serial (repository : Bytes) (number : UInt64)
  | world (images : List Entry) (name : Bytes) (world : Bool)
  | settings (blob : Bytes) (refused : Option Code) (attached : Bool)
  | revoked (list : Bytes) (refused : Option Code) (serial : UInt64) (flags : Slot → Bool)

/-- How a job ended: with code 0, with another code, or with the power. -/
inductive Reply where
  | done
  | refused (code : Code)
  | lost
  deriving DecidableEq

/-- The code of a transaction (jobs.rs:401). -/
def Reply.of : Option Stop → Reply
  | none => .done
  | some .lost => .lost
  | some .io | some .superIo => .refused .io
  | some .noSpace => .refused .noSpace
  | some (.attach code) => .refused code

/-- A transaction that was tried: the table and the files of the next state, and where it stopped. -/
structure Tried where
  table : Table
  files : Slot → Bytes
  stop : Option Stop

/-- What a job does to the store: a blob to write first, and then a refusal, nothing, or a next state. -/
structure Plan where
  blob : Option (Nat × Bytes)
  next : Except Code (Option (Table × (Slot → Bytes) × Change))

def SETTINGS_MAX : Nat := 65536
def SIG_BLOCK : Nat := 456
def REVOKED_MAX : Nat := 16840
/-- The blocks of a cell of the buffer. -/
def CELL_BLOCKS : Nat := 4

section
variable (sha256 : Bytes → Digest) (parse : Bytes → Option Meta) (refusal : Bytes → Record → Option Code)

/-- `extent_for` (jobs.rs:51). -/
def extentFor (s : Service) (blocks : Nat) : Option Nat :=
  findFree (s.table.occupied s.opened.tableExtent) [] s.device.blocks blocks

/-- A blob of `length` bytes at `first`. -/
def blobExtent (first length : Nat) : Extent := ⟨first, (length + (BLOCK - 1)) / BLOCK⟩

/-- The writes of `write_blob` (jobs.rs:547-555): a cell at a time. -/
def writeBlob (first : Nat) (bytes : Bytes) : Prog Unit :=
  Program.Prog.each
    (fun i => writeBlocks (first + CELL_BLOCKS * i) (((fileBlocks bytes).drop (CELL_BLOCKS * i)).take CELL_BLOCKS))
    (range (((fileBlocks bytes).length + (CELL_BLOCKS - 1)) / CELL_BLOCKS))

/-- What a job that is one transaction does, when no group holds the store (jobs.rs:437-722). -/
def planOf (s : Service) : Job → Except Code Plan
  | .remove entries images names =>
    match remove s.table entries images names with
    | .error code => .ok ⟨none, .error code⟩
    | .ok (slots, t) => .ok ⟨none, .ok (some (t, s.files, ⟨.remove, slots.length, 0⟩))⟩
  | .serial repository number =>
    match serial s.table repository number with
    | .error code => .ok ⟨none, .error code⟩
    | .ok none => .ok ⟨none, .ok none⟩
    | .ok (some t) => .ok ⟨none, .ok (some (t, s.files, ⟨.serial, 0, 0⟩))⟩
  | .world images name world =>
    match Plans.world s.table images name world with
    | .error code => .ok ⟨none, .error code⟩
    | .ok none => .ok ⟨none, .ok none⟩
    | .ok (some (_, t)) => .ok ⟨none, .ok (some (t, s.files, ⟨.world, 0, 0⟩))⟩
  | .settings blob refused attached =>
    if blob.length = 0 ∨ SETTINGS_MAX < blob.length then .error .invalid
    else
      match refused, extentFor s ((blob.length + (BLOCK - 1)) / BLOCK) with
      | some code, _ => .error code
      | none, none => .error .noSpace
      | none, some first =>
        let t := settings s.table (blobExtent first blob.length) blob.length (sha256 blob)
        .ok ⟨some (first, blob), .ok (some (t, update s.files SETTINGS_SLOT blob,
          ⟨.settings, if attached then 1 else 0, 1⟩))⟩
  | .revoked list refused serial flags =>
    if list.length ≤ SIG_BLOCK ∨ REVOKED_MAX < list.length then .error .invalid
    else
      match refused, extentFor s ((list.length + (BLOCK - 1)) / BLOCK) with
      | some code, _ => .error code
      | none, none => .error .noSpace
      | none, some first =>
        match revoked s.table (blobExtent first list.length) list.length (sha256 list) serial flags with
        | .error code => .ok ⟨some (first, list), .error code⟩
        | .ok t => .ok ⟨some (first, list), .ok (some (t, update s.files REVOKED_SLOT list,
            ⟨.revoked, (packageSlots.filter flags).length, 0⟩))⟩
  | _ => .error .invalid

/-- The transaction to `next`, and the state `after` and `publish` leave of it (jobs.rs:401-434). -/
def apply (s : Service) (next : Table) (files : Slot → Bytes) (change : Change) : Service × Option Stop :=
  match transact sha256 s.opened s.table next change s.device with
  | (.ok opened, device) => ({ s with device, opened, table := next, files, doubts := [] }, none)
  | (.error .superIo, device) =>
    ({ s with device, doubts := ⟨(freeTableExtent s.table next s.opened).getD 0, next, files⟩ :: s.doubts },
      some .superIo)
  | (.error e, device) => ({ s with device }, some e)

/-- The blob of a plan. -/
def writePlan (plan : Plan) : Prog Unit :=
  match plan.blob with
  | none => pure ()
  | some (first, bytes) => writeBlob first bytes

/-- A plan: its blob, then its transaction. -/
def enact (s : Service) (plan : Plan) : Service × Reply × List Tried :=
  match writePlan plan s.device with
  | (.error .lost, device) => ({ s with device }, .lost, [])
  | (.error _, device) => ({ s with device }, .refused .io, [])
  | (.ok (), device) =>
    let s := { s with device }
    match plan.next with
    | .error code => (s, .refused code, [])
    | .ok none => (s, .done, [])
    | .ok (some (next, files, change)) =>
      let (s, stop) := apply sha256 s next files change
      (s, .of stop, [⟨next, files, stop⟩])

/-- `drop_group` (jobs.rs:134). -/
def dropGroup (s : Service) : Service := { s with group := s.group.release, failed := false }

/-- The files of the next state of a group. -/
def groupFiles (files : Slot → Bytes) (staged : List (Staged × Bytes)) : Slot → Bytes :=
  staged.foldl (fun f s => update f s.1.slot s.2) files

/-- The check of a file that was received (verify.rs:109-160): it is the file of the record, and the name and the
version of its `meta` are the record's; `refusal` is what the series, the signature or the manifest refuse. -/
def check (file : Bytes) (r : Record) : Option Code :=
  if sha256 file ≠ r.sha256 ∨ file.length ≠ r.length.toNat then some .badHash
  else
    match parse file with
    | none => some .badPackage
    | some m => if m.name ≠ r.nameBytes ∨ m.version ≠ r.versionBytes then some .badPackage else refusal file r

/-- The next write of the receipt: from which block of the package, and the blocks. -/
def portion (receipt : Receipt) (blocks : Nat) : Nat × List Block :=
  let first := receipt.written / BLOCK
  let count := min blocks (receipt.fed.length / BLOCK - first)
  (first, (range count).map fun i => slice receipt.fed (BLOCK * (first + i)) BLOCK)

/-- `begin` (jobs.rs:155). -/
def begin (s : Service) (owner : Label) (name version : Bytes) (size : UInt64) (sha : Digest) (repo : Bytes)
    (world memory : Bool) : Service × Reply :=
  match s.table.findRepo repo with
  | none => (s, .refused .invalid)
  | some repo =>
    match s.group.begin owner.1 s.table s.opened.tableExtent s.device.blocks ⟨name, version, size, sha, repo, world⟩ 0 with
    | .error .busy => (s, .refused .busy)
    | .error code => (dropGroup s, .refused code)
    | .ok group =>
      if memory then ({ s with group, failed := false }, .done)
      else (dropGroup { s with group }, .refused .noMemory)

/-- The end of `commit` (jobs.rs:326-382): the flush of a package that is not the last, or the transaction. -/
def commitEnd (s : Service) (last : Bool) : Service × Reply × List Tried :=
  if last then
    let next := s.group.table s.table
    let files := groupFiles s.files s.group.staged
    let change : Change := ⟨.install, (Group.detached (nextOf s.table) (s.group.staged.map (·.1))).length,
      s.group.staged.length⟩
    let (s, stop) := apply sha256 s next files change
    (dropGroup s, .of stop, [⟨next, files, stop⟩])
  else
    match flush s.device with
    | (.ok (), device) => ({ s with device }, .done, [])
    | (.error .lost, device) => ({ s with device }, .lost, [])
    | (.error _, device) => (dropGroup { s with device }, .refused .io, [])

/-- `commit` (jobs.rs:274); what it writes first of the bytes that came are pumps before it. -/
def commit (s : Service) (owner : Label) (number : UInt32) (last : Bool) : Service × Reply × List Tried :=
  if s.group.owner ≠ owner.1 then (s, .refused .invalid, [])
  else if s.failed then (dropGroup s, .refused .io, [])
  else
    match s.group.opened with
    | none => (s, .refused .invalid, [])
    | some (receipt, _) =>
      if receipt.number ≠ number then (s, .refused .invalid, [])
      else
        match s.group.commit number with
        | .error code => (dropGroup s, .refused code, [])
        | .ok (group, staged, file) =>
          match check sha256 parse refusal file staged.record with
          | some code => (dropGroup { s with group }, .refused code, [])
          | none => commitEnd sha256 { s with group } last

/-- One job. -/
def exec (s : Service) : Job → Service × Reply × List Tried
  | .begin owner name version size sha repo world memory =>
    let (s, reply) := begin s owner name version size sha repo world memory
    (s, reply, [])
  | .feed bytes =>
    match s.group.opened with
    | none => (s, .refused .invalid, [])
    | some (receipt, staged) =>
      -- FEED past the size of the package drops the group (main.rs:639)
      if receipt.size < receipt.fed.length + bytes.length then (dropGroup s, .refused .tooLong, [])
      else
        let opened := some ({ receipt with fed := receipt.fed ++ bytes }, staged)
        ({ s with group := { s.group with opened } }, .done, [])
  | .pump blocks =>
    match s.group.opened with
    | none => (s, .done, [])
    | some (receipt, staged) =>
      let (first, vs) := portion receipt blocks
      if s.failed ∨ vs = [] then (s, .done, [])
      else
        match writeBlocks (staged.record.first.toNat + first) vs s.device with
        | (.ok (), device) =>
          let opened := some ({ receipt with written := receipt.written + BLOCK * vs.length }, staged)
          ({ s with device, group := { s.group with opened } }, .done, [])
        | (.error .lost, device) => ({ s with device }, .lost, [])
        | (.error _, device) => ({ s with device, failed := true }, .refused .io, [])
  | .commit owner number last => commit sha256 parse refusal s owner number last
  | .cancel => (dropGroup s, .done, [])
  | job =>
    if s.group.owner ≠ 0 then (s, .refused .busy, [])
    else
      match planOf sha256 s job with
      | .error code => (s, .refused code, [])
      | .ok plan => enact sha256 s plan

/-- The jobs one after the other until the power goes: the state left, how each job ended, the transactions tried. -/
def run (s : Service) : List Job → Service × List Reply × List Tried
  | [] => (s, [], [])
  | job :: jobs =>
    match exec sha256 parse refusal s job with
    | (s, .lost, tried) => (s, [.lost], tried)
    | (s, reply, tried) =>
      let (s, replies, more) := run s jobs
      (s, reply :: replies, tried ++ more)

/-- The service after a start that made the store (worker.rs:627-637). -/
def formattedService (opened : Opened) (device : Device) : Service :=
  ⟨device, opened, formatted, Group.new, false, fun _ => [], []⟩

/-! ## The accepted state of a run -/

/-- The state of the last transaction that returned, and the transactions tried since. -/
structure Since where
  table : Table
  files : Slot → Bytes
  tried : List Tried

def Since.add (h : Since) (x : Tried) : Since :=
  if x.stop = none then ⟨x.table, x.files, []⟩ else { h with tried := h.tried ++ [x] }

/-- From a new store. -/
def sinceOf (tried : List Tried) : Since := tried.foldl Since.add ⟨formatted, fun _ => [], []⟩

/-! ## Where a job writes -/

/-- The extent of the next table. -/
def tableTarget (s : Service) (next : Table) : List Extent :=
  ((freeTableExtent s.table next s.opened).map fun first => ⟨first, TABLE_BLOCKS⟩).toList

/-- The extents of a plan: its blob and its table. -/
def Plan.targets (s : Service) (plan : Plan) : List Extent :=
  (plan.blob.map fun b => ⟨b.1, (fileBlocks b.2).length⟩).toList ++
    match plan.next with
    | .ok (some (next, _, _)) => tableTarget s next
    | _ => []

/-- The extents a job writes: the next blocks of the receipt, a blob, the table of its transaction. -/
def targets (s : Service) : Job → List Extent
  | .pump blocks =>
    match s.group.opened with
    | none => []
    | some (receipt, staged) =>
      [⟨staged.record.first.toNat + (portion receipt blocks).1, (portion receipt blocks).2.length⟩]
  | .commit _ number _ =>
    match s.group.commit number with
    | .error _ => []
    | .ok (group, _, _) => tableTarget s (group.table s.table)
  | job =>
    match planOf sha256 s job with
    | .error _ => []
    | .ok plan => plan.targets s

/-- The job writes into no extent of a doubt's records. -/
def Clears (s : Service) (job : Job) : Prop :=
  ∀ a ∈ s.doubts, ∀ i, a.table.Used i → ∀ e ∈ targets sha256 s job, Apart e (a.table.record i).extent

/-- Each job of the run does. -/
def AllClear (s : Service) : List Job → Prop
  | [] => True
  | job :: jobs => Clears sha256 s job ∧
    match exec sha256 parse refusal s job with
    | (_, .lost, _) => True
    | (s, _, _) => AllClear s jobs

end

/-! ## What holds between jobs -/

section
variable {sha256 : Bytes → Digest} {parse : Bytes → Option Meta} {refusal : Bytes → Record → Option Code}
  {n first : Nat} {s s' : Service} {t t' : Table} {own : Extent} {d : Disk Block} {g : Group} {reply : Reply}
  {x : Staged × Bytes} {r : Receipt} {p : Staged} {change : Change} {device : Device} {file bytes : Bytes}
  {code : Except Code (Option (Table × (Slot → Bytes) × Change))} {job : Job} {plan : Plan} {number : UInt32}
  {staged : List (Staged × Bytes)} {last : Bool}

/-- A package of the group that waits: it may come, and its file is written. -/
structure Waits (n : Nat) (t : Table) (own : Extent) (d : Disk Block) (x : Staged × Bytes) : Prop where
  comes : Comes n t x.1
  own : Apart x.1.record.extent own
  length : x.2.length = x.1.record.length.toNat
  cached : d.CachedAll x.1.record.first.toNat (fileBlocks x.2)

/-- The receipt that is open: whole blocks of the bytes that came are written. -/
structure Takes (d : Disk Block) (r : Receipt) (p : Staged) : Prop where
  size : r.size = p.record.length.toNat
  fed : r.fed.length ≤ r.size
  whole : r.written % BLOCK = 0
  written : r.written ≤ r.fed.length
  cached : ∀ i, i < r.written / BLOCK → d.cached (p.record.first.toNat + i) = slice r.fed (BLOCK * i) BLOCK

/-- The group over the table `t` whose own extent is `own`. -/
structure Staging (n : Nat) (t : Table) (own : Extent) (d : Disk Block) (g : Group) : Prop where
  idle : g.owner = 0 → g.staged = [] ∧ g.opened = none
  staged : ∀ x ∈ g.staged, Waits n t own d x
  differ : (g.staged.map (·.1)).Pairwise Differ
  opens : ∀ r p, g.opened = some (r, p) → Opens n t p ∧ Apart p.record.extent own ∧ (∀ x ∈ g.staged, Differ x.1 p) ∧
    Takes d r p

/-- What of the worker's invariant is about the disk. -/
def Sits (sha256 : Bytes → Digest) (n : Nat) (s : Service) (d : Disk Block) : Prop :=
  Inv sha256 n d s.state s.doubts ∧ Staging n s.table s.opened.tableExtent d s.group

/-- **The invariant of the worker between jobs.** -/
structure SInv (sha256 : Bytes → Digest) (n : Nat) (s : Service) : Prop where
  blocks : s.device.blocks = n
  inv : Inv sha256 n s.device.disk s.state s.doubts
  laid : s.table.Laid n
  staging : Staging n s.table s.opened.tableExtent s.device.disk s.group

/-- The worker's state is the accepted one, and its doubts are among the transactions tried since. -/
structure Linked (s : Service) (h : Since) : Prop where
  table : s.table = h.table
  files : s.files = h.files
  doubts : ∀ a ∈ s.doubts, ∃ x ∈ h.tried, x.stop = some .superIo ∧ x.table = a.table ∧ x.files = a.files

/-- What the disk is when the power went. -/
structure Crashed (sha256 : Bytes → Digest) (n : Nat) (d : Disk Block) (h : Since) (st : State)
    (doubts : List Attempt) : Prop where
  table : st.table = h.table
  files : st.files = h.files
  inv : Inv sha256 n d st doubts
  doubts : ∀ a ∈ doubts, ∃ x ∈ h.tried, (x.stop = some .superIo ∨ x.stop = some .lost ∧
    d.HoldsAll a.first (tableBlocks a.table)) ∧ x.table = a.table ∧ x.files = a.files

/-- How a job that began in a good state ends; a generation that came round to 0 is left out. -/
def Ends (sha256 : Bytes → Digest) (n : Nat) (h : Since) (r : Service × Reply × List Tried) : Prop :=
  (∀ x ∈ r.2.2, x.stop = none → x.table.generation ≠ 0) →
    (r.2.1 ≠ .lost → SInv sha256 n r.1 ∧ Linked r.1 (r.2.2.foldl Since.add h)) ∧
      r.1.device.blocks = n ∧ ∃ st doubts, Crashed sha256 n r.1.device.disk (r.2.2.foldl Since.add h) st doubts

theorem SInv.crashed (hs : SInv sha256 n s) {h : Since} (hl : Linked s h) :
    Crashed sha256 n s.device.disk h s.state s.doubts := by
  refine ⟨hl.table, hl.files, hs.inv, ?_⟩
  intro a ha
  obtain ⟨x, hx, hstop, ht, hf⟩ := hl.doubts a ha
  exact ⟨x, hx, .inl hstop, ht, hf⟩

theorem Ends.plain {h : Since} (hs : SInv sha256 n s) (hl : Linked s h) :
    Ends sha256 n h (s, reply, []) :=
  fun _ => ⟨fun _ => ⟨hs, hl⟩, hs.blocks, s.state, s.doubts, hs.crashed hl⟩

open Ends

/-! ## The group -/

theorem Staging.release : Staging n t own d g.release where
  idle := fun _ => ⟨rfl, rfl⟩
  staged := fun x hx => absurd hx not_mem_nil
  differ := List.Pairwise.nil
  opens := by
    intro r p h
    cases h

theorem Staging.busy (h : Staging n t own d g) (hr : g.opened = some (r, p)) : g.owner ≠ 0 := by
  intro h0
  have hnone := (h.idle h0).2
  rw [hr] at hnone
  cases hnone

theorem Staging.flush (h : Staging n t own d g) {took : Nat → Bool} : Staging n t own (d.flush took) g where
  idle := h.idle
  staged := by
    intro x hx
    have hw := h.staged x hx
    exact ⟨hw.comes, hw.own, hw.length, hw.cached.flush⟩
  differ := h.differ
  opens := by
    intro r p hr
    obtain ⟨h1, h2, h3, h4⟩ := h.opens r p hr
    exact ⟨h1, h2, h3, h4.size, h4.fed, h4.whole, h4.written, fun i hi => Disk.cached_flush.trans (h4.cached i hi)⟩

/-- A group that is idle holds nothing, whatever the disk and the table. -/
theorem Staging.of_idle (h : Staging n t own d g) (ho : g.owner = 0) {own' : Extent} {d' : Disk Block} :
    Staging n t' own' d' g := by
  obtain ⟨hs, hr⟩ := h.idle ho
  refine ⟨fun _ => ⟨hs, hr⟩, ?_, ?_, ?_⟩
  · intro x hx
    rw [hs] at hx
    exact absurd hx not_mem_nil
  · rw [hs]
    exact List.Pairwise.nil
  · intro r p hp
    rw [hr] at hp
    cases hp

theorem length_fileBlocks_eq (h : Waits n t own d x) :
    (fileBlocks x.2).length = x.1.record.extent.blocks := by
  rw [length_fileBlocks, h.length, Record.extent, h.comes.fine.blocks]

/-- A write into the extent of the open receipt, past what is written of it, keeps the group. -/
theorem Staging.write (h : Staging n t own d g) (hr : g.opened = some (r, p)) {i : Nat}
    (hi : r.written / BLOCK ≤ i) (hlt : i < p.record.extent.blocks) (v : Block) :
    Staging n t own (d.write (p.record.first.toNat + i) v) g where
  idle := h.idle
  staged := by
    intro x hx
    have hw := h.staged x hx
    refine ⟨hw.comes, hw.own, hw.length, hw.cached.write ?_⟩
    have hapart := ((h.opens r p hr).2.2.1 x hx).2.2
    have hnot := hapart.symm.not_has ⟨Nat.le_add_right _ _, Nat.add_lt_add_left hlt _⟩
    rw [length_fileBlocks_eq hw]
    simp only [Extent.Has, Record.extent] at hnot ⊢
    omega
  differ := h.differ
  opens := by
    intro r' p' hr'
    obtain ⟨h1, h2, h3, h4⟩ := h.opens r' p' hr'
    rw [hr] at hr'
    obtain ⟨rfl, rfl⟩ := Prod.mk.inj (Option.some.inj hr')
    refine ⟨h1, h2, h3, h4.size, h4.fed, h4.whole, h4.written, ?_⟩
    intro j hj
    rw [Disk.cached_write_of_ne (by omega)]
    exact h4.cached j hj

theorem SInv.dropGroup (h : SInv sha256 n s) : SInv sha256 n (dropGroup s) :=
  ⟨h.blocks, h.inv, h.laid, Staging.release⟩

theorem Linked.dropGroup {h : Since} (hl : Linked s h) : Linked (dropGroup s) h := ⟨hl.table, hl.files, hl.doubts⟩

/-! ## Transactions -/

section
variable {h : Since} {next : Table} {files : Slot → Bytes} {fresh : Slot → Prop}

theorem generation_step (hs : Step n t t' fresh) : t'.generation.toNat = (t.generation.toNat + 1) % 2 ^ 64 := by
  rw [hs.generation]
  rfl

theorem follows_of_step (hs : Step n t t' fresh) : Follows t t' := by
  have hg := generation_step hs
  by_cases hmax : t.generation.toNat + 1 < 2 ^ 64
  · exact .inl (hg.trans (Nat.mod_eq_of_lt hmax))
  · right
    rw [UInt64.lt_iff_toNat_lt]
    omega

/-- A generation that is not 0 is the next number. -/
theorem Follows.succ (hs : Step n t t' fresh) (h0 : t'.generation ≠ 0) :
    t'.generation.toNat = t.generation.toNat + 1 := by
  have hlt := t.generation.toNat_lt
  have hg := generation_step hs
  by_cases hmax : t.generation.toNat + 1 < 2 ^ 64
  · exact hg.trans (Nat.mod_eq_of_lt hmax)
  · refine absurd (UInt64.toNat_inj.1 ?_) h0
    rw [hg]
    have heq : t.generation.toNat + 1 = 2 ^ 64 := by omega
    rw [heq]
    rfl

/-- What a job knows of the next state before its transaction: the plan is a step, an old record keeps its file, and
the file of a new one is written. -/
structure Next (n : Nat) (s : Service) (d : Disk Block) (next : Table) (files : Slot → Bytes) : Prop where
  step : ∃ fresh, Step n s.table next fresh ∧ (∀ i, next.Used i → ¬fresh i → files i = s.files i) ∧
    ∀ i, next.Used i → fresh i → (files i).length = (next.record i).length.toNat ∧
      d.CachedAll (next.record i).first.toNat (fileBlocks (files i))
  clear : ∀ first, freeTableExtent s.table next s.opened = some first →
    ∀ a ∈ s.doubts, ∀ i, a.table.Used i → Apart ⟨first, TABLE_BLOCKS⟩ (a.table.record i).extent

theorem Next.ready (hx : Next n s d next files) (hk : Kept d s.table s.files) :
    Ready n next files ∧ Written d next files := by
  obtain ⟨fresh, hs, hold, hnew⟩ := hx.step
  refine ⟨⟨hs.laid, ?_⟩, ?_⟩
  · intro i hi
    by_cases hf : fresh i
    · exact (hnew i hi hf).1
    · obtain ⟨h1, -, h3⟩ := hs.kept i hi hf
      rw [hold i hi hf, h3]
      exact (hk i h1).1
  · intro i hi
    by_cases hf : fresh i
    · exact (hnew i hi hf).2
    · obtain ⟨h1, h2, -⟩ := hs.kept i hi hf
      have hfirst : (next.record i).first.toNat = (s.table.record i).first.toNat := congrArg Extent.first h2
      rw [hold i hi hf, hfirst]
      exact (hk i h1).2.cachedAll

/-- The doubts are among the transactions tried, with one more at the end too. -/
theorem Linked.more (hl : Linked s h) (x : Tried) : ∀ a ∈ s.doubts, ∃ y ∈ h.tried ++ [x],
    y.stop = some .superIo ∧ y.table = a.table ∧ y.files = a.files := by
  intro a ha
  obtain ⟨y, hy, h1, h2, h3⟩ := hl.doubts a ha
  exact ⟨y, mem_append_left _ hy, h1, h2, h3⟩

/-- The state of the worker after the transaction `change` to `next`, and where it stopped. -/
inductive Applied (sha256 : Bytes → Digest) (n : Nat) (s : Service) (next : Table) (files : Slot → Bytes) :
    Service × Option Stop → Prop where
  | done (device : Device) (a : Attempt) (hb : device.blocks = n) (ha : a.table = next ∧ a.files = files)
      (hd : Made sha256 n s.state s.doubts a device.disk) :
      Applied sha256 n s next files
        (⟨device, (a.state sha256 n s.state).opened, next, s.group, s.failed, files, []⟩, none)
  | doubt (device : Device) (a : Attempt) (hb : device.blocks = n) (ha : a.table = next ∧ a.files = files)
      (hd : Inv sha256 n device.disk s.state (a :: s.doubts)) :
      Applied sha256 n s next files ({ s with device, doubts := a :: s.doubts }, some .superIo)
  | lost (device : Device) (a : Attempt) (hb : device.blocks = n) (ha : a.table = next ∧ a.files = files)
      (hd : Inv sha256 n device.disk s.state (a :: s.doubts)) (ht : device.disk.HoldsAll a.first (tableBlocks a.table)) :
      Applied sha256 n s next files ({ s with device }, some .lost)
  | stopped (device : Device) (e : Stop) (he : e ≠ .superIo) (hb : device.blocks = n)
      (hd : Inv sha256 n device.disk s.state s.doubts) :
      Applied sha256 n s next files ({ s with device }, some e)

theorem apply_spec (hn : n < 2 ^ 61) (hs : SInv sha256 n s) (hx : Next n s s.device.disk next files)
    (change : Change) : Applied sha256 n s next files (apply sha256 s next files change) := by
  obtain ⟨fresh, hstep, -⟩ := hx.step
  obtain ⟨hready, hwritten⟩ := hx.ready hs.inv.stands.files
  have hmeets := transact_triple hn s.state s.doubts change hready (follows_of_step hstep) hx.clear s.device
    ⟨hs.blocks, hs.inv, hwritten⟩
  unfold apply
  generalize hres : transact sha256 s.opened s.table next change s.device = res
  change Prog.Meets _ _ (transact sha256 s.opened s.table next change s.device) at hmeets
  rw [hres] at hmeets
  rcases res with ⟨e | opened, device⟩
  · obtain ⟨hb, ⟨he, hd⟩ | ⟨he, first, hfree, hd, ht⟩⟩ := hmeets
    · cases e with
      | superIo => exact absurd rfl he
      | _ => exact .stopped device _ he hb hd
    · rcases he with rfl | rfl
      · have hfirst : (freeTableExtent s.table next s.opened).getD 0 = first := by
          change (freeTableExtent s.state.table next s.state.opened).getD 0 = first
          rw [hfree]
          rfl
        rw [hfirst]
        exact .doubt device ⟨first, next, files⟩ hb ⟨rfl, rfl⟩ hd
      · exact .lost device ⟨first, next, files⟩ hb ⟨rfl, rfl⟩ hd ht
  · obtain ⟨hb, first, -, rfl, hd⟩ := hmeets
    exact .done device ⟨first, next, files⟩ hb ⟨rfl, rfl⟩ hd

/-- **A job that ends with a transaction**, its group empty after it. -/
theorem Applied.ends {r : Service × Option Stop} (ha : Applied sha256 n s next files r) (hs : SInv sha256 n s)
    (hl : Linked s h) (hx : Next n s d next files) {f : Bool}
    (hg : ∀ t own d, Staging n t own d g) :
    Ends sha256 n h ({ r.1 with group := g, failed := f }, .of r.2, [⟨next, files, r.2⟩]) := by
  obtain ⟨fresh, hstep, -⟩ := hx.step
  intro hgen
  cases ha with
  | done device a hb ha hd =>
    obtain ⟨rfl, rfl⟩ := ha
    have hinv := hd.2 (Follows.succ hstep (hgen _ mem_cons_self rfl))
    have hs' : SInv sha256 n ⟨device, (a.state sha256 n s.state).opened, a.table, g, f, a.files, []⟩ :=
      ⟨hb, hinv, hstep.laid, hg _ _ _⟩
    have hl' : Linked ⟨device, (a.state sha256 n s.state).opened, a.table, g, f, a.files, []⟩
        (h.add ⟨a.table, a.files, none⟩) := by
      exact ⟨rfl, rfl, fun a ha => absurd ha not_mem_nil⟩
    exact ⟨fun _ => ⟨hs', hl'⟩, hb, _, _, hs'.crashed hl'⟩
  | doubt device a hb ha hd =>
    obtain ⟨rfl, rfl⟩ := ha
    have hs' : SInv sha256 n { s with device, group := g, failed := f, doubts := a :: s.doubts } :=
      ⟨hb, hd, hs.laid, hg _ _ _⟩
    have hl' : Linked { s with device, group := g, failed := f, doubts := a :: s.doubts }
        (h.add ⟨a.table, a.files, some .superIo⟩) := by
      refine ⟨hl.table, hl.files, ?_⟩
      intro a' ha'
      rcases mem_cons.1 ha' with rfl | ha'
      · exact ⟨_, mem_append_right _ mem_cons_self, rfl, rfl, rfl⟩
      · exact hl.more _ a' ha'
    exact ⟨fun _ => ⟨hs', hl'⟩, hb, _, _, hs'.crashed hl'⟩
  | lost device a hb ha hd ht =>
    obtain ⟨rfl, rfl⟩ := ha
    refine ⟨fun hlost => absurd rfl hlost, hb, s.state, a :: s.doubts, ?_⟩
    refine ⟨hl.table, hl.files, hd, ?_⟩
    intro a' ha'
    rcases mem_cons.1 ha' with rfl | ha'
    · exact ⟨_, mem_append_right _ mem_cons_self, .inr ⟨rfl, ht⟩, rfl, rfl⟩
    · obtain ⟨y, hy, h1, h2⟩ := hl.more _ a' ha'
      exact ⟨y, hy, .inl h1, h2⟩
  | stopped device e he hb hd =>
    have hs' : SInv sha256 n { s with device, group := g, failed := f } := ⟨hb, hd, hs.laid, hg _ _ _⟩
    have hl' : Linked { s with device, group := g, failed := f } (h.add ⟨next, files, some e⟩) := by
      exact ⟨hl.table, hl.files, hl.more _⟩
    exact ⟨fun _ => ⟨hs', hl'⟩, hb, _, _, hs'.crashed hl'⟩

theorem apply_of_transact (files : Slot → Bytes) {o : Opened}
    (ht : transact sha256 s.opened s.table next change s.device = (.ok o, device)) :
    apply sha256 s next files change = (⟨device, o, next, s.group, s.failed, files, []⟩, none) := by
  unfold apply
  rw [ht]

theorem apply_of_superIo (files : Slot → Bytes)
    (hfree : freeTableExtent s.table next s.opened = some first)
    (ht : transact sha256 s.opened s.table next change s.device = (.error .superIo, device)) :
    apply sha256 s next files change =
      ({ s with device, doubts := ⟨first, next, files⟩ :: s.doubts }, some .superIo) := by
  unfold apply
  rw [ht, hfree]
  rfl

theorem enact_table {stop : Option Stop}
    (ha : apply sha256 s next files change = (s', stop)) :
    enact sha256 s ⟨none, .ok (some (next, files, change))⟩ = (s', .of stop, [⟨next, files, stop⟩]) := by
  have hw : writePlan ⟨none, .ok (some (next, files, change))⟩ s.device = (.ok (), s.device) := rfl
  unfold enact
  rw [hw]
  dsimp only
  rw [ha]

end

/-! ## Blobs -/

theorem getElem_fileBlocks {i : Nat} (hi : i < (fileBlocks file).length) (hw : file.length % BLOCK = 0) :
    (fileBlocks file)[i] = slice file (BLOCK * i) BLOCK := by
  have hpad : BLOCK * ((file.length + (BLOCK - 1)) / BLOCK) - file.length = 0 := by
    unfold BLOCK at hw ⊢
    omega
  simp [fileBlocks, getElem_blocks, hpad, zeros]

/-- A blob is written to its blocks, and nothing else is. -/
theorem writeBlob_triple {P : Disk Block → Prop} (first : Nat) (bytes : Bytes)
    (hP : ∀ d b v, first ≤ b → b < first + (fileBlocks bytes).length → P d → P (d.write b v)) :
    Prog.Triple (On n P) (writeBlob first bytes)
      (fun _ => On n fun d => P d ∧ d.CachedAll first (fileBlocks bytes)) (fun e d => Broke e ∧ On n P d) := by
  -- before piece `i` the blocks of the pieces before it are in the cache
  let I : Nat → Disk Block → Prop := fun i d => P d ∧ d.CachedAll first ((fileBlocks bytes).take (CELL_BLOCKS * i))
  have hloop : Prog.Triple (On n (I 0)) (writeBlob first bytes)
      (fun _ => On n (I (((fileBlocks bytes).length + (CELL_BLOCKS - 1)) / CELL_BLOCKS)))
      (fun e d => Broke e ∧ On n P d) := by
    refine Prog.Triple.eachRange (I := fun i => On n (I i)) fun i hi => ?_
    have hlt : CELL_BLOCKS * i < (fileBlocks bytes).length := by
      unfold CELL_BLOCKS at hi ⊢
      omega
    have hlen : ((fileBlocks bytes).take (CELL_BLOCKS * i)).length = CELL_BLOCKS * i := by
      rw [length_take]
      omega
    refine (writeBlocks_triple (first + CELL_BLOCKS * i)
      (((fileBlocks bytes).drop (CELL_BLOCKS * i)).take CELL_BLOCKS) ?_).conseq (fun _ h => h) ?_ ?_
    · rintro d k hk ⟨hd, hc⟩
      rw [length_take, length_drop] at hk
      refine ⟨hP d _ _ (by omega) (by omega) hd, hc.write ?_⟩
      omega
    · rintro _ dev ⟨-, hb, ⟨hd, hc⟩, hnew⟩
      refine ⟨hb, hd, ?_⟩
      rw [Nat.mul_succ, take_add]
      exact hc.append (hlen.symm ▸ hnew)
    · rintro e dev ⟨he, hb, hd, -⟩
      exact ⟨he, hb, hd⟩
  refine hloop.conseq ?_ ?_ fun _ _ h => h
  · rintro dev ⟨hb, hd⟩
    refine ⟨hb, hd, ?_⟩
    intro i hi
    exact absurd hi (Nat.not_lt_zero i)
  · rintro _ dev ⟨hb, hd, hc⟩
    refine ⟨hb, hd, ?_⟩
    rwa [take_of_length_le (by unfold CELL_BLOCKS; omega)] at hc

/-- A blob of one block on a device that does what it is told. -/
theorem writeBlob_done {v : Block} {fs : List Fate}
    (hv : fileBlocks bytes = [v]) (hf : device.fates = .done :: fs) (hle : first < device.blocks) :
    writeBlob first bytes device = (.ok (), { device with disk := device.disk.write first v, fates := fs }) := by
  have hw : writeBlocks (first + CELL_BLOCKS * 0) (([v].drop (CELL_BLOCKS * 0)).take CELL_BLOCKS) device =
      (.ok (), { device with disk := device.disk.write first v, fates := fs }) := writeBlocks_done hf hle
  have hrange : range (([v].length + (CELL_BLOCKS - 1)) / CELL_BLOCKS) = [0] := by
    rw [length_singleton]
    decide
  unfold writeBlob
  rw [hv, hrange]
  exact (Prog.bind_ok hw).trans rfl

/-! ## The jobs that are one transaction -/

/-- A plan of a job: its blob goes to clear blocks, and once it is written the transaction may begin. -/
structure Planned (n : Nat) (s : Service) (plan : Plan) : Prop where
  blob : ∀ first bytes, plan.blob = some (first, bytes) → ∀ b, first ≤ b → b < first + (fileBlocks bytes).length →
    Clear s.state s.doubts b
  next : ∀ next files change, plan.next = .ok (some (next, files, change)) → ∀ d,
    (∀ first bytes, plan.blob = some (first, bytes) → d.CachedAll first (fileBlocks bytes)) → Next n s d next files

/-- The table of a transaction goes to an extent that is clear of the doubts. -/
def TableClear (s : Service) (next : Table) : Prop :=
  ∀ first, freeTableExtent s.table next s.opened = some first →
    ∀ a ∈ s.doubts, ∀ i, a.table.Used i → Apart ⟨first, TABLE_BLOCKS⟩ (a.table.record i).extent

theorem mem_tableTarget {next : Table} (h : freeTableExtent s.table next s.opened = some first) :
    (⟨first, TABLE_BLOCKS⟩ : Extent) ∈ tableTarget s next := by
  rw [tableTarget, h]
  exact mem_cons_self

theorem planned_nothing
    (h : ∀ x, code ≠ .ok (some x)) : Planned n s ⟨none, code⟩ where
  blob := by
    intro first bytes hb
    cases hb
  next := fun next files change hn => absurd hn (h _)

theorem planned_table {next : Table} (hstep : Step n s.table next fun _ => False)
    (hclear : TableClear s next) : Planned n s ⟨none, .ok (some (next, s.files, change))⟩ where
  blob := by
    intro first bytes hb
    cases hb
  next := by
    intro next' files change' hx d _
    cases hx
    exact ⟨⟨_, hstep, fun _ _ _ => rfl, fun _ _ hf => hf.elim⟩, hclear⟩

theorem extentFor_spec (hn : n < 2 ^ 61) (hs : SInv sha256 n s) {length : Nat} (hl : BlobSize length)
    (h : extentFor s ((length + (BLOCK - 1)) / BLOCK) = some first) :
    (blobExtent first length).Fits n ∧ Apart (blobExtent first length) s.opened.tableExtent ∧
      ∀ i, s.table.Used i → Apart (blobExtent first length) (s.table.record i).extent := by
  have hown := hs.inv.stands.sound.own_fits
  have hfit : ∀ e ∈ s.table.occupied s.opened.tableExtent ++ [], e.first + e.blocks ≤ n := by
    intro e he
    rw [append_nil] at he
    rcases Table.mem_occupied.1 he with rfl | ⟨i, hi, rfl⟩
    · exact hown.2
    · exact (hs.laid.fits i hi).2
  have hneed : n + (length + (BLOCK - 1)) / BLOCK < 2 ^ 64 := by
    have h2 := hl.2
    unfold BLOCK
    omega
  have hsupers : SUPERS ≤ n := by
    have h1 := hown.1
    have h2 := hown.2
    omega
  unfold extentFor at h
  rw [hs.blocks] at h
  obtain ⟨hfits, hapart⟩ := findFree_spec hneed hfit hsupers h
  refine ⟨hfits, ?_, ?_⟩
  · exact hapart _ (mem_append_left _ (Table.mem_occupied.2 (.inl rfl)))
  · exact fun i hi => hapart _ (mem_append_left _ (Table.mem_occupied.2 (.inr ⟨i, hi, rfl⟩)))

/-- A plan that writes a blob at an extent found free, and may bring it to the place `slot`. -/
theorem planned_blob (slot : Slot) (hn : n < 2 ^ 61) (hs : SInv sha256 n s)
    (hl : BlobSize bytes.length) (hfree : extentFor s ((bytes.length + (BLOCK - 1)) / BLOCK) = some first)
    (hdoubts : ∀ a ∈ s.doubts, ∀ i, a.table.Used i →
      Apart ⟨first, (fileBlocks bytes).length⟩ (a.table.record i).extent)
    (hnext : ∀ next files change, code = .ok (some (next, files, change)) →
      BlobStep n s.table next slot (blobExtent first bytes.length) bytes.length ∧
        files = update s.files slot bytes ∧ TableClear s next) :
    Planned n s ⟨some (first, bytes), code⟩ where
  blob := by
    intro first' bytes' hb b hb1 hb2
    obtain ⟨rfl, rfl⟩ := Prod.mk.inj (Option.some.inj hb)
    obtain ⟨hfits, hown, hrec⟩ := extentFor_spec hn hs hl hfree
    have hhas : (blobExtent first bytes.length).Has b := by
      rw [length_fileBlocks] at hb2
      exact ⟨hb1, hb2⟩
    have h2 : SUPERS ≤ first := hfits.1
    exact ⟨by omega, hown.not_has hhas, fun i hi => (hrec i hi).not_has hhas,
      fun a ha i hi => (hdoubts a ha i hi).not_has ⟨hb1, hb2⟩⟩
  next := by
    intro next files change hc d hcached
    obtain ⟨hb, rfl, hclear⟩ := hnext next files change hc
    refine ⟨⟨_, hb.step, ?_, ?_⟩, hclear⟩
    · intro i _ hi
      exact update_of_ne hi _ _
    · rintro i _ rfl
      have hfirst : (next.record i).first.toNat = first := congrArg Extent.first hb.extent
      rw [update_self, hfirst]
      exact ⟨hb.length.symm, hcached first bytes rfl⟩

theorem blobSize_settings (h : ¬(bytes.length = 0 ∨ SETTINGS_MAX < bytes.length)) :
    BlobSize bytes.length := by
  unfold SETTINGS_MAX at h
  exact ⟨by omega, by omega⟩

theorem blobSize_revoked (h : ¬(bytes.length ≤ SIG_BLOCK ∨ REVOKED_MAX < bytes.length)) :
    BlobSize bytes.length := by
  unfold SIG_BLOCK REVOKED_MAX at h
  exact ⟨by omega, by omega⟩

theorem tableClear_of_targets {next : Table} {es : List Extent}
    (h : ∀ a ∈ s.doubts, ∀ i, a.table.Used i → ∀ e ∈ es ++ tableTarget s next, Apart e (a.table.record i).extent) :
    TableClear s next :=
  fun _ hfirst a ha i hi => h a ha i hi _ (mem_append_right _ (mem_tableTarget hfirst))

/-- **What the plans of the jobs are.** -/
theorem planOf_planned (hn : n < 2 ^ 61) (hs : SInv sha256 n s)
    (hp : planOf sha256 s job = .ok plan)
    (hc : ∀ a ∈ s.doubts, ∀ i, a.table.Used i → ∀ e ∈ plan.targets s, Apart e (a.table.record i).extent) :
    Planned n s plan := by
  unfold planOf at hp
  split at hp
  · split at hp
    · cases hp
      exact planned_nothing nofun
    next hr =>
      cases hp
      exact planned_table (remove_step hs.laid hr) (tableClear_of_targets hc)
  · split at hp
    · cases hp
      exact planned_nothing nofun
    · cases hp
      exact planned_nothing nofun
    next hr =>
      cases hp
      exact planned_table (serial_step hs.laid hr) (tableClear_of_targets hc)
  · split at hp
    · cases hp
      exact planned_nothing nofun
    · cases hp
      exact planned_nothing nofun
    next hr =>
      cases hp
      exact planned_table (world_step hs.laid hr) (tableClear_of_targets hc)
  · split at hp
    · cases hp
    next hsize =>
    split at hp
    · cases hp
    · cases hp
    next first hfree =>
    cases hp
    have hl := blobSize_settings hsize
    obtain ⟨hfits, -, hapart⟩ := extentFor_spec hn hs hl hfree
    refine planned_blob SETTINGS_SLOT hn hs hl hfree ?_ ?_
    · exact fun a ha i hi => hc a ha i hi _ (mem_append_left _ mem_cons_self)
    · intro next files change hx
      cases hx
      exact ⟨settings_step hn hs.laid hl hfits rfl hapart, rfl, tableClear_of_targets hc⟩
  · split at hp
    · cases hp
    next hsize =>
    split at hp
    · cases hp
    · cases hp
    next first hfree =>
    have hl := blobSize_revoked hsize
    obtain ⟨hfits, -, hapart⟩ := extentFor_spec hn hs hl hfree
    split at hp
    · cases hp
      refine planned_blob REVOKED_SLOT hn hs hl hfree ?_ ?_
      · exact fun a ha i hi => hc a ha i hi _ (mem_append_left _ mem_cons_self)
      · intro next files change hx
        cases hx
    next hr =>
      cases hp
      refine planned_blob REVOKED_SLOT hn hs hl hfree ?_ ?_
      · exact fun a ha i hi => hc a ha i hi _ (mem_append_left _ mem_cons_self)
      · intro next files change hx
        cases hx
        exact ⟨revoked_step hn hs.laid hl hfits rfl hapart hr, rfl, tableClear_of_targets hc⟩
  · cases hp

/-- **A plan, when no group is open.** -/
theorem enact_ends (hn : n < 2 ^ 61) (hs : SInv sha256 n s) {h : Since} (hl : Linked s h) (hidle : s.group.owner = 0)
    (hp : Planned n s plan) : Ends sha256 n h (enact sha256 s plan) := by
  have hidle' : ∀ t own d, Staging n t own d s.group := fun t own d => hs.staging.of_idle hidle
  -- the blob goes to clear blocks: the state stays, and it is in the cache when all of it was written
  have hwrite : Prog.Triple (On n fun d => Inv sha256 n d s.state s.doubts) (writePlan plan)
      (fun _ => On n fun d => Inv sha256 n d s.state s.doubts ∧
        ∀ first bytes, plan.blob = some (first, bytes) → d.CachedAll first (fileBlocks bytes))
      (fun _ => On n fun d => Inv sha256 n d s.state s.doubts) := by
    unfold writePlan
    cases hb : plan.blob with
    | none =>
      refine Prog.Triple.pure ?_
      rintro dev ⟨hblocks, hd⟩
      exact ⟨hblocks, hd, fun _ _ hx => by cases hx⟩
    | some x =>
      obtain ⟨first, bytes⟩ := x
      refine (writeBlob_triple first bytes ?_).conseq (fun _ h => h) ?_ fun _ _ h => h.2
      · intro d b v h1 h2 hd
        exact hd.write (hp.blob first bytes hb b h1 h2)
      · rintro _ dev ⟨hblocks, hd, hc⟩
        refine ⟨hblocks, hd, ?_⟩
        intro first' bytes' hx
        cases hx
        exact hc
  have hmeets := hwrite s.device ⟨hs.blocks, hs.inv⟩
  unfold enact
  rcases hres : writePlan plan s.device with ⟨e | u, device⟩
  · rw [hres] at hmeets
    obtain ⟨hblocks, hd⟩ := hmeets
    have hs' : SInv sha256 n { s with device } := ⟨hblocks, hd, hs.laid, hidle' _ _ _⟩
    have hl' : Linked { s with device } h := ⟨hl.table, hl.files, hl.doubts⟩
    cases e with
    | lost => exact plain hs' hl'
    | _ => exact plain hs' hl'
  · rw [hres] at hmeets
    obtain ⟨hblocks, hd, hcached⟩ := hmeets
    have hs' : SInv sha256 n { s with device } := ⟨hblocks, hd, hs.laid, hidle' _ _ _⟩
    have hl' : Linked { s with device } h := ⟨hl.table, hl.files, hl.doubts⟩
    rcases hnext : plan.next with code | x
    · exact plain hs' hl'
    rcases x with _ | ⟨next, files, change⟩
    · exact plain hs' hl'
    have hx := hp.next next files change hnext device.disk hcached
    have hx' : Next n { s with device } device.disk next files := ⟨hx.step, hx.clear⟩
    have happlied := apply_spec hn hs' hx' change
    dsimp only
    generalize apply sha256 { s with device } next files change = r at happlied
    have hgroup : r.1.group = s.group := by
      cases happlied <;> rfl
    have hends := happlied.ends (f := r.1.failed) hs' hl' hx' hidle'
    rw [← hgroup] at hends
    exact hends

/-! ## The jobs of a group -/

theorem begin_inv (hn : n < 2 ^ 61) (hs : SInv sha256 n s) {h : Since} (hl : Linked s h) (owner : Label)
    (name version : Bytes) (size : UInt64) (sha : Digest) (repo : Bytes) (world memory : Bool) :
    SInv sha256 n (begin s owner name version size sha repo world memory).1 ∧
      Linked (begin s owner name version size sha repo world memory).1 h := by
  unfold begin
  split
  · exact ⟨hs, hl⟩
  split
  · exact ⟨hs, hl⟩
  · exact ⟨hs.dropGroup, hl.dropGroup⟩
  next repo _ _ group hb =>
  rw [hs.blocks] at hb
  obtain ⟨numbers, staged, hg, hopens, hown, hdiffer, hlength, -⟩ := Group.begin_spec hn hs.laid
    hs.inv.stands.sound.own_fits (fun x hx => (hs.staging.staged x hx).comes.fits) hb
  have hs' : SInv sha256 n { s with group, failed := false } := by
    refine ⟨hs.blocks, hs.inv, hs.laid, ?_⟩
    subst hg
    refine ⟨fun h0 => absurd h0 owner.2, hs.staging.staged, hs.staging.differ, ?_⟩
    intro r p hr
    obtain ⟨rfl, rfl⟩ := Prod.mk.inj (Option.some.inj hr)
    refine ⟨hopens, hown, hdiffer, ?_, Nat.zero_le _, rfl, Nat.zero_le _, ?_⟩
    · rw [hlength]
    · intro i hi
      rw [Nat.zero_div] at hi
      exact absurd hi (Nat.not_lt_zero i)
  have hl' : Linked { s with group, failed := false } h := ⟨hl.table, hl.files, hl.doubts⟩
  split
  · exact ⟨hs', hl'⟩
  · exact ⟨⟨hs.blocks, hs.inv, hs.laid, Staging.release⟩, ⟨hl.table, hl.files, hl.doubts⟩⟩

theorem feed_inv (hs : SInv sha256 n s) (hr : s.group.opened = some (r, p))
    (hle : r.fed.length + bytes.length ≤ r.size) :
    SInv sha256 n { s with group := { s.group with opened := some ({ r with fed := r.fed ++ bytes }, p) } } := by
  refine ⟨hs.blocks, hs.inv, hs.laid, fun h0 => absurd h0 (hs.staging.busy hr), hs.staging.staged, hs.staging.differ, ?_⟩
  intro r' p' hr'
  obtain ⟨rfl, rfl⟩ := Prod.mk.inj (Option.some.inj hr')
  obtain ⟨h1, h2, h3, h4⟩ := hs.staging.opens r p hr
  refine ⟨h1, h2, h3, h4.size, ?_, h4.whole, ?_, ?_⟩
  · rw [length_append]
    exact hle
  · rw [length_append]
    exact Nat.le_add_right_of_le h4.written
  · intro i hi
    have hw := h4.written
    have hpos : BLOCK * i + BLOCK ≤ r.fed.length := by
      have hi' : i < r.written / BLOCK := hi
      unfold BLOCK at hi' ⊢
      omega
    rw [slice_append_left _ _ hpos]
    exact h4.cached i hi

/-- The blocks of a portion lie past what is written and inside the extent. -/
theorem portion_spec (ho : Opens n t p) (ht : Takes d r p) (blocks : Nat) :
    (portion r blocks).1 = r.written / BLOCK ∧
      (portion r blocks).1 + (portion r blocks).2.length ≤ r.fed.length / BLOCK ∧
      (portion r blocks).1 + (portion r blocks).2.length ≤ p.record.extent.blocks := by
  have hlen : (portion r blocks).2.length = min blocks (r.fed.length / BLOCK - r.written / BLOCK) := by
    simp [portion]
  have h1 : r.written / BLOCK ≤ r.fed.length / BLOCK := Nat.div_le_div_right ht.written
  have h2 : r.fed.length / BLOCK ≤ p.record.extent.blocks := by
    have hfed := ht.fed
    rw [ht.size, ho.length] at hfed
    calc r.fed.length / BLOCK ≤ BLOCK * p.record.extent.blocks / BLOCK := Nat.div_le_div_right hfed
      _ = p.record.extent.blocks := Nat.mul_div_cancel_left _ (by decide)
  have hfirst : (portion r blocks).1 = r.written / BLOCK := rfl
  omega

/-- The next blocks of the receipt are written. -/
theorem Staging.pump (h : Staging n t own d g) (hr : g.opened = some (r, p)) (blocks : Nat)
    (hc : d.CachedAll (p.record.first.toNat + (portion r blocks).1) (portion r blocks).2) :
    Staging n t own d
      { g with opened := some ({ r with written := r.written + BLOCK * (portion r blocks).2.length }, p) } := by
  obtain ⟨h1, h2, h3, h4⟩ := h.opens r p hr
  obtain ⟨hfirst, hfed, -⟩ := portion_spec h1 h4 blocks
  have hwhole := Nat.div_add_mod r.written BLOCK
  rw [h4.whole, add_zero] at hwhole
  have hwritten : r.written + BLOCK * (portion r blocks).2.length =
      BLOCK * ((portion r blocks).1 + (portion r blocks).2.length) := by
    rw [mul_add, hfirst, hwhole]
  refine ⟨fun h0 => absurd h0 (h.busy hr), h.staged, h.differ, ?_⟩
  intro r' p' hr'
  obtain ⟨rfl, rfl⟩ := Prod.mk.inj (Option.some.inj hr')
  refine ⟨h1, h2, h3, h4.size, h4.fed, ?_, ?_, ?_⟩
  · rw [hwritten, Nat.mul_mod_right]
  · rw [hwritten]
    exact (Nat.mul_le_mul_left _ hfed).trans (Nat.mul_div_le _ _)
  · intro i hi
    rw [hwritten, Nat.mul_div_cancel_left _ (by decide)] at hi
    by_cases hold : i < r.written / BLOCK
    · exact h4.cached i hold
    · obtain ⟨k, rfl⟩ := Nat.exists_eq_add_of_le (hfirst ▸ Nat.not_lt.1 hold)
      have hk := hc k (by omega)
      rw [← add_assoc, hk]
      simp [portion]

theorem pump_ends (hs : SInv sha256 n s) {h : Since} (hl : Linked s h) {blocks : Nat}
    (hclear : Clears sha256 s (.pump blocks)) : Ends sha256 n h (exec sha256 parse refusal s (.pump blocks)) := by
  unfold exec
  cases hr : s.group.opened with
  | none => exact plain hs hl
  | some x =>
    obtain ⟨r, p⟩ := x
    dsimp only
    split
    · exact plain hs hl
    obtain ⟨hopens, hown, -, htakes⟩ := hs.staging.opens r p hr
    obtain ⟨hfirst, -, hblocks⟩ := portion_spec hopens htakes blocks
    let target : Extent := ⟨p.record.first.toNat + (portion r blocks).1, (portion r blocks).2.length⟩
    have htarget : target ∈ targets sha256 s (.pump blocks) := by
      unfold targets
      rw [hr]
      exact mem_cons_self
    -- each of the writes is clear of the state, of the other packages and of what is written
    have hwrite : Prog.Triple (On n (Sits sha256 n s))
        (writeBlocks (p.record.first.toNat + (portion r blocks).1) (portion r blocks).2)
        (fun _ => On n fun d => Sits sha256 n s d ∧
          d.CachedAll (p.record.first.toNat + (portion r blocks).1) (portion r blocks).2)
        (fun _ => On n (Sits sha256 n s)) := by
      refine (writeBlocks_triple _ _ ?_).conseq (fun _ h => h) (fun _ _ h => h.2) fun _ _ h => h.2
      rintro d i hi ⟨hd, hg⟩
      have hhas : p.record.extent.Has (p.record.first.toNat + ((portion r blocks).1 + i)) :=
        ⟨Nat.le_add_right _ _, Nat.add_lt_add_left (by omega) _⟩
      have h2 : SUPERS ≤ p.record.first.toNat := hopens.fits.1
      rw [add_assoc]
      refine ⟨hd.write ⟨by omega, hown.not_has hhas, fun j hj => (hopens.apart j hj).not_has hhas, ?_⟩,
        hg.write hr (by omega) (by omega) _⟩
      intro a ha j hj
      refine (hclear a ha j hj target htarget).not_has ⟨?_, ?_⟩
      · change p.record.first.toNat + (portion r blocks).1 ≤ _
        omega
      · change _ < p.record.first.toNat + (portion r blocks).1 + (portion r blocks).2.length
        omega
    have hmeets := hwrite s.device ⟨hs.blocks, hs.inv, hs.staging⟩
    rcases hres : writeBlocks (p.record.first.toNat + (portion r blocks).1) (portion r blocks).2 s.device with
      ⟨e | u, device⟩
    · rw [hres] at hmeets
      obtain ⟨hb, hd, hg⟩ := hmeets
      cases e with
      | lost => exact plain ⟨hb, hd, hs.laid, hg⟩ ⟨hl.table, hl.files, hl.doubts⟩
      | _ => exact plain ⟨hb, hd, hs.laid, hg⟩ ⟨hl.table, hl.files, hl.doubts⟩
    · rw [hres] at hmeets
      obtain ⟨hb, ⟨hd, hg⟩, hc⟩ := hmeets
      exact plain ⟨hb, hd, hs.laid, hg.pump hr blocks hc⟩ ⟨hl.table, hl.files, hl.doubts⟩

/-! ## INSTALL_COMMIT -/

theorem rule_of_check {r : Record} (h : check sha256 parse refusal file r = none) :
    versionRule r.versionBytes = true := by
  unfold check at h
  split at h
  · cases h
  split at h
  · cases h
  next m _ =>
  split at h
  · cases h
  next hm =>
  rw [not_or, not_not, not_not] at hm
  rw [← hm.2]
  exact m.rule

/-- The package of a receipt that is complete and passed its check waits. -/
theorem Staging.commit (h : Staging n t own d g) {g' : Group}
    (hc : g.commit number = .ok (g', p, file)) (hrule : versionRule p.record.versionBytes = true) :
    Staging n t own d g' := by
  unfold Group.commit at hc
  split at hc
  · cases hc
  next r p' hr =>
  split at hc
  · cases hc
  split at hc
  next hcomplete =>
    cases hc
    obtain ⟨h1, h2, h3, h4⟩ := h.opens r p hr
    have hsize := h4.size
    rw [h1.length] at hsize
    have hlen : r.fed.length = BLOCK * p.record.extent.blocks := hcomplete.1.trans hsize
    refine ⟨fun h0 => absurd h0 (h.busy hr), ?_, ?_, nofun⟩
    · intro x hx
      rcases mem_append.1 hx with hx | hx
      · exact h.staged x hx
      · obtain rfl := mem_singleton.1 hx
        refine ⟨h1.comes hrule, h2, hlen.trans h1.length.symm, ?_⟩
        intro i hi
        rw [getElem_fileBlocks hi (by rw [hlen, Nat.mul_mod_right])]
        refine h4.cached i ?_
        rw [length_fileBlocks] at hi
        have hw : r.written = BLOCK * p.record.extent.blocks := hcomplete.2.trans hsize
        rw [hw, Nat.mul_div_cancel_left _ (by decide)]
        rw [hlen] at hi
        unfold BLOCK at hi
        omega
    · rw [map_append, pairwise_append]
      refine ⟨h.differ, pairwise_singleton _ _, ?_⟩
      intro x hx y hy
      obtain ⟨z, hz, rfl⟩ := mem_map.1 hx
      obtain rfl := mem_singleton.1 hy
      exact h3 z hz
  next => cases hc

theorem groupFiles_of_ne {files : Slot → Bytes} {i : Slot}
    (h : ∀ x ∈ staged, x.1.slot ≠ i) : groupFiles files staged i = files i := by
  induction staged generalizing files with
  | nil => rfl
  | cons x staged ih =>
    refine (ih fun y hy => h y (mem_cons_of_mem x hy)).trans ?_
    exact update_of_ne (h x mem_cons_self).symm _ _

theorem groupFiles_of_mem {files : Slot → Bytes}
    (hd : (staged.map (·.1)).Pairwise Differ) (hx : x ∈ staged) :
    groupFiles files staged x.1.slot = x.2 := by
  induction staged generalizing files with
  | nil => exact absurd hx not_mem_nil
  | cons y staged ih =>
    rw [map_cons, pairwise_cons] at hd
    rcases mem_cons.1 hx with rfl | hx
    · have hne : ∀ z ∈ staged, z.1.slot ≠ x.1.slot := fun z hz => (hd.1 z.1 (mem_map_of_mem hz)).1.symm
      exact (groupFiles_of_ne hne).trans (update_self _ _ _)
    · exact ih hd.2 hx

/-- The table of a group whose packages wait. -/
theorem group_next (hs : SInv sha256 n s) (hclear : TableClear s (s.group.table s.table)) :
    Next n s s.device.disk (s.group.table s.table) (groupFiles s.files s.group.staged) := by
  have hcomes : ∀ x ∈ s.group.staged, Comes n s.table x.1 := fun x hx => (hs.staging.staged x hx).comes
  refine ⟨⟨_, group_step hs.laid hcomes hs.staging.differ, ?_, ?_⟩, hclear⟩
  · intro i _ hi
    exact groupFiles_of_ne fun x hx hxi => hi ⟨x, hx, hxi⟩
  · rintro i _ ⟨x, hx, rfl⟩
    have hw := hs.staging.staged x hx
    rw [groupFiles_of_mem hs.staging.differ hx, record_group hs.laid hcomes hs.staging.differ hx]
    exact ⟨hw.length, hw.cached⟩

theorem commitEnd_ends (hn : n < 2 ^ 61) (hs : SInv sha256 n s) {h : Since} (hl : Linked s h)
    (hclear : TableClear s (s.group.table s.table)) : Ends sha256 n h (commitEnd sha256 s last) := by
  unfold commitEnd
  split
  · have hx := group_next hs hclear
    exact (apply_spec hn hs hx _).ends hs hl hx fun t own d => Staging.release
  · have hflush : Prog.Triple (On n (Sits sha256 n s)) flush (fun _ => On n (Sits sha256 n s))
        (fun _ => On n (Sits sha256 n s)) :=
      (flush_triple (fun d took h => ⟨h.1.flush, h.2.flush⟩) fun d h => ⟨h.1.flush, h.2.flush⟩).conseq
        (fun _ h => h) (fun _ _ h => h) fun _ _ h => h.2
    have hmeets := hflush s.device ⟨hs.blocks, hs.inv, hs.staging⟩
    rcases hres : flush s.device with ⟨e | u, device⟩
    · rw [hres] at hmeets
      obtain ⟨hb, hd, hg⟩ := hmeets
      have hs' : SInv sha256 n { s with device } := ⟨hb, hd, hs.laid, hg⟩
      have hl' : Linked { s with device } h := ⟨hl.table, hl.files, hl.doubts⟩
      cases e with
      | lost => exact plain hs' hl'
      | _ => exact plain hs'.dropGroup hl'.dropGroup
    · rw [hres] at hmeets
      obtain ⟨hb, hd, hg⟩ := hmeets
      exact plain ⟨hb, hd, hs.laid, hg⟩ ⟨hl.table, hl.files, hl.doubts⟩

theorem commit_ends (hn : n < 2 ^ 61) (hs : SInv sha256 n s) {h : Since} (hl : Linked s h) {owner : Label}
    (hclear : Clears sha256 s (.commit owner number last)) :
    Ends sha256 n h (commit sha256 parse refusal s owner number last) := by
  unfold commit
  split
  · exact plain hs hl
  split
  · exact plain hs.dropGroup hl.dropGroup
  split
  · exact plain hs hl
  split
  · exact plain hs hl
  split
  · exact plain hs.dropGroup hl.dropGroup
  next group staged file hc =>
  split
  · exact plain ⟨hs.blocks, hs.inv, hs.laid, Staging.release⟩ ⟨hl.table, hl.files, hl.doubts⟩
  next hcheck =>
  have hs' : SInv sha256 n { s with group } :=
    ⟨hs.blocks, hs.inv, hs.laid, hs.staging.commit hc (rule_of_check hcheck)⟩
  refine commitEnd_ends hn hs' ⟨hl.table, hl.files, hl.doubts⟩ ?_
  intro first hfirst a ha i hi
  refine hclear a ha i hi _ ?_
  simp only [targets, hc]
  exact mem_tableTarget hfirst

/-! ## Runs -/

/-- **A job keeps the invariant.** -/
theorem exec_ends (parse : Bytes → Option Meta) (refusal : Bytes → Record → Option Code) (hn : n < 2 ^ 61)
    (hs : SInv sha256 n s) {h : Since} (hl : Linked s h) (hclear : Clears sha256 s job) :
    Ends sha256 n h (exec sha256 parse refusal s job) := by
  have hplan : (∀ plan, planOf sha256 s job = .ok plan → targets sha256 s job = plan.targets s) →
      Ends sha256 n h (if s.group.owner ≠ 0 then (s, .refused .busy, [])
        else match planOf sha256 s job with
          | .error code => (s, .refused code, [])
          | .ok plan => enact sha256 s plan) := by
    intro htargets
    split
    · exact plain hs hl
    next hidle =>
    split
    · exact plain hs hl
    next plan hp =>
    refine enact_ends hn hs hl (not_not.1 hidle) (planOf_planned hn hs hp ?_)
    rw [← htargets plan hp]
    exact hclear
  cases job with
  | begin owner name version size sha repo world memory =>
    obtain ⟨hs', hl'⟩ := begin_inv hn hs hl owner name version size sha repo world memory
    exact plain hs' hl'
  | feed bytes =>
    unfold exec
    cases hr : s.group.opened with
    | none => exact plain hs hl
    | some x =>
      dsimp only
      split
      · exact plain hs.dropGroup hl.dropGroup
      next hle => exact plain (feed_inv hs hr (Nat.not_lt.1 hle)) ⟨hl.table, hl.files, hl.doubts⟩
  | pump blocks => exact pump_ends hs hl hclear
  | commit owner number last => exact commit_ends hn hs hl hclear
  | cancel => exact plain hs.dropGroup hl.dropGroup
  | remove entries images names => exact hplan fun plan hp => by simp [targets, hp]
  | serial repository number => exact hplan fun plan hp => by simp [targets, hp]
  | world images name world => exact hplan fun plan hp => by simp [targets, hp]
  | settings blob refused attached => exact hplan fun plan hp => by simp [targets, hp]
  | revoked list refused serial flags => exact hplan fun plan hp => by simp [targets, hp]

/-- **A run keeps it, up to the loss of power.** -/
theorem run_ends (hn : n < 2 ^ 61) (hs : SInv sha256 n s) {h : Since} (hl : Linked s h) {jobs : List Job}
    (hclear : AllClear sha256 parse refusal s jobs)
    (hgen : ∀ x ∈ (run sha256 parse refusal s jobs).2.2, x.stop = none → x.table.generation ≠ 0) :
    (run sha256 parse refusal s jobs).1.device.blocks = n ∧
      ∃ st doubts, Crashed sha256 n (run sha256 parse refusal s jobs).1.device.disk
        ((run sha256 parse refusal s jobs).2.2.foldl Since.add h) st doubts := by
  induction jobs generalizing s h with
  | nil => exact ⟨hs.blocks, s.state, s.doubts, hs.crashed hl⟩
  | cons job jobs ih =>
    have hends := exec_ends parse refusal hn hs hl hclear.1
    have hrest := hclear.2
    unfold run at hgen ⊢
    generalize exec sha256 parse refusal s job = r at hends hrest hgen
    obtain ⟨s', reply, tried⟩ := r
    cases reply with
    | lost => exact (hends hgen).2
    | _ =>
      obtain ⟨hs', hl'⟩ := (hends fun x hx => hgen x (mem_append_left _ hx)).1 Reply.noConfusion
      have hrun := ih hs' hl' hrest fun x hx => hgen x (mem_append_right _ hx)
      rw [foldl_append]
      exact hrun

end

end Jobs
