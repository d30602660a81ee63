import Stafeto.Pkgd.Store

/-!
# The tables of the transactions (pkgd/src/plans.rs, receipts.rs, packages.rs)

Each transaction takes the accepted table to the table of the next state, one generation on: a removal, a serial,
the flag "world", a settings blob, a list of revocations, and the packages of a group. `Step` is what all of them do
to a table that keeps the rules: the next table keeps them too, some places get a new record, and every other record
that is there names the extent it named before. Each plan has one lemma that it is a step (`remove_step`,
`world_step`, ...).
-/

namespace Plans

open ByteStr Pkgfmt Store List Table Group

/-! ## The packages in memory (packages.rs) -/

/-- The rule of a version in `meta` (pkgfmt/src/meta.rs:83): letters, digits and `._+~-`. -/
def versionRule (v : Bytes) : Bool :=
  !v.isEmpty && v.length ≤ 96 &&
    v.all fun c => (48 ≤ c && c ≤ 57) || (65 ≤ c && c ≤ 90) || (97 ≤ c && c ≤ 122) || [46, 95, 43, 126, 45].contains c

/-- What `meta` says of a package that the service uses (pkgfmt/src/meta.rs:40). -/
structure Meta where
  name : Bytes
  version : Bytes
  depends : List Bytes
  provides : List Bytes
  /-- `Meta::parse` accepts no other version. -/
  rule : versionRule version = true
  deriving DecidableEq

/-- `Entry` (packages.rs:19): the record, the parsed `meta`, the tail of the signature. -/
structure Entry where
  record : Record
  layer : Nat
  parsed : Option Meta
  trailer : Bytes
  deriving DecidableEq

def Entry.name (e : Entry) : Bytes := e.record.nameBytes

/-- `provided` (packages.rs:78): an entry that is not removed has the name or provides it. -/
def provided (entries : List Entry) (removed : List Bytes) (name : Bytes) : Bool :=
  entries.any fun e => !removed.contains e.name && (e.name == name || e.parsed.any fun m => m.provides.contains name)

/-- A package that stays needs something that only the removed give (packages.rs:94-101). -/
def breaks (entries : List Entry) (removed : List Bytes) (e : Entry) : Bool :=
  e.parsed.any fun m => m.depends.any fun d => provided entries [] d && !provided entries removed d

/-- `needed_by` (packages.rs:89). -/
def neededBy (entries : List Entry) (removed : List Bytes) : Option Bytes :=
  ((entries.filter fun e => !removed.contains e.name).find? (breaks entries removed)).map (·.name)

/-- `in_image` (packages.rs:175). -/
def inImage (images : List Entry) (name : Bytes) : Bool := images.any fun e => e.name == name

/-! ## The plans (plans.rs) -/

/-- The places of packages. -/
def packageSlots : List Slot := (finRange RECORDS).filter fun i => i.val < PACKAGES

/-- `next_of` (plans.rs:20). -/
def nextOf (accepted : Table) : Table := accepted.setGeneration (accepted.generation + 1)

/-- `serial` (plans.rs:29). -/
def serial (accepted : Table) (repository : Bytes) (number : UInt64) : Except Code (Option Table) :=
  if (Name.new repository).isNone || repository.length > 31 then .error .invalid
  else
    let place := accepted.findRepo repository
    let held := ((place.bind accepted.repo).map (·.2)).getD 0
    if number < held then .error .rollback
    else if number = held then .ok none
    else
      match place.or ((finRange REPOS).find? fun i => (accepted.repo i).isNone) with
      | none => .error .noSpace
      | some i => .ok (some ((nextOf accepted).setRepo i repository number))

/-- The place of the package `name` (plans.rs:75-80). -/
def slotOf (t : Table) (name : Bytes) : Option Slot :=
  packageSlots.find? fun i => (t.record i).kind == PACKAGE && (t.record i).nameBytes == name

/-- The loop of `remove` over the names (plans.rs:70-86): the names that go and their places. -/
def collect (accepted : Table) (images : List Entry) :
    List Bytes → List (Bytes × Slot) → Except Code (List (Bytes × Slot))
  | [], gone => .ok gone
  | name :: names, gone =>
    if inImage images name then .error .inImage
    else
      match slotOf accepted name with
      | none => .error .notFound
      | some slot =>
        collect accepted images names (if (gone.map (·.1)).contains name then gone else gone ++ [(name, slot)])

/-- The records at `slots` are empty. -/
def clearSlots (t : Table) (slots : List Slot) : Table := slots.foldl (fun t i => t.setRecord i Record.empty) t

/-- `remove` (plans.rs:61): the places that go and the next table. -/
def remove (accepted : Table) (entries images : List Entry) (names : List Bytes) : Except Code (List Slot × Table) :=
  match collect accepted images names [] with
  | .error code => .error code
  | .ok gone =>
    if (neededBy entries (gone.map (·.1))).isSome then .error .neededBy
    else .ok (gone.map (·.2), clearSlots (nextOf accepted) (gone.map (·.2)))

/-- `world` (plans.rs:101). -/
def world (accepted : Table) (images : List Entry) (name : Bytes) (world : Bool) : Except Code (Option (Slot × Table)) :=
  if inImage images name then .error .inImage
  else
    match slotOf accepted name with
    | none => .error .notFound
    | some slot =>
      let r := accepted.record slot
      if decide (r.flags &&& WORLD ≠ 0) = world then .ok none
      else
        let flags := if world then (r.flags ||| WORLD) &&& ~~~DEPENDENCY else (r.flags &&& ~~~WORLD) ||| DEPENDENCY
        .ok (some (slot, (nextOf accepted).setRecord slot { r with flags }))

/-- `blob_record` (plans.rs:131). -/
def blobRecord (kind : UInt8) (extent : Extent) (length : Nat) (sha256 : Digest) (number : UInt64) : Record where
  kind
  flags := 0
  repo := NO_REPO
  first := UInt64.ofNat extent.first
  blocks := UInt32.ofNat ((length + (BLOCK - 1)) / BLOCK)
  length := UInt64.ofNat length
  number
  installed := 0
  sha256
  name := .replicate 64 0
  version := .replicate 64 0

/-- `settings` (plans.rs:148). -/
def settings (accepted : Table) (extent : Extent) (length : Nat) (sha256 : Digest) : Table :=
  (nextOf accepted).setRecord SETTINGS_SLOT (blobRecord SETTINGS extent length sha256 0)

/-- The flag "revoked" of a package (plans.rs:177-187). -/
def flag (t : Table) (revoked : Slot → Bool) (i : Slot) : Table :=
  let r := t.record i
  if r.kind ≠ PACKAGE then t
  else t.setRecord i { r with flags := if revoked i then r.flags ||| REVOKED else r.flags &&& ~~~REVOKED }

/-- `revoked` (plans.rs:159). -/
def revoked (accepted : Table) (extent : Extent) (length : Nat) (sha256 : Digest) (serial : UInt64)
    (revoked : Slot → Bool) : Except Code Table :=
  let held := accepted.record REVOKED_SLOT
  if held.kind = REVOKED_LIST ∧ serial < held.number then .error .rollback
  else
    let next := (nextOf accepted).setRecord REVOKED_SLOT (blobRecord REVOKED_LIST extent length sha256 serial)
    .ok (packageSlots.foldl (fun t i => flag t revoked i) next)

/-! ## Groups (receipts.rs) -/

def GROUP_MAX : Nat := 4

/-- `BeginArgs` (receipts.rs:128). -/
structure BeginArgs where
  name : Bytes
  version : Bytes
  size : UInt64
  sha256 : Digest
  repo : Fin REPOS
  world : Bool

/-- `Staged` (receipts.rs:147), with the bytes received. -/
structure Staged where
  number : UInt32
  slot : Slot
  record : Record

/-- `Receipt` (receipts.rs:42): the bytes that came, and how many are written. -/
structure Receipt where
  number : UInt32
  size : Nat
  fed : Bytes
  written : Nat

/-- `Group` (receipts.rs:164); a staged package keeps the bytes of its object. -/
structure Group where
  owner : UInt64
  staged : List (Staged × Bytes)
  opened : Option (Receipt × Staged)
  numbers : UInt32

namespace Group

/-- `new` (receipts.rs:178). -/
def new : Group := ⟨0, [], none, 0⟩

/-- `release` (receipts.rs:207). -/
def release (g : Group) : Group := { new with numbers := g.numbers }

/-- The record of a package that begins (receipts.rs:281-293). -/
def recordOf (args : BeginArgs) (first : Nat) (now : UInt64) (name version : Field) : Record where
  kind := PACKAGE
  flags := if args.world then WORLD else DEPENDENCY
  repo := UInt8.ofNat args.repo
  first := UInt64.ofNat first
  blocks := UInt32.ofNat (args.size.toNat / BLOCK)
  length := args.size
  number := 0
  installed := now
  sha256 := args.sha256
  name
  version

/-- `begin` (receipts.rs:218). -/
def begin (g : Group) (owner : UInt64) (t : Table) (tableExtent : Extent) (diskBlocks : Nat) (args : BeginArgs)
    (now : UInt64) : Except Code Group :=
  if (g.owner ≠ 0 ∧ g.owner ≠ owner) ∨ g.opened.isSome then .error .busy
  else if GROUP_MAX ≤ g.staged.length then .error .invalid
  else if (Name.new args.name).isNone ∨ args.version.isEmpty ∨ (t.repo args.repo).isNone ∨
      g.staged.any (fun s => s.1.record.nameBytes == args.name) then .error .invalid
  else
    match toField args.name, toField args.version with
    | some name, some version =>
      if args.size.toNat < 2 * BLOCK ∨ args.size.toNat % BLOCK ≠ 0 then .error .badPackage
      else if 2 ^ 32 - 1 < args.size.toNat / BLOCK then .error .noSpace
      else
        match packageSlots.find? fun i => (t.record i).kind != PACKAGE && !(g.staged.any fun s => s.1.slot == i) with
        | none => .error .noSpace
        | some slot =>
          match findFree (t.occupied tableExtent) (g.staged.map fun s => s.1.record.extent) diskBlocks
              (args.size.toNat / BLOCK) with
          | none => .error .noSpace
          | some first =>
            let numbers := if g.numbers + 1 = 0 then 1 else g.numbers + 1
            let staged : Staged := ⟨numbers, slot, recordOf args first now name version⟩
            .ok { g with owner, numbers, opened := some (⟨numbers, args.size.toNat, [], 0⟩, staged) }
    | _, _ => .error .invalid

/-- `commit` (receipts.rs:301): the package of a receipt that is complete waits for the end of its group. -/
def commit (g : Group) (number : UInt32) : Except Code (Group × Staged × Bytes) :=
  match g.opened with
  | none => .error .invalid
  | some (receipt, staged) =>
    if receipt.number ≠ number then .error .invalid
    else if receipt.fed.length = receipt.size ∧ receipt.written = receipt.size then
      .ok ({ g with opened := none, staged := g.staged ++ [(staged, receipt.fed)] }, staged, receipt.fed)
    else .error .invalid

/-- One staged package into the table, the package of its name out (receipts.rs:334-346). -/
def place (t : Table) (s : Staged) : Table :=
  match slotOf t s.record.nameBytes with
  | none => t.setRecord s.slot s.record
  | some old => (t.setRecord old Record.empty).setRecord s.slot s.record

/-- `table` (receipts.rs:328). -/
def table (g : Group) (accepted : Table) : Table := (g.staged.map (·.1)).foldl place (nextOf accepted)

/-- The places that went, in order (receipts.rs:336-340). -/
def detached : Table → List Staged → List Slot
  | _, [] => []
  | t, s :: ss => (slotOf t s.record.nameBytes).toList ++ detached (place t s) ss

end Group

/-! ## What a plan does to the table -/

/-- From `t` to `t'` with the records at the places in `fresh` new. -/
structure Step (n : Nat) (t t' : Table) (fresh : Slot → Prop) : Prop where
  generation : t'.generation = t.generation + 1
  laid : t'.Laid n
  kept : ∀ i, t'.Used i → ¬fresh i → t.Used i ∧ (t'.record i).extent = (t.record i).extent ∧
    (t'.record i).length = (t.record i).length

variable {n length : Nat} {t t' : Table} {number : UInt64} {images : List Entry} {name : Bytes} {i slot : Slot}
  {flags : UInt8} {extent : Extent} {sha256 : Digest} {g : Group} {args : BeginArgs}

theorem nextOf_laid (h : t.Laid n) : (nextOf t).Laid n := h.setGeneration _

theorem serial_step (h : t.Laid n) {repository : Bytes}
    (hp : serial t repository number = .ok (some t')) : Step n t t' fun _ => False := by
  unfold serial at hp
  split at hp
  · cases hp
  dsimp only at hp
  split at hp
  · cases hp
  split at hp
  · cases hp
  split at hp
  · cases hp
  next i _ =>
  have ht' := Option.some.inj (Except.ok.inj hp)
  have hrec : ∀ j, t'.record j = t.record j := by
    intro j
    rw [← ht', setRepo]
    split <;> rfl
  refine ⟨?_, ht' ▸ (nextOf_laid h).setRepo i repository number, ?_⟩
  · rw [← ht', setRepo]
    split <;> rfl
  · intro j hj _
    rw [Table.Used, hrec j] at hj
    rw [hrec j]
    exact ⟨hj, rfl, rfl⟩

theorem clearSlots_spec (h : t.Laid n) (slots : List Slot) :
    (clearSlots t slots).generation = t.generation ∧ (clearSlots t slots).Laid n ∧
      ∀ i, (clearSlots t slots).Used i → t.Used i ∧ (clearSlots t slots).record i = t.record i := by
  induction slots generalizing t with
  | nil => exact ⟨rfl, h, fun i hi => ⟨hi, rfl⟩⟩
  | cons s slots ih =>
    obtain ⟨hg, hl, hu⟩ := ih (h.setEmpty s)
    refine ⟨hg, hl, ?_⟩
    intro i hi
    obtain ⟨h1, h2⟩ := hu i hi
    have hne : i ≠ s := by
      rintro rfl
      exact used_setRecord_self.1 h1 rfl
    exact ⟨(used_setRecord_of_ne hne _).1 h1, h2.trans (record_setRecord_of_ne hne _)⟩

theorem remove_step (h : t.Laid n) {entries : List Entry} {names : List Bytes} {slots : List Slot}
    (hp : remove t entries images names = .ok (slots, t')) : Step n t t' fun _ => False := by
  unfold remove at hp
  split at hp
  · cases hp
  split at hp
  · cases hp
  next gone _ _ =>
  have ht' := (Prod.mk.inj (Except.ok.inj hp)).2
  obtain ⟨hg, hl, hu⟩ := clearSlots_spec (nextOf_laid h) (gone.map (·.2))
  rw [ht'] at hg hl hu
  refine ⟨hg, hl, ?_⟩
  intro i hi _
  obtain ⟨h1, h2⟩ := hu i hi
  exact ⟨h1, congrArg Record.extent h2, congrArg Record.length h2⟩

theorem slotOf_eq_some (h : slotOf t name = some i) :
    i.val < PACKAGES ∧ (t.record i).kind = PACKAGE ∧ (t.record i).nameBytes = name := by
  have hmem := mem_of_find?_eq_some h
  have hp := find?_some h
  simp only [Bool.and_eq_true, beq_iff_eq] at hp
  simp only [packageSlots, mem_filter, mem_finRange, true_and, decide_eq_true_eq] at hmem
  exact ⟨hmem, hp⟩

theorem slotOf_eq_none (h : slotOf t name = none) (hi : i.val < PACKAGES)
    (hk : (t.record i).kind = PACKAGE) : (t.record i).nameBytes ≠ name := by
  have hall := find?_eq_none.1 h i (by simp [packageSlots, hi])
  intro hn
  simp [hk, hn] at hall

theorem used_of_package (hk : (t.record i).kind = PACKAGE) : t.Used i := by
  rw [Table.Used, hk]
  decide

/-- The flags "world" and "dependency" exchanged stay flags of a package. -/
theorem flags_world (h : flags &&& ~~~(WORLD ||| DEPENDENCY ||| REVOKED) = 0) (world : Bool) :
    (if world then (flags ||| WORLD) &&& ~~~DEPENDENCY else (flags &&& ~~~WORLD) ||| DEPENDENCY) &&&
      ~~~(WORLD ||| DEPENDENCY ||| REVOKED) = 0 := by
  obtain ⟨b⟩ := flags
  revert b world
  decide +kernel

theorem flags_revoked (h : flags &&& ~~~(WORLD ||| DEPENDENCY ||| REVOKED) = 0) (revoked : Bool) :
    (if revoked then flags ||| REVOKED else flags &&& ~~~REVOKED) &&& ~~~(WORLD ||| DEPENDENCY ||| REVOKED) = 0 := by
  obtain ⟨b⟩ := flags
  revert b revoked
  decide +kernel

theorem world_step (h : t.Laid n) {w : Bool}
    (hp : world t images name w = .ok (some (slot, t'))) : Step n t t' fun _ => False := by
  unfold world at hp
  split at hp
  · cases hp
  split at hp
  · cases hp
  next i hi =>
  dsimp only at hp
  split at hp
  · cases hp
  have ht' := (Prod.mk.inj (Option.some.inj (Except.ok.inj hp))).2
  have hu : t.Used i := used_of_package (slotOf_eq_some hi).2.1
  have hl : t'.Laid n := by
    rw [← ht']
    exact (nextOf_laid h).setFlags hu (flags_world (h.fine i hu).flags w)
  refine ⟨by rw [← ht']; rfl, hl, ?_⟩
  intro j hj _
  by_cases hne : j = i
  · subst hne
    rw [← ht', record_setRecord_self]
    exact ⟨hu, rfl, rfl⟩
  · rw [← ht'] at hj ⊢
    rw [record_setRecord_of_ne hne]
    exact ⟨(used_setRecord_of_ne hne _).1 hj, rfl, rfl⟩

/-- The blob of a job: some bytes, and few enough for the numbers of a record. -/
def BlobSize (length : Nat) : Prop := 0 < length ∧ length ≤ 2 ^ 16

theorem blobRecord_fine (hi : PACKAGES ≤ i.val) (hl : BlobSize length)
    (sha256 : Digest) (number : UInt64) :
    Table.Fine i (blobRecord (slotKind i) extent length sha256 number) where
  kind := rfl
  flags := (by decide : (0 : UInt8) &&& ~~~(WORLD ||| DEPENDENCY ||| REVOKED) = 0)
  length := by
    intro h
    have h0 := congrArg UInt64.toNat h
    have h1 := hl.1
    have h2 := hl.2
    change (UInt64.ofNat length).toNat = 0 at h0
    rw [UInt64.toNat_ofNat_of_lt' (by simp only [UInt64.size]; omega)] at h0
    omega
  blocks := by
    have h2 := hl.2
    simp only [blobRecord]
    rw [UInt64.toNat_ofNat_of_lt' (by simp only [UInt64.size]; omega),
      UInt32.toNat_ofNat_of_lt' (by simp only [UInt32.size, BLOCK]; omega)]
  named := fun h => absurd h (Nat.not_lt.2 hi)
  repo := fun _ => rfl

theorem blobRecord_extent {kind : UInt8}
    (hl : BlobSize length) (hn : n < 2 ^ 61) (hf : extent.Fits n) (he : extent.blocks = (length + (BLOCK - 1)) / BLOCK) :
    (blobRecord kind extent length sha256 number).extent = extent := by
  have h2 := hl.2
  have h3 := hf.2
  unfold Record.extent blobRecord
  rw [UInt64.toNat_ofNat_of_lt' (by simp only [UInt64.size]; omega),
    UInt32.toNat_ofNat_of_lt' (by simp only [UInt32.size, BLOCK]; omega), ← he]

/-- A step that brings a blob of `length` bytes at `extent` to the place `i`. -/
structure BlobStep (n : Nat) (t t' : Table) (i : Slot) (extent : Extent) (length : Nat) : Prop where
  step : Step n t t' (· = i)
  extent : (t'.record i).extent = extent
  length : (t'.record i).length.toNat = length

theorem blob_step (hn : n < 2 ^ 61) (h : t.Laid n) (hi : PACKAGES ≤ i.val)
    (hl : BlobSize length) (hf : extent.Fits n)
    (he : extent.blocks = (length + (BLOCK - 1)) / BLOCK)
    (ha : ∀ j, t.Used j → Apart extent (t.record j).extent) :
    BlobStep n t ((nextOf t).setRecord i (blobRecord (slotKind i) extent length sha256 number)) i extent
      length := by
  have h2 := hl.2
  refine ⟨⟨rfl, (nextOf_laid h).setRecord (blobRecord_fine hi hl sha256 number) ?_ ?_ ?_ ?_, ?_⟩, ?_, ?_⟩
  · exact fun hlt => absurd hlt (Nat.not_lt.2 hi)
  · exact fun j _ hlt => absurd hlt (Nat.not_lt.2 hi)
  · rw [blobRecord_extent hl hn hf he]
    exact hf
  · intro j _ huj
    rw [blobRecord_extent hl hn hf he]
    exact ha j huj
  · intro j hj hne
    rw [record_setRecord_of_ne hne]
    exact ⟨(used_setRecord_of_ne hne _).1 hj, rfl, rfl⟩
  · rw [record_setRecord_self]
    exact blobRecord_extent hl hn hf he
  · rw [record_setRecord_self]
    exact UInt64.toNat_ofNat_of_lt' (by simp only [UInt64.size]; omega)

theorem settings_step (hn : n < 2 ^ 61) (h : t.Laid n)
    (hl : BlobSize length) (hf : extent.Fits n) (he : extent.blocks = (length + (BLOCK - 1)) / BLOCK)
    (ha : ∀ j, t.Used j → Apart extent (t.record j).extent) :
    BlobStep n t (settings t extent length sha256) SETTINGS_SLOT extent length :=
  blob_step hn h (by decide) hl hf he ha

theorem flag_spec (h : t.Laid n) (revoked : Slot → Bool) (i : Slot) :
    (flag t revoked i).generation = t.generation ∧ (flag t revoked i).Laid n ∧
      ∀ j, ((flag t revoked i).Used j ↔ t.Used j) ∧
        ((flag t revoked i).record j).extent = (t.record j).extent ∧
        ((flag t revoked i).record j).length = (t.record j).length := by
  unfold flag
  dsimp only
  split
  · exact ⟨rfl, h, fun j => ⟨Iff.rfl, rfl, rfl⟩⟩
  next hk =>
  have hu : t.Used i := used_of_package (not_not.1 hk)
  refine ⟨rfl, h.setFlags hu (flags_revoked (h.fine i hu).flags (revoked i)), ?_⟩
  intro j
  by_cases hne : j = i
  · subst hne
    rw [used_setRecord_self, record_setRecord_self]
    exact ⟨Iff.rfl, rfl, rfl⟩
  · rw [used_setRecord_of_ne hne, record_setRecord_of_ne hne]
    exact ⟨Iff.rfl, rfl, rfl⟩

theorem foldl_flag_spec (h : t.Laid n) (revoked : Slot → Bool) (slots : List Slot) :
    (slots.foldl (fun t i => flag t revoked i) t).generation = t.generation ∧
      (slots.foldl (fun t i => flag t revoked i) t).Laid n ∧
      ∀ j, ((slots.foldl (fun t i => flag t revoked i) t).Used j ↔ t.Used j) ∧
        ((slots.foldl (fun t i => flag t revoked i) t).record j).extent = (t.record j).extent ∧
        ((slots.foldl (fun t i => flag t revoked i) t).record j).length = (t.record j).length := by
  induction slots generalizing t with
  | nil => exact ⟨rfl, h, fun j => ⟨Iff.rfl, rfl, rfl⟩⟩
  | cons i slots ih =>
    obtain ⟨hg, hl, hj⟩ := flag_spec h revoked i
    obtain ⟨hg', hl', hj'⟩ := ih hl
    refine ⟨hg'.trans hg, hl', ?_⟩
    intro j
    exact ⟨(hj' j).1.trans (hj j).1, (hj' j).2.1.trans (hj j).2.1, (hj' j).2.2.trans (hj j).2.2⟩

theorem revoked_step (hn : n < 2 ^ 61) (h : t.Laid n)
    {serial : UInt64} {flags : Slot → Bool} (hl : BlobSize length) (hf : extent.Fits n)
    (he : extent.blocks = (length + (BLOCK - 1)) / BLOCK)
    (ha : ∀ j, t.Used j → Apart extent (t.record j).extent)
    (hp : revoked t extent length sha256 serial flags = .ok t') : BlobStep n t t' REVOKED_SLOT extent length := by
  unfold revoked at hp
  dsimp only at hp
  split at hp
  · cases hp
  have ht' := Except.ok.inj hp
  have hb : BlobStep n t ((nextOf t).setRecord REVOKED_SLOT (blobRecord REVOKED_LIST extent length sha256 serial))
      REVOKED_SLOT extent length := blob_step hn h (by decide) hl hf he ha
  obtain ⟨hg, hlaid, hj⟩ := foldl_flag_spec hb.step.laid flags packageSlots
  rw [ht'] at hg hlaid hj
  refine ⟨⟨hg.trans hb.step.generation, hlaid, ?_⟩, (hj _).2.1.trans hb.extent, ?_⟩
  · intro j huj hne
    obtain ⟨h1, h2, h3⟩ := hb.step.kept j ((hj j).1.1 huj) hne
    exact ⟨h1, (hj j).2.1.trans h2, (hj j).2.2.trans h3⟩
  · rw [(hj _).2.2]
    exact hb.length

/-! ## The packages of a group -/

/-- A staged package that may come into `t`: its record keeps the rules, its place is free, its extent is clear. -/
structure Comes (n : Nat) (t : Table) (s : Staged) : Prop where
  package : s.slot.val < PACKAGES
  fine : Table.Fine s.slot s.record
  repo : t.hasRepo s.record.repo.toNat = true
  free : ¬t.Used s.slot
  fits : s.record.extent.Fits n
  apart : ∀ i, t.Used i → Apart s.record.extent (t.record i).extent

/-- Two staged packages that come together. -/
def Differ (s s' : Staged) : Prop :=
  s.slot ≠ s'.slot ∧ s.record.nameBytes ≠ s'.record.nameBytes ∧ Apart s.record.extent s'.record.extent

theorem Group.place_spec {s : Staged} (h : t.Laid n) (hs : Comes n t s) :
    (place t s).generation = t.generation ∧ (place t s).Laid n ∧
      (∀ k, (place t s).hasRepo k = t.hasRepo k) ∧ (place t s).record s.slot = s.record ∧
      (∀ i, i ≠ s.slot → (place t s).Used i → t.Used i ∧ (place t s).record i = t.record i) ∧
      ∀ i, i ≠ s.slot → (t.record i).nameBytes ≠ s.record.nameBytes → (place t s).record i = t.record i := by
  unfold place
  cases hold : slotOf t s.record.nameBytes with
  | none =>
    refine ⟨rfl, h.setRecord hs.fine (fun _ => hs.repo) ?_ hs.fits fun j _ huj => hs.apart j huj, fun _ => rfl,
      record_setRecord_self _ _ _, ?_, fun i hi _ => record_setRecord_of_ne hi _⟩
    · intro j _ _ hj huj
      exact slotOf_eq_none hold hj ((h.fine j huj).kind.trans (slotKind_eq_package hj))
    · intro i hi hu
      exact ⟨(used_setRecord_of_ne hi _).1 hu, record_setRecord_of_ne hi _⟩
  | some old =>
    obtain ⟨hold1, hold2, hold3⟩ := slotOf_eq_some hold
    have huold : t.Used old := used_of_package hold2
    have hused : ∀ i, (t.setRecord old Record.empty).Used i → i ≠ old ∧ t.Used i := by
      intro i hi
      have hne : i ≠ old := by
        rintro rfl
        exact used_setRecord_self.1 hi rfl
      exact ⟨hne, (used_setRecord_of_ne hne _).1 hi⟩
    refine ⟨rfl, (h.setEmpty old).setRecord hs.fine (fun _ => hs.repo) ?_ hs.fits ?_, fun _ => rfl,
      record_setRecord_self _ _ _, ?_, ?_⟩
    · intro j _ _ hj huj
      obtain ⟨hne, hu⟩ := hused j huj
      rw [record_setRecord_of_ne hne, ← hold3]
      exact h.names j old hne hj hold1 hu huold
    · intro j _ huj
      obtain ⟨hne, hu⟩ := hused j huj
      rw [record_setRecord_of_ne hne]
      exact hs.apart j hu
    · intro i hi hu
      obtain ⟨hne, hu'⟩ := hused i ((used_setRecord_of_ne hi _).1 hu)
      exact ⟨hu', (record_setRecord_of_ne hi _).trans (record_setRecord_of_ne hne _)⟩
    · intro i hi hname
      have hne : i ≠ old := fun hio => hname (hio ▸ hold3)
      exact (record_setRecord_of_ne hi _).trans (record_setRecord_of_ne hne _)

theorem Group.foldl_place_spec {ss : List Staged} (h : t.Laid n) (hs : ∀ s ∈ ss, Comes n t s)
    (hd : ss.Pairwise Differ) :
    (ss.foldl place t).generation = t.generation ∧ (ss.foldl place t).Laid n ∧
      (∀ s ∈ ss, (ss.foldl place t).record s.slot = s.record) ∧
      (∀ i, (∀ s ∈ ss, s.slot ≠ i) → (ss.foldl place t).Used i →
        t.Used i ∧ (ss.foldl place t).record i = t.record i) ∧
      ∀ i, (∀ s ∈ ss, s.slot ≠ i ∧ (t.record i).nameBytes ≠ s.record.nameBytes) →
        (ss.foldl place t).record i = t.record i := by
  induction ss generalizing t with
  | nil =>
    exact ⟨rfl, h, fun s hs => absurd hs not_mem_nil, fun i _ hu => ⟨hu, rfl⟩, fun _ _ => rfl⟩
  | cons s ss ih =>
    obtain ⟨hg, hl, hrepo, hself, hother, hname⟩ := place_spec h (hs s mem_cons_self)
    rw [pairwise_cons] at hd
    -- a package that waits finds its place and its extent clear of the one that came
    have hs' : ∀ s' ∈ ss, Comes n (place t s) s' := by
      intro s' hs'
      have hc := hs s' (mem_cons_of_mem s hs')
      obtain ⟨hslot, -, hapart⟩ := hd.1 s' hs'
      refine ⟨hc.package, hc.fine, (hrepo _).trans hc.repo, ?_, hc.fits, ?_⟩
      · exact fun hu => hc.free (hother s'.slot hslot.symm hu).1
      · intro i hu
        by_cases hi : i = s.slot
        · rw [hi, hself]
          exact hapart.symm
        · obtain ⟨h1, h2⟩ := hother i hi hu
          rw [h2]
          exact hc.apart i h1
    obtain ⟨hg', hl', hself', hother', hname'⟩ := ih hl hs' hd.2
    refine ⟨hg'.trans hg, hl', ?_, ?_, ?_⟩
    · intro s' hs'
      rcases mem_cons.1 hs' with rfl | hs'
      · refine (hname' s'.slot ?_).trans hself
        intro s'' hs''
        rw [hself]
        exact ⟨(hd.1 s'' hs'').1.symm, (hd.1 s'' hs'').2.1⟩
      · exact hself' s' hs'
    · intro i hi hu
      obtain ⟨h1, h2⟩ := hother' i (fun s' hs' => hi s' (mem_cons_of_mem s hs')) hu
      obtain ⟨h3, h4⟩ := hother i (hi s mem_cons_self).symm h1
      exact ⟨h3, h2.trans h4⟩
    · intro i hi
      have hi' := hi s mem_cons_self
      have h1 := hname i hi'.1.symm hi'.2
      refine (hname' i ?_).trans h1
      intro s' hs'
      rw [h1]
      exact hi s' (mem_cons_of_mem s hs')

theorem group_step (h : t.Laid n) (hs : ∀ s ∈ g.staged, Comes n t s.1)
    (hd : (g.staged.map (·.1)).Pairwise Differ) : Step n t (g.table t) fun i => ∃ s ∈ g.staged, s.1.slot = i := by
  have hs' : ∀ s ∈ g.staged.map (·.1), Comes n (nextOf t) s := by
    intro s hs'
    obtain ⟨x, hx, rfl⟩ := mem_map.1 hs'
    have hc := hs x hx
    exact ⟨hc.package, hc.fine, hc.repo, hc.free, hc.fits, hc.apart⟩
  obtain ⟨hg, hl, -, hother, -⟩ := Group.foldl_place_spec (nextOf_laid h) hs' hd
  refine ⟨hg, hl, ?_⟩
  intro i hu hi
  have hne : ∀ s ∈ g.staged.map (·.1), s.slot ≠ i := by
    intro s hs hsi
    obtain ⟨x, hx, rfl⟩ := mem_map.1 hs
    exact hi ⟨x, hx, hsi⟩
  obtain ⟨h1, h2⟩ := hother i hne hu
  exact ⟨h1, congrArg Record.extent h2, congrArg Record.length h2⟩

/-- The record of a staged package in the group's table. -/
theorem record_group (h : t.Laid n) (hs : ∀ s ∈ g.staged, Comes n t s.1)
    (hd : (g.staged.map (·.1)).Pairwise Differ) {s : Staged × Bytes} (hmem : s ∈ g.staged) :
    (g.table t).record s.1.slot = s.1.record := by
  have hs' : ∀ s ∈ g.staged.map (·.1), Comes n (nextOf t) s := by
    intro s hs'
    obtain ⟨x, hx, rfl⟩ := mem_map.1 hs'
    have hc := hs x hx
    exact ⟨hc.package, hc.fine, hc.repo, hc.free, hc.fits, hc.apart⟩
  exact (Group.foldl_place_spec (nextOf_laid h) hs' hd).2.2.1 s.1 (mem_map_of_mem hmem)

/-! ## A receipt that opens -/

theorem versionRule_byte {c : UInt8} (h : ((48 ≤ c && c ≤ 57) || (65 ≤ c && c ≤ 90) || (97 ≤ c && c ≤ 122) ||
    [46, 95, 43, 126, 45].contains c) = true) : (0x21 ≤ c && c < 0x7f) = true := by
  obtain ⟨b⟩ := c
  revert b
  decide +kernel

/-- A version of `meta` that fits a field is one of the store. -/
theorem versionOk_putField {v : Bytes} (hr : versionRule v = true) (hl : v.length ≤ 63) :
    versionOk (putField v) = true := by
  simp only [versionRule, Bool.and_eq_true, Bool.not_eq_true', isEmpty_eq_false_iff, decide_eq_true_eq,
    all_eq_true] at hr
  have hpos : 0 < v.length := length_pos_iff.2 hr.1.1
  unfold versionOk
  rw [show (putField v).head = (putField v)[0] from rfl, toNat_putField_zero hl, slice_putField_text hl,
    slice_putField_rest hl]
  simp only [Bool.and_eq_true, decide_eq_true_eq, all_eq_true]
  refine ⟨⟨⟨hpos, hl⟩, ?_⟩, ?_⟩
  · intro c hc
    simpa using versionRule_byte (hr.2 c hc)
  · simp [zeros]

/-- A package whose receipt is open: its extent is clear, and it may come once its version is that of its `meta`. -/
structure Opens (n : Nat) (t : Table) (s : Staged) : Prop where
  fits : s.record.extent.Fits n
  apart : ∀ i, t.Used i → Apart s.record.extent (t.record i).extent
  length : s.record.length.toNat = BLOCK * s.record.extent.blocks
  comes : versionRule s.record.versionBytes = true → Comes n t s

theorem toField_eq_some {text : Bytes} {f : Field} (h : toField text = some f) : text.length ≤ 63 ∧ f = putField text := by
  unfold toField at h
  split at h
  · cases h
  · exact ⟨by omega, (Option.some.inj h).symm⟩

theorem recordOf_opens {first : Nat} (now : UInt64) (number : UInt32)
    (hn : n < 2 ^ 61) (hname : (Name.new args.name).isSome) (hl : args.version.length ≤ 63)
    (hrepo : (t.repo args.repo).isSome) (hsize : 2 * BLOCK ≤ args.size.toNat) (hwhole : args.size.toNat % BLOCK = 0)
    (hblocks : args.size.toNat / BLOCK < 2 ^ 32) (hslot : slot.val < PACKAGES) (hfree : ¬t.Used slot)
    (hfits : (Extent.mk first (args.size.toNat / BLOCK)).Fits n)
    (hapart : ∀ i, t.Used i → Apart ⟨first, args.size.toNat / BLOCK⟩ (t.record i).extent) :
    Opens n t ⟨number, slot, Group.recordOf args first now (putField args.name) (putField args.version)⟩ ∧
      (Group.recordOf args first now (putField args.name) (putField args.version)).extent =
        ⟨first, args.size.toNat / BLOCK⟩ := by
  have hfirst : first ≤ n := Nat.le_of_add_right_le hfits.2
  have hextent : (Group.recordOf args first now (putField args.name) (putField args.version)).extent =
      ⟨first, args.size.toNat / BLOCK⟩ := by
    simp only [Record.extent, Group.recordOf]
    rw [UInt64.toNat_ofNat_of_lt' (by simp only [UInt64.size]; omega),
      UInt32.toNat_ofNat_of_lt' (by simp only [UInt32.size]; omega)]
  have hdiv := Nat.div_add_mod args.size.toNat BLOCK
  rw [hwhole] at hdiv
  refine ⟨⟨hextent ▸ hfits, fun i hi => hextent ▸ hapart i hi, ?_, ?_⟩, hextent⟩
  · rw [hextent]
    exact hdiv.symm
  intro hrule
  have hver : (Group.recordOf args first now (putField args.name) (putField args.version)).versionBytes = args.version :=
    fieldBytes_putField hl
  obtain ⟨name, hnew⟩ := Option.isSome_iff_exists.1 hname
  have htext : name.text = args.name := by
    unfold Name.new at hnew
    split at hnew
    · exact congrArg Name.text (Option.some.inj hnew).symm
    · cases hnew
  refine ⟨hslot, ⟨?_, ?_, ?_, ?_, ?_, ?_⟩, ?_, hfree, hextent ▸ hfits, fun i hi => hextent ▸ hapart i hi⟩
  · exact (Table.slotKind_eq_package hslot).symm
  · simp only [Group.recordOf]
    cases args.world <;> decide
  · intro h0
    have h1 : args.size.toNat = 0 := congrArg UInt64.toNat h0
    unfold BLOCK at hsize
    omega
  · simp only [Group.recordOf]
    rw [UInt32.toNat_ofNat_of_lt' (by simp only [UInt32.size]; omega)]
    unfold BLOCK at hwhole ⊢
    omega
  · intro _
    exact ⟨⟨name, congrArg putField htext⟩, versionOk_putField (hver ▸ hrule) hl⟩
  · intro hge
    exact absurd hslot (Nat.not_lt.2 hge)
  · have hlt : args.repo.val < REPOS := args.repo.2
    have hto : (Group.recordOf args first now (putField args.name) (putField args.version)).repo.toNat = args.repo.val :=
      UInt8.toNat_ofNat_of_lt' (by simp only [UInt8.size]; unfold REPOS at hlt; omega)
    rw [hto, Table.hasRepo, dif_pos hlt]
    exact hrepo

/-- **INSTALL_BEGIN opens a receipt on a place and an extent that nothing else has.** -/
theorem Group.begin_spec {g' : Group} {owner : UInt64} {tableExtent : Extent} {now : UInt64}
    (hn : n < 2 ^ 61) (h : t.Laid n) (hown : tableExtent.Fits n) (hstaged : ∀ s ∈ g.staged, s.1.record.extent.Fits n)
    (hb : g.begin owner t tableExtent n args now = .ok g') :
    ∃ numbers staged, g' = ⟨owner, g.staged, some (⟨numbers, args.size.toNat, [], 0⟩, staged), numbers⟩ ∧
      Opens n t staged ∧ Apart staged.record.extent tableExtent ∧ (∀ s ∈ g.staged, Differ s.1 staged) ∧
      staged.record.length = args.size ∧ (g.owner = 0 ∨ g.owner = owner) := by
  unfold Group.begin at hb
  split at hb
  · cases hb
  next hbusy =>
  split at hb
  · cases hb
  split at hb
  · cases hb
  next hbad =>
  split at hb
  next name version hfn hfv =>
    split at hb
    · cases hb
    next hsize =>
    split at hb
    · cases hb
    next hblocks =>
    split at hb
    · cases hb
    next slot hslot =>
    split at hb
    · cases hb
    next first hfirst =>
    obtain ⟨-, rfl⟩ := toField_eq_some hfn
    obtain ⟨hlv, rfl⟩ := toField_eq_some hfv
    have hfound := find?_some hslot
    have hmem := mem_of_find?_eq_some hslot
    simp only [packageSlots, mem_filter, mem_finRange, true_and, decide_eq_true_eq] at hmem
    simp only [Bool.and_eq_true, bne_iff_ne, Bool.not_eq_true', any_eq_false, beq_iff_eq] at hfound
    have hfree : ¬t.Used slot := by
      intro hu
      exact hfound.1 ((h.fine slot hu).kind.trans (Table.slotKind_eq_package hmem))
    have hs : SUPERS ≤ n := by
      have h1 := hown.1
      have h2 := hown.2
      omega
    have hfit : ∀ e ∈ t.occupied tableExtent ++ g.staged.map fun s => s.1.record.extent, e.first + e.blocks ≤ n := by
      intro e he
      rcases mem_append.1 he with he | he
      · rcases Table.mem_occupied.1 he with rfl | ⟨i, hi, rfl⟩
        · exact hown.2
        · exact (h.fits i hi).2
      · obtain ⟨s, hs, rfl⟩ := mem_map.1 he
        exact (hstaged s hs).2
    obtain ⟨hfits, hapart⟩ := findFree_spec (by omega) hfit hs hfirst
    simp only [not_or, Bool.not_eq_true, Option.isNone_eq_false_iff, any_eq_false, beq_iff_eq] at hbad
    rw [not_or] at hsize
    obtain ⟨hopens, hextent⟩ := recordOf_opens now (if g.numbers + 1 = 0 then 1 else g.numbers + 1) hn hbad.1
      hlv hbad.2.2.1 (Nat.not_lt.1 hsize.1) (not_not.1 hsize.2) (by omega) hmem hfree hfits
      fun i hi => hapart _ (mem_append.2 (.inl (Table.mem_occupied.2 (.inr ⟨i, hi, rfl⟩))))
    refine ⟨_, _, (Except.ok.inj hb).symm, hopens, ?_, ?_, rfl, ?_⟩
    · rw [hextent]
      exact hapart _ (mem_append.2 (.inl (Table.mem_occupied.2 (.inl rfl))))
    · intro s hs
      refine ⟨hfound.2 s hs, ?_, ?_⟩
      · intro hname
        refine hbad.2.2.2 s hs (hname.trans ?_)
        exact fieldBytes_putField (toField_eq_some hfn).1
      · rw [hextent]
        exact (hapart _ (mem_append.2 (.inr (mem_map.2 ⟨s, hs, rfl⟩)))).symm
    · rw [not_or, not_and_or, not_not, not_not] at hbusy
      exact hbusy.1
  next => cases hb

end Plans
