import Stafeto.Pkgd.Jobs

/-!
# What a start finds after the service ran (pkgd/src/commit.rs, jobs.rs)

From a store that `format` made, after any jobs and a loss of power anywhere among their operations, `open` finds
the table of the last transaction that returned, or of the one the power went in, with the files written for its
records. The number of the generation has 64 bits: the transaction that brings it round to 0 returns, and the next
start takes the state before it (`generation_comes_round`).

When a superblock's write or flush fails, the service goes on with the state it had while the medium may have the
next one. What it writes then can be in an extent the next one names (`settings_overwritten`); as long as no write
goes there, a start finds the accepted state or one that was tried after it.
-/

namespace Recovery

open ByteStr Pkgfmt Store CrashDisk Program Commit Plans Jobs Function List UInt64

variable {sha256 : Bytes → Digest} {parse : Bytes → Option Meta} {refusal : Bytes → Record → Option Code} {n k f : Nat}
  {h : Since} {s : Service} {blob : Bytes} {fs : List Fate}

/-- A start on the medium `m` of `n` blocks finds a store whose table is `t`, which passes the check, and the extent
of each record holds its file. -/
def Finds (sha256 : Bytes → Digest) (n : Nat) (m : Nat → Block) (t : Table) (files : Slot → Bytes) : Prop :=
  (∃ o, openStore sha256 (fun b => some (m b)) (ofNat n) = .store o t ∧
    t.check t.generation n o.tableExtent.first = .ok ()) ∧
    ∀ i, t.Used i → readFile m (t.record i) = files i

/-- A start finds the accepted state, or the state of the transaction the power went in. -/
def Atomic (sha256 : Bytes → Digest) (n : Nat) (m : Nat → Block) (h : Since) : Prop :=
  ∃ t files, Finds sha256 n m t files ∧
    (t = h.table ∧ files = h.files ∨ ∃ x ∈ h.tried, x.stop = some .lost ∧ t = x.table ∧ files = x.files)

/-- A start finds the accepted state, or that of a transaction tried after it. -/
def Tracked (sha256 : Bytes → Digest) (n : Nat) (m : Nat → Block) (h : Since) : Prop :=
  ∃ t files, Finds sha256 n m t files ∧
    (t = h.table ∧ files = h.files ∨ ∃ x ∈ h.tried, t = x.table ∧ files = x.files)

theorem check_of_sound (hn : n < 2 ^ 61) {t : Table} {own : Extent} (h : t.Sound n own)
    (hown : own.blocks = TABLE_BLOCKS) : t.check t.generation n own.first = .ok () := by
  obtain ⟨first, blocks⟩ := own
  subst hown
  have h2 := h.own_fits.2
  exact (Table.check_eq_ok_iff (by change first + TABLE_BLOCKS ≤ n at h2; omega)).2 ⟨rfl, h⟩

/-- **After a loss of power a start finds the accepted state or a transaction tried after it.** -/
theorem finds_of_crashed (hn : n < 2 ^ 61) {d : Disk Block} {st : State} {doubts : List Attempt}
    (hc : Crashed sha256 n d h st doubts) {m : Nat → Block} (hm : d.Survives (torn sha256) m)
    (hsha : ∀ x ∈ h.tried, x.stop = some .superIo → ∀ b, sha256 b = sha256 x.table.bytes → b = x.table.bytes) :
    ∃ t files, Finds sha256 n m t files ∧ (t = h.table ∧ files = h.files ∨
      ∃ x ∈ h.tried, (x.stop = some .superIo ∨ x.stop = some .lost) ∧ t = x.table ∧ files = x.files) := by
  have hsha' : ∀ a ∈ doubts, st.table.generation < a.table.generation →
      ∀ b, readTable (fun b => some (m b)) a.first = some b → sha256 b = sha256 a.table.bytes → b = a.table.bytes := by
    intro a ha _ b hb hab
    obtain ⟨x, hx, hstop, ht, -⟩ := hc.doubts a ha
    rcases hstop with hstop | ⟨-, hheld⟩
    · rw [← ht] at hab ⊢
      exact hsha x hx hstop b hab
    · rw [readTable_of_blocks fun i hi => hheld.survives hm hi] at hb
      exact (Option.some.inj hb).symm
  rcases hc.inv.openStore hn hm hsha' with hopen | ⟨a, ha, -, hopen⟩
  · have hs := hc.inv.stands
    exact ⟨st.table, st.files, ⟨⟨st.opened, hopen, check_of_sound hn hs.sound rfl⟩,
      fun i hi => hs.files.readFile hs.sound.toLaid hm hi⟩, .inl ⟨hc.table, hc.files⟩⟩
  · have hw := hc.inv.whole a ha
    obtain ⟨x, hx, hstop, ht, hf⟩ := hc.doubts a ha
    have hfirst : (a.state sha256 n st).opened.tableExtent = ⟨a.first, TABLE_BLOCKS⟩ := by
      simp only [Attempt.state, Opened.tableExtent, Attempt.superblock, superblockOf,
        toNat_first hn hw.sound.own_fits]
    refine ⟨a.table, a.files, ⟨⟨_, hopen, ?_⟩, fun i hi => hw.files.readFile hw.sound.toLaid hm hi⟩,
      .inr ⟨x, hx, hstop.imp id And.left, ht.symm, hf.symm⟩⟩
    rw [hfirst]
    exact check_of_sound hn hw.sound rfl

/-- What a run did is what was there before and what it tried. -/
theorem mem_foldl_add {tried : List Tried} {x : Tried} (hx : x ∈ (tried.foldl Since.add h).tried) :
    x ∈ h.tried ∨ x ∈ tried := by
  induction tried generalizing h with
  | nil => exact .inl hx
  | cons y tried ih =>
    rcases ih hx with hx | hx
    · unfold Since.add at hx
      split at hx
      · exact absurd hx not_mem_nil
      · rcases mem_append.1 hx with hx | hx
        · exact .inl hx
        · exact .inr (mem_singleton.1 hx ▸ mem_cons_self)
    · exact .inr (mem_cons_of_mem y hx)

theorem mem_sinceOf {tried : List Tried} {x : Tried} (hx : x ∈ (sinceOf tried).tried) : x ∈ tried :=
  (mem_foldl_add hx).resolve_left not_mem_nil

/-! ## From a store that was made -/

section
variable {device device' : Device} {opened : Opened} {table : Table} {jobs : List Job}

theorem formatted_inv (hblank : Blank sha256 device.blocks device.disk)
    (hformat : format sha256 device = (.ok (opened, table), device')) :
    SInv sha256 device.blocks (formattedService opened device') ∧
      Linked (formattedService opened device') ⟨formatted, fun _ => [], []⟩ := by
  have hmeets := format_triple (fun _ _ => trivial) device ⟨rfl, hblank⟩
  rw [hformat] at hmeets
  obtain ⟨hr, hb, hinv⟩ := hmeets
  obtain ⟨rfl, -⟩ := Prod.mk.inj hr
  exact ⟨⟨hb, hinv, formatted_laid, Staging.release (g := Group.new)⟩,
    ⟨rfl, rfl, fun a ha => absurd ha not_mem_nil⟩⟩

/-- A run in which no superblock failed has no doubts to be clear of. -/
theorem allClear_of_calm (jobs : List Job) (hn : n < 2 ^ 61)
    (hs : SInv sha256 n s) (hl : Linked s h)
    (hcalm : ∀ x ∈ h.tried, x.stop ≠ some .superIo)
    (hio : ∀ x ∈ (run sha256 parse refusal s jobs).2.2, x.stop ≠ some .superIo)
    (hgen : ∀ x ∈ (run sha256 parse refusal s jobs).2.2, x.stop = none → x.table.generation ≠ 0) :
    AllClear sha256 parse refusal s jobs := by
  induction jobs generalizing s h with
  | nil => trivial
  | cons job jobs ih =>
    have hclear : Clears sha256 s job := by
      intro a ha
      obtain ⟨x, hx, hstop, -⟩ := hl.doubts a ha
      exact absurd hstop (hcalm x hx)
    have hends := exec_ends parse refusal hn hs hl hclear
    refine ⟨hclear, ?_⟩
    unfold run at hio hgen
    generalize exec sha256 parse refusal s job = r at hends hio hgen
    obtain ⟨s', reply, tried⟩ := r
    cases reply with
    | lost => trivial
    | _ =>
      obtain ⟨hs', hl'⟩ := (hends fun x hx => hgen x (mem_append_left _ hx)).1 Reply.noConfusion
      refine ih hs' hl' ?_ (fun x hx => hio x (mem_append_right _ hx))
        fun x hx => hgen x (mem_append_right _ hx)
      intro x hx
      rcases mem_foldl_add hx with hx | hx
      · exact hcalm x hx
      · exact hio x (mem_append_left _ hx)

/-- **The package store is atomic and durable.** After a loss of power at any operation of any jobs, a start finds
the table of the last transaction that returned, or the next one when the power went inside a transaction, and each
record's extent has the bytes that were written for it. No transaction failed at the device, and none that returned
brought the generation round to 0. -/
theorem crash_atomic (hblank : Blank sha256 device.blocks device.disk)
    (hformat : format sha256 device = (.ok (opened, table), device'))
    (hio : ∀ x ∈ (run sha256 parse refusal (formattedService opened device') jobs).2.2,
      x.stop ≠ some .io ∧ x.stop ≠ some .superIo)
    (hgen : ∀ x ∈ (run sha256 parse refusal (formattedService opened device') jobs).2.2,
      x.stop = none → x.table.generation ≠ 0) {m : Nat → Block}
    (hm : (run sha256 parse refusal (formattedService opened device') jobs).1.device.disk.Survives (torn sha256) m) :
    Atomic sha256 device.blocks m (sinceOf (run sha256 parse refusal (formattedService opened device') jobs).2.2) := by
  have hn := device.blocks_lt
  obtain ⟨hs, hl⟩ := formatted_inv hblank hformat
  have hcalm := allClear_of_calm jobs hn hs hl (fun x hx => absurd hx not_mem_nil)
    (fun x hx => (hio x hx).2) hgen
  obtain ⟨-, st, doubts, hc⟩ := run_ends hn hs hl hcalm hgen
  have hsuper : ∀ x ∈ (sinceOf (run sha256 parse refusal (formattedService opened device') jobs).2.2).tried,
      x.stop ≠ some .superIo := fun x hx => (hio x (mem_sinceOf hx)).2
  obtain ⟨t, files, hfinds, hor⟩ := finds_of_crashed hn hc hm fun x hx hstop => absurd hstop (hsuper x hx)
  refine ⟨t, files, hfinds, hor.imp id ?_⟩
  rintro ⟨x, hx, hstop, ht, hf⟩
  exact ⟨x, hx, hstop.resolve_left (hsuper x hx), ht, hf⟩

/-- **The store after a device error.** Any write or flush may report a failure, done or not. When no job writes into
an extent that a transaction in doubt names, a start after any loss of power finds the accepted state or one tried
after it, and each record's extent has the bytes that were written for it. No other bytes have the hash of a table
whose superblock failed. -/
theorem crash_tracked (hblank : Blank sha256 device.blocks device.disk)
    (hformat : format sha256 device = (.ok (opened, table), device'))
    (hclear : AllClear sha256 parse refusal (formattedService opened device') jobs)
    (hgen : ∀ x ∈ (run sha256 parse refusal (formattedService opened device') jobs).2.2,
      x.stop = none → x.table.generation ≠ 0)
    (hsha : ∀ x ∈ (run sha256 parse refusal (formattedService opened device') jobs).2.2,
      x.stop = some .superIo → ∀ b, sha256 b = sha256 x.table.bytes → b = x.table.bytes) {m : Nat → Block}
    (hm : (run sha256 parse refusal (formattedService opened device') jobs).1.device.disk.Survives (torn sha256) m) :
    Tracked sha256 device.blocks m (sinceOf (run sha256 parse refusal (formattedService opened device') jobs).2.2) := by
  have hn := device.blocks_lt
  obtain ⟨hs, hl⟩ := formatted_inv hblank hformat
  obtain ⟨-, st, doubts, hc⟩ := run_ends hn hs hl hclear hgen
  obtain ⟨t, files, hfinds, hor⟩ := finds_of_crashed hn hc hm fun x hx => hsha x (mem_sinceOf hx)
  refine ⟨t, files, hfinds, hor.imp id ?_⟩
  rintro ⟨x, hx, -, ht, hf⟩
  exact ⟨x, hx, ht, hf⟩

end

/-! ## The generation comes round -/

/-- A disk of zeros with 17 blocks, whose next `fates` operations are done. -/
def zeroDisk (fates : List Fate) : Device := ⟨⟨fun _ => zeros BLOCK, []⟩, 136, fates, []⟩

theorem blocks_zeroDisk (fates : List Fate) : (zeroDisk fates).blocks = 17 := by
  change (136 : UInt64).toNat / 8 = 17
  decide

theorem blank_zeroDisk (fates : List Fate) : Blank sha256 (zeroDisk fates).blocks (zeroDisk fates).disk := by
  intro c
  refine ⟨zeros BLOCK, ⟨rfl, fun w hw => absurd hw not_mem_nil⟩, ?_⟩
  intro sb hsb
  have hmagic : slice (zeros BLOCK) 0 8 ≠ SUPER_MAGIC := by decide
  unfold Superblock.decode at hsb
  rw [if_pos (.inr hmagic)] at hsb
  cases hsb

def STAFETO : Bytes := [115, 116, 97, 102, 101, 116, 111]

/-- The table after `k` serials of the official repository. -/
def serialTable (k : Nat) : Table := (Table.init (ofNat (k + 1))).setRepo ⟨0, repos_pos⟩ STAFETO (ofNat k)

theorem serialTable_succ (k : Nat) :
    (nextOf (serialTable k)).setRepo ⟨0, by decide⟩ STAFETO (ofNat (k + 1)) = serialTable (k + 1) := by
  have hg : (ofNat (k + 1)) + 1 = ofNat (k + 1 + 1) := (ofNat_add (k+1) 1).symm
  apply Table.ext
  · exact hg
  · rfl
  · exact update_idem _ _ _

theorem repo_serialTable (k : Nat) : (serialTable k).repo ⟨0, by decide⟩ = some (STAFETO, ofNat k) := by
  rfl

theorem findRepo_serialTable (k : Nat) : (serialTable k).findRepo STAFETO = some ⟨0, by decide⟩ := by
  have hp : ((serialTable k).repo ⟨0, by decide⟩).any (·.1 == STAFETO) = true := by
    rw [repo_serialTable]
    rfl
  exact find?_cons_of_pos hp

theorem serial_serialTable (hk : k + 1 < 2 ^ 64) :
    serial (serialTable k) STAFETO (ofNat (k + 1)) = .ok (some (serialTable (k + 1))) := by
  have hlt : (ofNat k).toNat = k := toNat_ofNat_of_lt' (by simp only [size]; omega)
  have hlt' : (ofNat (k + 1)).toNat = k + 1 := toNat_ofNat_of_lt' (by simp only [size]; omega)
  have hname : ((Name.new STAFETO).isNone || decide (STAFETO.length > 31)) = false := by decide
  unfold serial
  rw [findRepo_serialTable, hname]
  dsimp only
  rw [Option.bind_some, repo_serialTable]
  dsimp [Option.map]
  rw [if_neg (by rw [lt_iff_toNat_lt]; omega),
    if_neg (by rw [← UInt64.toNat_inj]; omega), serialTable_succ]

theorem occupied_serialTable (k : Nat) (own : Extent) : (serialTable k).occupied own = [own] := by
  rfl

/-- The state of the worker after `k` serials on a device with operations for `f` more. -/
structure AfterSerials (sha256 : Bytes → Digest) (k f : Nat) (s : Service) : Prop where
  inv : SInv sha256 17 s
  table : s.table = serialTable k
  idle : s.group.owner = 0
  doubts : s.doubts = []
  fates : s.device.fates = replicate (9 * f) .done
  answers : s.device.answers = []
  place : s.opened.tableExtent.first = 2 ∨ s.opened.tableExtent.first = 7

theorem freeTableExtent_serialTable {o : Opened} (k' : Nat) (hb : o.superblock.blocks.toNat = 17)
    (hp : o.tableExtent.first = 2 ∨ o.tableExtent.first = 7) :
    ∃ first, freeTableExtent (serialTable k) (serialTable k') o = some first ∧ (first = 2 ∨ first = 7) := by
  unfold freeTableExtent
  rw [occupied_serialTable, occupied_serialTable, hb]
  have hown : o.tableExtent = ⟨o.tableExtent.first, 5⟩ := rfl
  rcases hp with hp | hp
  · rw [hown, hp]
    exact ⟨7, by decide, .inr rfl⟩
  · rw [hown, hp]
    exact ⟨2, by decide, .inl rfl⟩

variable (parse refusal)

/-- The next serial returns, and its table is the worker's. -/
theorem exec_serial (h : AfterSerials sha256 k (f + 1) s) (hk : k + 1 < 2 ^ 64) :
    ∃ s', apply sha256 s (serialTable (k + 1)) s.files ⟨.serial, 0, 0⟩ = (s', none) ∧
      exec sha256 parse refusal s (.serial STAFETO (ofNat (k + 1))) =
        (s', .done, [⟨serialTable (k + 1), s.files, none⟩]) ∧
      s'.table = serialTable (k + 1) ∧ s'.group = s.group ∧ s'.doubts = [] ∧
      s'.device.fates = replicate (9 * f) .done ∧ s'.device.answers = [] ∧
      (s'.opened.tableExtent.first = 2 ∨ s'.opened.tableExtent.first = 7) := by
  have hblocks : s.opened.superblock.blocks.toNat = 17 := by
    have hsb : s.opened.superblock = _ := h.inv.inv.stands.superblock
    rw [hsb]
    rfl
  obtain ⟨first, hfree, hfirst⟩ := freeTableExtent_serialTable (k + 1) hblocks h.place
  have hfates : s.device.fates = replicate 9 .done ++ replicate (9 * f) .done := by
    have h9 : 9 * (f + 1) = 9 + 9 * f := by omega
    rw [h.fates, h9, replicate_add]
  have hle : first + TABLE_BLOCKS ≤ s.device.blocks := by
    rw [h.inv.blocks]
    rcases hfirst with rfl | rfl <;> decide
  have hsupers : SUPERS ≤ s.device.blocks := by
    rw [h.inv.blocks]
    decide
  rw [← h.table] at hfree
  have htransact := transact_done sha256 ⟨.serial, 0, 0⟩ hfates h.answers hfree hle hsupers
  have happly := apply_of_transact s.files htransact
  refine ⟨_, happly, ?_, rfl, rfl, rfl, rfl, h.answers, ?_⟩
  · have hplan : planOf sha256 s (.serial STAFETO (ofNat (k + 1))) =
        .ok ⟨none, .ok (some (serialTable (k + 1), s.files, ⟨.serial, 0, 0⟩))⟩ := by
      simp only [planOf, h.table, serial_serialTable hk]
    simp only [exec, h.idle, hplan]
    exact enact_table happly
  · have htable : (ofNat first).toNat = first := by
      rcases hfirst with rfl | rfl <;> rfl
    change (ofNat first).toNat = 2 ∨ (ofNat first).toNat = 7
    rw [htable]
    exact hfirst

theorem calm (hd : s.doubts = []) : Linked s ⟨s.table, s.files, []⟩ ∧ ∀ job, Clears sha256 s job := by
  have hnone : ∀ a, a ∉ s.doubts := by simp [hd]
  exact ⟨⟨rfl, rfl, fun a ha => absurd ha (hnone a)⟩, fun job a ha => absurd ha (hnone a)⟩

theorem generation_serialTable (hk : k + 1 < 2 ^ 64) : (serialTable k).generation ≠ 0 := by
  intro h0
  have h1 : (ofNat (k + 1)).toNat = 0 := congrArg toNat h0
  rw [toNat_ofNat_of_lt' (by simp only [size]; omega)] at h1
  omega

theorem AfterSerials.step (h : AfterSerials sha256 k (f + 1) s) (hk : k + 2 < 2 ^ 64) :
    ∃ s', exec sha256 parse refusal s (.serial STAFETO (ofNat (k + 1))) =
        (s', .done, [⟨serialTable (k + 1), s.files, none⟩]) ∧ AfterSerials sha256 (k + 1) f s' := by
  obtain ⟨s', -, hexec, htable, hgroup, hdoubts, hfates, hanswers, hplace⟩ :=
    exec_serial parse refusal h (by omega)
  obtain ⟨hlinked, hclears⟩ := calm h.doubts
  have hends := exec_ends parse refusal (by decide) h.inv hlinked (hclears (.serial STAFETO (ofNat (k + 1))))
  rw [hexec] at hends
  have hgen : ∀ x ∈ [(⟨serialTable (k + 1), s.files, none⟩ : Tried)], x.stop = none → x.table.generation ≠ 0 := by
    intro x hx _
    obtain rfl := mem_singleton.1 hx
    exact generation_serialTable (by omega)
  exact ⟨s', hexec, ((hends hgen).1 Reply.noConfusion).1, htable, hgroup ▸ h.idle, hdoubts, hfates, hanswers, hplace⟩

/-- The serials from `k + 1` on, `count` of them. -/
def serialJobs (k count : Nat) : List Job := (range' k count).map fun i => .serial STAFETO (ofNat (i + 1))

/-- A run of serials that stays below the last generation. -/
theorem AfterSerials.runs (count : Nat) (h : AfterSerials sha256 k (count + f) s) (hk : k + count + 1 < 2 ^ 64) :
    ∃ s' tried, AfterSerials sha256 (k + count) f s' ∧ (∀ x ∈ tried, x.stop = none ∧ x.table.generation ≠ 0) ∧
      ∀ rest, (run sha256 parse refusal s (serialJobs k count ++ rest)).1 = (run sha256 parse refusal s' rest).1 ∧
        (run sha256 parse refusal s (serialJobs k count ++ rest)).2.2 =
          tried ++ (run sha256 parse refusal s' rest).2.2 := by
  induction count generalizing k s with
  | zero =>
    refine ⟨s, [], ?_, fun x hx => absurd hx not_mem_nil, fun rest => ⟨rfl, rfl⟩⟩
    rw [zero_add] at h
    exact h
  | succ count ih =>
    rw [add_right_comm] at h
    obtain ⟨s₁, hexec, h₁⟩ := h.step parse refusal (by omega)
    obtain ⟨s', tried, h', htried, hrun⟩ := ih h₁ (by omega)
    refine ⟨s', ⟨serialTable (k + 1), s.files, none⟩ :: tried, ?_, ?_, ?_⟩
    · rw [add_right_comm] at h'
      exact h'
    · intro x hx
      rcases mem_cons.1 hx with rfl | hx
      · exact ⟨rfl, generation_serialTable (by omega)⟩
      · exact htried x hx
    · intro rest
      have hcons : serialJobs k (count + 1) ++ rest =
          .serial STAFETO (ofNat (k + 1)) :: (serialJobs (k + 1) count ++ rest) := by
        rw [serialJobs]
        rfl
      obtain ⟨h1, h2⟩ := hrun rest
      rw [hcons, Jobs.run, hexec]
      dsimp only
      rw [h1, h2]
      exact ⟨rfl, rfl⟩

theorem afterSerials_formatted (sha256 : Bytes → Digest) (f : Nat) : ∃ opened device',
    format sha256 (zeroDisk (replicate (8 + 9 * f) .done)) = (.ok (opened, formatted), device') ∧
      AfterSerials sha256 0 f (formattedService opened device') := by
  have hfates : (zeroDisk (replicate (8 + 9 * f) .done)).fates =
      replicate 8 .done ++ replicate (9 * f) .done := replicate_add 8 (9 * f) _
  have hle : SUPERS + TABLE_BLOCKS ≤ (zeroDisk (replicate (8 + 9 * f) .done)).blocks := by
    rw [blocks_zeroDisk]
    decide
  have hformat := format_done sha256 hfates hle
  rw [blocks_zeroDisk] at hformat
  refine ⟨_, _, hformat, ?_⟩
  have hs := (formatted_inv (blank_zeroDisk _) hformat).1
  rw [blocks_zeroDisk] at hs
  exact ⟨hs, rfl, rfl, rfl, rfl, rfl, .inl rfl⟩

/-- The serial that brings the generation round returns, and a start finds the table before it. -/
theorem AfterSerials.last (h : AfterSerials sha256 (2 ^ 64 - 2) 1 s) :
    ∃ s', run sha256 parse refusal s (serialJobs (2 ^ 64 - 2) 1) =
        (s', [.done], [⟨serialTable (2 ^ 64 - 1), s.files, none⟩]) ∧
      ∀ m, s'.device.disk.Survives (torn sha256) m →
        openStore sha256 (fun b => some (m b)) 17 = .store s.opened (serialTable (2 ^ 64 - 2)) := by
  obtain ⟨s', happly, hexec, -⟩ := exec_serial parse refusal h (by decide)
  have hplan : planOf sha256 s (.serial STAFETO (ofNat (2 ^ 64 - 2 + 1))) =
      .ok ⟨none, .ok (some (serialTable (2 ^ 64 - 2 + 1), s.files, ⟨.serial, 0, 0⟩))⟩ := by
    simp only [planOf, h.table, serial_serialTable (k := 2 ^ 64 - 2) (by decide)]
  have hplanned := planOf_planned (by decide) h.inv hplan fun a ha => by
    rw [h.doubts] at ha
    exact absurd ha not_mem_nil
  have hnext := hplanned.next _ _ _ rfl s.device.disk fun first bytes hb => by cases hb
  have happlied := apply_spec (by decide) h.inv hnext ⟨.serial, 0, 0⟩
  rw [happly] at happlied
  refine ⟨s', ?_, ?_⟩
  · change run sha256 parse refusal s [.serial STAFETO (ofNat (2 ^ 64 - 2 + 1))] = _
    rw [run, hexec]
    rfl
  · intro m hm
    obtain ⟨device, a, hdisk, ha, hinv⟩ : ∃ device a, s'.device = device ∧ a.table = serialTable (2 ^ 64 - 2 + 1) ∧
        Inv sha256 17 device.disk s.state (a :: s.doubts) := by
      cases happlied with
      | done device a hb ha hd => exact ⟨device, a, rfl, ha.1, hd.1⟩
    rw [h.doubts] at hinv
    rw [hdisk] at hm
    have hold : ∀ a' ∈ [a], ¬s.state.table.generation < a'.table.generation := by
      intro a' ha' hlt
      obtain rfl := mem_singleton.1 ha'
      rw [ha] at hlt
      exact absurd hlt (Nat.not_lt_zero _)
    rcases hinv.openStore (by decide) hm fun a ha hlt => absurd hlt (hold a ha) with hopen | ⟨a', ha', hlt, -⟩
    · rw [← h.table]
      exact hopen
    · exact absurd hlt (hold a' ha')

/-- **A counterexample without the bound on the generation**: `2 ^ 64 - 1` serials from a new store all return, and the
start after them finds the table before the last. -/
theorem generation_comes_round : ∃ (device : Device) (jobs : List Job), ∀ (sha256 : Bytes → Digest)
    (parse : Bytes → Option Meta) (refusal : Bytes → Record → Option Code), Blank sha256 device.blocks device.disk ∧
    ∃ opened device', format sha256 device = (.ok (opened, formatted), device') ∧
      (∀ x ∈ (run sha256 parse refusal (formattedService opened device') jobs).2.2, x.stop = none) ∧
      ∃ m, (run sha256 parse refusal (formattedService opened device') jobs).1.device.disk.Survives (torn sha256) m ∧
        ¬Atomic sha256 device.blocks m
          (sinceOf (run sha256 parse refusal (formattedService opened device') jobs).2.2) := by
  refine ⟨zeroDisk (replicate (8 + 9 * (2 ^ 64 - 2 + 1)) .done), serialJobs 0 (2 ^ 64 - 2) ++ serialJobs (2 ^ 64 - 2) 1,
    ?_⟩
  intro sha256 parse refusal
  refine ⟨blank_zeroDisk _, ?_⟩
  obtain ⟨opened, device', hformat, h⟩ := afterSerials_formatted sha256 (2 ^ 64 - 2 + 1)
  refine ⟨opened, device', hformat, ?_⟩
  obtain ⟨s, tried, hs, htried, hrun⟩ := h.runs parse refusal (2 ^ 64 - 2) (by decide)
  rw [zero_add] at hs
  obtain ⟨s', hlast, hopen⟩ := hs.last parse refusal
  obtain ⟨h1, h2⟩ := hrun (serialJobs (2 ^ 64 - 2) 1)
  rw [h1, h2, hlast]
  refine ⟨?_, s'.device.disk.cached, fun b => Disk.cached_may, ?_⟩
  · intro x hx
    rcases mem_append.1 hx with hx | hx
    · exact (htried x hx).1
    · rw [mem_singleton.1 hx]
  · rintro ⟨t, files, ⟨⟨o, ho, -⟩, -⟩, hor⟩
    have hsince : sinceOf (tried ++ [⟨serialTable (2 ^ 64 - 1), s.files, none⟩]) =
        ⟨serialTable (2 ^ 64 - 1), s.files, []⟩ := by
      rw [sinceOf, foldl_append]
      rfl
    rw [hsince] at hor
    rw [blocks_zeroDisk] at ho
    have heq := (hopen _ fun b => Disk.cached_may).symm.trans ho
    have ht : serialTable (2 ^ 64 - 2) = t := (Start.store.inj heq).2
    rcases hor with ⟨ht', -⟩ | ⟨x, hx, -⟩
    · have hgen : (serialTable (2 ^ 64 - 2)).generation = (serialTable (2 ^ 64 - 1)).generation := by
        rw [ht, ht']
      exact absurd hgen (by decide)
    · exact absurd hx not_mem_nil

/-- Two serials on a device that does what it is told. -/
theorem crash_atomic_two_serials : ∃ opened device' m,
    format (fun _ => .replicate 32 0) (zeroDisk (replicate (8 + 9 * 2) .done)) = (.ok (opened, formatted), device') ∧
      (run (fun _ => .replicate 32 0) (fun _ => none) (fun _ _ => none) (formattedService opened device')
        (serialJobs 0 2)).1.device.disk.Survives (torn fun _ => .replicate 32 0) m ∧
      Atomic (fun _ => .replicate 32 0) (zeroDisk (replicate (8 + 9 * 2) .done)).blocks m
        (sinceOf (run (fun _ => .replicate 32 0) (fun _ => none) (fun _ _ => none) (formattedService opened device')
          (serialJobs 0 2)).2.2) := by
  obtain ⟨opened, device', hformat, h⟩ := afterSerials_formatted (fun _ => .replicate 32 0) 2
  obtain ⟨s', tried, -, htried, hrun⟩ := h.runs (f := 0) (fun _ => none) (fun _ _ => none) 2 (by decide)
  have hall : ∀ x ∈ (run (fun _ => .replicate 32 0) (fun _ => none) (fun _ _ => none) (formattedService opened device')
      (serialJobs 0 2)).2.2, x.stop = none ∧ x.table.generation ≠ 0 := by
    intro x hx
    have htrace := (hrun []).2
    rw [append_nil] at htrace
    rw [htrace] at hx
    exact htried x ((mem_append.1 hx).resolve_right not_mem_nil)
  refine ⟨opened, device', _, hformat, fun b => Disk.cached_may, ?_⟩
  refine crash_atomic (blank_zeroDisk _) hformat ?_ (fun x hx _ => (hall x hx).2) fun b => Disk.cached_may
  intro x hx
  rw [(hall x hx).1]
  exact ⟨by decide, by decide⟩

/-! ## A settings blob over one in doubt -/

/-- The empty settings blob: the signature, the version, no file. -/
def noSettings : Bytes := [83, 84, 65, 70, 83, 69, 84, 49] ++ le 4 1 ++ le 4 0

/-- The blob whose one file, `repositories`, is the line `disable a`. -/
def disableA : Bytes :=
  [83, 84, 65, 70, 83, 69, 84, 49] ++ le 4 1 ++ le 4 1 ++ le 2 12 ++
    [114, 101, 112, 111, 115, 105, 116, 111, 114, 105, 101, 115] ++ le 4 10 ++
    [100, 105, 115, 97, 98, 108, 101, 32, 97, 10]

/-- Every operation is done up to the flush after the superblock of the first blob, which reports a failure and took
effect; the write of the second blob is done, and then the power goes. -/
def doubtFates : List Fate := replicate 8 .done ++ (replicate 9 .done ++ [.failed fun _ => true, .done])

def doubtJobs : List Job := [.settings noSettings none false, .settings disableA none false]

/-- The table of a settings blob in a new store. -/
def settingsTable (sha256 : Bytes → Digest) (blob : Bytes) : Table :=
  settings formatted (blobExtent 7 blob.length) blob.length (sha256 blob)

theorem occupied_settingsTable (blob : Bytes) (own : Extent) :
    (settingsTable sha256 blob).occupied own =
      gather [own, (blobRecord SETTINGS (blobExtent 7 blob.length) blob.length (sha256 blob) 0).extent] := rfl

/-- The worker of a new store of 17 blocks, whatever failed before. -/
structure Fresh (s : Service) : Prop where
  table : s.table = formatted
  own : s.opened.tableExtent = ⟨2, 5⟩
  blocks : s.opened.superblock.blocks = 17
  idle : s.group.owner = 0
  device : s.device.blocks = 17
  answers : s.device.answers = []

variable (sha256)

/-- A blob of one block is written at block 7; then comes its transaction. -/
theorem Fresh.exec_settings (h : Fresh s) {v : Block}
    (hsize : 0 < blob.length ∧ blob.length ≤ BLOCK) (hv : fileBlocks blob = [v]) (hf : s.device.fates = .done :: fs) :
    let s' : Service := { s with device := { s.device with disk := s.device.disk.write 7 v, fates := fs } }
    let files := update s.files SETTINGS_SLOT blob
    let r := apply sha256 s' (settingsTable sha256 blob) files ⟨.settings, 0, 1⟩
    exec sha256 parse refusal s (.settings blob none false) =
      (r.1, .of r.2, [⟨settingsTable sha256 blob, files, r.2⟩]) := by
  intro s' files r
  have hextent : extentFor s ((blob.length + (BLOCK - 1)) / BLOCK) = some 7 := by
    have hone : (blob.length + (BLOCK - 1)) / BLOCK = 1 := by
      unfold BLOCK at hsize ⊢
      omega
    rw [hone, extentFor, h.table, h.own, h.device]
    decide
  have hplan : planOf sha256 s (.settings blob none false) =
      .ok ⟨some (7, blob), .ok (some (settingsTable sha256 blob, files, ⟨.settings, 0, 1⟩))⟩ := by
    have hmax : ¬(blob.length = 0 ∨ SETTINGS_MAX < blob.length) := by
      unfold SETTINGS_MAX
      unfold BLOCK at hsize
      omega
    simp only [planOf, if_neg hmax, hextent, h.table]
    rfl
  have hwrite : writePlan ⟨some (7, blob), .ok (some (settingsTable sha256 blob, files, ⟨.settings, 0, 1⟩))⟩ s.device =
      (.ok (), { s.device with disk := s.device.disk.write 7 v, fates := fs }) :=
    writeBlob_done hv hf (by rw [h.device]; decide)
  simp only [exec, h.idle, hplan, enact, hwrite]
  rfl

theorem freeTableExtent_settingsTable {o : Opened} (ho : o.tableExtent = ⟨2, 5⟩) (hb : o.superblock.blocks = 17) :
    freeTableExtent formatted (settingsTable sha256 noSettings) o = some 8 := by
  have hrec : (blobRecord SETTINGS (blobExtent 7 noSettings.length) noSettings.length (sha256 noSettings) 0).extent =
      ⟨7, 1⟩ := rfl
  unfold freeTableExtent
  rw [occupied_settingsTable, hrec, ho, hb]
  decide

/-- The block of a blob shorter than it. -/
def blobBlock (blob : Bytes) : Block := blob ++ zeros (BLOCK - blob.length)

theorem fileBlocks_short (hsize : 0 < blob.length ∧ blob.length ≤ BLOCK) :
    fileBlocks blob = [blobBlock blob] := by
  have hone : (blob.length + (BLOCK - 1)) / BLOCK = 1 := by
    unfold BLOCK at hsize ⊢
    omega
  have hlen : (blob ++ zeros (BLOCK - blob.length)).length = BLOCK := by
    rw [length_append, length_zeros]
    omega
  unfold fileBlocks
  rw [hone]
  change [slice (blob ++ zeros (BLOCK - blob.length)) (BLOCK * 0) BLOCK] = _
  rw [Nat.mul_zero, slice_self _ hlen, blobBlock]

/-- The first blob: its table is in doubt, and the flush put all of it on the medium. -/
theorem Fresh.doubt (h : Fresh s)
    (hf : s.device.fates = replicate 9 .done ++ (.failed (fun _ => true) :: fs)) :
    ∃ s', exec sha256 parse refusal s (.settings noSettings none false) =
        (s', .refused .io, [⟨settingsTable sha256 noSettings, update s.files SETTINGS_SLOT noSettings,
          some .superIo⟩]) ∧
      Fresh s' ∧ s'.opened = s.opened ∧ s'.files = s.files ∧ s'.device.fates = fs ∧
      s'.doubts = ⟨8, settingsTable sha256 noSettings, update s.files SETTINGS_SLOT noSettings⟩ :: s.doubts ∧
      s'.device.disk.cached ((1 - s.opened.copy : Fin 2) : Nat) =
        (superblockOf sha256 17 (settingsTable sha256 noSettings) 8).encode sha256 ∧
      s'.device.disk.CachedAll 8 (tableBlocks (settingsTable sha256 noSettings)) := by
  have hsize : 0 < noSettings.length ∧ noSettings.length ≤ BLOCK := by decide
  have hf' : s.device.fates = .done :: (replicate 8 .done ++ (.failed (fun _ => true) :: fs)) := hf
  have hexec := h.exec_settings sha256 parse refusal hsize (fileBlocks_short hsize) hf'
  have hfree := freeTableExtent_settingsTable sha256 h.own h.blocks
  rw [← h.table] at hfree
  have hle : 8 + TABLE_BLOCKS ≤ s.device.blocks := by
    rw [h.device]
    decide
  have hsupers : SUPERS ≤ s.device.blocks := by
    rw [h.device]
    decide
  let device : Device := { s.device with
    disk := s.device.disk.write 7 (blobBlock noSettings), fates := replicate 8 .done ++ (.failed (fun _ => true) :: fs) }
  have htransact : transact sha256 s.opened s.table (settingsTable sha256 noSettings) ⟨.settings, 0, 1⟩ device = _ :=
    transact_failed sha256 rfl h.answers rfl hfree hle hsupers
  have hblocks : device.blocks = 17 := h.device
  rw [hblocks] at htransact
  have happly := apply_of_superIo (s := { s with device }) (update s.files SETTINGS_SLOT noSettings) hfree htransact
  dsimp only at hexec
  rw [happly] at hexec
  refine ⟨_, hexec, ⟨h.table, h.own, h.blocks, h.idle, h.device, h.answers⟩, rfl, rfl, rfl, rfl, ?_, ?_⟩
  · exact Disk.cached_flush.trans Disk.cached_write_self
  · intro i hi
    have hne : 8 + i ≠ ((1 - s.opened.copy : Fin 2) : Nat) := by
      omega
    refine Disk.cached_flush.trans ((Disk.cached_write_of_ne hne).trans ?_)
    exact Disk.cached_flush.trans (Disk.cachedAll_writeAll i hi)

/-- The second blob: it is written over the first one, and the power goes. -/
theorem Fresh.lost (h : Fresh s) (hf : s.device.fates = [.done]) :
    ∃ s', exec sha256 parse refusal s (.settings disableA none false) =
        (s', .lost, [⟨settingsTable sha256 disableA, update s.files SETTINGS_SLOT disableA, some .lost⟩]) ∧
      s'.device.disk = s.device.disk.write 7 (blobBlock disableA) := by
  have hsize : 0 < disableA.length ∧ disableA.length ≤ BLOCK := by decide
  have hexec := h.exec_settings sha256 parse refusal hsize (fileBlocks_short hsize) hf
  exact ⟨_, hexec, rfl⟩

theorem used_settingsTable : (settingsTable sha256 blob).Used SETTINGS_SLOT := by
  change SETTINGS ≠ EMPTY
  decide

theorem readFile_settingsTable (m : Nat → Block) :
    readFile m ((settingsTable sha256 noSettings).record SETTINGS_SLOT) = (m 7).take 16 := by
  change ([m 7] : List Block).flatten.take 16 = _
  rw [flatten_singleton]

/-- The second blob is found under the table of the first. -/
theorem Fresh.overwritten (h : Fresh s) (hs : SInv sha256 17 s) (hdoubts : s.doubts = [])
    (hf : s.device.fates = replicate 9 .done ++ [.failed fun _ => true, .done]) :
    ∃ m, (run sha256 parse refusal s doubtJobs).1.device.disk.Survives (torn sha256) m ∧
      ¬Tracked sha256 17 m (sinceOf (run sha256 parse refusal s doubtJobs).2.2) := by
  obtain ⟨s₁, hexec₁, h₁, hopened, hfiles, hfates, hdoubts₁, hsuper, htable⟩ := h.doubt sha256 parse refusal hf
  obtain ⟨s₂, hexec₂, hdisk⟩ := h₁.lost sha256 parse refusal hfates
  have hrun : run sha256 parse refusal s doubtJobs = (s₂, [.refused .io, .lost],
      [⟨settingsTable sha256 noSettings, update s.files SETTINGS_SLOT noSettings, some .superIo⟩,
        ⟨settingsTable sha256 disableA, update s₁.files SETTINGS_SLOT disableA, some .lost⟩]) := by
    rw [doubtJobs, run, hexec₁]
    dsimp only
    rw [run, hexec₂]
    rfl
  -- the state stands after the first blob, and the second one is clear of it
  obtain ⟨hlinked, hclears⟩ := calm hdoubts
  have hends := exec_ends parse refusal (by decide) hs hlinked (hclears (.settings noSettings none false))
  rw [hexec₁] at hends
  have hs₁ := ((hends fun x hx hstop => by
    obtain rfl := mem_singleton.1 hx
    cases hstop).1 Reply.noConfusion).1
  have hstands : Stands sha256 17 s₂.device.disk s₁.state := by
    rw [hdisk]
    refine hs₁.inv.stands.write ?_ ?_ ?_
    · have hc : (s₁.opened.copy : Nat) < 2 := s₁.opened.copy.2
      omega
    · change ¬s₁.opened.tableExtent.Has 7
      rw [h₁.own]
      exact fun hhas => absurd hhas.2 (by decide)
    · intro i hi
      change s₁.table.Used i at hi
      rw [h₁.table] at hi
      exact absurd hi (not_used_formatted i)
  have hmay : s₂.device.disk.Survives (torn sha256) s₂.device.disk.cached := fun b => Disk.cached_may
  have hcached : ∀ b, b ≠ 7 → s₂.device.disk.cached b = s₁.device.disk.cached b := by
    intro b hb
    rw [hdisk]
    exact Disk.cached_write_of_ne hb
  -- the start takes the table of the first blob
  let a : Attempt := ⟨8, settingsTable sha256 noSettings, update s.files SETTINGS_SLOT noSettings⟩
  have hwhole := hs₁.inv.whole a (by rw [hdoubts₁]; exact mem_cons_self)
  have hread : readTable (fun b => some (s₂.device.disk.cached b)) a.first = some a.table.bytes := by
    refine readTable_of_blocks fun i hi => ?_
    rw [hcached _ (by change 8 + i ≠ 7; omega)]
    exact htable i hi
  have hlt : s₁.state.table.generation < a.table.generation := by
    change s₁.table.generation < _
    rw [h₁.table]
    change (1 : UInt64) < 1 + 1
    decide
  have hopen := hstands.openStore_newer (by decide) hmay hwhole.sound hlt ?_ hread fun _ => rfl
  · rw [if_pos rfl] at hopen
    refine ⟨s₂.device.disk.cached, ?_, ?_⟩
    · rw [hrun]
      exact hmay
    · rw [hrun]
      rintro ⟨t, files, ⟨⟨o, ho, -⟩, hread⟩, hor⟩
      obtain rfl : settingsTable sha256 noSettings = t := (Start.store.inj (hopen.symm.trans ho)).2
      have hfile := hread SETTINGS_SLOT (used_settingsTable sha256)
      rcases hor with ⟨ht, -⟩ | ⟨x, hx, ht, hf⟩
      · exact used_settingsTable sha256 (congrArg (fun t => (t.record SETTINGS_SLOT).kind) ht)
      · rcases mem_cons.1 hx with rfl | hx
        · rw [hf, readFile_settingsTable, hdisk, Disk.cached_write_self] at hfile
          dsimp only at hfile
          rw [update_self] at hfile
          exact absurd hfile (by decide)
        · obtain rfl := mem_singleton.1 hx
          have hlen : ofNat noSettings.length = ofNat disableA.length :=
            congrArg (fun t => (t.record SETTINGS_SLOT).length) ht
          exact absurd hlen (by decide)
  · change s₂.device.disk.cached ((1 - s₁.opened.copy : Fin 2) : Nat) = _
    have hne : ((1 - s₁.opened.copy : Fin 2) : Nat) ≠ 7 := by
      have hc : ((1 - s₁.opened.copy : Fin 2) : Nat) < 2 := (1 - s₁.opened.copy).2
      omega
    rw [hcached _ hne, hopened]
    exact hsuper

theorem fresh_formatted (sha256 : Bytes → Digest) : ∃ opened device',
    format sha256 (zeroDisk doubtFates) = (.ok (opened, formatted), device') ∧
      Fresh (formattedService opened device') ∧ SInv sha256 17 (formattedService opened device') ∧
      device'.fates = replicate 9 .done ++ [.failed fun _ => true, .done] := by
  have hle : SUPERS + TABLE_BLOCKS ≤ (zeroDisk doubtFates).blocks := by
    decide
  have hfates : (zeroDisk doubtFates).fates =
      replicate 8 .done ++ (replicate 9 .done ++ [.failed fun _ => true, .done]) := rfl
  have hformat := format_done sha256 hfates hle
  have hs := (formatted_inv (blank_zeroDisk _) hformat).1
  rw [blocks_zeroDisk] at hs
  exact ⟨_, _, hformat, ⟨rfl, rfl, rfl, rfl, hs.blocks, rfl⟩, hs, rfl⟩

/-- **A counterexample when a job writes into an extent in doubt**: the superblock of the first settings blob is on the
medium though its flush failed, the second blob is written where the first one was, and the power goes. The start
finds the table of the first blob, whose extent has the second. -/
theorem settings_overwritten : ∃ (device : Device) (jobs : List Job), ∀ (sha256 : Bytes → Digest)
    (parse : Bytes → Option Meta) (refusal : Bytes → Record → Option Code), Blank sha256 device.blocks device.disk ∧
    ∃ opened device', format sha256 device = (.ok (opened, formatted), device') ∧
      ∃ m, (run sha256 parse refusal (formattedService opened device') jobs).1.device.disk.Survives (torn sha256) m ∧
        ¬Tracked sha256 device.blocks m
          (sinceOf (run sha256 parse refusal (formattedService opened device') jobs).2.2) := by
  refine ⟨zeroDisk doubtFates, doubtJobs, ?_⟩
  intro sha256 parse refusal
  obtain ⟨opened, device', hformat, hfresh, hs, hfates⟩ := fresh_formatted sha256
  refine ⟨blank_zeroDisk _, opened, device', hformat, ?_⟩
  exact hfresh.overwritten sha256 parse refusal hs rfl hfates

/-- A hash that keeps the table of the first blob apart from all other bytes. -/
def markHash (b : Bytes) : Digest :=
  if b = (settings formatted (blobExtent 7 16) 16 (.replicate 32 0)).bytes then .replicate 32 1 else .replicate 32 0

theorem settingsTable_markHash :
    settingsTable markHash noSettings = settings formatted (blobExtent 7 16) 16 (.replicate 32 0) := by
  rfl

theorem eq_of_markHash {b : Bytes} (h : markHash b = markHash (settingsTable markHash noSettings).bytes) :
    b = (settingsTable markHash noSettings).bytes := by
  rw [settingsTable_markHash] at h
  by_contra hne
  have h0 : markHash b = .replicate 32 0 := if_neg hne
  have h1 : markHash (settings formatted (blobExtent 7 16) 16 (.replicate 32 0)).bytes = .replicate 32 1 := if_pos rfl
  rw [h0, h1] at h
  exact absurd h (by decide)

/-- The first blob, whose superblock failed and is on the medium, and a job that leaves what is in doubt alone. -/
theorem crash_tracked_settings : ∃ opened device' m,
    format markHash (zeroDisk doubtFates) = (.ok (opened, formatted), device') ∧
      (run markHash (fun _ => none) (fun _ _ => none) (formattedService opened device')
        [.settings noSettings none false, .cancel]).1.device.disk.Survives (torn markHash) m ∧
      Tracked markHash (zeroDisk doubtFates).blocks m
        (sinceOf (run markHash (fun _ => none) (fun _ _ => none) (formattedService opened device')
          [.settings noSettings none false, .cancel]).2.2) := by
  obtain ⟨opened, device', hformat, hfresh, -, hfates⟩ := fresh_formatted markHash
  obtain ⟨s₁, hexec, -⟩ := hfresh.doubt markHash (fun _ => none) (fun _ _ => none) hfates
  have hclear : AllClear markHash (fun _ => none) (fun _ _ => none) (formattedService opened device')
      [.settings noSettings none false, .cancel] := by
    refine ⟨fun a ha => absurd ha not_mem_nil, ?_⟩
    rw [hexec]
    exact ⟨fun a _ i _ e he => absurd he not_mem_nil, trivial⟩
  have htried : ∀ x ∈ (run markHash (fun _ => none) (fun _ _ => none) (formattedService opened device')
      [.settings noSettings none false, .cancel]).2.2, x.table = settingsTable markHash noSettings ∧ x.stop ≠ none := by
    rw [run, hexec]
    intro x hx
    obtain rfl := mem_singleton.1 hx
    exact ⟨rfl, nofun⟩
  refine ⟨opened, device', _, hformat, fun b => Disk.cached_may, ?_⟩
  refine crash_tracked (blank_zeroDisk _) hformat hclear ?_ ?_ fun b => Disk.cached_may
  · exact fun x hx hstop => absurd hstop (htried x hx).2
  · intro x hx _ b hb
    rw [(htried x hx).1] at hb ⊢
    exact eq_of_markHash hb

end Recovery
