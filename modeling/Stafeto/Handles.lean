import Stafeto.Abi
import Stafeto.Lib.Bits
import Stafeto.Lib.Chain

/-!
# Handle tables (kcore/src/handles.rs)

A table keeps its entries in chunks of 64, which a directory finds. A handle is the index of an entry and
the generation the entry had; a freed entry goes to the next generation and to the free list, or retires
after its last one. A release takes the table apart from its last chunk, a few entries a step.

Every function of the source gives its result and the next table, or `none` where the source panics. The
memory comes from a chunk source that may refuse it at any call; a chunk is kept by value in the directory.

`handles_safe` compares the table, after any sequence of calls, with a log that only notes what the calls
returned: which handles were given out since the table was fresh, and which of them were neither removed
nor reached by a release.
-/

namespace Handles

open Abi Bits Chain Function List

def CHUNK : Nat := 64
def MAX_CHUNKS : Nat := 256
def MAX_HANDLES : Nat := CHUNK * MAX_CHUNKS
def NO_ENTRY : Nat := 2 ^ 32 - 1

/-- `Entry` (handles.rs:24). -/
structure Entry (T : Type) where
  object : Option T
  rights : Nat
  generation : Nat
  nextFree : Nat

variable {T : Type}

/-- An entry of a new chunk. -/
def Entry.fresh : Entry T := ⟨none, 0, 1, NO_ENTRY⟩

abbrev Chunk (T : Type) := Nat → Entry T

abbrev Directory (T : Type) := Nat → Option (Chunk T)

/-- `HandleTable` (handles.rs:83). -/
structure HandleTable (T : Type) where
  directory : Option (Directory T)
  chunkCount : Nat
  used : Nat
  limit : Nat
  freeHead : Nat
  live : Nat
  freeCount : Nat
  retired : Nat
  closing : Bool
  released : Nat

/-- What the chunk source gives in one call. -/
structure Source where
  directory : Bool
  chunk : Bool

/-- Memory of the chunk source: the chunk of a slot of the directory, or the directory. -/
inductive Memory where
  | chunk (c : Nat)
  | directory
  deriving DecidableEq

namespace HandleTable

/-- `new` (handles.rs:109). -/
def new (limit : Nat) : Except Error (HandleTable T) :=
  if MAX_HANDLES < limit then .error .invalidArgs
  else .ok ⟨none, 0, 0, limit, NO_ENTRY, 0, 0, 0, false, 0⟩

/-- `room` (handles.rs:161). -/
def room (t : HandleTable T) : Nat := if t.closing then 0 else t.freeCount + (t.limit - t.used)

/-- `chunk` (handles.rs:176), by its number. -/
def chunk (t : HandleTable T) (c : Nat) : Option (Chunk T) := t.directory.bind (· c)

/-- `entry` (handles.rs:183). -/
def entry (t : HandleTable T) (i : Nat) : Option (Entry T) := (t.chunk (i / CHUNK)).map (· (i % CHUNK))

/-- The slot of the directory for chunk `c` becomes `v`. -/
def setChunk (t : HandleTable T) (c : Nat) (v : Option (Chunk T)) : HandleTable T :=
  { t with directory := t.directory.map fun d => update d c v }

/-- A write through `entry_mut` (handles.rs:189). -/
def setEntry (t : HandleTable T) (i : Nat) (e : Entry T) : HandleTable T :=
  t.setChunk (i / CHUNK) ((t.chunk (i / CHUNK)).map fun k => update k (i % CHUNK) e)

/-- The chunk of `grow`, with the directory there. -/
def growChunk (t : HandleTable T) (src : Source) : Option (Except Error Unit × HandleTable T) :=
  if src.chunk then
    if t.chunkCount < MAX_CHUNKS then
      some (.ok (), { t.setChunk t.chunkCount (some fun _ => .fresh) with chunkCount := t.chunkCount + 1 })
    else none
  else some (.error .noMemory, t)

/-- `grow` (handles.rs:198). -/
def grow (t : HandleTable T) (src : Source) : Option (Except Error Unit × HandleTable T) :=
  if t.directory.isNone then
    if src.directory then { t with directory := some fun _ => none }.growChunk src
    else some (.error .noMemory, t)
  else t.growChunk src

/-- `reserve` (handles.rs:235). -/
def reserve (t : HandleTable T) (src : Source) (n : Nat) : Option (Except Error Unit × HandleTable T) :=
  if CHUNK < n then none
  else if t.room < n then some (.error .limitReached, t)
  else if t.chunkCount * CHUNK < t.used + (n - t.freeCount) then t.grow src
  else some (.ok (), t)

/-- The end of `insert` (handles.rs:273): the entry takes the object. -/
def place (t : HandleTable T) (index : Nat) (object : T) (rights : Nat) : Option (Except Error Nat × HandleTable T) :=
  (t.entry index).map fun e =>
    (.ok (Handle.new index e.generation),
      { t.setEntry index { e with object := some object, rights := rights } with live := t.live + 1 })

/-- `insert` (handles.rs:247). -/
def insert (t : HandleTable T) (src : Source) (object : T) (rights : Nat) :
    Option (Except Error Nat × HandleTable T) :=
  if t.closing then some (.error .limitReached, t)
  else if t.freeHead ≠ NO_ENTRY then
    (t.entry t.freeHead).bind fun e =>
      { t with freeHead := e.nextFree, freeCount := t.freeCount - 1 }.place t.freeHead object rights
  else if t.limit ≤ t.used then some (.error .limitReached, t)
  else if t.used = t.chunkCount * CHUNK then
    (t.grow src).bind fun
      | (.error e, t) => some (.error e, t)
      | (.ok (), t) => { t with used := t.used + 1 }.place t.used object rights
  else { t with used := t.used + 1 }.place t.used object rights

/-- `get` (handles.rs:280). -/
def get (t : HandleTable T) (h : Nat) : Option (Except Error (T × Nat)) :=
  if t.used ≤ Handle.index h then some (.error .badHandle)
  else
    (t.entry (Handle.index h)).map fun e =>
      match e.object with
      | some object => if e.generation = Handle.generation h then .ok (object, e.rights) else .error .badHandle
      | none => .error .badHandle

/-- `remove` (handles.rs:312). -/
def remove (t : HandleTable T) (h : Nat) : Option (Except Error (T × Nat) × HandleTable T) :=
  let i := Handle.index h
  if t.used ≤ i then some (.error .badHandle, t)
  else
    (t.entry i).map fun e =>
      if e.generation ≠ Handle.generation h then (.error .badHandle, t)
      else
        match e.object with
        | none => (.error .badHandle, t)
        | some object =>
          if e.generation = Handle.MAX_GENERATION then
            (.ok (object, e.rights),
              { t.setEntry i { e with object := none } with live := t.live - 1, retired := t.retired + 1 })
          else
            (.ok (object, e.rights),
              { t.setEntry i { e with object := none, generation := e.generation + 1, nextFree := t.freeHead } with
                live := t.live - 1, freeHead := i, freeCount := t.freeCount + 1 })

/-- The loop of `release_step` over a part of a chunk: the chunk, `live` and what `f` is handed. -/
def takeEntries (k : Chunk T) (live : Nat) : List Nat → Chunk T × Nat × List (T × Nat)
  | [] => (k, live, [])
  | i :: is =>
    match (k i).object with
    | none => takeEntries k live is
    | some object =>
      let (k', live', out) := takeEntries (update k i { k i with object := none }) (live - 1) is
      (k', live', (object, (k i).rights) :: out)

/-- The end of a release (handles.rs:434): empty and fresh, with its limit. -/
def finish (t : HandleTable T) : HandleTable T :=
  { t with directory := none, used := 0, freeHead := NO_ENTRY, live := 0, freeCount := 0, retired := 0,
           closing := false }

/-- The directory, where there is one. -/
def directoryMemory (t : HandleTable T) : List Memory := if t.directory.isSome then [.directory] else []

/-- `release_step` (handles.rs:385): whether the table has no memory any more, what `f` is handed, what goes back to
the chunk source, and the table. -/
def releaseStep (t : HandleTable T) (n : Nat) : Option (Bool × List (T × Nat) × List Memory × HandleTable T) :=
  if n = 0 then none
  else if t.chunkCount = 0 then some (true, [], t.directoryMemory, t.finish)
  else
    let c := t.chunkCount - 1
    let t := { t with closing := true, freeHead := NO_ENTRY, used := min t.used (c * CHUNK) }
    (t.chunk c).map fun k =>
      let cut := t.released + min n (CHUNK - t.released)
      let (k, live, out) := takeEntries k t.live (range' t.released (cut - t.released))
      if cut < CHUNK then (false, out, [], { t.setChunk c (some k) with live := live, released := cut })
      else
        let t := { t.setChunk c none with live := live, released := 0, chunkCount := c }
        if 0 < c then (false, out, [.chunk c], t) else (true, out, .chunk c :: t.directoryMemory, t.finish)

end HandleTable

open HandleTable Handle

/-! ## Sequences of calls -/

inductive Op (T : Type) where
  | insert (src : Source) (object : T) (rights : Nat)
  | get (h : Nat)
  | remove (h : Nat)
  | reserve (src : Source) (n : Nat)
  | releaseStep (n : Nat)

/-- The contracts: a transfer is at most a chunk, a step takes at least one entry. -/
def Op.Meets : Op T → Prop
  | .reserve _ n => n ≤ CHUNK
  | .releaseStep n => 1 ≤ n
  | _ => True

/-- What the calls returned since the table was fresh: the handles that `insert` gave out, the live ones
with what was inserted, and the entries whose last generation was removed. -/
structure Log (T : Type) where
  issued : List Nat
  live : Nat → Option (T × Nat)
  retired : List Nat

def Log.fresh : Log T := ⟨[], fun _ => none, []⟩

/-- After an insert that gave `h`. -/
def Log.inserted (g : Log T) (h : Nat) (object : T) (rights : Nat) : Log T :=
  { g with issued := h :: g.issued, live := update g.live h (some (object, rights)) }

/-- After the removal of `h`. -/
def Log.removed (g : Log T) (h : Nat) : Log T :=
  { g with
    live := update g.live h none
    retired := if generation h = Handle.MAX_GENERATION then index h :: g.retired else g.retired }

/-- After a release reached the entries from `cut` on. -/
def Log.reached (g : Log T) (cut : Nat) : Log T :=
  { g with live := fun h => if cut ≤ index h then none else g.live h }

/-- One call on the table, and its entry in the log. A step of a release that leaves the table with memory
reaches the handles of the last chunk. -/
def exec (t : HandleTable T) (g : Log T) : Op T → Option (HandleTable T × Log T)
  | .insert src object rights => (t.insert src object rights).map fun
    | (.ok h, t) => (t, g.inserted h object rights)
    | (.error _, t) => (t, g)
  | .get h => (t.get h).map fun _ => (t, g)
  | .remove h => (t.remove h).map fun
    | (.ok _, t) => (t, g.removed h)
    | (.error _, t) => (t, g)
  | .reserve src n => (t.reserve src n).map fun r => (r.2, g)
  | .releaseStep n => (t.releaseStep n).map fun
    | (true, _, _, t') => (t', Log.fresh)
    | (false, _, _, t') => (t', g.reached ((t.chunkCount - 1) * CHUNK))

def run (t : HandleTable T) (g : Log T) : List (Op T) → Option (HandleTable T × Log T)
  | [] => some (t, g)
  | op :: ops => (exec t g op).bind fun r => run r.1 r.2 ops

/-! ## Entries -/

/-- The entry `i`; where there is no chunk yet, what a new one would hold. -/
def slot (t : HandleTable T) (i : Nat) : Entry T := (t.entry i).getD .fresh

/-- What `get` finds. -/
def lookup (t : HandleTable T) (h : Nat) : Option (T × Nat) :=
  let e := slot t (index h)
  if index h < t.used ∧ e.generation = generation h then e.object.map (·, e.rights) else none

/-- How `get` returns it. -/
def answer : Option (T × Nat) → Except Error (T × Nat)
  | some p => .ok p
  | none => .error .badHandle

structure Shape (t : HandleTable T) : Prop where
  chunks : ∀ c, (t.chunk c).isSome ↔ c < t.chunkCount
  count : t.chunkCount ≤ MAX_CHUNKS
  used : t.used ≤ t.chunkCount * CHUNK
  limit : t.used ≤ t.limit ∧ t.limit ≤ MAX_HANDLES

variable {t t' : HandleTable T} {g : Log T} {i j c n h a : Nat} {e : Entry T} {k : Chunk T} {fl rest : List Nat}
  {p : T × Nat}

theorem Shape.entry (hS : Shape t) (hi : i < t.chunkCount * CHUNK) : t.entry i = some (slot t i) := by
  have hc : i / CHUNK < t.chunkCount := Nat.div_lt_of_lt_mul (by rw [mul_comm]; exact hi)
  obtain ⟨k, hk⟩ := Option.isSome_iff_exists.1 ((hS.chunks _).2 hc)
  simp [slot, HandleTable.entry, hk]

theorem Shape.entry_used (hS : Shape t) (hi : i < t.used) : t.entry i = some (slot t i) :=
  hS.entry (lt_of_lt_of_le hi hS.used)

theorem Shape.index_lt (hS : Shape t) (hi : i < t.used) : i < MAX_HANDLES := by
  have := hS.limit
  omega

theorem room_of_open (hc : t.closing = false) : t.room = t.freeCount + (t.limit - t.used) := by
  rw [room, hc]
  rfl

theorem chunk_setChunk {d : Nat} {v : Option (Chunk T)} :
    (t.setChunk c v).chunk d = if d = c ∧ t.directory.isSome then v else t.chunk d := by
  unfold setChunk chunk
  cases t.directory with
  | none => simp
  | some k =>
    by_cases hd : d = c
    · subst hd; simp
    · simp [hd]

theorem isSome_of_chunk (h : t.chunk c = some k) : t.directory.isSome := by
  unfold chunk at h
  cases hd : t.directory with
  | none => simp [hd] at h
  | some d => rfl

theorem slot_of_chunk (hk : t.chunk c = some k) (hj : j < CHUNK) :
    slot t (c * CHUNK + j) = k j := by
  unfold CHUNK at hj
  have h1 : (c * CHUNK + j) / CHUNK = c := by unfold CHUNK; omega
  have h2 : (c * CHUNK + j) % CHUNK = j := by unfold CHUNK; omega
  simp [slot, entry, h1, h2, hk]

theorem slot_setEntry (hi : t.entry i = some e) (e' : Entry T) (j : Nat) :
    slot (t.setEntry i e') j = if j = i then e' else slot t j := by
  obtain ⟨k, hk, _⟩ := Option.map_eq_some_iff.1 hi
  have hd := isSome_of_chunk hk
  unfold slot entry setEntry
  rw [chunk_setChunk]
  by_cases hc : j / CHUNK = i / CHUNK
  · rw [if_pos ⟨hc, hd⟩, hc, hk]
    simp only [Option.map_some]
    by_cases hj : j = i
    · subst hj; simp
    · have hm : j % CHUNK ≠ i % CHUNK := by
        unfold CHUNK at hc ⊢
        omega
      rw [update_of_ne hm, if_neg hj]
  · rw [if_neg (fun h => hc h.1), if_neg]
    rintro rfl
    exact hc rfl

theorem shape_setEntry (hS : Shape t) (e' : Entry T) : Shape (t.setEntry i e') := by
  refine ⟨fun c => ?_, hS.count, hS.used, hS.limit⟩
  unfold setEntry
  rw [chunk_setChunk]
  split
  case isTrue hc => rw [Option.isSome_map, hc.1]; exact hS.chunks _
  case isFalse => exact hS.chunks c

theorem get_eq (hS : Shape t) (h : Nat) :
    t.get h = some (answer (lookup t h)) := by
  unfold HandleTable.get lookup
  by_cases hu : index h < t.used
  · rw [if_neg (by omega), hS.entry_used (by omega)]
    simp only [Option.map_some, hu]
    cases (slot t (index h)).object with
    | none => simp [answer]
    | some o =>
      by_cases hg : (slot t (index h)).generation = generation h
      · simp [hg, answer]
      · simp [hg, answer]
  · simp [hu, answer]

/-! ## Growth -/

/-- More memory: the entries do not show it. -/
structure Grown (t t' : HandleTable T) : Prop where
  slot : slot t' = slot t
  shape : Shape t'
  rest : { t' with directory := t.directory, chunkCount := t.chunkCount } = t

theorem growChunk_spec (hS : Shape t) (hd : t.directory.isSome) (hc : t.chunkCount < MAX_CHUNKS) (src : Source) :
    ∃ r t', t.growChunk src = some (r, t') ∧ Grown t t' ∧ (r = .ok () ∧ t'.chunkCount = t.chunkCount + 1 ∨
      r = .error .noMemory ∧ { t' with directory := t.directory } = t ∧ t'.entry = t.entry) := by
  unfold growChunk
  split
  case isFalse => exact ⟨_, _, rfl, ⟨rfl, hS, rfl⟩, .inr ⟨rfl, rfl, rfl⟩⟩
  case isTrue =>
    have hnone : t.chunk t.chunkCount = none := by
      have := (hS.chunks t.chunkCount).not.2 (lt_irrefl _)
      simpa using this
    have hchunk : ∀ c, (t.setChunk t.chunkCount (some fun _ => Entry.fresh)).chunk c =
        if c = t.chunkCount then some fun _ => Entry.fresh else t.chunk c := by
      intro c
      rw [chunk_setChunk]
      simp [hd]
    refine ⟨_, _, rfl, ⟨?_, ⟨fun c => ?_, by simp only; omega, ?_, hS.limit⟩, ?_⟩, .inl ⟨rfl, rfl⟩⟩
    · funext i
      show (((t.setChunk t.chunkCount (some fun _ => Entry.fresh)).chunk (i / CHUNK)).map (· (i % CHUNK))).getD _ = _
      rw [hchunk]
      by_cases hi : i / CHUNK = t.chunkCount
      · simp [hi, slot, entry, hnone]
      · rw [if_neg hi]; rfl
    · show ((t.setChunk t.chunkCount (some fun _ => Entry.fresh)).chunk c).isSome ↔ c < t.chunkCount + 1
      rw [hchunk]
      by_cases hc' : c = t.chunkCount
      · simp [hc']
      · rw [if_neg hc', hS.chunks c]
        omega
    · have := hS.used
      show t.used ≤ (t.chunkCount + 1) * CHUNK
      unfold CHUNK at this ⊢
      omega
    · rfl

theorem grow_spec (hS : Shape t) (hc : t.chunkCount < MAX_CHUNKS) (src : Source) :
    ∃ r t', t.grow src = some (r, t') ∧ Grown t t' ∧ (r = .ok () ∧ t'.chunkCount = t.chunkCount + 1 ∨
      r = .error .noMemory ∧ { t' with directory := t.directory } = t ∧ t'.entry = t.entry) := by
  unfold grow
  split
  case isFalse hd =>
    refine growChunk_spec hS ?_ hc src
    cases h : t.directory with
    | none => simp [h] at hd
    | some d => rfl
  case isTrue hd =>
    have hdir : t.directory = none := by simpa using hd
    split
    case isFalse => exact ⟨_, _, rfl, ⟨rfl, hS, rfl⟩, .inr ⟨rfl, rfl, rfl⟩⟩
    case isTrue =>
      -- an empty directory has no chunk, as no directory has none
      have hchunk : ∀ c, ({ t with directory := some fun _ => none } : HandleTable T).chunk c = t.chunk c := by
        intro c
        simp [chunk, hdir]
      have hS' : Shape { t with directory := some fun _ => none } :=
        ⟨fun c => by rw [hchunk]; exact hS.chunks c, hS.count, hS.used, hS.limit⟩
      obtain ⟨r, t', he, hG, hr⟩ := growChunk_spec hS' rfl hc src
      have hentry : ({ t with directory := some fun _ => none } : HandleTable T).entry = t.entry := by
        funext i
        simp [entry, hchunk]
      refine ⟨r, t', he, ⟨hG.slot.trans ?_, hG.shape, ?_⟩, hr.imp_right fun ⟨h1, h2, h3⟩ => ⟨h1, ?_, h3.trans hentry⟩⟩
      · funext i
        rw [slot, hentry]
        rfl
      · exact congrArg (fun x : HandleTable T => { x with directory := t.directory }) hG.rest
      · exact congrArg (fun x : HandleTable T => { x with directory := t.directory }) h2

/-! ## The invariant -/

/-- Which entries have no object. -/
def vacant (t : HandleTable T) (i : Nat) : Bool := (slot t i).object.isNone

/-- What holds at all times. -/
structure Sound (t : HandleTable T) (g : Log T) : Prop where
  shape : Shape t
  live : t.live = clear (vacant t) MAX_HANDLES
  gen : ∀ i, 1 ≤ (slot t i).generation ∧ (slot t i).generation ≤ Handle.MAX_GENERATION
  log : ∀ h, g.live h = lookup t h
  issued : g.issued.Nodup

/-- What holds outside a release; `fl` is the free list. -/
structure Opened (t : HandleTable T) (g : Log T) (fl : List Nat) : Prop where
  released : t.released = 0
  fresh : ∀ i, t.used ≤ i → slot t i = .fresh
  chain : IsChain (fun i => (slot t i).nextFree) NO_ENTRY t.freeHead fl
  nodup : fl.Nodup
  free : ∀ i ∈ fl, i < t.used ∧ (slot t i).object = none
  count : t.freeCount = fl.length
  gone : ∀ i ∈ g.retired, i < t.used ∧ (slot t i).object = none ∧ i ∉ fl
  goneNodup : g.retired.Nodup
  retired : t.retired = g.retired.length
  /-- A handle that was given out is of an earlier generation than a free entry. -/
  past : ∀ h ∈ g.issued, index h < t.used ∧
    generation h ≤ (slot t (index h)).generation ∧
    (generation h = (slot t (index h)).generation → index h ∉ fl)

/-- What holds during a release: the last chunk is empty up to the cursor. -/
structure Closing (t : HandleTable T) : Prop where
  count : 1 ≤ t.chunkCount
  released : t.released < CHUNK
  part : 0 < t.released → t.used ≤ (t.chunkCount - 1) * CHUNK
  taken : ∀ j < t.released, (slot t ((t.chunkCount - 1) * CHUNK + j)).object = none

structure Inv (t : HandleTable T) (g : Log T) : Prop where
  sound : Sound t g
  opened : t.closing = false → ∃ fl, Opened t g fl
  closing : t.closing = true → Closing t

theorem Grown.form (h : Grown t t') : ∃ d n, t' = { t with directory := d, chunkCount := n } :=
  ⟨t'.directory, t'.chunkCount, by rw [← h.rest]⟩

theorem inv_grown (hI : Inv t g) (ho : t.closing = false) (hG : Grown t t') : Inv t' g := by
  obtain ⟨d, n, rfl⟩ := hG.form
  have hs := hG.slot
  have hS := hI.sound
  refine ⟨⟨hG.shape, ?_, fun i => ?_, fun h => ?_, hS.issued⟩, fun _ => ?_, fun hc => ?_⟩
  · show t.live = clear (fun i => (slot { t with directory := d, chunkCount := n } i).object.isNone) MAX_HANDLES
    rw [hs]; exact hS.live
  · rw [hs]; exact hS.gen i
  · rw [lookup, hs]; exact hS.log h
  · obtain ⟨fl, h⟩ := hI.opened ho
    refine ⟨fl, h.released, ?_, ?_, h.nodup, ?_, h.count, ?_, h.goneNodup, h.retired, ?_⟩
    · rw [hs]; exact h.fresh
    · rw [hs]; exact h.chain
    · rw [hs]; exact h.free
    · rw [hs]; exact h.gone
    · rw [hs]; exact h.past
  · cases ho.symm.trans hc

/-! ## `reserve` -/

/-- The entries an insert can take without new memory: the free ones, and those of the chunks never used. -/
def spare (t : HandleTable T) : Nat := t.freeCount + (t.chunkCount * CHUNK - t.used)

theorem closing_of_room (h : 0 < t.room) : t.closing = false := by
  cases hc : t.closing with
  | false => rfl
  | true => simp [room, hc] at h

/-- What `reserve` gives. -/
inductive Reserved (t : HandleTable T) (g : Log T) (n : Nat) : Except Error Unit × HandleTable T → Prop where
  | ok (t' : HandleTable T) : n ≤ t.room → Inv t' g → t'.room = t.room → n ≤ spare t' →
      t'.chunkCount ≤ t.chunkCount + 1 → Reserved t g n (.ok (), t')
  | full : t.room < n → Reserved t g n (.error .limitReached, t)
  | noMemory (t' : HandleTable T) : n ≤ t.room → Inv t' g → { t' with directory := t.directory } = t →
      t'.entry = t.entry → Reserved t g n (.error .noMemory, t')

theorem reserve_spec (hI : Inv t g) (src : Source) (hn : n ≤ CHUNK) :
    ∃ r, t.reserve src n = some r ∧ Reserved t g n r := by
  have hS := hI.sound.shape
  have hused := hS.used
  have hlim := hS.limit
  unfold reserve
  rw [if_neg (by omega)]
  by_cases hroom : t.room < n
  · rw [if_pos hroom]
    exact ⟨_, rfl, .full hroom⟩
  · rw [if_neg hroom]
    by_cases hlt : t.chunkCount * CHUNK < t.used + (n - t.freeCount)
    · rw [if_pos hlt]
      -- what needs a chunk needs room, which a table being released has not
      have hclosing : t.closing = false := closing_of_room (by omega)
      have hle : n ≤ t.freeCount + (t.limit - t.used) := by
        simpa [room, hclosing] using hroom
      have hcc : t.chunkCount < MAX_CHUNKS := by
        unfold MAX_HANDLES CHUNK at *
        omega
      obtain ⟨r, t', he, hG, hr⟩ := grow_spec hS hcc src
      refine ⟨_, he, ?_⟩
      have hI' := inv_grown hI hclosing hG
      obtain ⟨d, c, rfl⟩ := hG.form
      rcases hr with ⟨rfl, hcount⟩ | ⟨rfl, hsame, hent⟩
      · refine .ok _ (Nat.le_of_not_lt hroom) hI' rfl ?_ hcount.le
        unfold spare
        rw [hcount]
        dsimp only
        unfold CHUNK at *
        omega
      · exact .noMemory _ (Nat.le_of_not_lt hroom) hI' hsame hent
    · rw [if_neg hlt]
      refine ⟨_, rfl, .ok t (Nat.le_of_not_lt hroom) hI rfl ?_ (Nat.le_succ _)⟩
      unfold spare
      omega

/-! ## `insert` -/

theorem vacant_update (hs : ∀ j, slot t' j = if j = i then e else slot t j) :
    vacant t' = update (vacant t) i e.object.isNone := by
  funext j
  by_cases hj : j = i
  · subst hj; simp [vacant, hs]
  · simp [vacant, hs, hj]

theorem inv_place (hS : Sound t g) (hO : Opened t g fl) (hc : t.closing = false) (hi : i < t.used)
    (hv : (slot t i).object = none) (hfl : i ∉ fl) (hret : i ∉ g.retired)
    (hnew : ∀ h ∈ g.issued, index h = i → generation h < (slot t i).generation)
    (object : T) (rights : Nat) :
    ∃ h t', t.place i object rights = some (.ok h, t') ∧ Inv t' (g.inserted h object rights) ∧
      t'.room = t.room := by
  have hent := hS.shape.entry_used hi
  have hmax := hS.shape.index_lt hi
  have hi16 : i < 2 ^ 16 := by unfold MAX_HANDLES CHUNK MAX_CHUNKS at hmax; omega
  obtain ⟨hg1, hg2⟩ := hS.gen i
  have hidx := index_new hi16 hg2
  have hgen := generation_new hi16 hg2
  obtain ⟨t', ht'⟩ : ∃ t' : HandleTable T, t' = { t.setEntry i { slot t i with object := some object, rights := rights } with
      live := t.live + 1 } := ⟨_, rfl⟩
  have hslot : ∀ j, slot t' j = if j = i then { slot t i with object := some object, rights := rights } else slot t j := by
    intro j
    rw [ht']
    exact slot_setEntry hent _ j
  have hgen' : ∀ j, (slot t' j).generation = (slot t j).generation := by
    intro j
    rw [hslot]
    split
    case isTrue hj => rw [hj]
    case isFalse => rfl
  have hused : t'.used = t.used := by rw [ht']; rfl
  refine ⟨new i (slot t i).generation, t', ?_, ⟨⟨?_, ?_, fun j => ?_, fun k => ?_, ?_⟩, fun _ => ⟨fl, ?_⟩,
    fun hcl => ?_⟩, ?_⟩
  · rw [place, hent, ht']
    rfl
  · have := shape_setEntry (i := i) hS.shape { slot t i with object := some object, rights := rights }
    rw [ht']
    exact ⟨this.chunks, this.count, this.used, this.limit⟩
  · have hl := clear_unset (p := vacant t) hmax (by simp [vacant, hv])
    rw [vacant_update hslot]
    simp only [Option.isNone_some]
    rw [hl, ← hS.live, ht']
  · rw [hgen']; exact hS.gen j
  · -- a handle to the entry itself, the new one or an older one, or to another entry
    show update g.live _ _ k = _
    by_cases hk : k = new i (slot t i).generation
    · subst hk
      rw [lookup, hidx, hgen, hused, hslot]
      simp [hi]
    · rw [update_of_ne hk, hS.log k, lookup, lookup, hused, hslot]
      by_cases hki : index k = i
      · have hne : (slot t i).generation ≠ generation k := by
          intro hg
          exact hk (ext (by rw [hidx, hki]) (by rw [hgen, hg]))
        simp [hki, hne]
      · simp [hki]
  · refine nodup_cons.2 ⟨fun hm => ?_, hS.issued⟩
    have := hnew _ hm hidx
    rw [hgen] at this
    exact lt_irrefl _ this
  · refine ⟨by rw [ht']; exact hO.released, fun j hj => ?_, ?_, hO.nodup, fun j hj => ?_, by rw [ht']; exact hO.count,
      fun j hj => ?_, hO.goneNodup, by rw [ht']; exact hO.retired, fun k hk => ?_⟩
    · rw [hslot, if_neg (by omega)]
      exact hO.fresh j (by omega)
    · have hh : t'.freeHead = t.freeHead := by rw [ht']; rfl
      rw [hh]
      refine hO.chain.congr fun j hj => ?_
      rw [hslot, if_neg (by rintro rfl; exact hfl hj)]
    · rw [hslot, hused, if_neg (by rintro rfl; exact hfl hj)]
      exact hO.free j hj
    · rw [hslot, hused, if_neg (by rintro rfl; exact hret hj)]
      exact hO.gone j hj
    · rw [hused, hgen']
      rcases mem_cons.1 hk with rfl | hk
      · rw [hidx, hgen]
        exact ⟨hi, le_rfl, fun _ => hfl⟩
      · exact hO.past k hk
  · rw [ht'] at hcl
    rw [show t.closing = true from hcl] at hc
    cases hc
  · rw [ht']; rfl

theorem Opened.head_eq (hO : Opened t g fl) : t.freeHead = NO_ENTRY ↔ t.freeCount = 0 := by
  rw [hO.chain.eq_nil, hO.count, length_eq_zero_iff]

theorem opened_pop {next : Nat} (hO : Opened t g (i :: rest)) (hn : next = (slot t i).nextFree) :
    Opened { t with freeHead := next, freeCount := t.freeCount - 1 } g rest := by
  obtain ⟨_, _, hchain⟩ := hO.chain
  refine ⟨hO.released, hO.fresh, ?_, (nodup_cons.1 hO.nodup).2, fun j hj => hO.free j (mem_cons_of_mem _ hj), ?_,
    fun j hj => ?_, hO.goneNodup, hO.retired, fun k hk => ?_⟩
  · rw [hn]; exact hchain
  · rw [hO.count]
    rfl
  · obtain ⟨h1, h2, h3⟩ := hO.gone j hj
    exact ⟨h1, h2, fun hm => h3 (mem_cons_of_mem _ hm)⟩
  · obtain ⟨h1, h2, h3⟩ := hO.past k hk
    exact ⟨h1, h2, fun hg hm => h3 hg (mem_cons_of_mem _ hm)⟩

theorem opened_extend (hO : Opened t g fl) : Opened { t with used := t.used + 1 } g fl := by
  refine ⟨hO.released, fun j hj => hO.fresh j (Nat.le_of_succ_le hj), hO.chain, hO.nodup, fun j hj => ?_, hO.count,
    fun j hj => ?_, hO.goneNodup, hO.retired, fun k hk => ?_⟩
  · obtain ⟨h1, h2⟩ := hO.free j hj
    exact ⟨Nat.lt_succ_of_lt h1, h2⟩
  · obtain ⟨h1, h2⟩ := hO.gone j hj
    exact ⟨Nat.lt_succ_of_lt h1, h2⟩
  · obtain ⟨h1, h2⟩ := hO.past k hk
    exact ⟨Nat.lt_succ_of_lt h1, h2⟩

theorem sound_extend (hS : Sound t g) (hf : slot t t.used = .fresh) (hl : t.used < t.limit)
    (hc : t.used < t.chunkCount * CHUNK) : Sound { t with used := t.used + 1 } g := by
  refine ⟨⟨hS.shape.chunks, hS.shape.count, hc, hl, hS.shape.limit.2⟩, hS.live, hS.gen, fun k => ?_, hS.issued⟩
  rw [hS.log k]
  by_cases hk : index k = t.used
  · -- the new entry holds nothing yet
    have : slot ({ t with used := t.used + 1 } : HandleTable T) = slot t := rfl
    simp [lookup, this, hk, hf, Entry.fresh]
  · have h : index k < t.used + 1 ↔ index k < t.used := by omega
    simp only [lookup, h]
    rfl

theorem inv_insert_fresh (hS : Sound t g) (hO : Opened t g fl) (hc : t.closing = false)
    (hl : t.used < t.limit) (hu : t.used < t.chunkCount * CHUNK) (object : T) (rights : Nat) :
    ∃ h t', ({ t with used := t.used + 1 } : HandleTable T).place t.used object rights = some (.ok h, t') ∧
      Inv t' (g.inserted h object rights) ∧ t'.room + 1 = t.room := by
  have hf := hO.fresh _ (le_refl t.used)
  obtain ⟨h, t', he, hI, hr⟩ := inv_place (sound_extend hS hf hl hu) (opened_extend hO) hc (Nat.lt_succ_self t.used)
    (show (slot t t.used).object = none by rw [hf]; rfl)
    (fun hm => lt_irrefl _ (hO.free _ hm).1) (fun hm => lt_irrefl _ (hO.gone _ hm).1)
    (fun k hk hi => absurd (hO.past k hk).1 (by omega)) object rights
  refine ⟨h, t', he, hI, ?_⟩
  rw [hr, room_of_open hc, room_of_open (by exact hc)]
  simp only
  omega

theorem inv_insert_free (hS : Sound t g) (hO : Opened t g (i :: rest)) (hc : t.closing = false)
    (object : T) (rights : Nat) :
    ∃ h t', ({ t with freeHead := (slot t i).nextFree, freeCount := t.freeCount - 1 } : HandleTable T).place i object rights =
        some (.ok h, t') ∧ Inv t' (g.inserted h object rights) ∧ t'.room + 1 = t.room := by
  obtain ⟨hi, hv⟩ := hO.free i (by simp)
  have hS' : Sound { t with freeHead := (slot t i).nextFree, freeCount := t.freeCount - 1 } g :=
    ⟨⟨hS.shape.chunks, hS.shape.count, hS.shape.used, hS.shape.limit⟩, hS.live, hS.gen, hS.log, hS.issued⟩
  obtain ⟨h, t', he, hI, hr⟩ := inv_place hS' (opened_pop hO rfl) hc hi hv (nodup_cons.1 hO.nodup).1
    (fun hm => (hO.gone i hm).2.2 (by simp))
    (fun k hk hki => by
      obtain ⟨_, h2, h3⟩ := hO.past k hk
      rw [hki] at h2 h3
      exact Nat.lt_of_le_of_ne h2 fun hg => h3 hg (by simp)) object rights
  refine ⟨h, t', he, hI, ?_⟩
  have := hO.count
  rw [length_cons] at this
  rw [hr, room_of_open hc, room_of_open (by exact hc)]
  simp only
  omega

theorem place_fields {i h rights : Nat} {object : T} (hp : t.place i object rights = some (.ok h, t')) :
    t'.chunkCount = t.chunkCount ∧ t'.used = t.used ∧ t'.freeCount = t.freeCount := by
  obtain ⟨e, _, he⟩ := Option.map_eq_some_iff.1 hp
  cases he
  exact ⟨rfl, rfl, rfl⟩

/-- An insert with room and a spare entry succeeds, and is the same whatever the source would give. -/
theorem insert_spare (hI : Inv t g) (hroom : 0 < t.room) (hspare : 0 < spare t) (object : T) (rights : Nat) :
    ∃ h t', (∀ src, t.insert src object rights = some (.ok h, t')) ∧ Inv t' (g.inserted h object rights) ∧
      t'.room + 1 = t.room ∧ spare t' + 1 = spare t := by
  have hS := hI.sound.shape
  have hused := hS.used
  have hclosing := closing_of_room hroom
  obtain ⟨fl, hO⟩ := hI.opened hclosing
  by_cases hfree : t.freeHead = NO_ENTRY
  · -- no free entry: the next one of the chunks
    have hcount := hO.head_eq.1 hfree
    simp only [room, hclosing, Bool.false_eq_true, ↓reduceIte] at hroom
    unfold spare at hspare
    obtain ⟨h, t', he, hI', hr⟩ := inv_insert_fresh hI.sound hO hclosing (by omega) (by omega) object rights
    obtain ⟨h1, h2, h3⟩ := place_fields he
    refine ⟨h, t', fun src => ?_, hI', hr, ?_⟩
    · unfold HandleTable.insert
      rw [if_neg (by simp [hclosing]), if_neg (by simpa using hfree), if_neg (by omega), if_neg (by omega), he]
    · simp only [spare, h1, h2, h3]
      omega
  · -- the head of the free list
    obtain ⟨rest, rfl, _⟩ := hO.chain.of_ne hfree
    have hhead := (hO.free t.freeHead (by simp)).1
    have hcount : t.freeCount = rest.length + 1 := by rw [hO.count, length_cons]
    obtain ⟨h, t', he, hI', hr⟩ := inv_insert_free hI.sound hO hclosing object rights
    obtain ⟨h1, h2, h3⟩ := place_fields he
    refine ⟨h, t', fun src => ?_, hI', hr, ?_⟩
    · unfold HandleTable.insert
      rw [if_neg (by simp [hclosing]), if_pos hfree, hS.entry (by omega)]
      exact he
    · simp only [spare, h1, h2, h3]
      omega

/-- What an insert gives: a handle, or an error that says which bound it met. -/
inductive Inserted (t : HandleTable T) (g : Log T) (object : T) (rights : Nat) :
    Except Error Nat × HandleTable T → Prop where
  | ok (h : Nat) (t' : HandleTable T) : Inv t' (g.inserted h object rights) → t'.room + 1 = t.room →
      Inserted t g object rights (.ok h, t')
  | full : t.room = 0 → Inserted t g object rights (.error .limitReached, t)
  | noMemory (t' : HandleTable T) : Inv t' g → t'.room = t.room → 0 < t.room →
      Inserted t g object rights (.error .noMemory, t')

/-- The room after an insert, and whether there was none. -/
theorem Inserted.room {object : T} {rights : Nat} {r : Except Error Nat × HandleTable T}
    (hr : Inserted t g object rights r) (hI : Inv t g) :
    (∃ g', Inv r.2 g') ∧ r.2.room + r.1.isOk.toNat = t.room ∧ (r.1 = .error .limitReached ↔ t.room = 0) := by
  cases hr with
  | ok h t' hI' hroom => exact ⟨⟨_, hI'⟩, hroom, by simp; omega⟩
  | full hroom => exact ⟨⟨_, hI⟩, rfl, by simp [hroom]⟩
  | noMemory t' hI' hroom hpos => exact ⟨⟨_, hI'⟩, hroom, by simp; omega⟩

theorem insert_spec (hI : Inv t g) (src : Source) (object : T) (rights : Nat) :
    ∃ r, t.insert src object rights = some r ∧ Inserted t g object rights r := by
  have hS := hI.sound.shape
  by_cases hroom : 0 < t.room
  · by_cases hspare : 0 < spare t
    · obtain ⟨h, t', he, hI', hr, -⟩ := insert_spare hI hroom hspare object rights
      exact ⟨_, he src, .ok h t' hI' hr⟩
    · -- no free entry, and the chunks are full: one more, or no memory for it
      have hc := closing_of_room hroom
      obtain ⟨fl, hO⟩ := hI.opened hc
      have hfree : t.freeHead = NO_ENTRY := hO.head_eq.2 (by unfold spare at hspare; omega)
      have hpos := hroom
      have hused := hS.used
      have hlim := hS.limit
      rw [room_of_open hc] at hpos
      unfold spare at hspare
      have hcc : t.chunkCount < MAX_CHUNKS := by
        unfold MAX_HANDLES CHUNK at *
        omega
      obtain ⟨r, t', he, hG, hr⟩ := grow_spec hS hcc src
      have hI' := inv_grown hI hc hG
      unfold HandleTable.insert
      rw [if_neg (by simp [hc]), if_neg (by simpa using hfree), if_neg (by omega), if_pos (by omega), he]
      obtain ⟨d, n, rfl⟩ := hG.form
      rcases hr with ⟨rfl, hcount⟩ | ⟨rfl, -⟩
      · obtain ⟨fl', hO'⟩ := hI'.opened hc
        obtain ⟨h, t', he', hI'', hr'⟩ := inv_insert_fresh hI'.sound hO' hc (by simp only; omega)
          (by rw [hcount]; simp only; unfold CHUNK at *; omega) object rights
        exact ⟨_, he', .ok h t' hI'' hr'⟩
      · exact ⟨_, rfl, .noMemory _ hI' rfl hroom⟩
  · -- the limit, or a table being released
    refine ⟨_, ?_, .full (by omega)⟩
    unfold HandleTable.insert
    by_cases hc : t.closing = true
    · exact if_pos hc
    · rw [if_neg hc]
      have hc : t.closing = false := by simpa using hc
      obtain ⟨fl, hO⟩ := hI.opened hc
      rw [room_of_open hc] at hroom
      rw [if_neg (not_not.2 (hO.head_eq.2 (by omega))), if_pos (by omega)]

/-! ## `remove` -/

theorem of_lookup (hl : lookup t h = some p) :
    index h < t.used ∧ (slot t (index h)).generation = generation h ∧
      (slot t (index h)).object = some p.1 ∧ (slot t (index h)).rights = p.2 := by
  simp only [lookup] at hl
  split at hl
  case isFalse => cases hl
  case isTrue hc =>
    obtain ⟨o, ho, rfl⟩ := Option.map_eq_some_iff.1 hl
    exact ⟨hc.1, hc.2, ho, rfl⟩

/-- The table after the entry of a live handle became `e`. -/
def vacate (t : HandleTable T) (h : Nat) (e : Entry T) (freeHead freeCount retired : Nat) : HandleTable T :=
  { t.setEntry (index h) e with
    live := t.live - 1, freeHead := freeHead, freeCount := freeCount, retired := retired }

section
variable {head count gone : Nat}

theorem slot_vacate (hS : Shape t) (hl : lookup t h = some p) (j : Nat) :
    slot (vacate t h e head count gone) j = if j = index h then e else slot t j :=
  slot_setEntry (hS.entry_used (of_lookup hl).1) e j

/-- A live entry loses its object: what the free list and the counts of free and retired entries become
does not matter here. -/
theorem sound_vacate (hS : Sound t g) (hl : lookup t h = some p) (ho : e.object = none)
    (hg : 1 ≤ e.generation ∧ e.generation ≤ Handle.MAX_GENERATION) :
    Sound (vacate t h e head count gone) (g.removed h) := by
  obtain ⟨hi, hgen, hobj, _⟩ := of_lookup hl
  have hs : ∀ j, slot (vacate t h e head count gone) j = _ := slot_vacate hS.shape hl
  obtain ⟨h1, h2, h3, h4⟩ := shape_setEntry hS.shape e
  refine ⟨⟨h1, h2, h3, h4⟩, ?_, fun j => ?_, fun k => ?_, hS.issued⟩
  · have := clear_set (p := vacant t) (hS.shape.index_lt hi) (by simp [vacant, hobj])
    rw [vacant_update hs, ho, show (vacate t h e head count gone).live = t.live - 1 from rfl, hS.live]
    simp only [Option.isNone_none]
    omega
  · rw [hs]
    split
    · exact hg
    · exact hS.gen j
  · show update g.live h none k = _
    by_cases hk : k = h
    · subst hk
      simp [lookup, hs, ho]
    · rw [update_of_ne hk, hS.log k, lookup, lookup, hs]
      by_cases hki : index k = index h
      · have hne : (slot t (index h)).generation ≠ generation k := by
          intro he
          exact hk (ext hki (by rw [← he, hgen]))
        simp [hki, hne, ho]
      · rw [if_neg hki]
        rfl

theorem Closing.vacate (hC : Closing t) (hS : Shape t) (hl : lookup t h = some p) (ho : e.object = none) :
    Closing (vacate t h e head count gone) := by
  refine ⟨hC.count, hC.released, hC.part, fun j hj => ?_⟩
  rw [slot_vacate hS hl]
  split
  · exact ho
  · exact hC.taken j hj

end

/-- The removal at the last generation: the entry retires. -/
theorem opened_retire (hS : Shape t) (hO : Opened t g fl) (hl : lookup t h = some p)
    (hmax : generation h = Handle.MAX_GENERATION) :
    Opened (vacate t h { slot t (index h) with object := none } t.freeHead t.freeCount (t.retired + 1))
      (g.removed h) fl := by
  obtain ⟨hi, hgen, hobj, _⟩ := of_lookup hl
  have hfl : index h ∉ fl := fun hm => by simpa [hobj] using (hO.free _ hm).2
  have hnew : index h ∉ g.retired := fun hm => by simpa [hobj] using (hO.gone _ hm).2.1
  have hret : (g.removed h).retired = index h :: g.retired := if_pos hmax
  refine ⟨hO.released, fun j (hj : t.used ≤ j) => ?_, ?_, hO.nodup, fun j hj => ?_, hO.count, fun j hj => ?_, ?_, ?_,
    fun k hk => ?_⟩
  · rw [slot_vacate hS hl, if_neg (by omega)]
    exact hO.fresh j hj
  · exact hO.chain.congr fun j hj => by rw [slot_vacate hS hl, if_neg (ne_of_mem_of_not_mem hj hfl)]
  · rw [slot_vacate hS hl, if_neg (ne_of_mem_of_not_mem hj hfl)]
    exact hO.free j hj
  · rw [hret] at hj
    rcases mem_cons.1 hj with rfl | hj
    · rw [slot_vacate hS hl, if_pos rfl]
      exact ⟨hi, rfl, hfl⟩
    · rw [slot_vacate hS hl, if_neg (ne_of_mem_of_not_mem hj hnew)]
      exact hO.gone j hj
  · rw [hret]
    exact nodup_cons.2 ⟨hnew, hO.goneNodup⟩
  · rw [hret]
    exact congrArg (· + 1) hO.retired
  · rw [slot_vacate hS hl]
    split
    case isTrue he => exact he ▸ hO.past k hk
    case isFalse => exact hO.past k hk

/-- Every other removal: the entry goes to its next generation and to the free list. -/
theorem opened_recycle (hS : Shape t) (hO : Opened t g fl)
    (hl : lookup t h = some p) (hmax : generation h ≠ Handle.MAX_GENERATION) :
    Opened (vacate t h { slot t (index h) with
        object := none, generation := (slot t (index h)).generation + 1, nextFree := t.freeHead }
      (index h) (t.freeCount + 1) t.retired) (g.removed h) (index h :: fl) := by
  obtain ⟨hi, hgen, hobj, _⟩ := of_lookup hl
  have hfl : index h ∉ fl := fun hm => by simpa [hobj] using (hO.free _ hm).2
  have hnew : index h ∉ g.retired := fun hm => by simpa [hobj] using (hO.gone _ hm).2.1
  have hret : (g.removed h).retired = g.retired := if_neg hmax
  have hne : index h ≠ NO_ENTRY := by
    have := hS.index_lt hi
    unfold MAX_HANDLES CHUNK MAX_CHUNKS at this
    unfold NO_ENTRY
    omega
  refine ⟨hO.released, fun j (hj : t.used ≤ j) => ?_, ?_, nodup_cons.2 ⟨hfl, hO.nodup⟩, fun j hj => ?_,
    congrArg (· + 1) hO.count, fun j hj => ?_, by rw [hret]; exact hO.goneNodup, by rw [hret]; exact hO.retired,
    fun k hk => ?_⟩
  · rw [slot_vacate hS hl, if_neg (by omega)]
    exact hO.fresh j hj
  · refine (hO.chain.push hfl hne).congr fun j _ => ?_
    rw [slot_vacate hS hl, update_apply]
    split
    · rfl
    · rfl
  · rcases mem_cons.1 hj with rfl | hj
    · rw [slot_vacate hS hl, if_pos rfl]
      exact ⟨hi, rfl⟩
    · rw [slot_vacate hS hl, if_neg (ne_of_mem_of_not_mem hj hfl)]
      exact hO.free j hj
  · rw [hret] at hj
    have hjh : j ≠ index h := ne_of_mem_of_not_mem hj hnew
    obtain ⟨h1, h2, h3⟩ := hO.gone j hj
    rw [slot_vacate hS hl, if_neg hjh]
    exact ⟨h1, h2, by simp [hjh, h3]⟩
  · obtain ⟨h1, h2, h3⟩ := hO.past k hk
    rw [slot_vacate hS hl]
    by_cases hkh : index k = index h
    · -- the entry is now past every handle it ever had
      rw [hkh] at h1 h2 ⊢
      rw [if_pos rfl]
      exact ⟨h1, Nat.le_succ_of_le h2, fun he => by simp only at he; omega⟩
    · rw [if_neg hkh]
      exact ⟨h1, h2, fun he => by simp [hkh, h3 he]⟩

theorem remove_none (hS : Shape t) (hl : lookup t h = none) : t.remove h = some (.error .badHandle, t) := by
  unfold remove
  by_cases hi : t.used ≤ index h
  · exact if_pos hi
  · rw [if_neg hi, hS.entry_used (by omega)]
    by_cases hg : (slot t (index h)).generation = generation h
    · have ho : (slot t (index h)).object = none := by
        simpa [lookup, hg, Nat.not_le.1 hi] using hl
      simp [ho]
    · simp [hg]

theorem remove_some (hS : Shape t) (hl : lookup t h = some p) :
    t.remove h = some (.ok p,
      if generation h = Handle.MAX_GENERATION then
        vacate t h { slot t (index h) with object := none } t.freeHead t.freeCount (t.retired + 1)
      else
        vacate t h { slot t (index h) with
            object := none, generation := (slot t (index h)).generation + 1, nextFree := t.freeHead }
          (index h) (t.freeCount + 1) t.retired) := by
  obtain ⟨hi, hg, ho, hrights⟩ := of_lookup hl
  unfold remove
  rw [if_neg (by omega), hS.entry_used (by omega)]
  by_cases hmax : generation h = Handle.MAX_GENERATION
  · simp [hg, ho, hmax, hrights]
    rfl
  · simp [hg, ho, hmax, hrights]
    rfl

theorem inv_remove (hI : Inv t g) (hl : lookup t h = some p) :
    ∃ t', t.remove h = some (.ok p, t') ∧ Inv t' (g.removed h) := by
  have hS := hI.sound.shape
  refine ⟨_, remove_some hS hl, ?_⟩
  have hgen := hI.sound.gen (index h)
  by_cases hmax : generation h = Handle.MAX_GENERATION
  · rw [if_pos hmax]
    refine ⟨sound_vacate hI.sound hl rfl hgen, fun hc => ?_, fun hc => (hI.closing hc).vacate hS hl rfl⟩
    obtain ⟨fl, hO⟩ := hI.opened hc
    exact ⟨fl, opened_retire hS hO hl hmax⟩
  · rw [if_neg hmax]
    refine ⟨sound_vacate hI.sound hl rfl ?_, fun hc => ?_, fun hc => (hI.closing hc).vacate hS hl rfl⟩
    · have := (of_lookup hl).2.1
      simp only
      omega
    · obtain ⟨fl, hO⟩ := hI.opened hc
      exact ⟨_, opened_recycle hS hO hl hmax⟩

/-! ## `release_step` -/

/-- The loop takes the objects of the entries out, counts them and hands them out with their rights. -/
theorem takeEntries_spec (is : List Nat) (hn : is.Nodup) (k : Chunk T) (live : Nat) :
    (∀ j, (takeEntries k live is).1 j = if j ∈ is then { k j with object := none } else k j) ∧
      (takeEntries k live is).2.1 = (live - is.countP fun j => (k j).object.isSome) ∧
      (takeEntries k live is).2.2 = is.filterMap fun j => (k j).object.map (·, (k j).rights) := by
  induction is generalizing k live with
  | nil => simp [takeEntries]
  | cons i is ih =>
    obtain ⟨hi, hn'⟩ := nodup_cons.1 hn
    cases ho : (k i).object with
    | none =>
      obtain ⟨h1, h2, h3⟩ := ih hn' k live
      have hsame : { k i with object := none } = k i := by rw [← ho]
      simp only [takeEntries, ho]
      refine ⟨fun j => ?_, by rw [h2]; simp [ho], by rw [h3]; simp [ho]⟩
      rw [h1]
      by_cases hj : j = i
      · subst hj; simp [hsame]
      · simp [hj]
    | some o =>
      obtain ⟨h1, h2, h3⟩ := ih hn' (update k i { k i with object := none }) (live - 1)
      have hk : ∀ j ∈ is, update k i { k i with object := none } j = k j := fun j hj =>
        update_of_ne (ne_of_mem_of_not_mem hj hi) ..
      simp only [takeEntries, ho]
      refine ⟨fun j => ?_, ?_, ?_⟩
      · rw [h1]
        by_cases hj : j = i
        · subst hj; simp
        · simp [hj]
      · rw [h2, countP_congr fun j hj => by rw [hk j hj], countP_cons_of_pos (by simp [ho])]
        omega
      · rw [h3, filterMap_congr fun j hj => by rw [hk j hj]]
        simp [ho]

/-- The indices of a part of chunk `c`. -/
def part (c lo n : Nat) : List Nat := (range' lo n).map (c * CHUNK + ·)

theorem mem_part {lo : Nat} : i ∈ part c lo n ↔ c * CHUNK + lo ≤ i ∧ i < c * CHUNK + lo + n := by
  simp only [part, mem_map, mem_range'_1]
  constructor
  · rintro ⟨j, hj, rfl⟩
    omega
  · intro h
    exact ⟨i - c * CHUNK, by omega, by omega⟩

theorem nodup_part {lo : Nat} : (part c lo n).Nodup :=
  List.Nodup.map (fun a b (h : c * CHUNK + a = c * CHUNK + b) => by omega) nodup_range'

theorem live_takeEntries (hk : t.chunk c = some k) (hn : a + n ≤ CHUNK) :
    (takeEntries k t.live (range' a n)).2.1 =
      t.live - (range' a n).countP fun j => !vacant t (c * CHUNK + j) := by
  rw [(takeEntries_spec _ nodup_range' k t.live).2.1]
  congr 1
  refine countP_congr fun j hj => ?_
  rw [mem_range'_1] at hj
  simp [vacant, slot_of_chunk hk (show j < CHUNK by omega)]

theorem slot_takePart {k' : Chunk T} (hk : t.chunk c = some k) (hn : a + n ≤ CHUNK)
    (hk' : ∀ j, k' j = if j ∈ range' a n then { k j with object := none } else k j) (j : Nat) :
    slot (t.setChunk c (some k')) j = if j ∈ part c a n then { slot t j with object := none } else slot t j := by
  have hd := isSome_of_chunk hk
  simp only [slot, entry, chunk_setChunk, mem_part, hd, and_true]
  by_cases hj : j / CHUNK = c
  · have hmem : j % CHUNK ∈ range' a n ↔ c * CHUNK + a ≤ j ∧ j < c * CHUNK + a + n := by
      rw [mem_range'_1]
      unfold CHUNK at *
      omega
    simp only [hj, hk, if_true, Option.map_some]
    rw [hk']
    simp [hmem]
  · have : ¬(c * CHUNK + a ≤ j ∧ j < c * CHUNK + a + n) := by
      unfold CHUNK at *
      omega
    rw [if_neg hj, if_neg this]

theorem slot_dropChunk (hk : t.chunk c = some k) (j : Nat) :
    slot (t.setChunk c none) j = if j / CHUNK = c then Entry.fresh else slot t j := by
  have hd := isSome_of_chunk hk
  simp only [slot, entry, chunk_setChunk, hd]
  by_cases hj : j / CHUNK = c
  · simp [hj]
  · simp [hj]

theorem inv_finish (hl : t.limit ≤ MAX_HANDLES) (hc : t.chunkCount = 0) (hr : t.released = 0) :
    Inv t.finish Log.fresh := by
  have hslot : slot t.finish = fun _ => Entry.fresh := rfl
  have hvac : vacant t.finish = fun _ => true := rfl
  refine ⟨⟨⟨fun c => ?_, ?_, Nat.zero_le _, Nat.zero_le _, hl⟩, ?_, fun j => ?_, fun k => ?_, nodup_nil⟩,
    fun _ => ⟨[], hr, fun _ _ => rfl, rfl, nodup_nil, by simp, rfl, by simp [Log.fresh], nodup_nil, rfl,
      by simp [Log.fresh]⟩, fun h => by cases h⟩
  · show (none : Option (Chunk T)).isSome ↔ c < t.chunkCount
    simp [hc]
  · show t.chunkCount ≤ MAX_CHUNKS
    omega
  · rw [hvac]
    simp [clear, finish]
  · rw [hslot]
    simp [Entry.fresh, Handle.MAX_GENERATION]
  · simp [lookup, hslot, Entry.fresh, Log.fresh]

/-- The last chunk becomes `v`. -/
theorem shape_release {v : Option (Chunk T)} (hS : Shape t) (hcc : t.chunkCount = c + 1) (hk : t.chunk c = some k)
    (d live r : Nat) (hd : c ≤ d ∧ d ≤ c + 1) (hv : v.isSome ↔ c < d) :
    Shape { t.setChunk c v with
      chunkCount := d, used := min t.used (c * CHUNK), freeHead := NO_ENTRY, live := live, closing := true,
      released := r } := by
  have hcount := hS.count
  have hlimit := hS.limit
  refine ⟨fun c' => ?_, by simp only; omega, ?_, (min_le_left ..).trans hlimit.1, hlimit.2⟩
  · show ((t.setChunk c v).chunk c').isSome ↔ c' < d
    rw [chunk_setChunk]
    by_cases hc' : c' = c
    · simp [hc', isSome_of_chunk hk, hv]
    · rw [if_neg (fun h => hc' h.1), hS.chunks]
      omega
  · exact (min_le_right ..).trans (Nat.mul_le_mul_right _ hd.1)

/-- The entries from the part on go out of reach, and the part loses its objects. -/
theorem sound_release {v : Option (Chunk T)} (hS : Sound t g) (hcc : t.chunkCount = c + 1) (hk : t.chunk c = some k)
    (hn : a + n ≤ CHUNK) (d r : Nat) (hd : c ≤ d ∧ d ≤ c + 1) (hvd : v.isSome ↔ c < d)
    (hv : ∀ j, vacant (t.setChunk c v) j = (vacant t j || decide (j ∈ part c a n)))
    (hg : ∀ j, 1 ≤ (slot (t.setChunk c v) j).generation ∧
      (slot (t.setChunk c v) j).generation ≤ Handle.MAX_GENERATION) :
    Sound { t.setChunk c v with
      chunkCount := d, used := min t.used (c * CHUNK), freeHead := NO_ENTRY,
      live := (takeEntries k t.live (range' a n)).2.1, closing := true, released := r } (g.reached (c * CHUNK)) := by
  refine ⟨shape_release hS.shape hcc hk d _ r hd hvd, ?_, hg, fun h => ?_, hS.issued⟩
  · have hlt : ∀ j ∈ part c a n, j < MAX_HANDLES := by
      intro j hj
      have := mem_part.1 hj
      have := hS.shape.count
      unfold MAX_HANDLES CHUNK at *
      omega
    have hcl := clear_setAll (p := vacant t) (part c a n) nodup_part hlt
    show (takeEntries k t.live (range' a n)).2.1 = clear (vacant (t.setChunk c v)) MAX_HANDLES
    rw [show vacant (t.setChunk c v) = _ from funext hv, live_takeEntries hk hn, hS.live]
    simp only [part, countP_map, comp_def] at hcl ⊢
    omega
  · show (if c * CHUNK ≤ index h then none else g.live h) = _
    rw [hS.log h, lookup, lookup]
    by_cases hi : c * CHUNK ≤ index h
    · rw [if_pos hi]
      have : ¬ index h < min t.used (c * CHUNK) := by omega
      simp [this]
    · have hlow : slot (t.setChunk c v) (index h) = slot t (index h) := by
        rw [slot, entry, chunk_setChunk, if_neg (by unfold CHUNK at *; omega)]
        rfl
      rw [if_neg hi, ← hlow]
      have : index h < min t.used (c * CHUNK) ↔ index h < t.used := by omega
      simp only [this]
      rfl

/-- Where a step of a release begins: a table not being released begins with its last chunk. -/
theorem Inv.cursor (hI : Inv t g) : t.released < CHUNK ∧
    ∀ j < t.released, (slot t ((t.chunkCount - 1) * CHUNK + j)).object = none := by
  cases hc : t.closing with
  | true => exact ⟨(hI.closing hc).released, (hI.closing hc).taken⟩
  | false =>
    obtain ⟨fl, hO⟩ := hI.opened hc
    rw [hO.released]
    exact ⟨by decide, by simp⟩

theorem inv_releasePart (hI : Inv t g) (hcc : t.chunkCount = c + 1) (hk : t.chunk c = some k)
    (hn : t.released + n < CHUNK) :
    let r := takeEntries k t.live (range' t.released n)
    Inv { t.setChunk c (some r.1) with
          used := min t.used (c * CHUNK), freeHead := NO_ENTRY, live := r.2.1, closing := true, released := t.released + n }
      (g.reached (c * CHUNK)) := by
  intro r
  have hslot : ∀ j, slot (t.setChunk c (some r.1)) j = _ :=
    slot_takePart hk hn.le (takeEntries_spec (range' t.released n) nodup_range' k t.live).1
  obtain ⟨_, htaken⟩ := hI.cursor
  rw [hcc] at htaken
  refine ⟨sound_release hI.sound hcc hk hn.le t.chunkCount _ (by omega) (by simp [hcc]) (fun j => ?_) (fun j => ?_),
    nofun, fun _ => ⟨hcc ▸ Nat.succ_pos c, hn, fun _ => ?_, fun j hj => ?_⟩⟩
  · by_cases hj : j ∈ part c t.released n
    · simp [vacant, hslot, hj]
    · simp [vacant, hslot, hj]
  · have : (slot (t.setChunk c (some r.1)) j).generation = (slot t j).generation := by
      rw [hslot]
      split
      · rfl
      · rfl
    rw [this]
    exact hI.sound.gen j
  · show min t.used (c * CHUNK) ≤ (t.chunkCount - 1) * CHUNK
    rw [hcc]
    exact min_le_right ..
  · -- what earlier steps took, and what this one did
    show (slot (t.setChunk c (some r.1)) ((t.chunkCount - 1) * CHUNK + j)).object = none
    rw [hslot, hcc, Nat.add_sub_cancel]
    split
    · rfl
    case isFalse hm =>
      rw [mem_part] at hm
      exact htaken j (by simp only at hj; omega)

theorem inv_releaseChunk (hI : Inv t g) (hcc : t.chunkCount = c + 1) (hc : 0 < c)
    (hk : t.chunk c = some k) (hn : t.released + n = CHUNK) :
    Inv { t.setChunk c none with
          chunkCount := c, used := min t.used (c * CHUNK), freeHead := NO_ENTRY,
          live := (takeEntries k t.live (range' t.released n)).2.1, closing := true, released := 0 }
      (g.reached (c * CHUNK)) := by
  have hslot := slot_dropChunk hk
  obtain ⟨_, htaken⟩ := hI.cursor
  rw [hcc, Nat.add_sub_cancel] at htaken
  refine ⟨sound_release hI.sound hcc hk hn.le c 0 (by omega) (by simp) (fun j => ?_) (fun j => ?_),
    nofun, fun _ => ⟨hc, by simp [CHUNK], by simp, by simp⟩⟩
  · by_cases hj : j / CHUNK = c
    · -- the cursor had passed what is not in this part
      have hv : vacant t j = true ∨ j ∈ part c t.released n := by
        rw [mem_part]
        by_cases hlt : j - c * CHUNK < t.released
        · have := htaken _ hlt
          rw [show c * CHUNK + (j - c * CHUNK) = j by unfold CHUNK at *; omega] at this
          simp [vacant, this]
        · unfold CHUNK at *
          omega
      have hv' : vacant (t.setChunk c none) j = true := by simp [vacant, hslot, hj, Entry.fresh]
      rw [hv']
      rcases hv with hv | hv
      · simp [hv]
      · simp [hv]
    · have hm : j ∉ part c t.released n := by
        rw [mem_part]
        unfold CHUNK at *
        omega
      simp [vacant, hslot, hj, hm]
  · rw [hslot]
    split
    · simp [Entry.fresh, Handle.MAX_GENERATION]
    · exact hI.sound.gen j

/-- The entries a step of a release takes. -/
def stride (t : HandleTable T) (n : Nat) : Nat := min n (CHUNK - t.released)

/-- What its loop leaves of the chunk `k`, and hands out. -/
def taken (t : HandleTable T) (k : Chunk T) (n : Nat) : Chunk T × Nat × List (T × Nat) :=
  takeEntries k t.live (range' t.released (stride t n))

/-- What a step of a release does: it finds no chunk, stops inside the last one, or takes the rest of it,
with chunks left or not. -/
inductive Stepped (t : HandleTable T) (n : Nat) : Bool × List (T × Nat) × List Memory × HandleTable T → Prop where
  | bare : t.chunkCount = 0 → Stepped t n (true, [], t.directoryMemory, t.finish)
  | part {c : Nat} {k : Chunk T} : t.chunkCount = c + 1 → t.chunk c = some k → t.released + stride t n < CHUNK →
      Stepped t n (false, (taken t k n).2.2, [], { t.setChunk c (some (taken t k n).1) with
        used := min t.used (c * CHUNK), freeHead := NO_ENTRY, live := (taken t k n).2.1, closing := true,
        released := t.released + stride t n })
  | chunk {c : Nat} {k : Chunk T} : t.chunkCount = c + 1 → 0 < c → t.chunk c = some k →
      t.released + stride t n = CHUNK →
      Stepped t n (false, (taken t k n).2.2, [.chunk c], { t.setChunk c none with
        chunkCount := c, used := min t.used (c * CHUNK), freeHead := NO_ENTRY, live := (taken t k n).2.1,
        closing := true, released := 0 })
  | last {k : Chunk T} : t.chunkCount = 1 → t.chunk 0 = some k → t.released + stride t n = CHUNK →
      Stepped t n (true, (taken t k n).2.2, .chunk 0 :: (t.setChunk 0 none).directoryMemory, finish { t.setChunk 0 none with
        chunkCount := 0, used := min t.used (0 * CHUNK), freeHead := NO_ENTRY, live := (taken t k n).2.1,
        closing := true, released := 0 })

theorem releaseStep_spec (hI : Inv t g) (hn : 1 ≤ n) : ∃ r, t.releaseStep n = some r ∧ Stepped t n r := by
  have hS := hI.sound.shape
  have hstride : stride t n = min n (CHUNK - t.released) := rfl
  obtain ⟨hrel, _⟩ := hI.cursor
  unfold releaseStep
  rw [if_neg (by omega)]
  rcases Nat.eq_zero_or_eq_succ_pred t.chunkCount with hz | hcc
  · rw [if_pos hz]
    exact ⟨_, rfl, .bare hz⟩
  · obtain ⟨c, hc⟩ : ∃ c, t.chunkCount = c + 1 := ⟨_, hcc⟩
    have hsub : t.chunkCount - 1 = c := by omega
    obtain ⟨k, hk⟩ := Option.isSome_iff_exists.1 ((hS.chunks c).2 (by omega))
    rw [if_neg (by omega), hsub]
    have hk' : chunk { t with closing := true, freeHead := NO_ENTRY, used := min t.used (c * CHUNK) } c = some k := hk
    simp only [hk', Option.map_some]
    refine ⟨_, rfl, ?_⟩
    rw [Nat.add_sub_cancel_left, ← hstride]
    by_cases hcut : t.released + stride t n < CHUNK
    · rw [if_pos hcut]
      exact .part hc hk hcut
    · rw [if_neg hcut]
      have hfull : t.released + stride t n = CHUNK := by omega
      by_cases hpos : 0 < c
      · rw [if_pos hpos]
        exact .chunk hc hpos hk hfull
      · obtain rfl : c = 0 := Nat.eq_zero_of_not_pos hpos
        exact .last hc hk hfull

theorem Inv.released_of_bare (hI : Inv t g) (h : t.chunkCount = 0) : t.released = 0 := by
  cases hc : t.closing with
  | true =>
    have := (hI.closing hc).count
    omega
  | false =>
    obtain ⟨fl, hO⟩ := hI.opened hc
    exact hO.released

theorem inv_stepped {r : Bool × List (T × Nat) × List Memory × HandleTable T} (hI : Inv t g) (hr : Stepped t n r) :
    Inv r.2.2.2 (if r.1 then Log.fresh else g.reached ((t.chunkCount - 1) * CHUNK)) := by
  have hlim : t.limit ≤ MAX_HANDLES := hI.sound.shape.limit.2
  cases hr with
  | bare hz => exact inv_finish hlim hz (hI.released_of_bare hz)
  | part hc hk hcut =>
    rw [hc]
    exact inv_releasePart hI hc hk hcut
  | chunk hc hpos hk hfull =>
    rw [hc]
    exact inv_releaseChunk hI hc hpos hk hfull
  | last => exact inv_finish hlim rfl rfl

/-! ## Every sequence of calls -/

theorem inv_new {limit : Nat} (h : HandleTable.new limit = .ok t) : Inv t Log.fresh := by
  unfold HandleTable.new at h
  split at h
  case isTrue => cases h
  case isFalse hl =>
    cases h
    exact inv_finish (t := ⟨none, 0, 0, limit, NO_ENTRY, 0, 0, 0, false, 0⟩) (Nat.le_of_not_lt hl) rfl rfl

theorem inv_exec (hI : Inv t g) {op : Op T} (hm : op.Meets) : ∃ t' g', exec t g op = some (t', g') ∧ Inv t' g' := by
  cases op with
  | insert src object rights =>
    obtain ⟨r, he, hr⟩ := insert_spec hI src object rights
    rw [exec, he]
    cases hr with
    | ok h t' hI' => exact ⟨_, _, rfl, hI'⟩
    | full => exact ⟨_, _, rfl, hI⟩
    | noMemory t' hI' => exact ⟨_, _, rfl, hI'⟩
  | get h =>
    rw [exec, get_eq hI.sound.shape]
    exact ⟨_, _, rfl, hI⟩
  | remove h =>
    rw [exec]
    cases hl : lookup t h with
    | none =>
      rw [remove_none hI.sound.shape hl]
      exact ⟨_, _, rfl, hI⟩
    | some p =>
      obtain ⟨t', he, hI'⟩ := inv_remove hI hl
      rw [he]
      exact ⟨_, _, rfl, hI'⟩
  | reserve src n =>
    obtain ⟨r, he, hr⟩ := reserve_spec hI src hm
    rw [exec, he]
    cases hr with
    | ok t' _ hI' => exact ⟨_, _, rfl, hI'⟩
    | full => exact ⟨_, _, rfl, hI⟩
    | noMemory t' _ hI' => exact ⟨_, _, rfl, hI'⟩
  | releaseStep n =>
    obtain ⟨⟨done, out, freed, t'⟩, he, hr⟩ := releaseStep_spec hI hm
    have hI' := inv_stepped hI hr
    rw [exec, he]
    cases done with
    | true => exact ⟨_, _, rfl, hI'⟩
    | false => exact ⟨_, _, rfl, hI'⟩

theorem inv_run (ops : List (Op T)) (hI : Inv t g) (hm : ∀ op ∈ ops, op.Meets) :
    ∃ t' g', run t g ops = some (t', g') ∧ Inv t' g' := by
  induction ops generalizing t g with
  | nil => exact ⟨t, g, rfl, hI⟩
  | cons op ops ih =>
    obtain ⟨t', g', he, hI'⟩ := inv_exec hI (hm op (by simp))
    rw [run, he]
    exact ih hI' fun op hop => hm op (by simp [hop])

/-- What a row of inserts returns. -/
def inserts (t : HandleTable T) : List (Source × T × Nat) → Option (List (Except Error Nat))
  | [] => some []
  | (src, object, rights) :: rest =>
    (t.insert src object rights).bind fun r => (inserts r.2 rest).map (r.1 :: ·)

/-- LIMIT_REACHED comes exactly when the row has had `room` handles. -/
theorem inserts_room (reqs : List (Source × T × Nat)) (hI : Inv t g) :
    ∃ rs, inserts t reqs = some rs ∧ rs.length = reqs.length ∧
      ∀ i r, rs[i]? = some r → (r = .error .limitReached ↔ (rs.take i).countP (·.isOk) = t.room) := by
  induction reqs generalizing t g with
  | nil => exact ⟨[], rfl, rfl, by simp⟩
  | cons req reqs ih =>
    obtain ⟨src, object, rights⟩ := req
    obtain ⟨r, he, hr⟩ := insert_spec hI src object rights
    obtain ⟨⟨g', hI'⟩, hroom, hfull⟩ := hr.room hI
    obtain ⟨rs, hrs, hlen, hspec⟩ := ih hI'
    refine ⟨r.1 :: rs, by simp [inserts, he, hrs], by simp [hlen], fun i r' hi => ?_⟩
    cases i with
    | zero =>
      cases hi
      simp [hfull, eq_comm]
    | succ i =>
      rw [hspec i r' (by exact hi), take_succ_cons, countP_cons]
      cases hok : r.1.isOk with
      | true =>
        rw [hok, Bool.toNat_true] at hroom
        simp only [if_true]
        omega
      | false =>
        rw [hok, Bool.toNat_false] at hroom
        simp only [Bool.false_eq_true, if_false]
        omega

/-- **The handle table is safe.** After any sequence of calls that meet their contracts, on a table of any
limit and with memory refused at any call, `get` answers as the log of the calls does, no handle was given
out twice since the table was fresh, and the counts are those of the entries. -/
theorem handles_safe {limit : Nat} {t₀ : HandleTable T} (hnew : HandleTable.new limit = .ok t₀) (ops : List (Op T))
    (hm : ∀ op ∈ ops, op.Meets) :
    ∃ t g, run t₀ Log.fresh ops = some (t, g) ∧
      (∀ h, t.get h = some (answer (g.live h))) ∧
      g.issued.Nodup ∧
      t.live = ((Finset.range MAX_HANDLES).filter fun i => (slot t i).object.isSome).card ∧
      (t.closing = false → t.retired = g.retired.length ∧ g.retired.Nodup ∧
        ∀ reqs, ∃ rs, inserts t reqs = some rs ∧ rs.length = reqs.length ∧
          ∀ i r, rs[i]? = some r → (r = .error .limitReached ↔ (rs.take i).countP (·.isOk) = t.room)) := by
  obtain ⟨t, g, he, hI⟩ := inv_run ops (inv_new hnew) hm
  refine ⟨t, g, he, fun h => ?_, hI.sound.issued, ?_, fun hc => ?_⟩
  · rw [get_eq hI.sound.shape, hI.sound.log]
  · have hp : ∀ i, vacant t i = false ↔ (slot t i).object.isSome = true := by simp [vacant]
    rw [hI.sound.live, clear]
    simp [hp]
  · obtain ⟨fl, hO⟩ := hI.opened hc
    exact ⟨hO.retired, hO.goneNodup, fun reqs => inserts_room reqs hI⟩

/-- Two handles of one entry, a transfer that finds no memory and a complete release. -/
theorem handles_safe_reuse :
    let t₀ : HandleTable Nat := ⟨none, 0, 0, 2, NO_ENTRY, 0, 0, 0, false, 0⟩
    let ops : List (Op Nat) := [.insert ⟨true, true⟩ 7 3, .remove 65536, .insert ⟨true, true⟩ 8 1, .get 131072,
      .reserve ⟨false, false⟩ 2, .releaseStep 64]
    HandleTable.new 2 = .ok t₀ ∧ (∀ op ∈ ops, op.Meets) ∧ ∃ t g, run t₀ Log.fresh ops = some (t, g) ∧
      g.issued.Nodup ∧ ∀ h, t.get h = some (answer (g.live h)) := by
  have hm : ∀ op ∈ ([.insert ⟨true, true⟩ 7 3, .remove 65536, .insert ⟨true, true⟩ 8 1, .get 131072,
      .reserve ⟨false, false⟩ 2, .releaseStep 64] : List (Op Nat)), op.Meets := by
    simp [Op.Meets, CHUNK]
  have hnew : HandleTable.new (T := Nat) 2 = .ok ⟨none, 0, 0, 2, NO_ENTRY, 0, 0, 0, false, 0⟩ := rfl
  obtain ⟨t, g, he, hget, hn, -⟩ := handles_safe hnew _ hm
  exact ⟨hnew, hm, t, g, he, hn, hget⟩

end Handles
