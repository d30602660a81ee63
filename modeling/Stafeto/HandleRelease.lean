import Stafeto.Handles

/-!
# The release of a handle table, step by step (kcore/src/handles.rs)

A process that ends gives its handles back a few at a time, while its last syscalls may still look handles
up and close them. `contents` lists every object of the table with the rights of its handle, and `memory`
what the table has of its chunk source, in the order it goes back. A step moves a part of `contents` to the
callback and the head of `memory` to the source; a `remove` moves one object to its caller.

`release_whole` adds this up over a release: whatever the sizes of the steps and the calls between them,
each object goes to one place once, the memory goes back in order with the directory last, and what is left
is a fresh table.
-/

namespace Handles

open Abi List HandleTable

variable {T : Type} {t t' : HandleTable T} {g : Log T} {is : List Nat} {c n : Nat}
  {r : Bool × List (T × Nat) × List Memory × HandleTable T}

/-! ## What a table holds -/

/-- What the entry `i` holds. -/
def content (t : HandleTable T) (i : Nat) : Option (T × Nat) := (slot t i).object.map (·, (slot t i).rights)

/-- The objects of the table, with the rights of their handles. -/
def contents (t : HandleTable T) : List (T × Nat) := (range MAX_HANDLES).filterMap (content t)

/-- The memory of the table: its chunks from the last on, and the directory. -/
def memory (t : HandleTable T) : List Memory := (range t.chunkCount).reverse.map .chunk ++ directoryMemory t

theorem memory_nodup (t : HandleTable T) : (memory t).Nodup := by
  have hchunks : ((range t.chunkCount).reverse.map Memory.chunk).Nodup := by
    apply List.Nodup.map
    · intro a b h
      cases h
      rfl
    · exact nodup_reverse.2 nodup_range
  apply List.Nodup.append hchunks
  · unfold directoryMemory
    split
    · simp
    · simp
  · intro m hm hd
    obtain ⟨c, _, rfl⟩ := mem_map.1 hm
    unfold directoryMemory at hd
    split at hd
    · simp at hd
    · simp at hd

theorem contents_handles (hI : Inv t g) (hc : t.closing = false) :
    ∃ hs : List Nat, hs.Nodup ∧ (∀ h, h ∈ hs ↔ (g.live h).isSome) ∧ hs.filterMap g.live = contents t := by
  obtain ⟨fl, hO⟩ := hI.opened hc
  have hgen := fun i => (hI.sound.gen i).2
  have hidx : ∀ i < MAX_HANDLES, i < 2 ^ 16 := by
    intro i hi
    unfold MAX_HANDLES CHUNK MAX_CHUNKS at hi
    omega
  let held := (range MAX_HANDLES).filter fun i => (slot t i).object.isSome
  let name := fun i => Handle.new i (slot t i).generation
  have hheld : ∀ i, i ∈ held ↔ i < MAX_HANDLES ∧ (slot t i).object.isSome := by simp [held]
  have hname : ∀ i ∈ held, Handle.index (name i) = i ∧ g.live (name i) = content t i := by
    intro i hi
    obtain ⟨hlt, ho⟩ := (hheld i).1 hi
    have h1 : Handle.index (name i) = i := Handle.index_new (hidx i hlt) (hgen i)
    have h2 : Handle.generation (name i) = (slot t i).generation := Handle.generation_new (hidx i hlt) (hgen i)
    refine ⟨h1, ?_⟩
    -- an entry that was never used holds nothing
    have hused : i < t.used := by
      by_contra hn
      rw [hO.fresh i (by omega)] at ho
      simp [Entry.fresh] at ho
    rw [hI.sound.log, lookup, h1, h2, if_pos ⟨hused, rfl⟩, content]
  refine ⟨held.map name, ?_, fun h => ?_, ?_⟩
  · apply List.Nodup.map_on
    · intro i hi j hj h
      rw [← (hname i hi).1, ← (hname j hj).1, h]
    · exact nodup_range.filter _
  · rw [mem_map]
    constructor
    · rintro ⟨i, hi, rfl⟩
      rw [(hname i hi).2, content, Option.isSome_map]
      exact ((hheld i).1 hi).2
    · intro hlive
      obtain ⟨p, hp⟩ := Option.isSome_iff_exists.1 hlive
      rw [hI.sound.log] at hp
      obtain ⟨hi, hg, ho, _⟩ := of_lookup hp
      have hlt := hI.sound.shape.index_lt hi
      refine ⟨Handle.index h, (hheld _).2 ⟨hlt, by rw [ho]; rfl⟩, ?_⟩
      apply Handle.ext
      · exact Handle.index_new (hidx _ hlt) (hgen _)
      · rw [← hg]
        exact Handle.generation_new (hidx _ hlt) (hgen _)
  · rw [filterMap_map, contents]
    have hsame : held.filterMap (g.live ∘ name) = held.filterMap (content t) :=
      filterMap_congr fun i hi => (hname i hi).2
    rw [hsame, filterMap_filter]
    apply filterMap_congr
    intro i _
    unfold content
    cases (slot t i).object with
    | none => simp
    | some o => simp

/-! ## Objects that leave -/

/-- Places that become empty: what they held, and what the others still hold. -/
theorem perm_vacate {β : Type} {f f' : Nat → Option β} {l : List Nat} (hl : l.Nodup) (his : is.Nodup)
    (hsub : ∀ i ∈ is, i ∈ l) (hf : ∀ j, f' j = if j ∈ is then none else f j) :
    (l.filterMap f).Perm (is.filterMap f ++ l.filterMap f') := by
  have hin : (l.filter fun j => decide (j ∈ is)).Perm is := by
    rw [perm_ext_iff_of_nodup (hl.filter _) his]
    intro j
    simp only [mem_filter, decide_eq_true_eq]
    exact ⟨fun h => h.2, fun h => ⟨hsub j h, h⟩⟩
  have hout : (l.filter fun j => !decide (j ∈ is)).filterMap f = l.filterMap f' := by
    rw [filterMap_filter]
    apply filterMap_congr
    intro j _
    rw [hf j]
    by_cases hj : j ∈ is
    · simp
    · simp
  calc (l.filterMap f).Perm ((l.filter (fun j => decide (j ∈ is)) ++ l.filter fun j => !decide (j ∈ is)).filterMap f) :=
        ((filter_append_perm _ l).filterMap f).symm
    _ = (l.filter fun j => decide (j ∈ is)).filterMap f ++ l.filterMap f' := by rw [filterMap_append, hout]
    List.Perm _ (is.filterMap f ++ l.filterMap f') := (hin.filterMap f).append_right _

theorem taken_out {k : Chunk T} (hk : t.chunk c = some k) (hn : t.released + stride t n ≤ CHUNK) :
    (taken t k n).2.2 = (part c t.released (stride t n)).filterMap (content t) := by
  rw [taken, (takeEntries_spec _ nodup_range' k t.live).2.2, part, filterMap_map]
  apply filterMap_congr
  intro j hj
  rw [mem_range'_1] at hj
  simp [content, slot_of_chunk hk (show j < CHUNK by omega)]

theorem contents_vacate (his : is.Nodup) (hsub : ∀ i ∈ is, i < MAX_HANDLES)
    (h : ∀ j, content t' j = if j ∈ is then none else content t j) :
    (contents t).Perm (is.filterMap (content t) ++ contents t') := by
  exact perm_vacate nodup_range his (fun i hi => mem_range.2 (hsub i hi)) h

theorem contents_part {a : Nat} (hS : Shape t) (hc : c < t.chunkCount) (hn : a + n ≤ CHUNK)
    (h : ∀ j, content t' j = if j ∈ part c a n then none else content t j) :
    (contents t).Perm ((part c a n).filterMap (content t) ++ contents t') := by
  apply contents_vacate nodup_part ?_ h
  intro i hi
  have := mem_part.1 hi
  have := hS.count
  unfold MAX_HANDLES CHUNK at *
  omega

theorem content_behind (hI : Inv t g) (hc : t.chunkCount = c + 1) {j : Nat} (hj : j / CHUNK = c)
    (hlt : j < c * CHUNK + t.released) : content t j = none := by
  obtain ⟨_, htaken⟩ := hI.cursor
  have := htaken (j - c * CHUNK) (by unfold CHUNK at *; omega)
  rw [hc, Nat.add_sub_cancel, show c * CHUNK + (j - c * CHUNK) = j by unfold CHUNK at *; omega] at this
  simp [content, this]

theorem slot_beyond (hS : Shape t) {i : Nat} (h : t.chunkCount ≤ i / CHUNK) : slot t i = Entry.fresh := by
  have hnone : t.chunk (i / CHUNK) = none := by
    have := (hS.chunks (i / CHUNK)).not.2 (Nat.not_lt.2 h)
    simpa using this
  simp [slot, entry, hnone]

theorem contents_fresh (h : ∀ i, slot t i = Entry.fresh) : contents t = [] := by
  simp [contents, content, h, Entry.fresh]

/-! ## One step -/

/-- The entries a release has still to look at. -/
def left (t : HandleTable T) : Nat := t.chunkCount * CHUNK - t.released

theorem contents_stepped (hI : Inv t g) (hr : Stepped t n r) :
    (contents t).Perm (r.2.1 ++ contents r.2.2.2) := by
  have hS := hI.sound.shape
  cases hr with
  | bare hz =>
    have hfresh : ∀ i, slot t i = Entry.fresh := fun i => slot_beyond hS (by rw [hz]; exact Nat.zero_le _)
    rw [contents_fresh hfresh, contents_fresh fun _ => rfl]
    exact .refl _
  | part hc hk hcut =>
    rw [taken_out hk hcut.le]
    apply contents_part hS (by omega) hcut.le
    intro j
    have hslot := slot_takePart hk hcut.le (takeEntries_spec _ nodup_range' _ t.live).1 j
    show Option.map (·, (slot (t.setChunk _ _) j).rights) (slot (t.setChunk _ _) j).object = _
    rw [taken, hslot]
    split
    · rfl
    · rfl
  | @chunk c k hc hpos hk hfull =>
    rw [taken_out hk hfull.le]
    apply contents_part hS (by omega) hfull.le
    intro j
    show Option.map (·, (slot (t.setChunk c none) j).rights) (slot (t.setChunk c none) j).object = _
    rw [slot_dropChunk hk]
    by_cases hj : j / CHUNK = c
    · rw [if_pos hj]
      by_cases hm : j ∈ part c t.released (stride t n)
      · rw [if_pos hm]
        rfl
      · -- the cursor had passed what is not in this part
        rw [if_neg hm, content_behind hI hc hj (by rw [mem_part] at hm; unfold CHUNK at *; omega)]
        rfl
    · rw [if_neg hj, if_neg (by rw [mem_part]; unfold CHUNK at *; omega)]
      rfl
  | @last k hc hk hfull =>
    rw [taken_out hk hfull.le]
    apply contents_part hS (by omega) hfull.le
    intro j
    show none = _
    by_cases hm : j ∈ part 0 t.released (stride t n)
    · rw [if_pos hm]
    · rw [if_neg hm]
      by_cases hj : j / CHUNK = 0
      · rw [content_behind hI hc hj (by rw [mem_part] at hm; unfold CHUNK at *; omega)]
      · rw [content, slot_beyond hS (by rw [hc]; exact Nat.one_le_iff_ne_zero.2 hj)]
        rfl

theorem memory_stepped (hr : Stepped t n r) :
    memory t = r.2.2.1 ++ memory r.2.2.2 := by
  cases hr with
  | bare hz => simp [memory, hz, finish, directoryMemory]
  | part hc => simp [memory, hc, directoryMemory, setChunk]
  | chunk hc => simp [memory, hc, directoryMemory, setChunk, range_succ]
  | last hc => simp [memory, hc, directoryMemory, setChunk, finish]

/-- A step that does not end the release makes progress, and there is more to do. -/
theorem left_stepped (hI : Inv t g) (hn : 1 ≤ n)
    (hr : Stepped t n r) (hmore : r.1 = false) : left r.2.2.2 < left t ∧ 0 < left r.2.2.2 := by
  obtain ⟨hrel, _⟩ := hI.cursor
  have hpos : 1 ≤ stride t n := by
    unfold stride
    omega
  cases hr with
  | bare => cases hmore
  | last => cases hmore
  | part hc hk hcut =>
    show (t.chunkCount * CHUNK - (t.released + stride t n) < _) ∧ 0 < t.chunkCount * CHUNK - (t.released + stride t n)
    rw [left]
    unfold CHUNK at *
    omega
  | chunk hc hpos hk hfull =>
    simp only [left]
    unfold CHUNK at *
    omega

/-- The step that ends the release leaves a fresh table. -/
theorem fresh_stepped (hI : Inv t g) (hr : Stepped t n r)
    (hdone : r.1 = true) : new t.limit = .ok r.2.2.2 := by
  have hlim : ¬ MAX_HANDLES < t.limit := Nat.not_lt.2 hI.sound.shape.limit.2
  unfold new
  rw [if_neg hlim]
  cases hr with
  | bare hz => rw [finish, hz, hI.released_of_bare hz]
  | part => cases hdone
  | chunk => cases hdone
  | last => rfl

theorem limit_stepped (hr : Stepped t n r) :
    r.2.2.2.limit = t.limit := by
  cases hr with
  | bare => rfl
  | part => rfl
  | chunk => rfl
  | last => rfl

/-! ## `remove` during a release -/

theorem remove_keeps (hI : Inv t g) {h : Nat} {p : T × Nat} (hl : lookup t h = some p) :
    ∃ t', t.remove h = some (.ok p, t') ∧ Inv t' (g.removed h) ∧ (contents t).Perm (p :: contents t') ∧
      memory t' = memory t ∧ left t' = left t ∧ t'.limit = t.limit := by
  have hS := hI.sound.shape
  obtain ⟨hi, hg, ho, hrights⟩ := of_lookup hl
  obtain ⟨t', he, hI'⟩ := inv_remove hI hl
  obtain ⟨e, head, count, gone, hnone, rfl⟩ : ∃ (e : Entry T) (head count gone : Nat), e.object = none ∧
      t' = vacate t h e head count gone := by
    rw [remove_some hS hl] at he
    cases he
    split
    · exact ⟨_, _, _, _, rfl, rfl⟩
    · exact ⟨_, _, _, _, rfl, rfl⟩
  have hdir : (vacate t h e head count gone).directory.isSome = t.directory.isSome := by
    simp [vacate, setEntry, setChunk]
  refine ⟨_, he, hI', ?_, ?_, rfl, rfl⟩
  · have hcontent : content t (Handle.index h) = some p := by
      rw [content, ho, hrights]
      rfl
    have hperm : (contents t).Perm
        ([Handle.index h].filterMap (content t) ++ contents (vacate t h e head count gone)) := by
      apply contents_vacate (nodup_singleton _)
      · intro i hi'
        rw [mem_singleton] at hi'
        rw [hi']
        exact hS.index_lt hi
      · intro j
        rw [content, slot_vacate hS hl]
        by_cases hj : j = Handle.index h
        · simp [hj, hnone]
        · simp [hj, content]
    rw [filterMap_cons_some hcontent, filterMap_nil, singleton_append] at hperm
    exact hperm
  · simp only [memory, directoryMemory, hdir]
    rfl

/-! ## A release -/

/-- A call during a release. -/
inductive Call where
  | step (n : Nat)
  | get (h : Nat)
  | remove (h : Nat)

/-- What a release did: whether it came to its end, the table it left, the objects it handed out and those
that were removed meanwhile, the memory it gave back, and its steps. -/
structure Release (T : Type) where
  done : Bool
  table : HandleTable T
  handed : List (T × Nat)
  removed : List (T × Nat)
  memory : List Memory
  steps : Nat

/-- The calls up to the step that returns true. -/
def release (t : HandleTable T) : List Call → Option (Release T)
  | [] => some ⟨false, t, [], [], [], 0⟩
  | .step n :: calls => (t.releaseStep n).bind fun
    | (true, out, freed, t') => some ⟨true, t', out, [], freed, 1⟩
    | (false, out, freed, t') => (release t' calls).map fun r =>
      { r with handed := out ++ r.handed, memory := freed ++ r.memory, steps := r.steps + 1 }
  | .get h :: calls => (t.get h).bind fun _ => release t calls
  | .remove h :: calls => (t.remove h).bind fun
    | (.ok p, t') => (release t' calls).map fun r => { r with removed := p :: r.removed }
    | (.error _, t') => release t' calls

def Call.Meets : Call → Prop
  | .step n => 1 ≤ n
  | _ => True

/-- The steps among the calls. -/
def stepCount : List Call → Nat
  | [] => 0
  | .step _ :: calls => stepCount calls + 1
  | _ :: calls => stepCount calls

/-- What a release of `t` makes of it. -/
structure Accounted (t : HandleTable T) (calls : List Call) (r : Release T) : Prop where
  objects : (contents t).Perm (r.handed ++ r.removed ++ contents r.table)
  memory : memory t = r.memory ++ Handles.memory r.table
  steps : r.steps ≤ max 1 (left t)
  finishes : max 1 (left t) ≤ stepCount calls → r.done = true
  fresh : r.done = true → new t.limit = .ok r.table

theorem release_spec (calls : List Call) (hI : Inv t g) (hm : ∀ call ∈ calls, call.Meets) :
    ∃ r, release t calls = some r ∧ Accounted t calls r := by
  induction calls generalizing t g with
  | nil =>
    refine ⟨_, rfl, ?_, rfl, Nat.zero_le _, by simp [stepCount], by simp⟩
    rw [append_nil, nil_append]
  | cons call calls ih =>
    have hm' : ∀ call ∈ calls, call.Meets := fun call hc => hm call (mem_cons_of_mem _ hc)
    cases call with
    | step n =>
      have hn : 1 ≤ n := hm (.step n) (by simp)
      obtain ⟨⟨done, out, freed, t'⟩, he, hr⟩ := releaseStep_spec hI hn
      have hobj := contents_stepped hI hr
      have hmem := memory_stepped hr
      have hI' := inv_stepped hI hr
      rw [release, he]
      cases done with
      | true =>
        refine ⟨_, rfl, ?_, hmem, le_max_left .., fun _ => rfl, fun _ => fresh_stepped hI hr rfl⟩
        rw [append_nil]
        exact hobj
      | false =>
        obtain ⟨hless, hpos⟩ := left_stepped hI hn hr rfl
        obtain ⟨r, he', hA⟩ := ih hI' hm'
        refine ⟨{ r with handed := out ++ r.handed, memory := freed ++ r.memory, steps := r.steps + 1 },
          by simp [he'], ?_, ?_, ?_, ?_, ?_⟩
        · refine hobj.trans ?_
          rw [append_assoc, append_assoc, ← append_assoc r.handed]
          exact hA.objects.append_left out
        · rw [hmem, append_assoc, ← hA.memory]
        · have := hA.steps
          simp only at hless hpos this ⊢
          omega
        · intro hs
          apply hA.finishes
          simp only [stepCount] at hs hless hpos ⊢
          omega
        · intro hdone
          have := hA.fresh hdone
          rwa [limit_stepped hr] at this
    | get h =>
      rw [release, get_eq hI.sound.shape]
      obtain ⟨r, he, hA⟩ := ih hI hm'
      exact ⟨r, he, hA.objects, hA.memory, hA.steps, hA.finishes, hA.fresh⟩
    | remove h =>
      rw [release]
      cases hl : lookup t h with
      | none =>
        rw [remove_none hI.sound.shape hl]
        obtain ⟨r, he, hA⟩ := ih hI hm'
        exact ⟨r, he, hA.objects, hA.memory, hA.steps, hA.finishes, hA.fresh⟩
      | some p =>
        obtain ⟨t', he, hI', hobj, hmem, hleft, hlim⟩ := remove_keeps hI hl
        obtain ⟨r, he', hA⟩ := ih hI' hm'
        rw [he]
        refine ⟨{ r with removed := p :: r.removed }, by simp [he'], ?_, ?_, ?_, ?_, ?_⟩
        · refine hobj.trans ?_
          have := hA.objects.cons p
          refine this.trans ?_
          rw [append_assoc, append_assoc]
          exact perm_middle.symm
        · rw [← hmem]
          exact hA.memory
        · rw [← hleft]
          exact hA.steps
        · rw [← hleft]
          exact hA.finishes
        · rw [← hlim]
          exact hA.fresh

/-- **The release of a handle table.** Take any table that calls made, and steps of any sizes with lookups
and removals between them. No call panics. The objects of the table, which are those of the live handles
with their rights, are those handed out, those removed meanwhile and those still there, each once. The
memory given back is the head of the table's memory: each chunk once, the directory last. The release takes
at most one step for an entry of a chunk, and ends after that many; it then has handed out or removed every
object, given back all memory, and left a table equal to a fresh one of the same limit. -/
theorem release_whole {limit : Nat} {t₀ : HandleTable T} (hnew : new limit = .ok t₀) (ops : List (Op T))
    (hm : ∀ op ∈ ops, op.Meets) (hrun : run t₀ Log.fresh ops = some (t, g)) (calls : List Call)
    (hc : ∀ call ∈ calls, call.Meets) :
    (t.closing = false →
      ∃ hs : List Nat, hs.Nodup ∧ (∀ h, h ∈ hs ↔ (g.live h).isSome) ∧ hs.filterMap g.live = contents t) ∧
    ∃ r, release t calls = some r ∧
      (contents t).Perm (r.handed ++ r.removed ++ contents r.table) ∧
      memory t = r.memory ++ memory r.table ∧ (memory t).Nodup ∧
      r.steps ≤ max 1 (t.chunkCount * CHUNK) ∧
      (max 1 (t.chunkCount * CHUNK) ≤ stepCount calls → r.done = true) ∧
      (r.done = true → new t.limit = .ok r.table ∧ (contents t).Perm (r.handed ++ r.removed) ∧
        r.memory = memory t) := by
  obtain ⟨_, _, he, hI⟩ := inv_run ops (inv_new hnew) hm
  rw [hrun] at he
  cases he
  refine ⟨contents_handles hI, ?_⟩
  obtain ⟨r, he, hA⟩ := release_spec calls hI hc
  have hleft : left t ≤ t.chunkCount * CHUNK := Nat.sub_le ..
  refine ⟨r, he, hA.objects, hA.memory, memory_nodup t, ?_, fun hs => hA.finishes ?_, fun hdone => ?_⟩
  · have := hA.steps
    omega
  · omega
  · have hfresh := hA.fresh hdone
    have hnil : contents r.table = [] ∧ memory r.table = [] := by
      unfold new at hfresh
      split at hfresh
      · cases hfresh
      · rw [Except.ok.injEq] at hfresh
        rw [← hfresh]
        exact ⟨contents_fresh fun _ => rfl, rfl⟩
    have hobj := hA.objects
    have hmem := hA.memory
    rw [hnil.1, append_nil] at hobj
    rw [hnil.2, append_nil] at hmem
    exact ⟨hfresh, hobj, hmem.symm⟩

/-- Two objects in the one chunk: one is removed between the steps of 63 entries and of one. -/
theorem release_whole_two :
    let t₀ : HandleTable Nat := ⟨none, 0, 0, 2, NO_ENTRY, 0, 0, 0, false, 0⟩
    let ops : List (Op Nat) := [.insert ⟨true, true⟩ 7 3, .insert ⟨true, true⟩ 8 1]
    let calls : List Call := [.remove 65536, .step 63, .get 65537, .step 64]
    ∃ t g r, run t₀ Log.fresh ops = some (t, g) ∧ release t calls = some r ∧ r.done = true ∧
      (contents t).Perm (r.handed ++ r.removed) ∧ new 2 = .ok r.table := by
  intro t₀ ops calls
  have hnew : new 2 = .ok t₀ := rfl
  have hm : ∀ op ∈ ops, op.Meets := by simp [ops, Op.Meets]
  have hc : ∀ call ∈ calls, call.Meets := by simp [calls, Call.Meets]
  obtain ⟨t, g, hrun, -⟩ := inv_run ops (inv_new hnew) hm
  obtain ⟨-, r, he, -, -, -, -, -, hdone⟩ := release_whole hnew ops hm hrun calls hc
  have hr : (run t₀ Log.fresh ops).bind (fun p => (release p.1 calls).map fun r => r.done) = some true := by
    decide +kernel
  rw [hrun] at hr
  simp only [Option.bind_some, he, Option.map_some, Option.some.injEq] at hr
  have hlim : (run t₀ Log.fresh ops).map (fun p => p.1.limit) = some 2 := by decide +kernel
  rw [hrun] at hlim
  simp only [Option.map_some, Option.some.injEq] at hlim
  obtain ⟨h1, h2, -⟩ := hdone hr
  rw [hlim] at h1
  exact ⟨t, g, r, hrun, he, hr, h2, h1⟩

end Handles
