import Stafeto.Lib.RadixOrder
import Stafeto.PagingTables

/-!
# The release of a table tree (kcore/src/paging.rs)

A tree that nothing walks any more goes back to the allocator a table at a time. The cursor holds the path
from the root to the table whose words are read next, so that a step can stop and the next one go on; tables
of level 3 have no tables below them and go without being entered.

The steps free the tables in post-order (`Radix.TableTree.below`). What a path of the cursor has still to free
is `todo`: for each of its tables what the words not read yet lead to, and then the table. A step frees the
first table of `todo` or enters one, which leaves `todo` as it is.

Between the steps the memory of freed tables may come to hold anything (`TableMemory.spoil`); the tables of
`todo` are all that a step reads. An entered table is read in the next step, so that a release of `n` tables
takes at most `2 * n - 1` steps: twice those to free, less those on the path, goes down with each.
-/

namespace Paging

open Radix OnDemand List TableTree

/-- `Cursor` (paging.rs:263). -/
structure Cursor where
  path : List (Nat × Nat)
  depth : Nat
  freed : Nat
  done : Bool

/-- `Release` (paging.rs:278). -/
structure Release where
  root : Nat
  cursor : Cursor

/-- `into_release` (paging.rs:473). -/
def PageTable.intoRelease (t : PageTable) : Release := ⟨t.root, ⟨[(0, 0), (0, 0), (0, 0)], 0, 0, false⟩⟩

/-- A step: what it returns, the release after it, the words it read and the table it freed. -/
structure Outcome where
  done : Bool
  release : Release
  reads : List Nat
  freed : Option Nat

namespace Release

/-- The loop of `step` (paging.rs:532) over the `n` words from `i` on: those it reads, and the first that leads
to a table. -/
def scan (m : TableMemory) (table : Nat) : Nat → Nat → List Nat × Option (Nat × Nat)
  | 0, _ => ([], none)
  | n + 1, i =>
    let d := m.read (table + i * 8)
    if isTableOrPage d then ([table + i * 8], some (i, d))
    else ((table + i * 8) :: (scan m table n (i + 1)).1, (scan m table n (i + 1)).2)

/-- The cursor of the first step enters the root (paging.rs:526). -/
def begun (r : Release) : Cursor :=
  if r.cursor.depth = 0 then { r.cursor with path := r.cursor.path.set 0 (r.root, 0), depth := 1 } else r.cursor

/-- `step` (paging.rs:522); `none` where an index leaves the path. -/
def step (r : Release) (m : TableMemory) : Option Outcome :=
  if r.cursor.done then some ⟨true, r, [], none⟩
  else
    let cursor := r.begun
    let level := cursor.depth - 1
    cursor.path[level]?.bind fun (table, start) =>
      match scan m table (512 - start) start with
      | (reads, some (i, d)) =>
        let path := cursor.path.set level (table, i + 1)
        if level = 2 then
          some ⟨false, ⟨r.root, { cursor with path := path, freed := cursor.freed + 1 }⟩, reads, some (d &&& OA_MASK)⟩
        else if level + 1 < path.length then
          some ⟨false, ⟨r.root, { cursor with path := path.set (level + 1) (d &&& OA_MASK, 0), depth := cursor.depth + 1 }⟩,
            reads, none⟩
        else none
      | (reads, none) =>
        let depth := cursor.depth - 1
        some ⟨depth == 0, ⟨r.root, { cursor with freed := cursor.freed + 1, depth := depth, done := depth == 0 }⟩,
          reads, some table⟩

end Release

open Release

/-! ## The path -/

/-- A table of the path: its next word, and its place in the tree. -/
structure Frame where
  table : Nat
  next : Nat
  place : Nat

/-- The tables from the one being read up to the root: each stands where the last word read of the one above
leads. -/
inductive Path (T : TableTree Nat) (root : Nat) : List Frame → Prop where
  | root {n : Nat} : n ≤ 512 → Path T root [⟨root, n, 0⟩]
  | child {f : Frame} {fs : List Frame} {n c : Nat} : Path T root (f :: fs) → 1 ≤ f.next → fs.length < 2 →
      T.table (fs.length + 1) (f.place * 512 + (f.next - 1)) = some c → n ≤ 512 →
      Path T root (⟨c, n, f.place * 512 + (f.next - 1)⟩ :: f :: fs)

/-- The path as the cursor holds it: a table of level `l` at the index `l`. -/
def Held (path : List (Nat × Nat)) : List Frame → Prop
  | [] => True
  | f :: fs => path[fs.length]? = some (f.table, f.next) ∧ Held path fs

/-- The tables that are still to free, in their order. -/
def todo (T : TableTree Nat) : List Frame → List Nat
  | [] => []
  | f :: fs => T.rest layout (2 - fs.length) fs.length f.place f.next f.table ++ todo T fs

variable {t : PageTable} {m m' : TableMemory} {T : TableTree Nat} {root n : Nat} {f : Frame} {fs : List Frame}
  {r : Release} {left gone : List Nat}

theorem Path.head (hT : T.table 0 0 = some root) (h : Path T root (f :: fs)) :
    T.table fs.length f.place = some f.table ∧ fs.length ≤ 2 ∧ f.next ≤ 512 := by
  cases h with
  | root hn => exact ⟨hT, Nat.zero_le _, hn⟩
  | child _ _ hlen hc hn => exact ⟨hc, by simp only [length_cons]; omega, hn⟩

theorem Path.advance (h : Path T root (f :: fs)) (hn : n ≤ 512) : Path T root ({ f with next := n } :: fs) := by
  cases h with
  | root _ => exact .root hn
  | child hp h1 hlen hc _ => exact .child hp h1 hlen hc hn

theorem Path.tail (h : Path T root (f :: fs)) (hne : fs ≠ []) : Path T root fs := by
  cases h with
  | root => exact absurd rfl hne
  | child hp => exact hp

theorem Held.set {path : List (Nat × Nat)} {k : Nat} {v : Nat × Nat} (h : Held path fs) (hk : fs.length ≤ k) :
    Held (path.set k v) fs := by
  induction fs with
  | nil => trivial
  | cons f fs ih =>
    rw [length_cons] at hk
    refine ⟨?_, ih h.2 (by omega)⟩
    rw [getElem?_set_ne (by omega)]
    exact h.1

/-- Every table of the path is still to free. -/
theorem length_le_todo (T : TableTree Nat) (fs : List Frame) : fs.length ≤ (todo T fs).length := by
  induction fs with
  | nil => exact Nat.zero_le _
  | cons f fs ih =>
    simp only [todo, rest, length_append, length_cons]
    omega

/-! ## One step -/

/-- The loop skips the words that lead to no table and stops at the first one that does. -/
theorem scan_spec {l p table i h : Nat} (hI : Inv t m T) (hl : l < 3)
    (hread : ∀ j < 512, m'.read (table + j * 8) = T.entry layout l (p * 512 + j)) (hin : i + n = 512) :
    (∀ pa ∈ (scan m' table n i).1, ∃ j < 512, pa = table + j * 8) ∧
      ((scan m' table n i).2 = none ∧ T.rest layout h l p i table = [table] ∨
        ∃ j c, j < 512 ∧ (scan m' table n i).2 = some (j, tableDescriptor c) ∧
          T.table (l + 1) (p * 512 + j) = some c ∧
          T.rest layout h l p i table = T.below layout h (l + 1) (p * 512 + j) ++ T.rest layout h l p (j + 1) table) := by
  induction n generalizing i with
  | zero =>
    obtain rfl : i = 512 := by omega
    refine ⟨by simp [scan], .inl ⟨rfl, rest_fan⟩⟩
  | succ n ih =>
    have hi : i < 512 := by omega
    have hsucc := rest_succ (L := layout) (T := T) (h := h) (l := l) (p := p) (t := table) hi
    obtain ⟨hreads, hres⟩ := ih (i := i + 1) (by omega)
    simp only [scan, hread i hi]
    rcases hI.entry_at hl (p * 512 + i) with ⟨c, hc, he⟩ | ⟨hn, hno, -⟩
    · rw [he, if_pos (isTable_tableDescriptor c)]
      refine ⟨?_, .inr ⟨i, c, hi, rfl, hc, hsucc⟩⟩
      intro pa hpa
      exact ⟨i, hi, by simpa using hpa⟩
    · rw [if_neg (by simp [hno])]
      have hnil : T.below layout h (l + 1) (p * 512 + i) = [] := below_none hn
      have hsame : T.rest layout h l p i table = T.rest layout h l p (i + 1) table := by
        rw [hsucc]
        exact (congrArg (· ++ _) hnil).trans (nil_append _)
      refine ⟨?_, ?_⟩
      · intro pa hpa
        rcases mem_cons.1 hpa with rfl | hpa
        · exact ⟨i, hi, rfl⟩
        · exact hreads pa hpa
      · rw [hsame]
        exact hres

/-- Where a release stands, with the tables it has still to free and the steps it takes at most. -/
inductive At (T : TableTree Nat) (r : Release) : List Nat → Nat → Prop where
  | fresh : r.cursor.done = false → r.cursor.depth = 0 → r.cursor.path.length = 3 →
      At T r (todo T [⟨r.root, 0, 0⟩]) (2 * (todo T [⟨r.root, 0, 0⟩]).length - 1)
  | walking {f : Frame} {fs : List Frame} : r.cursor.done = false → Path T r.root (f :: fs) →
      r.cursor.depth = fs.length + 1 → r.cursor.path.length = 3 → Held r.cursor.path (f :: fs) →
      At T r (todo T (f :: fs)) (2 * (todo T (f :: fs)).length - (fs.length + 1))
  | finished : r.cursor.done = true → At T r [] 0

/-- A release that is not at its end stands on a path once it has begun. -/
theorem At.begun (h : At T r left n) (hd : r.cursor.done = false) :
    ∃ f fs, Path T r.root (f :: fs) ∧ r.begun.depth = fs.length + 1 ∧ r.begun.path.length = 3 ∧
      Held r.begun.path (f :: fs) ∧ r.begun.freed = r.cursor.freed ∧ r.begun.done = false ∧ left = todo T (f :: fs) ∧
      n = 2 * left.length - (fs.length + 1) := by
  cases h with
  | fresh _ hdepth hlen =>
    have hb : r.begun = { r.cursor with path := r.cursor.path.set 0 (r.root, 0), depth := 1 } := if_pos hdepth
    refine ⟨⟨r.root, 0, 0⟩, [], .root (Nat.zero_le _), ?_⟩
    rw [hb]
    refine ⟨rfl, by simpa using hlen, ⟨?_, trivial⟩, rfl, hd, rfl, rfl⟩
    exact getElem?_set_self (by omega)
  | @walking f fs _ hp hdepth hlen hheld =>
    have hb : r.begun = r.cursor := if_neg (by omega)
    rw [hb]
    exact ⟨f, fs, hp, hdepth, hlen, hheld, rfl, hd, rfl, rfl⟩
  | finished hdone =>
    rw [hdone] at hd
    cases hd

/-- Where there is a table to free there is a step to take. -/
theorem At.nil_of_zero (h : At T r left 0) : left = [] := by
  generalize hn : 0 = n at h
  cases h with
  | fresh =>
    have := length_le_todo T [⟨r.root, 0, 0⟩]
    rw [length_singleton] at this
    omega
  | @walking f fs =>
    have := length_le_todo T (f :: fs)
    rw [length_cons] at this
    omega
  | finished => rfl

/-- What a step does to a release that has `left` to free and `n` steps to take. -/
structure Stepped (T : TableTree Nat) (r : Release) (left : List Nat) (n : Nat) (o : Outcome) : Prop where
  after : ∃ left' n', At T o.release left' n' ∧ left = o.freed.toList ++ left' ∧ n' ≤ n - 1 ∧ (o.done = true ↔ left' = [])
  freed : o.release.cursor.freed = r.cursor.freed + o.freed.toList.length
  root : o.release.root = r.root
  reads : ∀ pa ∈ o.reads, ∃ c ∈ left, ∃ i < 512, pa = c + i * 8

/-- **`step`**: the memory that it reads need only hold the tables that are still to free. -/
theorem step_spec (hI : Inv t m T) (hroot : r.root = t.root) (h : At T r left n)
    (hread : ∀ c ∈ left, ∀ i < 512, m'.read (c + i * 8) = m.read (c + i * 8)) :
    ∃ o, r.step m' = some o ∧ Stepped T r left n o := by
  cases hd : r.cursor.done with
  | true =>
    have hleft : left = [] ∧ n = 0 := by
      cases h with
      | fresh hd' => exact nomatch hd.symm.trans hd'
      | walking hd' => exact nomatch hd.symm.trans hd'
      | finished => exact ⟨rfl, rfl⟩
    rcases hleft with ⟨rfl, rfl⟩
    refine ⟨⟨true, r, [], none⟩, by rw [step, if_pos hd], ⟨[], 0, h, rfl, le_rfl, by simp⟩, rfl, rfl, by simp⟩
  | false =>
    obtain ⟨f, fs, hp, hdepth, hlen, ⟨hslot, hheld⟩, hfreed, hdone, rfl, rfl⟩ := h.begun hd
    have hholds := hI.holds
    obtain ⟨htable, hlevel, hnext⟩ := hp.head (by rw [hroot]; exact hholds.root)
    have hmem : f.table ∈ todo T (f :: fs) := by simp [todo, rest]
    have hword : ∀ j < 512, m'.read (f.table + j * 8) = T.entry layout fs.length (f.place * 512 + j) := by
      intro j hj
      rw [hread _ hmem j hj]
      exact hholds.word htable hj
    have hsub : r.begun.depth - 1 = fs.length := by omega
    obtain ⟨hreads, hres⟩ := scan_spec hI (by omega) hword (by omega : f.next + (512 - f.next) = 512)
    have hreads' : ∀ pa ∈ (scan m' f.table (512 - f.next) f.next).1, ∃ c ∈ todo T (f :: fs),
        ∃ i < 512, pa = c + i * 8 := fun pa hpa => ⟨f.table, hmem, hreads pa hpa⟩
    rw [step, if_neg (by simp [hd])]
    simp only [hsub, hslot, Option.bind_some]
    rcases hscan : scan m' f.table (512 - f.next) f.next with ⟨reads, found⟩
    rw [hscan] at hres hreads'
    rcases hres with ⟨rfl, hrest⟩ | ⟨j, c, hj, rfl, hc, hrest⟩
    · -- no table is left below: this one goes
      have htodo : todo T (f :: fs) = f.table :: todo T fs := by rw [todo, hrest]; rfl
      refine ⟨_, rfl, ⟨todo T fs, 2 * (todo T fs).length - fs.length, ?_, htodo, ?_, ?_⟩, ?_, rfl, hreads'⟩
      · cases fs with
        | nil => exact .finished rfl
        | cons f' fs => exact .walking rfl (hp.tail (by simp)) rfl hlen hheld
      · rw [htodo, length_cons]
        omega
      · cases fs with
        | nil => simp [todo]
        | cons f' fs => simp [todo, rest]
      · simp [hfreed]
    · dsimp only
      have hoa : tableDescriptor c &&& OA_MASK = c := by
        obtain ⟨h1, h2⟩ := (hholds.table hc).2
        exact oa_tableDescriptor h1 h2
      have hadv : Path T r.root ({ f with next := j + 1 } :: fs) := hp.advance hj
      have hpath : Held (r.begun.path.set fs.length (f.table, j + 1)) ({ f with next := j + 1 } :: fs) :=
        ⟨getElem?_set_self (by omega), hheld.set le_rfl⟩
      by_cases h2 : fs.length = 2
      · -- a table of level 3 goes from its parent
        have htodo : todo T (f :: fs) = c :: todo T ({ f with next := j + 1 } :: fs) := by
          have hzero : T.below layout (2 - fs.length) (fs.length + 1) (f.place * 512 + j) = [c] := by
            rw [h2] at hc ⊢
            exact below_zero hc
          rw [todo, hrest, hzero]
          rfl
        rw [if_pos h2, hoa]
        refine ⟨_, rfl, ⟨_, _, .walking hdone hadv hdepth (by simpa using hlen) hpath, htodo, ?_, ?_⟩, ?_, rfl, hreads'⟩
        · rw [htodo, length_cons]
          omega
        · simp [todo, rest]
        · simp [hfreed]
      · -- a table of level 1 or 2 is entered
        have hlt : fs.length < 2 := by omega
        have hchild : Path T r.root (⟨c, 0, f.place * 512 + j⟩ :: { f with next := j + 1 } :: fs) :=
          .child hadv (Nat.succ_le_succ (Nat.zero_le j)) hlt hc (Nat.zero_le _)
        have htodo : todo T (f :: fs) = todo T (⟨c, 0, f.place * 512 + j⟩ :: { f with next := j + 1 } :: fs) := by
          obtain ⟨k, hk⟩ : ∃ k, 2 - fs.length = k + 1 := ⟨1 - fs.length, by omega⟩
          have hk' : 2 - (fs.length + 1) = k := by omega
          simp only [todo, length_cons]
          rw [hrest, hk, hk', below_succ hc, append_assoc]
        rw [if_neg h2, if_pos (by rw [length_set]; omega), hoa]
        refine ⟨_, rfl, ⟨_, _, .walking hdone hchild ?_ ?_ ⟨?_, ?_⟩, htodo, ?_, ?_⟩, ?_, rfl, hreads'⟩
        · simp [hdepth]
        · simpa using hlen
        · exact getElem?_set_self (by simp only [length_set]; omega)
        · exact hpath.set le_rfl
        · rw [← htodo, length_cons]
          omega
        · simp [todo, rest]
        · simp [hfreed]

/-! ## The steps of a release -/

/-- Memory whose tables in `gone` hold what `w` says. -/
def TableMemory.spoil (m : TableMemory) (gone : List Nat) (w : Nat → Nat) : TableMemory :=
  { m with words := fun pa => if ∃ c ∈ gone, c ≤ pa ∧ pa < c + PAGE_SIZE then w pa else m.words pa }

/-- Steps one after the other, each with anything in the tables freed before it. -/
def Release.run (m : TableMemory) (gone : List Nat) (r : Release) : List (Nat → Nat) → Option (List Outcome)
  | [] => some []
  | w :: ws => (r.step (m.spoil gone w)).bind fun o =>
    (run m (gone ++ o.freed.toList) o.release ws).map (o :: ·)

/-- The tables that steps freed, in their order. -/
def frees (os : List Outcome) : List Nat := os.filterMap Outcome.freed

theorem frees_cons (o : Outcome) (os : List Outcome) : frees (o :: os) = o.freed.toList ++ frees os := by
  cases h : o.freed with
  | none => simp [frees, h]
  | some c => simp [frees, h]

/-- A table that was not freed reads as before. -/
theorem spoil_read {w : Nat → Nat} {c i : Nat} (hgone : ∀ b ∈ gone, b % PAGE_SIZE = 0)
    (hc : c % PAGE_SIZE = 0) (hn : c ∉ gone) (hi : i < 512) : (m.spoil gone w).read (c + i * 8) = m.read (c + i * 8) := by
  apply if_neg
  rintro ⟨b, hb, hle, hlt⟩
  have hmod := hgone b hb
  have hne : c ≠ b := by
    rintro rfl
    exact hn hb
  unfold PAGE_SIZE at *
  omega

theorem run_spec (ws : List (Nat → Nat)) (hI : Inv t m T)
    (hroot : r.root = t.root) (hnodup : (gone ++ left).Nodup) (haligned : ∀ c ∈ gone ++ left, c % PAGE_SIZE = 0)
    (h : At T r left n) :
    ∃ os, Release.run m gone r ws = some os ∧ os.length = ws.length ∧
      (∃ left', left = frees os ++ left' ∧ (n ≤ ws.length → left' = [])) ∧
      ∀ k o, os[k]? = some o → (o.done = true ↔ frees (os.take (k + 1)) = left) ∧
        o.release.cursor.freed = r.cursor.freed + (frees (os.take (k + 1))).length ∧
        ∀ pa ∈ o.reads, ∃ c ∈ left, c ∉ frees (os.take k) ∧ ∃ i < 512, pa = c + i * 8 := by
  induction ws generalizing r gone left n with
  | nil =>
    refine ⟨[], rfl, rfl, ⟨left, rfl, fun hn => ?_⟩, by simp⟩
    obtain rfl : n = 0 := Nat.le_zero.1 hn
    exact h.nil_of_zero
  | cons w ws ih =>
    have hread : ∀ c ∈ left, ∀ i < 512, (m.spoil gone w).read (c + i * 8) = m.read (c + i * 8) := by
      intro c hc i hi
      refine spoil_read (fun b hb => haligned b (mem_append_left _ hb)) (haligned c (mem_append_right _ hc)) ?_ hi
      intro hg
      exact (nodup_append.1 hnodup).2.2 c hg c hc rfl
    obtain ⟨o, ho, ⟨left', n', hat, hleft, hn', hdone⟩, hfreed, hroot', hreads⟩ := step_spec hI hroot h hread
    rw [hleft, ← append_assoc] at hnodup haligned
    obtain ⟨os, hos, hlen, ⟨rest, hrest, hend⟩, hall⟩ := ih (hroot'.trans hroot) hnodup haligned hat
    refine ⟨o :: os, by simp [Release.run, ho, hos], by simp [hlen], ⟨rest, ?_, fun hn => hend ?_⟩, fun k o' hk => ?_⟩
    · rw [hleft, hrest, frees_cons, append_assoc]
    · rw [length_cons] at hn
      omega
    · cases k with
      | zero =>
        obtain rfl : o = o' := by simpa using hk
        have hone : frees ((o :: os).take (0 + 1)) = o.freed.toList := by
          rw [take_succ_cons, frees_cons]
          exact append_nil _
        rw [hone, hdone, hleft]
        refine ⟨?_, hfreed, fun pa hpa => ?_⟩
        · simp
        · obtain ⟨c, hc, hpa⟩ := hreads pa hpa
          rw [← hleft]
          exact ⟨c, hc, by simp [frees], hpa⟩
      | succ k =>
        obtain ⟨h1, h2, h3⟩ := hall k o' (by exact hk)
        rw [take_succ_cons, frees_cons, take_succ_cons, frees_cons]
        refine ⟨?_, ?_, fun pa hpa => ?_⟩
        · rw [h1, hleft, append_cancel_left_eq]
        · rw [h2, hfreed, length_append, add_assoc]
        · obtain ⟨c, hc, hn, hpa⟩ := h3 pa hpa
          have hsub : (o.freed.toList ++ left').Nodup := by
            rw [append_assoc] at hnodup
            exact (nodup_append.1 hnodup).2.1
          refine ⟨c, by rw [hleft]; exact mem_append_right _ hc, ?_, hpa⟩
          rw [mem_append]
          rintro (hf | hf)
          · exact (nodup_append.1 hsub).2.2 c hf c hc rfl
          · exact hn hf

/-- The tables that the allocator gave for a tree: its root, and what the calls since then were granted. -/
def allocated (t : PageTable) (m₁ : TableMemory) (ops : List Op) : List Nat :=
  t.root :: (runCalls t m₁ ops).filterMap id

/-- The tables of a tree are those allocated for it. -/
theorem allocated_iff {m₀ m₁ : TableMemory} (hs : m₀.Sound) (hnew : PageTable.new m₀ = (.ok t, m₁)) (ops : List Op) :
    (allocated t m₁ ops).Nodup ∧ ∃ T, Inv t (run t m₁ ops) T ∧ (∀ p c, T.table 0 p = some c → p = 0) ∧
      ∀ c, c ∈ allocated t m₁ ops ↔ ∃ l q, T.table l q = some c := by
  obtain ⟨T, hT⟩ := run_grew (inv_new hs hnew) ops
  have hanswers : m₀.answers.filterMap id = t.root :: m₁.answers.filterMap id := by
    unfold PageTable.new at hnew
    rcases allocTable_cases m₀ with ⟨m', ha, -, -⟩ | ⟨c, m', ha, hans, -⟩
    · rw [ha] at hnew
      cases hnew
    · rw [ha] at hnew
      cases hnew
      rw [hans]
      rfl
  refine ⟨?_, T, hT.inv, fun p c hc => ?_, fun c => ?_⟩
  · have hnodup := hs.once
    rw [hanswers, hT.answers] at hnodup
    exact (nodup_append.1 hnodup).1
  · -- the places of level 0 are those of the root alone
    have hsame := hT.asked.same (a := (0, p)) (fun h => h rfl)
    rw [tables, hc] at hsame
    by_contra hp
    simp [tables, single, hp] at hsame
  · have hvalues := hT.asked.values c
    have hroot : (∃ a, tables (single layout t.root) a = some c) ↔ c = t.root := by
      constructor
      · rintro ⟨⟨l, p⟩, ha⟩
        simp only [tables, single] at ha
        split at ha
        · exact (Option.some.inj ha).symm
        · cases ha
      · rintro rfl
        exact ⟨(0, 0), rfl⟩
    have hpair : (∃ l q, T.table l q = some c) ↔ ∃ a, tables T a = some c := Prod.exists'.symm
    rw [hpair, hvalues, hroot, allocated]
    simp

/-- **The release of a table tree.** Take any tree that calls of any arguments built, and its release by steps,
with anything in the memory of tables once they are freed. There is an order of the tables allocated for
the tree, the root last, in which the steps free them, at most one each; `2 * n - 1` steps for `n` tables
free them all. A step returns true exactly when the root is freed, by it or before it; then every table was
freed, and `freed` counts them. A step reads words of tables that no step before it freed. -/
theorem release_tree {m₀ m₁ : TableMemory} (hs : m₀.Sound) (hnew : PageTable.new m₀ = (.ok t, m₁)) (ops : List Op)
    (ws : List (Nat → Nat)) :
    ∃ order os, order.Perm (allocated t m₁ ops) ∧ order.Nodup ∧ order.getLast? = some t.root ∧
      Release.run (run t m₁ ops) [] t.intoRelease ws = some os ∧ os.length = ws.length ∧
      (∃ rest, order = frees os ++ rest) ∧
      (2 * (allocated t m₁ ops).length - 1 ≤ ws.length → frees os = order) ∧
      ∀ k o, os[k]? = some o →
        (o.done = true ↔ t.root ∈ frees (os.take (k + 1))) ∧
        (o.done = true → frees (os.take (k + 1)) = order ∧ o.release.cursor.freed = (allocated t m₁ ops).length) ∧
        o.release.cursor.freed = (frees (os.take (k + 1))).length ∧
        ∀ pa ∈ o.reads, ∃ c ∈ allocated t m₁ ops, c ∉ frees (os.take k) ∧ ∃ i < 512, pa = c + i * 8 := by
  obtain ⟨hnodup, T, hI, hroot, hmem⟩ := allocated_iff hs hnew ops
  obtain ⟨order, horder⟩ : ∃ order, order = todo T [⟨t.root, 0, 0⟩] := ⟨_, rfl⟩
  have hbelow : order = T.below layout 3 0 0 := by
    rw [horder, below_succ hI.holds.root]
    exact append_nil _
  have hon : order.Nodup := by
    rw [hbelow]
    exact hI.holds.nodup_below
  have hperm : order.Perm (allocated t m₁ ops) := by
    rw [perm_ext_iff_of_nodup hon hnodup]
    intro c
    rw [hbelow, hmem]
    exact hI.holds.mem_order hroot
  have hlast : ∃ front, order = front ++ [t.root] := ⟨_, by rw [horder]; exact append_nil _⟩
  obtain ⟨front, hfront⟩ := hlast
  have haligned : ∀ c ∈ [] ++ order, c % PAGE_SIZE = 0 := by
    intro c hc
    obtain ⟨l, q, hq⟩ := (hmem c).1 (hperm.subset hc)
    exact (hI.holds.table hq).2.1
  have hat : At T t.intoRelease order (2 * order.length - 1) := by
    rw [horder]
    exact .fresh rfl rfl rfl
  obtain ⟨os, hos, hlen, ⟨rest, hrest, hend⟩, hall⟩ := run_spec ws hI rfl (show ([] ++ order).Nodup from hon) haligned hat
  refine ⟨order, os, hperm, hon, by simp [hfront], hos, hlen, ⟨rest, hrest⟩, fun hn => ?_, fun k o hk => ?_⟩
  · rw [hrest, hend (by rw [hperm.length_eq]; exact hn), append_nil]
  · obtain ⟨hdone, hfreed, hreads⟩ := hall k o hk
    have hcount : o.release.cursor.freed = (frees (os.take (k + 1))).length := by
      rw [hfreed]
      exact zero_add _
    refine ⟨?_, fun hd => ?_, hcount, fun pa hpa => ?_⟩
    · rw [hdone]
      constructor
      · intro he
        rw [he, hfront]
        simp
      · -- what is freed is the head of the order, and the root is its last
        intro hr
        obtain ⟨tail, htail⟩ : ∃ tail, order = frees (os.take (k + 1)) ++ tail := by
          refine ⟨frees (os.drop (k + 1)) ++ rest, ?_⟩
          rw [← append_assoc, frees, frees, ← filterMap_append, take_append_drop]
          exact hrest
        have htail' : tail = [] := by
          by_contra hne
          have hin : t.root ∈ tail := by
            have hl := congrArg getLast? htail
            rw [hfront, getLast?_concat, getLast?_append_of_ne_nil _ hne] at hl
            exact mem_of_getLast? hl.symm
          rw [htail] at hon
          exact (nodup_append.1 hon).2.2 _ hr _ hin rfl
        rw [htail, htail', append_nil]
    · have he := hdone.1 hd
      exact ⟨he, by rw [hcount, he, hperm.length_eq]⟩
    · obtain ⟨c, hc, h⟩ := hreads pa hpa
      exact ⟨c, hperm.subset hc, h⟩

/-- The root and the three tables of one page go in seven steps. -/
theorem release_tree_of_page :
    let m₀ : TableMemory := ⟨fun _ => 0, [some 0x1000, some 0x2000, some 0x3000, some 0x4000]⟩
    let m₁ := (PageTable.new m₀).2
    let ops : List Op := [.mapUser 0x400000 0x80000000 4096 ⟨.normal, false, false, true, false⟩]
    (allocated ⟨0x1000⟩ m₁ ops).length = 4 ∧
      ∃ os, Release.run (run ⟨0x1000⟩ m₁ ops) [] (PageTable.intoRelease ⟨0x1000⟩) (replicate 7 fun _ => 3) = some os ∧
        (frees os).Perm (allocated ⟨0x1000⟩ m₁ ops) := by
  intro m₀ m₁ ops
  have hs : m₀.Sound := by
    refine ⟨fun c hc => ?_, by decide⟩
    have hc : c = 0x1000 ∨ c = 0x2000 ∨ c = 0x3000 ∨ c = 0x4000 := by simpa [m₀] using hc
    rcases hc with rfl | rfl | rfl | rfl
    all_goals decide
  have hnew : PageTable.new m₀ = (.ok ⟨0x1000⟩, m₁) := rfl
  have hfour : (allocated ⟨0x1000⟩ m₁ ops).length = 4 := by decide +kernel
  obtain ⟨order, os, hperm, -, -, hos, -, -, hend, -⟩ := release_tree hs hnew ops (replicate 7 fun _ => 3)
  refine ⟨hfour, os, hos, ?_⟩
  rw [hend (by rw [hfour, length_replicate])]
  exact hperm

end Paging
