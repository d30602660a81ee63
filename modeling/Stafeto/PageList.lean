import Mathlib.Tactic
import Stafeto.Lib.NamedStack
import Stafeto.Lib.Run

/-!
# The frames of a memory object (kcore/src/pagelist.rs)

A list of pages is a tree of nodes, each a frame of 512 words: none for one page, one node up to 512 pages, a node
of nodes above. `fill` takes frames a few pages at a time, `release_collect` gives them back a few at a time, and
both may stop anywhere.

The frames that a list holds are a stack. Each frame has its part (`Part`): the root, a leaf or a page; the list's
fields alone say which parts are on the stack and in which order (`partsOf`), `fill` pushes and the release pops.
So what is released is what was taken, backwards (`pages_of_run`): every frame once, a node after all that is
below it. `Rep` says that the words of the nodes lead to the frames of the parts.

A word of a frame that was given back is not read: `readWord` fails there. Words outside of the nodes change at any
time: the pages are the program's, and what was given back is someone else's.
-/

namespace Pagelist

open NamedStack Function List Option

/-- Words of a node (pagelist.rs:19). -/
def ENTRIES : Nat := 512

def MAX_PAGES : Nat := ENTRIES * ENTRIES

def PAGE_SIZE : Nat := 4096

/-- Frames that a step of the release gives back (pagelist.rs:29). -/
def FRAMES_PER_SECTION : Nat := 6

/-- `depth` (pagelist.rs:48). -/
def depth (pages : Nat) : Nat := if pages ≤ 1 then 0 else if pages ≤ ENTRIES then 1 else 2

/-- `div_ceil(ENTRIES)`. -/
def leavesFor (pages : Nat) : Nat := (pages + ENTRIES - 1) / ENTRIES

/-- `nodes` (pagelist.rs:61). -/
def nodes (pages : Nat) : Nat :=
  match depth pages with
  | 0 => 0
  | 1 => 1
  | _ => 1 + leavesFor pages

/-- `PageList` (pagelist.rs:73). -/
structure PageList where
  root : Nat
  pages : Nat
  filled : Nat
  leaves : Nat
  going : Bool
deriving DecidableEq, Repr

/-- `new` (pagelist.rs:88): `none` for the assertion. -/
def new (pages : Nat) : Option PageList := if 0 < pages ∧ pages ≤ MAX_PAGES then some ⟨0, pages, 0, 0, false⟩ else none

/-- The address of a word of a frame. -/
def wordAt (frame i : Nat) : Nat := (frame + 8 * i) % 2 ^ 64

/-- A list that is filled: its memory, and the frames that `alloc_frame` will give. -/
structure Filling where
  list : PageList
  words : Nat → Nat
  store : List Nat

/-- The root's frame (pagelist.rs:123). -/
def takeRoot (s : Filling) : Option Filling :=
  match s.store with
  | [] => none
  | frame :: store => some { s with list := { s.list with root := frame }, store := store }

/-- A leaf's frame, for the pages from `i` on (pagelist.rs:134). -/
def takeLeaf (s : Filling) (i : Nat) : Option Filling :=
  match s.store with
  | [] => none
  | leaf :: store =>
    some ⟨{ s.list with leaves := s.list.leaves + 1 },
      update s.words (wordAt s.list.root (i / ENTRIES)) leaf, store⟩

/-- The frame of page `i`, written to the word at `slot`, and the count. -/
def takePage (s : Filling) (slot : Nat) : Option Filling :=
  match s.store with
  | [] => none
  | page :: store =>
    some ⟨{ s.list with filled := s.list.filled + 1 }, update s.words slot page, store⟩

/-- A turn of `fill` (pagelist.rs:118); `none` when `alloc_frame` has no frame. -/
def fillTurn (s : Filling) : Option Filling :=
  let i := s.list.filled
  match depth s.list.pages with
  | 0 => (takeRoot s).map fun s => { s with list := { s.list with filled := i + 1 } }
  | 1 =>
    (if i = 0 then takeRoot s else some s).bind fun s => takePage s (wordAt s.list.root i)
  | _ =>
    (if i = 0 then takeRoot s else some s).bind fun s =>
      (if i % ENTRIES = 0 then takeLeaf s i else some s).bind fun s =>
        let leaf := s.words (wordAt s.list.root (i / ENTRIES))
        takePage s (wordAt leaf (i % ENTRIES))

/-- The `while` of `fill`, which makes as many turns as pages are to come. -/
def fillLoop : Nat → Filling → Option Filling
  | 0, s => some s
  | turns + 1, s => (fillTurn s).bind (fillLoop turns)

/-- Where a `fill` of `n` pages ends. -/
def fillEnd (l : PageList) (n : Nat) : Nat := min l.pages ((l.filled + n) % 2 ^ 64)

/-- `fill` (pagelist.rs:115): the result is whether every page has its frame. -/
def fill (s : Filling) (n : Nat) : Option (Filling × Bool) :=
  if s.list.going then none
  else
    (fillLoop (fillEnd s.list n - s.list.filled) s).map fun s => (s, decide (s.list.filled = s.list.pages))

/-- `fill_needs` (pagelist.rs:153), with the subtractions of the machine. -/
def fillNeeds (l : PageList) (n : Nat) : Nat :=
  let stop := fillEnd l n
  let frames := (stop + 2 ^ 64 - l.filled) % 2 ^ 64
  if l.filled < stop then
    match depth l.pages with
    | 0 => frames
    | 1 => frames + (decide (l.filled = 0)).toNat
    | _ => frames + (decide (l.filled = 0)).toNat + (leavesFor stop - leavesFor l.filled)
  else frames

/-- `find` (pagelist.rs:204): `read` reads a word of the memory. -/
def find (read : Nat → Option Nat) (l : PageList) (i : Nat) : Option Nat :=
  match depth l.pages with
  | 0 => some l.root
  | 1 => read (wordAt l.root i)
  | _ => (read (wordAt l.root (i / ENTRIES))).bind fun leaf => read (wordAt leaf (i % ENTRIES))

/-- `frame` (pagelist.rs:172); `none` when an assertion fails. -/
def frame (words : Nat → Nat) (l : PageList) (i : Nat) : Option Nat :=
  if l.going then none else if i < l.filled then find (fun a => some (words a)) l i else none

/-- The loop of `frames` (pagelist.rs:189), with the leaf that was read last. -/
def framesLoop (words : Nat → Nat) (l : PageList) : Nat → Nat → Nat × Nat → List Nat
  | 0, _, _ => []
  | len + 1, i, leaf =>
    match depth l.pages with
    | 0 => l.root :: framesLoop words l len (i + 1) leaf
    | 1 => words (wordAt l.root i) :: framesLoop words l len (i + 1) leaf
    | _ =>
      let leaf := if leaf.1 ≠ i / ENTRIES then (i / ENTRIES, words (wordAt l.root (i / ENTRIES))) else leaf
      words (wordAt leaf.2 (i % ENTRIES)) :: framesLoop words l len (i + 1) leaf

/-- `frames` (pagelist.rs:181), for `len` pages. -/
def frames (words : Nat → Nat) (l : PageList) (first len : Nat) : Option (List Nat) :=
  if l.going then none
  else if (first + len) % 2 ^ 64 ≤ l.filled then some (framesLoop words l len first (2 ^ 64 - 1, 0)) else none

/-- A read of a word, which fails in a frame of `gone`. -/
def readWord (words : Nat → Nat) (gone : List Nat) (a : Nat) : Option Nat :=
  if a / PAGE_SIZE * PAGE_SIZE ∈ gone then none else some (words a)

/-- A turn of `release_collect` (pagelist.rs:232): the frame and the list after it, or nothing when the list holds
no frame; `none` when a read fails. -/
def releaseTurn (read : Nat → Option Nat) (l : PageList) : Option (Option (Nat × PageList)) :=
  if leavesFor l.filled < l.leaves then
    (read (wordAt l.root (l.leaves - 1))).map fun x => some (x, { l with leaves := l.leaves - 1 })
  else if 0 < l.filled then
    (find read l (l.filled - 1)).map fun x =>
      some (x, { l with filled := l.filled - 1, root := if depth l.pages = 0 then 0 else l.root })
  else if l.root ≠ 0 then some (some (l.root, { l with root := 0 }))
  else some none

/-- The loop of `release_collect` with room for so many frames. What it wrote counts as gone at once. -/
def collect (words : Nat → Nat) : Nat → List Nat → PageList → Option (PageList × List Nat)
  | 0, _, l => some (l, [])
  | room + 1, gone, l =>
    match releaseTurn (readWord words gone) l with
    | none => none
    | some none => some (l, [])
    | some (some (x, l')) => (collect words room (gone ++ [x]) l').map fun r => (r.1, x :: r.2)

/-- `release_collect` (pagelist.rs:223): the list and the frames written. -/
def releaseCollect (words : Nat → Nat) (gone : List Nat) (l : PageList) (len : Nat) : Option (PageList × List Nat) :=
  collect words len gone { l with going := true }

/-- `released` (pagelist.rs:249). -/
def released (l : PageList) : Bool := l.root = 0

/-- `release_step` (pagelist.rs:256): the frames go to `free_frame`. -/
def releaseStep (words : Nat → Nat) (gone : List Nat) (l : PageList) : Option (PageList × List Nat × Bool) :=
  (releaseCollect words gone l FRAMES_PER_SECTION).map fun r => (r.1, r.2, released r.1)

/-! ## The parts of a list -/

/-- What a frame is in the tree. -/
inductive Part where
  | root
  | leaf (k : Nat)
  | page (i : Nat)
deriving DecidableEq

/-- The first part lies below the second. -/
def Below : Part → Part → Prop
  | .page _, .root => True
  | .leaf _, .root => True
  | .page i, .leaf k => i / ENTRIES = k
  | _, _ => False

/-- The leaf that comes with page `i`. -/
def leafAt (d i : Nat) : List Part := if d = 2 ∧ i % ENTRIES = 0 then [.leaf (i / ENTRIES)] else []

/-- The pages up to `n` with their leaves, in the order in which they are taken. -/
def body (d n : Nat) : List Part := led (leafAt d) .page n

/-- The parts of `n` pages of a list of so many pages. -/
def takenParts (pages n : Nat) : List Part := (if 1 ≤ depth pages ∧ 0 < n then [.root] else []) ++ body (depth pages) n

/-- The parts that a list holds, in the order in which they were taken. -/
def partsOf (l : PageList) : List Part :=
  (if 1 ≤ depth l.pages ∧ l.root ≠ 0 then [.root] else []) ++ body (depth l.pages) l.filled ++
    if leavesFor l.filled < l.leaves then [.leaf (l.filled / ENTRIES)] else []

/-- A frame: 4 KiB, aligned, and not at 0. -/
structure Frame (x : Nat) : Prop where
  ne_zero : x ≠ 0
  aligned : x % PAGE_SIZE = 0
  lt : x < 2 ^ 64

variable {i : Nat}

theorem wordAt_eq {x : Nat} (hx : Frame x) (hi : i < ENTRIES) : wordAt x i = x + 8 * i := by
  have h1 := hx.aligned
  have h2 := hx.lt
  unfold wordAt
  unfold PAGE_SIZE ENTRIES at *
  omega

/-- A word belongs to one frame, at one place. -/
theorem wordAt_inj {x y j : Nat} (hx : Frame x) (hy : Frame y) (hi : i < ENTRIES) (hj : j < ENTRIES)
    (h : wordAt x i = wordAt y j) : x = y ∧ i = j := by
  rw [wordAt_eq hx hi, wordAt_eq hy hj] at h
  have h1 := hx.aligned
  have h2 := hy.aligned
  unfold PAGE_SIZE ENTRIES at *
  omega

theorem frameOf_wordAt {x : Nat} (hx : Frame x) (hi : i < ENTRIES) : wordAt x i / PAGE_SIZE * PAGE_SIZE = x := by
  rw [wordAt_eq hx hi]
  have h1 := hx.aligned
  unfold PAGE_SIZE ENTRIES at *
  omega

/-! ### Counting -/

@[simp] theorem body_zero (d : Nat) : body d 0 = [] := rfl

theorem body_succ (d n : Nat) : body d (n + 1) = body d n ++ leafAt d n ++ [.page n] := led_succ ..

theorem body_pred (d : Nat) {n : Nat} (hn : 0 < n) :
    body d n = body d (n - 1) ++ leafAt d (n - 1) ++ [.page (n - 1)] :=
  led_pred _ _ hn

theorem length_body (d n : Nat) : (body d n).length = n + if d = 2 then leavesFor n else 0 := by
  induction n with
  | zero => simp [leavesFor, ENTRIES]
  | succ n ih =>
    have hlen : (leafAt d n).length = if d = 2 then leavesFor (n + 1) - leavesFor n else 0 := by
      unfold leafAt leavesFor ENTRIES
      split_ifs with h1 h2 h3
      · simp; omega
      · omega
      · simp; omega
      · rfl
    have hmono : leavesFor n ≤ leavesFor (n + 1) := by
      unfold leavesFor ENTRIES
      omega
    rw [body_succ, length_append, length_append, ih, hlen, length_singleton]
    split_ifs <;> omega

theorem mem_body {d n : Nat} {p : Part} :
    p ∈ body d n ↔
      match p with
      | .root => False
      | .leaf k => d = 2 ∧ k * ENTRIES < n
      | .page i => i < n := by
  induction n with
  | zero => cases p <;> simp
  | succ n ih =>
    rw [body_succ, mem_append, mem_append, ih]
    cases p with
    | root =>
      unfold leafAt
      split_ifs <;> simp
    | leaf k =>
      unfold leafAt ENTRIES
      split_ifs with h <;> simp <;> omega
    | page i =>
      unfold leafAt
      split_ifs <;> simp <;> omega

/-- Nothing is taken before the node that it goes below. -/
theorem body_order (d n : Nat) : (body d n).Pairwise fun a b => ¬ Below a b := by
  have hmem : ∀ {i a}, a ∈ leafAt d i ++ [.page i] → (a = .leaf (i / ENTRIES) ∧ i % ENTRIES = 0) ∨ a = .page i := by
    intro i a ha
    unfold leafAt at ha
    split_ifs at ha with h
    · simp only [mem_append, mem_singleton] at ha
      exact ha.imp (⟨·, h.2⟩) id
    · exact .inr (by simpa using ha)
  refine led_pairwise _ _ n (fun i _ => ?_) fun i j hij _ a ha b hb => ?_
  · unfold leafAt
    split_ifs <;> simp [Below]
  · obtain ⟨rfl, -⟩ | rfl := hmem ha
    · obtain ⟨rfl, -⟩ | rfl := hmem hb <;> simp [Below]
    · obtain ⟨rfl, hj⟩ | rfl := hmem hb
      · simp only [Below]
        unfold ENTRIES at *
        omega
      · simp [Below]

theorem takenParts_order (pages n : Nat) : (takenParts pages n).Pairwise fun a b => ¬ Below a b := by
  unfold takenParts
  split_ifs
  · rw [singleton_append, pairwise_cons]
    exact ⟨fun b _ => by cases b <;> simp [Below], body_order _ _⟩
  · exact body_order _ _

variable {n' : Nat}

theorem takenParts_mono (pages : Nat) {n : Nat} (h : n ≤ n') : takenParts pages n <+: takenParts pages n' := by
  unfold takenParts
  obtain rfl | hpos := Nat.eq_zero_or_pos n
  · simp
  · have hpos' : 0 < n' := by omega
    simp only [hpos, hpos']
    exact (prefix_append_right_inj _).2 (led_mono _ _ h)

theorem length_takenParts (pages n : Nat) :
    (takenParts pages n).length =
      (if 1 ≤ depth pages ∧ 0 < n then 1 else 0) + n + if depth pages = 2 then leavesFor n else 0 := by
  unfold takenParts
  rw [length_append, length_body, apply_ite length, length_singleton, length_nil]
  omega

variable {pages : Nat}

theorem depth_cases (pages : Nat) : depth pages = 0 ∨ depth pages = 1 ∨ depth pages = 2 := by
  unfold depth
  split_ifs <;> simp

/-- A complete list takes its pages and its nodes. -/
theorem length_takenParts_full (hpos : 0 < pages) :
    (takenParts pages pages).length = pages + nodes pages := by
  rw [length_takenParts]
  unfold nodes
  obtain h | h | h := depth_cases pages
  · simp [h]
  · simp [h, hpos]; omega
  · simp [h, hpos]; omega

/-! ## What a list holds -/

/-- A part that the fields of the list say it has. -/
def Has (l : PageList) : Part → Prop
  | .root => 1 ≤ depth l.pages ∧ l.root ≠ 0
  | .leaf k => k < l.leaves
  | .page i => i < l.filled

/-- The fields of a list fit together: the last leaf may be there before its first page, or still. -/
structure Shape (l : PageList) : Prop where
  pages_pos : 0 < l.pages
  pages_le : l.pages ≤ MAX_PAGES
  filled_le : l.filled ≤ l.pages
  leaves : (depth l.pages = 2 ∧ (l.leaves = leavesFor l.filled ∨
    l.filled < l.pages ∧ l.filled % ENTRIES = 0 ∧ l.leaves = l.filled / ENTRIES + 1)) ∨ (depth l.pages ≠ 2 ∧ l.leaves = 0)
  rooted : 0 < l.filled ∨ 0 < l.leaves → l.root ≠ 0
  bare : depth l.pages = 0 → l.filled = 0 → l.root = 0

/-- The words of the nodes lead to the frames `f` of the parts, which are frames and all different. -/
structure Rep (l : PageList) (w : Nat → Nat) (f : Part → Nat) : Prop where
  shape : Shape l
  nodup : ((partsOf l).map f).Nodup
  frame : ∀ p ∈ partsOf l, Frame (f p)
  root : 1 ≤ depth l.pages → l.root ≠ 0 → l.root = f .root
  leaf : ∀ k < l.leaves, w (wordAt l.root k) = f (.leaf k)
  page : ∀ i < l.filled, find (fun a => some (w a)) l i = some (f (.page i))

/-- The list holds these frames, in the order in which it took them. -/
def Holds (l : PageList) (w : Nat → Nat) (fs : List Nat) : Prop := ∃ f, Rep l w f ∧ (partsOf l).map f = fs

section
variable {l l' : PageList} {w : Nat → Nat} {f : Part → Nat} {p q : Part} {fs : List Nat} {x : Nat}

theorem Shape.leaf_iff (h : Shape l) (k : Nat) :
    ((depth l.pages = 2 ∧ k * ENTRIES < l.filled) ∨ leavesFor l.filled < l.leaves ∧ k = l.filled / ENTRIES) ↔
      k < l.leaves := by
  have hl := h.leaves
  unfold leavesFor ENTRIES at *
  omega

theorem mem_partsOf (h : Shape l) : p ∈ partsOf l ↔ Has l p := by
  unfold partsOf
  rw [mem_append, mem_append, mem_body]
  cases p with
  | root =>
    simp only [Has]
    split_ifs <;> simp_all
  | leaf k =>
    rw [Has, ← h.leaf_iff k]
    split_ifs <;> simp_all
  | page i =>
    simp only [Has]
    split_ifs <;> simp

theorem Rep.inj (h : Rep l w f) (hp : Has l p) (hq : Has l q) (heq : f p = f q) : p = q :=
  inj_on_of_nodup_map h.nodup ((mem_partsOf h.shape).2 hp) ((mem_partsOf h.shape).2 hq) heq

theorem Rep.isFrame (h : Rep l w f) (hp : Has l p) : Frame (f p) := h.frame p ((mem_partsOf h.shape).2 hp)

/-! ### Reading -/

theorem find_zero (read : Nat → Option Nat) (hd : depth l.pages = 0) (i : Nat) : find read l i = some l.root := by
  simp [find, hd]

theorem find_one (read : Nat → Option Nat) (hd : depth l.pages = 1) (i : Nat) :
    find read l i = read (wordAt l.root i) := by
  simp [find, hd]

theorem find_two (read : Nat → Option Nat) (hd : depth l.pages = 2) (i : Nat) :
    find read l i = (read (wordAt l.root (i / ENTRIES))).bind fun leaf => read (wordAt leaf (i % ENTRIES)) := by
  simp [find, hd]

theorem Shape.index_lt (h : Shape l) (hi : i < l.pages) :
    (depth l.pages = 1 → i < ENTRIES) ∧ i / ENTRIES < ENTRIES ∧ i % ENTRIES < ENTRIES := by
  have hp := h.pages_le
  refine ⟨fun hd => ?_, ?_, ?_⟩
  · unfold depth at hd
    split_ifs at hd with h2
    · omega
    · omega
  · unfold MAX_PAGES ENTRIES at *
    omega
  · exact Nat.mod_lt _ (by decide)

theorem Shape.leaf_lt (h : Shape l) {k : Nat} (hk : k < l.leaves) : k < ENTRIES := by
  have hp := h.pages_le
  have hf := h.filled_le
  have hl := h.leaves
  unfold leavesFor MAX_PAGES ENTRIES at *
  omega

theorem Shape.leaf_of_page (h : Shape l) (hd : depth l.pages = 2) (hi : i < l.filled) :
    i / ENTRIES < l.leaves := by
  have hl := h.leaves
  unfold leavesFor ENTRIES at *
  omega

theorem Rep.word_of_page (h : Rep l w f) (hd : depth l.pages = 2) (hi : i < l.filled) :
    w (wordAt (f (.leaf (i / ENTRIES))) (i % ENTRIES)) = f (.page i) := by
  have hpage := h.page i hi
  rw [find_two _ hd, bind_some, some.injEq, h.leaf _ (h.shape.leaf_of_page hd hi)] at hpage
  exact hpage

/-! ### One more frame -/

theorem Rep.push (h : Rep l w f) (hparts : partsOf l' = partsOf l ++ [p]) (hp : ¬ Has l p)
    (hx : Frame x) (hnew : x ∉ (partsOf l).map f) :
    ((partsOf l').map (update f p x)).Nodup ∧ (∀ q ∈ partsOf l', Frame (update f p x q)) ∧
      (partsOf l').map (update f p x) = (partsOf l).map f ++ [x] := by
  have hp' : p ∉ partsOf l := fun hmem => hp ((mem_partsOf h.shape).1 hmem)
  rw [hparts]
  exact ⟨nodup_push h.nodup hp' hnew, forall_push h.frame hx, map_push hp'⟩

theorem Rep.rootFrame (h : Rep l w f) (hd : 1 ≤ depth l.pages) (hroot : l.root ≠ 0) :
    Frame l.root ∧ ∀ k < l.leaves, f (.leaf k) ≠ l.root := by
  have hhas : Has l .root := ⟨hd, hroot⟩
  rw [h.root hd hroot]
  refine ⟨h.isFrame hhas, fun k hk heq => ?_⟩
  cases h.inj (p := .leaf k) hk hhas heq

/-- What the list holds and what is in the store are `all` the frames there are. -/
structure Stocked (all : List Nat) (s : Filling) : Prop where
  holds : ∃ fs, Holds s.list s.words fs ∧ fs ++ s.store = all
  nodup : all.Nodup
  frames : ∀ x ∈ s.store, Frame x

/-- A frame of the store goes to the list, which is `l` then. -/
def Gives (all : List Nat) (s : Filling) (l : PageList) (r : Option Filling) : Prop :=
  ∃ s', r = some s' ∧ s'.list = l ∧ s'.store.length + 1 = s.store.length ∧ Stocked all s'

variable {s : Filling} {all : List Nat} {w' : Nat → Nat}

section
variable (hS : Stocked all s)
include hS

theorem Stocked.next (hlen : 0 < s.store.length) :
    ∃ f x store, Rep s.list s.words f ∧ s.store = x :: store ∧ Frame x ∧ x ∉ (partsOf s.list).map f ∧
      ∀ l' w', Holds l' w' ((partsOf s.list).map f ++ [x]) → Stocked all ⟨l', w', store⟩ := by
  obtain ⟨⟨_, ⟨f, h, rfl⟩, hall⟩, hnd, hfr⟩ := hS
  obtain ⟨x, store, hstore⟩ := exists_cons_of_length_pos hlen
  rw [hstore] at hall hfr
  refine ⟨f, x, store, h, hstore, hfr x (by simp), ?_, fun l' w' hH => ?_⟩
  · rw [← hall, nodup_append] at hnd
    exact fun hmem => hnd.2.2 x hmem x (by simp) rfl
  · exact ⟨⟨_, hH, by simpa using hall⟩, hnd, fun y hy => hfr y (by simp [hy])⟩

/-- The root is the first frame of all. -/
theorem takeRoot_spec (hd : 1 ≤ depth s.list.pages) (hroot : s.list.root = 0) (hlen : 0 < s.store.length) :
    ∃ x, Frame x ∧ Gives all s { s.list with root := x } (takeRoot s) := by
  obtain ⟨f, x, store, h, hstore, hx, hnew, hS'⟩ := hS.next hlen
  have hbare : ¬ (0 < s.list.filled ∨ 0 < s.list.leaves) := fun hpos => h.shape.rooted hpos hroot
  have hf : s.list.filled = 0 := by omega
  have hl : s.list.leaves = 0 := by omega
  refine ⟨x, hx, _, by rw [takeRoot, hstore], rfl, by simp [hstore], hS' _ _ ⟨update f .root x, ?_⟩⟩
  have hparts : partsOf { s.list with root := x } = partsOf s.list ++ [.root] := by
    simp [partsOf, hd, hroot, hx.ne_zero, hf, hl]
  obtain ⟨h1, h2, h3⟩ := h.push hparts (by simp [Has, hroot]) hx hnew
  refine ⟨⟨?_, h1, h2, fun _ _ => by simp, by simp [hl], by simp [hf]⟩, h3⟩
  obtain ⟨g1, g2, g3, g4, -, -⟩ := h.shape
  exact ⟨g1, g2, g3, g4, fun _ => hx.ne_zero, fun h0 => absurd h0 (by simp only; omega)⟩

/-- A leaf comes before the first of its pages. -/
theorem takeLeaf_spec (hd : depth s.list.pages = 2) (hroot : s.list.root ≠ 0)
    (hlt : s.list.filled < s.list.pages) (hat : s.list.filled % ENTRIES = 0)
    (hleaves : s.list.leaves = leavesFor s.list.filled) (hlen : 0 < s.store.length) :
    Gives all s { s.list with leaves := s.list.leaves + 1 } (takeLeaf s s.list.filled) := by
  obtain ⟨f, x, store, h, hstore, hx, hnew, hS'⟩ := hS.next hlen
  have hk : s.list.leaves = s.list.filled / ENTRIES := by
    unfold leavesFor ENTRIES at *
    omega
  obtain ⟨hrframe, hne⟩ := h.rootFrame (by omega) hroot
  have hkl : s.list.leaves < ENTRIES := by
    rw [hk]
    exact (h.shape.index_lt hlt).2.1
  refine ⟨_, by rw [takeLeaf, hstore], rfl, by simp [hstore], hS' _ _ ⟨update f (.leaf s.list.leaves) x, ?_⟩⟩
  have hparts : partsOf { s.list with leaves := s.list.leaves + 1 } = partsOf s.list ++ [.leaf s.list.leaves] := by
    simp [partsOf, ← hleaves, ← hk]
  obtain ⟨h1, h2, h3⟩ := h.push hparts (by simp [Has]) hx hnew
  rw [← hk]
  refine ⟨⟨?_, h1, h2, fun _ _ => ?_, fun k hk' => ?_, fun i hi => ?_⟩, h3⟩
  · obtain ⟨g1, g2, g3, -, -, g6⟩ := h.shape
    exact ⟨g1, g2, g3, .inl ⟨hd, .inr ⟨hlt, hat, by simp only; omega⟩⟩, fun _ => hroot, g6⟩
  · exact h.root (by omega) hroot
  · simp only at hk'
    by_cases hkk : k = s.list.leaves
    · subst hkk
      rw [update_self, update_self]
    · have hkl' : k < s.list.leaves := by omega
      rw [update_of_ne, update_of_ne (by simpa using hkk)]
      · exact h.leaf k hkl'
      · intro hw
        exact hkk (wordAt_inj hrframe hrframe (h.shape.leaf_lt hkl') hkl hw).2
  · have hleaf := h.shape.leaf_of_page hd hi
    have hlframe : Frame (f (.leaf (i / ENTRIES))) := h.isFrame hleaf
    have hw1 : wordAt s.list.root (i / ENTRIES) ≠ wordAt s.list.root s.list.leaves := by
      intro hw
      have := (wordAt_inj hrframe hrframe (h.shape.leaf_lt hleaf) hkl hw).2
      omega
    have hw2 : wordAt (f (.leaf (i / ENTRIES))) (i % ENTRIES) ≠ wordAt s.list.root s.list.leaves := by
      intro hw
      exact hne _ hleaf (wordAt_inj hlframe hrframe (Nat.mod_lt _ (by decide)) hkl hw).1
    simp only [find, hd, bind_some, update_of_ne hw1, h.leaf _ hleaf, update_of_ne hw2]
    rw [update_of_ne (by simp), h.word_of_page hd hi]

omit hS in
/-- A page's frame, once its word is written: the words that lead to the other parts are as they were. -/
theorem Rep.pushPage (h : Rep l w f) (hlt : l.filled < l.pages) (hroot : l.root ≠ 0)
    (hleaves : l.leaves = if depth l.pages = 2 then l.filled / ENTRIES + 1 else 0) (hx : Frame x)
    (hnew : x ∉ (partsOf l).map f) (hleaf : ∀ k < l.leaves, w' (wordAt l.root k) = w (wordAt l.root k))
    (hold : ∀ i < l.filled, find (fun a => some (w' a)) l i = find (fun a => some (w a)) l i)
    (hpage : find (fun a => some (w' a)) l l.filled = some x) (hd : 1 ≤ depth l.pages) :
    Holds { l with filled := l.filled + 1 } w' ((partsOf l).map f ++ [x]) := by
  have hparts : partsOf { l with filled := l.filled + 1 } = partsOf l ++ [.page l.filled] := by
    unfold partsOf
    rw [body_succ]
    simp only [hleaves]
    unfold leafAt
    have h4 : ¬ leavesFor (l.filled + 1) < l.filled / ENTRIES + 1 := by
      unfold leavesFor ENTRIES at *
      omega
    by_cases h2 : depth l.pages = 2
    · by_cases hat : l.filled % ENTRIES = 0
      · have h3 : leavesFor l.filled < l.filled / ENTRIES + 1 := by
          unfold leavesFor ENTRIES at *
          omega
        simp [h2, hat, h3, h4]
      · have h3 : ¬ leavesFor l.filled < l.filled / ENTRIES + 1 := by
          unfold leavesFor ENTRIES at *
          omega
        simp [h2, hat, h3, h4]
    · simp [h2]
  obtain ⟨h1, h2, h3⟩ := h.push hparts (by simp [Has]) hx hnew
  refine ⟨update f (.page l.filled) x, ⟨?_, h1, h2, fun _ _ => ?_, fun k hk => ?_, fun i hi => ?_⟩, h3⟩
  · obtain ⟨g1, g2, g3, g4, g5, g6⟩ := h.shape
    refine ⟨g1, g2, hlt, ?_, fun _ => hroot, fun h0 => absurd h0 (by simp only; omega)⟩
    simp only
    by_cases hd2 : depth l.pages = 2
    · refine .inl ⟨hd2, .inl ?_⟩
      rw [hleaves, if_pos hd2]
      unfold leavesFor ENTRIES
      omega
    · exact .inr ⟨hd2, by rw [hleaves, if_neg hd2]⟩
  · exact h.root hd hroot
  · exact (hleaf k hk).trans (h.leaf k hk)
  · by_cases hif : i = l.filled
    · subst hif
      rw [update_self]
      exact hpage
    · have hlt' : i < l.filled := by
        simp only at hi
        omega
      rw [update_of_ne (by simpa using hif)]
      exact (hold i hlt').trans (h.page i hlt')

/-- The word of the next page. -/
def slot (s : Filling) : Nat :=
  if depth s.list.pages = 2 then
    wordAt (s.words (wordAt s.list.root (s.list.filled / ENTRIES))) (s.list.filled % ENTRIES)
  else wordAt s.list.root s.list.filled

/-- A page, once the root and the leaf above it are there. -/
theorem takePage_spec (hd : 1 ≤ depth s.list.pages) (hroot : s.list.root ≠ 0) (hlt : s.list.filled < s.list.pages)
    (hleaves : s.list.leaves = if depth s.list.pages = 2 then s.list.filled / ENTRIES + 1 else 0)
    (hlen : 0 < s.store.length) :
    Gives all s { s.list with filled := s.list.filled + 1 } (takePage s (slot s)) := by
  obtain ⟨f, x, store, h, hstore, hx, hnew, hS'⟩ := hS.next hlen
  obtain ⟨hrframe, hne⟩ := h.rootFrame hd hroot
  refine ⟨_, by rw [takePage, hstore], rfl, by simp [hstore], hS' _ _ ?_⟩
  by_cases hd2 : depth s.list.pages = 2
  · have hlframe : ∀ k < s.list.leaves, Frame (f (.leaf k)) := fun k hk => h.isFrame hk
    have hmod : ∀ i, i % ENTRIES < ENTRIES := fun i => Nat.mod_lt _ (by decide)
    have hlast : s.list.filled / ENTRIES < s.list.leaves := by
      rw [hleaves, if_pos hd2]
      omega
    rw [slot, if_pos hd2, h.leaf _ hlast]
    -- no word of the root is written
    have hrootword : ∀ k < s.list.leaves,
        wordAt s.list.root k ≠ wordAt (f (.leaf (s.list.filled / ENTRIES))) (s.list.filled % ENTRIES) := by
      intro k hk hw
      exact hne _ hlast (wordAt_inj hrframe (hlframe _ hlast) (h.shape.leaf_lt hk) (hmod _) hw).1.symm
    refine h.pushPage hlt hroot hleaves hx hnew (fun k hk => update_of_ne (hrootword k hk) ..) (fun i hi => ?_) ?_ hd
    · have hleaf := h.shape.leaf_of_page hd2 hi
      simp only [find_two _ hd2, bind_some, update_of_ne (hrootword _ hleaf), h.leaf _ hleaf]
      rw [update_of_ne]
      intro hw
      obtain ⟨hfl, hmod'⟩ := wordAt_inj (hlframe _ hleaf) (hlframe _ hlast) (hmod _) (hmod _) hw
      have hk := h.inj (p := .leaf _) (q := .leaf _) hleaf hlast hfl
      rw [Part.leaf.injEq] at hk
      unfold ENTRIES at *
      omega
    · simp only [find_two _ hd2, bind_some, update_of_ne (hrootword _ hlast), h.leaf _ hlast, update_self]
  · have hd1 : depth s.list.pages = 1 := by
      have := depth_cases s.list.pages
      omega
    have hindex := fun {i} (hi : i < s.list.pages) => (h.shape.index_lt hi).1 hd1
    rw [slot, if_neg hd2]
    refine h.pushPage hlt hroot hleaves hx hnew (by simp [hleaves, hd2]) (fun i hi => ?_) (by simp [find_one _ hd1]) hd
    simp only [find_one _ hd1]
    rw [update_of_ne]
    intro hw
    have := (wordAt_inj hrframe hrframe (hindex (by omega)) (hindex hlt) hw).2
    omega

end

/-! ### A turn of `fill` -/

/-- Between two turns of `fill`. -/
structure Ready (l : PageList) : Prop where
  leaves : depth l.pages = 2 → l.leaves = leavesFor l.filled
  root : l.filled = 0 → l.root = 0

/-- The frames that a turn takes. -/
def turnNeeds (l : PageList) : Nat :=
  (if 1 ≤ depth l.pages ∧ l.filled = 0 then 1 else 0) +
    (if depth l.pages = 2 ∧ l.filled % ENTRIES = 0 then 1 else 0) + 1

section
variable (hS : Stocked all s)
include hS

/-- The only page is the root. -/
theorem fillTurn_zero (hd : depth s.list.pages = 0) (hlt : s.list.filled < s.list.pages) (hlen : 0 < s.store.length) :
    ∃ x, Gives all s { s.list with root := x, filled := s.list.filled + 1 } (fillTurn s) := by
  obtain ⟨f, x, store, h, hstore, hx, hnew, hS'⟩ := hS.next hlen
  have hone : s.list.pages = 1 := by
    unfold depth at hd
    split_ifs at hd
    omega
  have hf : s.list.filled = 0 := by omega
  have hl : s.list.leaves = 0 := by
    have := h.shape.leaves
    omega
  have hparts : partsOf { s.list with root := x, filled := s.list.filled + 1 } = partsOf s.list ++ [.page 0] := by
    simp [partsOf, hd, hf, hl, body_succ, leafAt]
  obtain ⟨h1, h2, h3⟩ := h.push hparts (by simp [Has, hf]) hx hnew
  refine ⟨x, ⟨_, s.words, store⟩, ?_, rfl, by simp [hstore], hS' _ _ ⟨update f (.page 0) x,
    ⟨?_, h1, h2, fun h0 => absurd h0 (by simp only; omega), by simp [hl], fun i hi => ?_⟩, h3⟩⟩
  · simp [fillTurn, hd, takeRoot, hstore]
  · obtain ⟨g1, g2, g3, g4, g5, g6⟩ := h.shape
    exact ⟨g1, g2, by simp only; omega, .inr ⟨by simp only; omega, hl⟩, fun _ => hx.ne_zero, fun _ h0 => by
      simp at h0⟩
  · obtain rfl : i = 0 := by
      simp only at hi
      omega
    simp [find, hd]

theorem rootStage (hd : 1 ≤ depth s.list.pages) (hr : Ready s.list)
    (hlen : (if s.list.filled = 0 then 1 else 0) ≤ s.store.length) :
    ∃ s', (if s.list.filled = 0 then takeRoot s else some s) = some s' ∧ s'.list.root ≠ 0 ∧
      s'.list = { s.list with root := s'.list.root } ∧
      s'.store.length + (if s.list.filled = 0 then 1 else 0) = s.store.length ∧ Stocked all s' := by
  by_cases hf : s.list.filled = 0
  · rw [if_pos hf] at hlen ⊢
    obtain ⟨x, hx, s', h1, h2, h3⟩ := takeRoot_spec hS hd (hr.root hf) hlen
    exact ⟨s', h1, by rw [h2]; exact hx.ne_zero, by rw [h2], by rw [if_pos hf]; exact h3⟩
  · rw [if_neg hf]
    have hroot : s.list.root ≠ 0 := by
      obtain ⟨fs, ⟨f, h, -⟩, -⟩ := hS.holds
      exact h.shape.rooted (.inl (by omega))
    exact ⟨s, rfl, hroot, rfl, by rw [if_neg hf, add_zero], hS⟩

theorem leafStage (hroot : s.list.root ≠ 0) (hlt : s.list.filled < s.list.pages)
    (hleaves : s.list.leaves = if depth s.list.pages = 2 then leavesFor s.list.filled else 0)
    (hlen : (if depth s.list.pages = 2 ∧ s.list.filled % ENTRIES = 0 then 1 else 0) ≤ s.store.length) :
    ∃ s', (if depth s.list.pages = 2 ∧ s.list.filled % ENTRIES = 0 then takeLeaf s s.list.filled else some s) =
        some s' ∧
      s'.list = { s.list with leaves := if depth s.list.pages = 2 then s.list.filled / ENTRIES + 1 else 0 } ∧
      s'.store.length + (if depth s.list.pages = 2 ∧ s.list.filled % ENTRIES = 0 then 1 else 0) = s.store.length ∧
      Stocked all s' := by
  have hcount : leavesFor s.list.filled =
      if s.list.filled % ENTRIES = 0 then s.list.filled / ENTRIES else s.list.filled / ENTRIES + 1 := by
    unfold leavesFor ENTRIES
    split_ifs <;> omega
  by_cases hat : depth s.list.pages = 2 ∧ s.list.filled % ENTRIES = 0
  · rw [if_pos hat] at hlen
    rw [if_pos hat.1] at hleaves
    rw [if_pos hat.2] at hcount
    obtain ⟨s', h1, h2, h3⟩ := takeLeaf_spec hS hat.1 hroot hlt hat.2 hleaves hlen
    simp only [if_pos hat, if_pos hat.1]
    exact ⟨s', h1, by rw [h2, hleaves, hcount], h3⟩
  · simp only [if_neg hat]
    refine ⟨s, rfl, ?_, rfl, hS⟩
    by_cases hd : depth s.list.pages = 2
    · rw [if_neg (fun h0 => hat ⟨hd, h0⟩)] at hcount
      rw [← hcount, ← hleaves]
    · rw [if_neg hd] at hleaves ⊢
      rw [← hleaves]

/-- **A turn of `fill`** takes exactly its frames, and the list holds them. -/
theorem fillTurn_spec (hr : Ready s.list) (hlt : s.list.filled < s.list.pages)
    (hlen : turnNeeds s.list ≤ s.store.length) :
    ∃ s', fillTurn s = some s' ∧ s'.store.length + turnNeeds s.list = s.store.length ∧ Stocked all s' ∧
      Ready s'.list ∧ s'.list.filled = s.list.filled + 1 ∧ s'.list.pages = s.list.pages ∧
      s'.list.going = s.list.going := by
  obtain hd | hd := Nat.eq_zero_or_pos (depth s.list.pages)
  · have hneeds : turnNeeds s.list = 1 := by simp [turnNeeds, hd]
    rw [hneeds] at hlen ⊢
    obtain ⟨x, s', h1, h2, h3, h4⟩ := fillTurn_zero hS hd hlt hlen
    refine ⟨s', h1, h3, h4, ⟨fun h0 => ?_, fun h0 => ?_⟩, by rw [h2], by rw [h2], by rw [h2]⟩
    · rw [h2] at h0
      exact absurd (h0.symm.trans hd) (by norm_num)
    · rw [h2] at h0
      simp at h0
  · have hneeds : turnNeeds s.list = (if s.list.filled = 0 then 1 else 0) +
        (if depth s.list.pages = 2 ∧ s.list.filled % ENTRIES = 0 then 1 else 0) + 1 := by
      simp [turnNeeds, Nat.succ_le_of_lt hd]
    have hleaves : s.list.leaves = if depth s.list.pages = 2 then leavesFor s.list.filled else 0 := by
      obtain ⟨fs, ⟨f, h, -⟩, -⟩ := hS.holds
      have hl := h.shape.leaves
      have := hr.leaves
      split_ifs <;> omega
    obtain ⟨s₁, h1, hroot, h2, h3, h4⟩ := rootStage hS hd hr (by omega)
    have hf : s₁.list.filled = s.list.filled := by rw [h2]
    have hp : s₁.list.pages = s.list.pages := by rw [h2]
    have hl : s₁.list.leaves = s.list.leaves := by rw [h2]
    obtain ⟨s₂, h5, h6, h7, h8⟩ := leafStage h4 hroot (by omega) (by rw [hp, hf, hl, hleaves]) (by rw [hp, hf]; omega)
    rw [hp, hf] at h5 h6 h7
    have hf₂ : s₂.list.filled = s.list.filled := by rw [h6, ← hf]
    have hp₂ : s₂.list.pages = s.list.pages := by rw [h6, ← hp]
    obtain ⟨s₃, h9, h10, h11, h12⟩ := takePage_spec h8 (by rw [hp₂]; exact hd) (by rw [h6]; exact hroot) (by omega)
      (by rw [hp₂, hf₂, h6]) (by omega)
    refine ⟨s₃, ?_, by omega, h12, ⟨fun h0 => ?_, fun h0 => ?_⟩, ?_, ?_, ?_⟩
    · rw [← h9]
      obtain h0 | h0 | h0 := depth_cases s.list.pages
      · omega
      · simp only [h0, (by decide : ¬ 1 = 2), false_and, if_false] at h5
        simp [fillTurn, h0, h1, h5, slot, hp₂, hf₂]
      · simp only [h0, true_and] at h5
        simp [fillTurn, h0, h1, h5, slot, hp₂, hf₂]
    · rw [h10] at h0 ⊢
      simp only [hp₂] at h0
      simp only [h6, h0, if_true]
      unfold leavesFor ENTRIES
      omega
    · rw [h10] at h0
      simp at h0
    · rw [h10, ← hf₂]
    · rw [h10]
      exact hp₂
    · rw [h10, h6, h2]

end

/-! ### `fill` -/

theorem Ready.parts (h : Shape l) (hr : Ready l) : partsOf l = takenParts l.pages l.filled := by
  have hroot : l.root ≠ 0 ↔ 0 < l.filled :=
    ⟨fun hne => pos_of_ne_zero fun h0 => hne (hr.root h0), fun hpos => h.rooted (.inl hpos)⟩
  have htail : ¬ leavesFor l.filled < l.leaves := by
    have hl := h.leaves
    have hd := hr.leaves
    omega
  unfold partsOf takenParts
  rw [if_neg htail]
  simp [hroot]

theorem length_takenParts_succ (l : PageList) :
    (takenParts l.pages (l.filled + 1)).length = (takenParts l.pages l.filled).length + turnNeeds l := by
  rw [length_takenParts, length_takenParts, turnNeeds]
  have hc : leavesFor (l.filled + 1) = leavesFor l.filled + if l.filled % ENTRIES = 0 then 1 else 0 := by
    unfold leavesFor ENTRIES
    split_ifs <;> omega
  rw [hc]
  split_ifs <;> omega

theorem length_takenParts_mono (pages : Nat) {n : Nat} (h : n ≤ n') :
    (takenParts pages n).length ≤ (takenParts pages n').length :=
  (takenParts_mono pages h).length_le

/-- The loop of `fill`: the frames it takes are those of the pages to come. -/
theorem fillLoop_spec (turns : Nat) {s : Filling} (hS : Stocked all s) (hr : Ready s.list)
    (hle : s.list.filled + turns ≤ s.list.pages)
    (hlen : (takenParts s.list.pages (s.list.filled + turns)).length ≤
      (takenParts s.list.pages s.list.filled).length + s.store.length) :
    ∃ s', fillLoop turns s = some s' ∧
      s'.store.length + (takenParts s.list.pages (s.list.filled + turns)).length =
        (takenParts s.list.pages s.list.filled).length + s.store.length ∧
      Stocked all s' ∧ Ready s'.list ∧ s'.list.filled = s.list.filled + turns ∧ s'.list.pages = s.list.pages ∧
      s'.list.going = s.list.going := by
  induction turns generalizing s with
  | zero => exact ⟨s, rfl, add_comm _ _, hS, hr, rfl, rfl, rfl⟩
  | succ turns ih =>
    have hone := length_takenParts_succ s.list
    have hmono := length_takenParts_mono s.list.pages
      (show s.list.filled + 1 ≤ s.list.filled + (turns + 1) by omega)
    obtain ⟨s₁, h1, h2, h3, h4, h5, h6, h7⟩ := fillTurn_spec hS hr (by omega) (by omega)
    have hnext : s₁.list.filled + turns = s.list.filled + (turns + 1) := by omega
    obtain ⟨s₂, g1, g2, g3, g4, g5, g6, g7⟩ := ih h3 h4 (by omega) (by rw [h6, hnext, h5]; omega)
    rw [h6, hnext, h5] at g2
    refine ⟨s₂, ?_, by omega, g3, g4, by omega, by omega, by rw [g7, h7]⟩
    rw [fillLoop, h1]
    exact g1

/-- `fill_needs` counts the parts to come. -/
theorem fillNeeds_eq (hle : l.filled ≤ l.pages) {n : Nat} (hn : l.filled + n < 2 ^ 64) :
    l.filled ≤ fillEnd l n ∧ fillEnd l n = min l.pages (l.filled + n) ∧
      (takenParts l.pages l.filled).length + fillNeeds l n = (takenParts l.pages (fillEnd l n)).length := by
  have hend : fillEnd l n = min l.pages (l.filled + n) := by rw [fillEnd, Nat.mod_eq_of_lt hn]
  have hge : l.filled ≤ fillEnd l n := by omega
  refine ⟨hge, hend, ?_⟩
  have hmono : leavesFor l.filled ≤ leavesFor (fillEnd l n) := Nat.div_le_div_right (by omega)
  rw [length_takenParts, length_takenParts]
  unfold fillNeeds
  generalize fillEnd l n = stop at *
  by_cases hgo : l.filled < stop
  · rw [if_pos hgo]
    have hstop : 0 < stop := by omega
    obtain hd | hd | hd := depth_cases l.pages
    · simp only [hd]
      simp
      omega
    · by_cases h0 : l.filled = 0
      · simp [hd, h0, hstop]
        omega
      · simp [hd, h0, hstop, pos_of_ne_zero h0]
        omega
    · by_cases h0 : l.filled = 0
      · have hl0 : leavesFor 0 = 0 := by decide
        simp [hd, h0, hstop]
        omega
      · simp [hd, h0, hstop, pos_of_ne_zero h0]
        omega
  · rw [if_neg hgo, show stop = l.filled by omega]
    omega

/-- **`fill`** takes exactly the frames that `fill_needs` says. -/
theorem fill_spec (hH : Holds s.list s.words fs) (hr : Ready s.list) (hgo : s.list.going = false) {n : Nat}
    (hn : s.list.filled + n < 2 ^ 64) (hlen : fillNeeds s.list n ≤ s.store.length) (hxs : ∀ x ∈ s.store, Frame x)
    (hnd : (fs ++ s.store).Nodup) :
    ∃ s', fill s n = some (s', decide (s'.list.filled = s.list.pages)) ∧
      s'.store = s.store.drop (fillNeeds s.list n) ∧
      Holds s'.list s'.words (fs ++ s.store.take (fillNeeds s.list n)) ∧ Ready s'.list ∧
      s'.list.filled = min s.list.pages (s.list.filled + n) ∧ s'.list.pages = s.list.pages ∧
      s'.list.going = false := by
  have hsh : Shape s.list := by
    obtain ⟨f, h, -⟩ := hH
    exact h.shape
  obtain ⟨hge, hend, hneeds⟩ := fillNeeds_eq hsh.filled_le hn
  have hturns : s.list.filled + (fillEnd s.list n - s.list.filled) = fillEnd s.list n := by omega
  obtain ⟨s', h1, h2, ⟨⟨fs', h3, hall⟩, -, -⟩, h4, h5, h6, h7⟩ := fillLoop_spec (fillEnd s.list n - s.list.filled)
    ⟨⟨fs, hH, rfl⟩, hnd, hxs⟩ hr (by omega) (by rw [hturns]; omega)
  rw [hturns] at h2
  -- the frames that are gone from the store are its first ones
  rw [← take_append_drop (fillNeeds s.list n) s.store, ← append_assoc] at hall
  obtain ⟨rfl, hstore⟩ := append_inj' hall (by rw [length_drop]; omega)
  refine ⟨s', ?_, hstore, h3, h4, by rw [h5, hturns, hend], h6, by rw [h7, hgo]⟩
  rw [fill, hgo, h1]
  simp [h6]

/-! ### Reading pages -/

theorem Rep.frame_eq (h : Rep l w f) (hgo : l.going = false) (hi : i < l.filled) :
    Pagelist.frame w l i = some (f (.page i)) := by
  rw [Pagelist.frame, hgo, if_pos hi]
  exact h.page i hi

/-- The loop of `frames` gives what `find` gives: the leaf it keeps is the one it would read. -/
theorem framesLoop_eq (w : Nat → Nat) (l : PageList) (len i : Nat) (leaf : Nat × Nat)
    (hi : i + len ≤ MAX_PAGES) (hleaf : leaf.1 < MAX_PAGES → leaf.2 = w (wordAt l.root leaf.1)) :
    (framesLoop w l len i leaf).map some = (range' i len).map (find (fun a => some (w a)) l) := by
  induction len generalizing i leaf with
  | zero => rfl
  | succ len ih =>
    rw [range'_succ]
    obtain hd | hd | hd := depth_cases l.pages
    · simp only [framesLoop, hd, map_cons, find_zero _ hd]
      rw [ih _ _ (by omega) hleaf]
    · simp only [framesLoop, hd, map_cons, find_one _ hd]
      rw [ih _ _ (by omega) hleaf]
    · simp only [framesLoop, hd, map_cons, find_two _ hd, bind_some]
      have hsmall : i / ENTRIES < MAX_PAGES := lt_of_le_of_lt (Nat.div_le_self _ _) (by omega)
      by_cases hc : leaf.1 = i / ENTRIES
      · rw [if_neg (by simpa using hc), ih _ _ (by omega) hleaf, hleaf (by omega), hc]
      · rw [if_pos hc, ih _ _ (by omega) (fun _ => rfl)]

theorem Rep.frames_eq (h : Rep l w f) (hgo : l.going = false) {first len : Nat} (hle : first + len ≤ l.filled) :
    frames w l first len = some ((range' first len).map fun i => f (.page i)) := by
  have hp := h.shape.pages_le
  have hf := h.shape.filled_le
  have hmod : (first + len) % 2 ^ 64 = first + len := by
    refine Nat.mod_eq_of_lt ?_
    unfold MAX_PAGES ENTRIES at hp
    omega
  rw [frames, hgo, if_neg (by simp), hmod, if_pos hle]
  congr 1
  have hloop := framesLoop_eq w l len first (2 ^ 64 - 1, 0) (by omega) (fun hlt => by
    unfold MAX_PAGES ENTRIES at hlt
    omega)
  have hfind : (range' first len).map (find (fun a => some (w a)) l) =
      ((range' first len).map fun i => f (.page i)).map some := by
    rw [List.map_map]
    refine map_congr_left fun i hi => ?_
    rw [mem_range'_1] at hi
    exact h.page i (by omega)
  rw [hfind] at hloop
  exact map_injective_iff.2 (some_injective _) hloop

/-- A word of a node of the list. -/
def NodeWord (l : PageList) (w : Nat → Nat) (a : Nat) : Prop :=
  (1 ≤ depth l.pages ∧ l.root ≠ 0 ∧ ∃ i < ENTRIES, a = wordAt l.root i) ∨
    ∃ k < l.leaves, ∃ i < ENTRIES, a = wordAt (w (wordAt l.root k)) i

/-- The way to a page goes over words of the nodes. -/
theorem Rep.find_eq (h : Rep l w f) {read : Nat → Option Nat} (hread : ∀ a, NodeWord l w a → read a = some (w a))
    (hi : i < l.filled) : find read l i = some (f (.page i)) := by
  have hpage := h.page i hi
  have hindex := h.shape.index_lt (lt_of_lt_of_le hi h.shape.filled_le)
  have hr := h.shape.rooted (.inl (by omega))
  obtain hd | hd | hd := depth_cases l.pages
  · rw [find_zero _ hd] at hpage ⊢
    exact hpage
  · rw [find_one _ hd] at hpage ⊢
    rw [hread _ (.inl ⟨by omega, hr, i, hindex.1 hd, rfl⟩)]
    exact hpage
  · rw [find_two _ hd] at hpage ⊢
    rw [hread _ (.inl ⟨by omega, hr, _, hindex.2.1, rfl⟩), bind_some,
      hread _ (.inr ⟨_, h.shape.leaf_of_page hd hi, _, hindex.2.2, rfl⟩)]
    exact hpage

theorem Rep.others (h : Rep l w f) (hsame : ∀ a, NodeWord l w a → w' a = w a) : Rep l w' f := by
  refine ⟨h.shape, h.nodup, h.frame, h.root, fun k hk => ?_, fun i => h.find_eq fun a ha => by rw [hsame a ha]⟩
  have hd := h.shape.leaves
  rw [hsame _ (.inl ⟨by omega, h.shape.rooted (.inr (by omega)), k, h.shape.leaf_lt hk, rfl⟩)]
  exact h.leaf k hk

/-! ### The release -/

/-- The nodes are read while the list holds them. -/
theorem Rep.readWord_eq (h : Rep l w f) {gone : List Nat} (hgone : ∀ p ∈ partsOf l, f p ∉ gone) {a : Nat}
    (ha : NodeWord l w a) : readWord w gone a = some (w a) := by
  have hread : ∀ p i, Has l p → i < ENTRIES → readWord w gone (wordAt (f p) i) = some (w (wordAt (f p) i)) := by
    intro p i hp hi
    rw [readWord, frameOf_wordAt (h.isFrame hp) hi, if_neg (hgone p ((mem_partsOf h.shape).2 hp))]
  obtain ⟨hd, hroot, i, hi, rfl⟩ | ⟨k, hk, i, hi, rfl⟩ := ha
  · rw [h.root hd hroot]
    exact hread .root i ⟨hd, hroot⟩ hi
  · rw [h.leaf k hk]
    exact hread (.leaf k) i hk hi

theorem Rep.pop (h : Rep l w f) (hparts : partsOf l = partsOf l' ++ [p]) (hs : Shape l')
    (hpages : l'.pages = l.pages) (hroot : l'.root = l.root ∨ l'.root = 0) (hleaves : l'.leaves ≤ l.leaves)
    (hfilled : l'.filled ≤ l.filled) : Rep l' w f := by
  have hsame : 0 < l'.filled ∨ 0 < l'.leaves → l'.root = l.root := fun hpos =>
    hroot.resolve_right (hs.rooted hpos)
  refine ⟨hs, ?_, fun q hq => h.frame q (by rw [hparts]; simp [hq]), fun hd hr => ?_, fun k hk => ?_, fun i hi => ?_⟩
  · refine h.nodup.sublist (List.Sublist.map f ?_)
    rw [hparts]
    exact sublist_append_left _ _
  · rw [hroot.resolve_right hr]
    rw [hroot.resolve_right hr] at hr
    exact h.root (by rw [← hpages]; exact hd) hr
  · rw [hsame (.inr (by omega))]
    exact h.leaf k (by omega)
  · have hfind : find (fun a => some (w a)) l' i = find (fun a => some (w a)) l i := by
      simp [find, hpages, hsame (.inl (by omega))]
    rw [hfind]
    exact h.page i (by omega)

/-- **A turn of the release** takes the last frame of the stack, without a word of what is gone. -/
theorem releaseTurn_spec (h : Rep l w f) (gone : List Nat) (hgone : ∀ p ∈ partsOf l, f p ∉ gone) :
    (partsOf l = [] ∧ l.root = 0 ∧ releaseTurn (readWord w gone) l = some none) ∨
      ∃ l' p, partsOf l = partsOf l' ++ [p] ∧ releaseTurn (readWord w gone) l = some (some (f p, l')) ∧
        Rep l' w f ∧ l'.pages = l.pages ∧ l'.going = l.going ∧ l.root ≠ 0 := by
  have hsh := h.shape
  have hl := hsh.leaves
  unfold releaseTurn
  by_cases htail : leavesFor l.filled < l.leaves
  · -- the leaf behind its first page
    rw [if_pos htail]
    right
    have hd : depth l.pages = 2 := by omega
    have hroot := hsh.rooted (.inr (by omega))
    have hk : l.leaves - 1 = l.filled / ENTRIES := by omega
    have hkl : l.leaves - 1 < l.leaves := by omega
    have hread : readWord w gone (wordAt l.root (l.leaves - 1)) = some (f (.leaf (l.leaves - 1))) := by
      rw [h.readWord_eq hgone (.inl ⟨by omega, hroot, _, hsh.leaf_lt hkl, rfl⟩), h.leaf _ hkl]
    have hcount : leavesFor l.filled = l.leaves - 1 := by
      unfold leavesFor ENTRIES at *
      omega
    have hparts : partsOf l = partsOf { l with leaves := l.leaves - 1 } ++ [.leaf (l.leaves - 1)] := by
      unfold partsOf
      rw [if_pos htail, if_neg (show ¬ leavesFor l.filled < l.leaves - 1 by omega), ← hk, append_nil]
    refine ⟨{ l with leaves := l.leaves - 1 }, .leaf (l.leaves - 1), hparts, by rw [hread]; rfl, ?_, rfl, rfl, hroot⟩
    refine h.pop hparts ?_ rfl (.inl rfl) (Nat.sub_le _ _) le_rfl
    exact ⟨hsh.pages_pos, hsh.pages_le, hsh.filled_le, .inl ⟨hd, .inl hcount.symm⟩, fun _ => hroot, hsh.bare⟩
  · rw [if_neg htail]
    by_cases hpos : 0 < l.filled
    · -- the last page
      rw [if_pos hpos]
      right
      have hroot := hsh.rooted (.inl hpos)
      have hlt : l.filled - 1 < l.filled := by omega
      have hread := h.find_eq (fun a => h.readWord_eq hgone) hlt
      obtain ⟨l', hl'⟩ : ∃ l', l' =
        { l with filled := l.filled - 1, root := if depth l.pages = 0 then 0 else l.root } := ⟨_, rfl⟩
      have hparts : partsOf l = partsOf l' ++ [.page (l.filled - 1)] := by
        unfold partsOf
        rw [hl']
        rw [if_neg htail, body_pred _ hpos, append_nil]
        have hleaf : leafAt (depth l.pages) (l.filled - 1) =
            if leavesFor (l.filled - 1) < l.leaves then [.leaf ((l.filled - 1) / ENTRIES)] else [] := by
          refine if_congr ?_ rfl rfl
          unfold leavesFor ENTRIES at *
          omega
        have hfirst : (if 1 ≤ depth l.pages ∧ l.root ≠ 0 then [Part.root] else []) =
            if 1 ≤ depth l.pages ∧ (if depth l.pages = 0 then 0 else l.root) ≠ 0 then [Part.root] else [] := by
          refine if_congr ?_ rfl rfl
          by_cases h0 : depth l.pages = 0
          · simp [h0]
          · simp [h0]
        rw [hleaf, hfirst]
        simp
      refine ⟨l', .page (l.filled - 1), hparts, by rw [hread, hl']; rfl, ?_, by rw [hl'], by rw [hl'], hroot⟩
      have hs' : Shape l' := by
        rw [hl']
        refine ⟨hsh.pages_pos, hsh.pages_le, by simp only; have := hsh.filled_le; omega, ?_, fun hp => ?_, fun hd _ => ?_⟩
        · simp only
          have := hsh.filled_le
          unfold leavesFor ENTRIES at *
          omega
        · simp only at hp ⊢
          rw [if_neg]
          · exact hroot
          · intro h0
            -- one page only
            have hle := hsh.filled_le
            have hl0 : l.leaves = 0 := by omega
            unfold depth at h0
            split_ifs at h0
            omega
        · simp only at hd ⊢
          rw [if_pos hd]
      refine h.pop hparts hs' (by rw [hl']) ?_ (by rw [hl']) (by rw [hl']; exact Nat.sub_le _ _)
      rw [hl']
      split_ifs
      · exact .inr rfl
      · exact .inl rfl
    · rw [if_neg hpos]
      have hf0 : l.filled = 0 := by omega
      have hl0 : l.leaves = 0 := by
        unfold leavesFor ENTRIES at *
        omega
      by_cases hroot : l.root = 0
      · left
        rw [if_neg (by simpa using hroot)]
        refine ⟨?_, hroot, rfl⟩
        simp [partsOf, hroot, hf0, hl0]
      · -- the root
        right
        rw [if_pos hroot]
        have hd : 1 ≤ depth l.pages := by
          by_contra h0
          exact hroot (hsh.bare (by omega) hf0)
        have hparts : partsOf l = partsOf { l with root := 0 } ++ [.root] := by
          simp [partsOf, hroot, hf0, hl0, hd]
        refine ⟨{ l with root := 0 }, .root, hparts, by rw [← h.root hd hroot], ?_, rfl, rfl, hroot⟩
        refine h.pop hparts ?_ rfl (.inr rfl) le_rfl le_rfl
        exact ⟨hsh.pages_pos, hsh.pages_le, hsh.filled_le, hsh.leaves, fun hp => by
          simp only at hp
          omega, fun _ _ => rfl⟩

/-- **`release_collect`** pops the stack. -/
theorem collect_spec (room : Nat) (gone : List Nat) (h : Rep l w f)
    (hgone : ∀ p ∈ partsOf l, f p ∉ gone) :
    ∃ l', collect w room gone l = some (l', ((partsOf l).map f).reverse.take room) ∧ Rep l' w f ∧
      partsOf l' = (partsOf l).take ((partsOf l).length - room) ∧ l'.pages = l.pages ∧ l'.going = l.going ∧
      (l'.root = 0 ↔ (partsOf l).length ≤ room) := by
  induction room generalizing l gone with
  | zero =>
    refine ⟨l, rfl, h, by simp, rfl, rfl, ?_⟩
    obtain ⟨h1, h2, -⟩ | ⟨l', p, h1, -, -, -, -, h2⟩ := releaseTurn_spec h [] (by simp)
    · simp [h1, h2]
    · simp [h1, h2]
  | succ room ih =>
    obtain ⟨h1, h2, h3⟩ | ⟨l', p, hparts, hturn, hrep, hpages, hgo, -⟩ := releaseTurn_spec h gone hgone
    · refine ⟨l, by rw [collect, h3, h1]; rfl, h, by simp [h1], rfl, rfl, by simp [h1, h2]⟩
    · have hnd := h.nodup
      rw [hparts, map_append, map_singleton, nodup_append] at hnd
      have hgone' : ∀ q ∈ partsOf l', f q ∉ gone ++ [f p] := by
        intro q hq hmem
        rw [mem_append, mem_singleton] at hmem
        obtain hmem | hmem := hmem
        · exact hgone q (by rw [hparts]; simp [hq]) hmem
        · exact hnd.2.2 (f q) (mem_map_of_mem hq) (f p) (by simp) hmem
      obtain ⟨l'', hc, hrep', hp', hpages', hgo', hroot⟩ := ih (gone ++ [f p]) hrep hgone'
      refine ⟨l'', ?_, hrep', ?_, hpages'.trans hpages, hgo'.trans hgo, ?_⟩
      · rw [collect, hturn]
        simp only [hc, map_some, hparts, map_append, map_singleton, reverse_append,
          reverse_singleton, singleton_append, take_succ_cons]
      · rw [hp', hparts, length_append, length_singleton, Nat.add_sub_add_right,
          take_append_of_le_length (Nat.sub_le _ _)]
      · rw [hroot, hparts, length_append, length_singleton]
        omega

end

/-! ## Runs -/

/-- A list with its memory, the frames it took and those it gave back, in their order. -/
structure State where
  list : PageList
  words : Nat → Nat
  taken : List Nat
  gone : List Nat

/-- A new list, in any memory. -/
def Start (pages : Nat) (s : State) : Prop := new pages = some s.list ∧ s.taken = [] ∧ s.gone = []

/-- A call on the list, or a change to words that are not of its nodes. The frames that `alloc_frame` gives to a
`fill` are frames, none that the list has, and as many as it needs; `n` is not so large that the count of pages
overflows. -/
inductive Step : State → State → Prop
  | fill {s : State} {n : Nat} {store : List Nat} {r : Filling × Bool} (small : s.list.filled + n < 2 ^ 64)
      (frames : ∀ x ∈ store, Frame x) (fresh : (s.taken ++ store).Nodup) (enough : fillNeeds s.list n ≤ store.length)
      (done : fill ⟨s.list, s.words, store⟩ n = some r) :
      Step s ⟨r.1.list, r.1.words, s.taken ++ store.take (store.length - r.1.store.length), s.gone⟩
  | releaseCollect {s : State} {len : Nat} {r : PageList × List Nat}
      (done : releaseCollect s.words s.gone s.list len = some r) : Step s ⟨r.1, s.words, s.taken, s.gone ++ r.2⟩
  | releaseStep {s : State} {r : PageList × List Nat × Bool}
      (done : releaseStep s.words s.gone s.list = some r) : Step s ⟨r.1, s.words, s.taken, s.gone ++ r.2.1⟩
  | others {s : State} {words : Nat → Nat} (same : ∀ a, NodeWord s.list s.words a → words a = s.words a) :
      Step s { s with words := words }

/-- The frames `f` of the parts, `n` pages of which were taken: those of the list and those gone make up all. -/
structure Kept (s : State) (f : Part → Nat) (n : Nat) : Prop where
  rep : Rep s.list s.words f
  taken : s.taken = (takenParts s.list.pages n).map f
  nodup : s.taken.Nodup
  held : partsOf s.list <+: takenParts s.list.pages n
  gone : s.taken.reverse = s.gone ++ ((partsOf s.list).map f).reverse
  ready : s.list.going = false → Ready s.list ∧ n = s.list.filled

section
variable {s s' : State} {f : Part → Nat} {n : Nat}

theorem Kept.start (h : Start pages s) : Kept s (fun _ => 0) 0 ∧ s.list.pages = pages := by
  obtain ⟨list, words, taken, gone⟩ := s
  obtain ⟨hnew, htaken, hgone⟩ := h
  simp only at htaken hgone
  unfold new at hnew
  split_ifs at hnew with hp
  cases hnew
  have hparts : partsOf ⟨0, pages, 0, 0, false⟩ = [] := by simp [partsOf]
  have hempty : takenParts pages 0 = [] := by simp [takenParts]
  have hzero : 0 = leavesFor 0 := by decide
  refine ⟨⟨?_, ?_, by simp [htaken], ?_, ?_, fun _ => ⟨⟨fun _ => hzero, fun _ => rfl⟩, rfl⟩⟩, rfl⟩
  · refine ⟨⟨hp.1, hp.2, by simp, ?_, by simp, by simp⟩, by simp [hparts], by simp [hparts], by simp, by simp, by simp⟩
    by_cases hd : depth pages = 2
    · exact .inl ⟨hd, .inl hzero⟩
    · exact .inr ⟨hd, rfl⟩
  · rw [htaken]
    simp [hempty]
  · simp [hparts]
  · simp [htaken, hgone, hparts]

section
variable (h : Kept s f n)
include h

/-- While the list fills, its frames are those that were taken. -/
theorem Kept.filling (hgo : s.list.going = false) :
    s.gone = [] ∧ (partsOf s.list).map f = s.taken ∧ partsOf s.list = takenParts s.list.pages n := by
  obtain ⟨hr, hn⟩ := h.ready hgo
  have hparts : partsOf s.list = takenParts s.list.pages n := by
    rw [hn]
    exact hr.parts h.rep.shape
  have hmap : (partsOf s.list).map f = s.taken := by rw [hparts, h.taken]
  refine ⟨?_, hmap, hparts⟩
  have hgone := h.gone
  rw [hmap] at hgone
  exact self_eq_append_left.1 hgone

/-- **`fill` returns** and takes the frames it says. -/
theorem Kept.fill (hgo : s.list.going = false) {k : Nat} {store : List Nat}
    (hk : s.list.filled + k < 2 ^ 64) (hlen : fillNeeds s.list k ≤ store.length) (hxs : ∀ x ∈ store, Frame x)
    (hnd : (s.taken ++ store).Nodup) :
    ∃ r : Filling, Pagelist.fill ⟨s.list, s.words, store⟩ k = some (r, decide (r.list.filled = s.list.pages)) ∧
      r.store = store.drop (fillNeeds s.list k) ∧ r.list.filled = min s.list.pages (s.list.filled + k) ∧
      r.list.pages = s.list.pages ∧
      ∃ f', Kept ⟨r.list, r.words, s.taken ++ store.take (fillNeeds s.list k), s.gone⟩ f' r.list.filled := by
  obtain ⟨hgone, hmap, -⟩ := h.filling hgo
  obtain ⟨hr, -⟩ := h.ready hgo
  obtain ⟨r, h1, h2, ⟨f', hrep, hmap'⟩, h4, h5, h6, h7⟩ := fill_spec (s := ⟨s.list, s.words, store⟩)
    ⟨f, h.rep, hmap⟩ hr hgo hk hlen hxs hnd
  refine ⟨r, h1, h2, h5, h6, f', hrep, ?_, ?_, ?_, ?_, fun _ => ⟨h4, rfl⟩⟩
  · rw [← h4.parts hrep.shape, hmap']
  · exact hnd.sublist ((List.Sublist.refl _).append (take_sublist _ _))
  · rw [h4.parts hrep.shape]
  · simp only
    rw [hmap', hgone, nil_append]

/-- **The release returns**: it pops the stack. -/
theorem Kept.release (room : Nat) :
    ∃ l', Pagelist.releaseCollect s.words s.gone s.list room =
        some (l', (s.taken.reverse.drop s.gone.length).take room) ∧
      Kept ⟨l', s.words, s.taken, s.gone ++ (s.taken.reverse.drop s.gone.length).take room⟩ f n ∧
      l'.pages = s.list.pages ∧ l'.going = true ∧ (released l' ↔ s.taken.length ≤ s.gone.length + room) := by
  have hrep : Rep { s.list with going := true } s.words f := by
    obtain ⟨⟨g1, g2, g3, g4, g5, g6⟩, h2, h3, h4, h5, h6⟩ := h.rep
    exact ⟨⟨g1, g2, g3, g4, g5, g6⟩, h2, h3, h4, h5, h6⟩
  have hdrop : s.taken.reverse.drop s.gone.length = ((partsOf s.list).map f).reverse := by
    rw [h.gone, drop_left]
  have hnd := nodup_reverse.2 h.nodup
  rw [h.gone, nodup_append] at hnd
  obtain ⟨l', h1, h2, h3, h4, h5, h6⟩ := collect_spec room s.gone hrep (fun p hp hmem =>
    hnd.2.2 (f p) hmem (f p) (mem_reverse.2 (mem_map_of_mem hp)) rfl)
  have hlen : s.taken.length = s.gone.length + (partsOf s.list).length := by
    have := congrArg length h.gone
    simpa using this
  refine ⟨l', by rw [hdrop]; exact h1, ⟨h2, ?_, h.nodup, ?_, ?_, fun hgo => ?_⟩, h4, h5, ?_⟩
  · rw [h.taken, h4]
  · rw [h3, h4]
    exact ( take_prefix _ _).trans h.held
  · simp only
    have hsplit : ((partsOf s.list).map f).reverse.take room ++ ((partsOf l').map f).reverse =
        ((partsOf s.list).map f).reverse := by
      refine popped ?_
      have hp : partsOf l' = (partsOf s.list).take ((partsOf s.list).length - room) := h3
      rw [hp, map_take, length_map]
    rw [hdrop, append_assoc, hsplit]
    exact h.gone
  · simp only at hgo
    rw [h5] at hgo
    cases hgo
  · have hp : partsOf { s.list with going := true } = partsOf s.list := rfl
    rw [hp] at h6
    simp only [released, decide_eq_true_eq]
    rw [h6]
    omega

theorem Kept.others {words : Nat → Nat}
    (same : ∀ a, NodeWord s.list s.words a → words a = s.words a) : Kept { s with words := words } f n :=
  ⟨h.rep.others same, h.taken, h.nodup, h.held, h.gone, h.ready⟩

theorem Kept.step (hs : Step s s') :
    (∃ f' n', Kept s' f' n') ∧ s'.list.pages = s.list.pages ∧ s.taken <+: s'.taken := by
  cases hs with
  | @fill k store r small frames fresh enough done =>
    have hgo : s.list.going = false := by
      by_contra hgo
      simp [Pagelist.fill, hgo] at done
    obtain ⟨r', h1, h2, -, h4, f', hk⟩ := h.fill hgo small enough frames fresh
    rw [done] at h1
    cases h1
    have hlen : store.length - r'.store.length = fillNeeds s.list k := by
      rw [h2, length_drop]
      omega
    simp only [hlen]
    exact ⟨⟨f', _, hk⟩, h4, prefix_append _ _⟩
  | @releaseCollect len r done =>
    obtain ⟨l', h1, h2, h3, -⟩ := h.release len
    rw [done] at h1
    cases h1
    exact ⟨⟨f, n, h2⟩, h3, prefix_rfl⟩
  | @releaseStep r done =>
    obtain ⟨l', h1, h2, h3, -⟩ := h.release FRAMES_PER_SECTION
    rw [Pagelist.releaseStep, h1] at done
    cases done
    exact ⟨⟨f, n, h2⟩, h3, prefix_rfl⟩
  | others same => exact ⟨⟨f, n, h.others same⟩, rfl, prefix_rfl⟩

theorem Kept.run (hr : Relation.ReflTransGen Step s s') :
    (∃ f' n', Kept s' f' n') ∧ s'.list.pages = s.list.pages ∧ s.taken <+: s'.taken := by
  induction hr with
  | refl => exact ⟨⟨f, n, h⟩, rfl, prefix_rfl⟩
  | tail _ hs ih =>
    obtain ⟨⟨f', n', hk⟩, hpages, hpre⟩ := ih
    obtain ⟨hk', hpages', hpre'⟩ := hk.step hs
    exact ⟨hk', hpages'.trans hpages, hpre.trans hpre'⟩

omit h in
theorem Kept.of_run (hs : Run.Reachable (Start pages) Step s) :
    (∃ f n, Kept s f n) ∧ s.list.pages = pages := by
  obtain ⟨s₀, hstart, hr⟩ := hs
  obtain ⟨hk, hp⟩ := Kept.start hstart
  obtain ⟨hk', hp', -⟩ := hk.run hr
  exact ⟨hk', hp'.trans hp⟩

/-- The frame of a page stays what it is until the release. -/
theorem Kept.stable {f' : Part → Nat} (h' : Kept s' f' n')
    (hpages : s'.list.pages = s.list.pages) (hpre : s.taken <+: s'.taken) (hgo : s.list.going = false)
    (hgo' : s'.list.going = false) (hi : i < s.list.filled) :
    frame s'.words s'.list i = frame s.words s.list i := by
  obtain ⟨-, hn⟩ := h.ready hgo
  obtain ⟨-, hn'⟩ := h'.ready hgo'
  have htaken := h.taken
  have htaken' := h'.taken
  rw [hn] at htaken
  rw [hn', hpages] at htaken'
  obtain ⟨more, hmore⟩ := hpre
  have hlen := congrArg length hmore
  rw [length_append, htaken, htaken', length_map, length_map] at hlen
  have hle : s.list.filled ≤ s'.list.filled := by
    by_contra hlt
    have hone := length_takenParts_succ s'.list
    have hmono := length_takenParts_mono s.list.pages (show s'.list.filled + 1 ≤ s.list.filled by omega)
    rw [hpages] at hone
    unfold turnNeeds at hone
    omega
  -- the same parts, with the same frames
  rw [htaken, htaken'] at hmore
  have hsame := same_of_grown (takenParts_mono s.list.pages hle) hmore
  have hmem : Part.page i ∈ takenParts s.list.pages s.list.filled := by
    unfold takenParts
    rw [mem_append, mem_body]
    exact .inr hi
  rw [h.rep.frame_eq hgo hi, h'.rep.frame_eq hgo' (by omega), hsame _ hmem]

end

end

/-- **The frames of a memory object in every run.** While it fills, a `fill` takes exactly `fill_needs` frames, a
complete list has taken its pages and nodes, and `frame` and `frames` give each page its own frame, the same until
the release. The release gives back what was taken backwards, a node after all that is below it, without reading
what it gave back, and reports itself released once that is all. -/
theorem pages_of_run (pages : Nat) (hpages : 1 ≤ pages ∧ pages ≤ MAX_PAGES) (s : State)
    (hs : Run.Reachable (Start pages) Step s) :
    ∃ (f : Part → Nat) (n : Nat), s.taken = (takenParts pages n).map f ∧ s.taken.Nodup ∧
      (1 ≤ depth pages → s.list.root ≠ 0 → s.list.root = f .root) ∧
      (∀ k < s.list.leaves, s.words (wordAt s.list.root k) = f (.leaf k)) ∧
      (∀ i < s.list.filled, find (fun a => some (s.words a)) s.list i = some (f (.page i))) ∧
      (s.list.going = false → n = s.list.filled ∧ s.gone = [] ∧
        (s.list.filled = pages → s.taken.length = pages + nodes pages) ∧
        (∀ k store, s.list.filled + k < 2 ^ 64 → (∀ x ∈ store, Frame x) → (s.taken ++ store).Nodup →
          fillNeeds s.list k ≤ store.length →
          ∃ r : Filling, fill ⟨s.list, s.words, store⟩ k = some (r, decide (r.list.filled = pages)) ∧
            r.store = store.drop (fillNeeds s.list k) ∧ r.list.filled = min pages (s.list.filled + k)) ∧
        (∀ i < s.list.filled, frame s.words s.list i = some (f (.page i))) ∧
        (∀ first len, first + len ≤ s.list.filled →
          frames s.words s.list first len = some ((range' first len).map fun i => f (.page i))) ∧
        (∀ i < s.list.filled, ∀ j < s.list.filled, f (.page i) = f (.page j) → i = j) ∧
        ∀ s', Relation.ReflTransGen Step s s' → s'.list.going = false → ∀ i < s.list.filled,
          frame s'.words s'.list i = frame s.words s.list i) ∧
      s.gone = s.taken.reverse.take s.gone.length ∧
      (takenParts pages n).reverse.Pairwise (fun a b => ¬ Below b a) ∧
      ∀ room, ∃ l', releaseCollect s.words s.gone s.list room =
          some (l', (s.taken.reverse.drop s.gone.length).take room) ∧
        (released l' ↔ s.taken.length ≤ s.gone.length + room) := by
  obtain ⟨⟨f, n, h⟩, hp⟩ := Kept.of_run hs
  refine ⟨f, n, hp ▸ h.taken, h.nodup, hp ▸ h.rep.root, h.rep.leaf, h.rep.page, fun hgo => ?_, ?_, ?_, fun room => ?_⟩
  · obtain ⟨hr, hn⟩ := h.ready hgo
    obtain ⟨hgone, -, -⟩ := h.filling hgo
    refine ⟨hn, hgone, fun hfull => ?_, fun k store hk hxs hnd hlen => ?_, fun i hi => h.rep.frame_eq hgo hi,
      fun first len hle => h.rep.frames_eq hgo hle, fun i hi j hj heq => ?_, fun s' hr' hgo' i hi => ?_⟩
    · rw [h.taken, length_map, hn, hfull, hp, length_takenParts_full (by omega)]
    · obtain ⟨r, h1, h2, h3, -⟩ := h.fill hgo hk hlen hxs hnd
      rw [hp] at h1 h3
      exact ⟨r, h1, h2, h3⟩
    · simpa using h.rep.inj (p := .page i) (q := .page j) hi hj heq
    · obtain ⟨⟨f', n', h'⟩, hp', hpre⟩ := h.run hr'
      exact h.stable h' hp' hpre hgo hgo' hi
  · rw [h.gone, take_left]
  · rw [pairwise_reverse]
    exact takenParts_order pages n
  · obtain ⟨l', h1, -, -, -, h5⟩ := h.release room
    exact ⟨l', h1, h5⟩

/-- Of 514 pages 513 get their frames, two leaves and a root with them; a release that ends between the two leaves and
one of the rest then give all of them back. -/
theorem pages_of_run_leaves : ∃ s s' : State, Run.Reachable (Start 514) Step s ∧ s.list.filled = 513 ∧
    s.taken = (range 516).map (fun i => PAGE_SIZE * (i + 1)) ∧ Relation.ReflTransGen Step s s' ∧
    s'.gone = s.taken.reverse ∧ released s'.list := by
  have hpages : 1 ≤ 514 ∧ 514 ≤ MAX_PAGES := by decide
  have hnew : Run.Reachable (Start 514) Step ⟨⟨0, 514, 0, 0, false⟩, fun _ => 0, [], []⟩ := .start ⟨by decide, rfl, rfl⟩
  generalize hframes : (range 516).map (fun i => PAGE_SIZE * (i + 1)) = frames
  have hlen : frames.length = 516 := by simp [← hframes]
  have hfresh : ([] ++ frames).Nodup := by
    rw [← hframes, nil_append]
    exact nodup_range.map fun i j h => by simpa [PAGE_SIZE] using h
  have hall : ∀ x ∈ frames, Frame x := by
    intro x hx
    simp only [← hframes, List.mem_map, mem_range] at hx
    obtain ⟨i, hi, rfl⟩ := hx
    exact ⟨by simp [PAGE_SIZE], by simp, by unfold PAGE_SIZE; omega⟩
  obtain ⟨_, _, -, -, -, -, -, hfill, -⟩ := pages_of_run 514 hpages _ hnew
  obtain ⟨r, hdone, hleft, hfilled⟩ := (hfill rfl).2.2.2.1 513 frames (by decide) hall hfresh (by rw [hlen]; decide)
  have hneeds : fillNeeds ⟨0, 514, 0, 0, false⟩ 513 = frames.length := by
    rw [hlen]
    decide
  rw [hneeds, drop_length] at hleft
  have hfull : Run.Reachable (Start 514) Step ⟨r.list, r.words, frames, []⟩ := by
    simpa [hleft] using hnew.tail (.fill (by decide) hall hfresh hneeds.le hdone)
  obtain ⟨_, _, -, -, -, -, -, -, -, -, hrelease⟩ := pages_of_run 514 hpages _ hfull
  obtain ⟨l, hsome, -⟩ := hrelease 2
  have hstep := Step.releaseCollect hsome
  obtain ⟨_, _, -, -, -, -, -, -, -, -, hrelease⟩ := pages_of_run 514 hpages _ (hfull.tail hstep)
  obtain ⟨l', hrest, hreleased⟩ := hrelease 514
  refine ⟨_, _, hfull, hfilled, rfl, .tail (.single hstep) (.releaseCollect hrest), ?_, hreleased.2 ?_⟩
  · have hlast : (frames.reverse.drop 2).take 514 = frames.reverse.drop 2 := take_of_length_le (by simp [hlen])
    simp [hlen, hlast]
  · simp [hlen]

/-- **A count of pages that overflows**: after one page of two, a `fill` of `usize::MAX` pages takes no frame, and
`fill_needs` says that it takes `usize::MAX`. -/
theorem fill_overflow :
    ((new 2).bind fun l => fill ⟨l, fun _ => 0, [0x1000, 0x2000]⟩ 1).map (fun r => (r.1.list, r.1.store)) =
      some (⟨0x1000, 2, 1, 0, false⟩, []) ∧
    (fill ⟨⟨0x1000, 2, 1, 0, false⟩, fun _ => 0x2000, [0x3000]⟩ (2 ^ 64 - 1)).map (fun r => (r.1.store, r.2)) =
      some ([0x3000], false) ∧
    fillNeeds ⟨0x1000, 2, 1, 0, false⟩ (2 ^ 64 - 1) = 2 ^ 64 - 1 := by
  decide

end Pagelist
