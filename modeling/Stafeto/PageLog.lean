import Mathlib.Tactic
import Stafeto.Lib.NamedStack
import Stafeto.Lib.Run
import Stafeto.Quota

/-!
# The pool pages of a payer (kcore/src/slab.rs, `PageLog` and `PaidPages`)

A payer's pools take their pages through `PaidPages`: each is charged to the quota and its address goes into the
page log, the first eight into the log itself and the rest into list pages of 511 addresses, which are charged as
well and are linked to each other, newest first. A charge may fail at any time, also after a list page was taken
and before the page it was for.

The log is a stack, as the list of the frames of a memory object is: its two counts say which pages are on it and
in which order (`partsOf`), and `release_step` pops them. A list page is taken before the pages that are written
into it, so it goes back after them. A word of a page has no value until it is written (`Mem`), and none again once
the page was given back, and reading such a word fails; a subtraction that would underflow fails as well.
-/

namespace Slab

open NamedStack Function List
open Quota (Account)

def PAGE_SIZE : Nat := 4096

/-- Addresses in the log itself (slab.rs:157). -/
def INLINE_PAGES : Nat := 8

/-- Addresses in a list page (slab.rs:159). -/
def LIST_ENTRIES : Nat := 511

/-- `PageLog` (slab.rs:179). -/
structure PageLog where
  inline : Nat → Option Nat
  list : Option Nat
  pages : Nat
  listPages : Nat

/-- `new` (slab.rs:191). -/
def PageLog.new : PageLog := ⟨fun _ => none, none, 0, 0⟩

/-- The words of the pages, as far as they are written. A word holds an address, or 0 for none. -/
abbrev Mem := Nat → Option Nat

/-- The words of a page are lost: it is fresh, or someone else's. -/
def forget (mem : Mem) (page : Nat) : Mem := fun a => if a / PAGE_SIZE * PAGE_SIZE = page then none else mem a

/-- The word of entry `i` of a list page. -/
def entryAt (page i : Nat) : Nat := page + 8 * i

/-- The word of the link of a list page. -/
def linkAt (page : Nat) : Nat := entryAt page LIST_ENTRIES

/-- An `Option<NonNull>` as a word. -/
def toWord (p : Option Nat) : Nat := p.getD 0

def ofWord (w : Nat) : Option Nat := if w = 0 then none else some w

/-- `needs_list_page` (slab.rs:211). -/
def needsListPage (log : PageLog) : Bool :=
  decide (INLINE_PAGES ≤ log.pages) && decide (log.pages - INLINE_PAGES = log.listPages * LIST_ENTRIES)

/-- `in_list` (slab.rs:216): `none` when a subtraction underflows. -/
def inList (log : PageLog) : Option Nat :=
  if 1 ≤ log.listPages ∧ (log.listPages - 1) * LIST_ENTRIES ≤ log.pages - INLINE_PAGES then
    some (log.pages - INLINE_PAGES - (log.listPages - 1) * LIST_ENTRIES)
  else none

/-- A log with its memory, the quota it is charged to and the frames that the source will give. -/
structure Paid where
  log : PageLog
  mem : Mem
  quota : Account
  frames : List Nat

/-- `take` (slab.rs:325): the inner `none` when the quota falls short, the outer one when a charge that passed finds
no frame. -/
def take (s : Paid) : Option (Option (Nat × Paid)) :=
  match s.quota.charge PAGE_SIZE with
  | .error _ => some none
  | .ok quota =>
    match s.frames with
    | [] => none
    | page :: frames => some (some (page, ⟨s.log, forget s.mem page, quota, frames⟩))

/-- `add_list_page` (slab.rs:225). -/
def addListPage (s : Paid) (page : Nat) : Paid :=
  { s with
    log := { s.log with list := some page, listPages := s.log.listPages + 1 }
    mem := update s.mem (linkAt page) (some (toWord s.log.list)) }

/-- `record` (slab.rs:235); `none` without a list page, or past its end. -/
def record (s : Paid) (page : Nat) : Option Paid :=
  if s.log.pages < INLINE_PAGES then
    some { s with log := { s.log with
      inline := update s.log.inline s.log.pages (some page), pages := s.log.pages + 1 } }
  else
    s.log.list.bind fun list => (inList s.log).bind fun i =>
      if i < LIST_ENTRIES then
        some { s with
          log := { s.log with pages := s.log.pages + 1 }
          mem := update s.mem (entryAt list i) (some page) }
      else none

/-- The second half of `alloc_page` (slab.rs:341): the page itself. -/
def allocRest (s : Paid) : Option (Option Nat × Paid) :=
  (take s).bind fun
    | none => some (none, s)
    | some (page, s) => (record s page).map fun s => (some page, s)

/-- `alloc_page` of `PaidPages` (slab.rs:335). -/
def allocPage (s : Paid) : Option (Option Nat × Paid) :=
  if needsListPage s.log then
    (take s).bind fun
      | none => some (none, s)
      | some (list, s) => allocRest (addListPage s list)
  else allocRest s

/-- `pop` (slab.rs:249); the outer `none` when a read or a subtraction fails. -/
def pop (log : PageLog) (mem : Mem) : Option (Option Nat × PageLog) :=
  match log.list with
  | some list =>
    (inList log).bind fun i =>
      if i = 0 then
        (mem (linkAt list)).map fun next =>
          (some list, { log with list := ofWord next, listPages := log.listPages - 1 })
      else if i ≤ LIST_ENTRIES then
        (mem (entryAt list (i - 1))).map fun entry => (ofWord entry, { log with pages := log.pages - 1 })
      else none
  | none =>
    if log.pages = 0 then some (none, log)
    else if log.pages - 1 < INLINE_PAGES then
      some (log.inline (log.pages - 1),
        { log with pages := log.pages - 1, inline := update log.inline (log.pages - 1) none })
    else none

/-- `release_step` (slab.rs:271): the log and the memory, the pages that `free` got, and whether none is left. -/
def releaseStep : Nat → PageLog → Mem → Option (PageLog × Mem × List Nat × Bool)
  | 0, log, mem => some (log, mem, [], decide (log.pages = 0) && log.list.isNone)
  | n + 1, log, mem =>
    match pop log mem with
    | none => none
    | some (none, log) => some (log, mem, [], true)
    | some (some page, log) =>
      (releaseStep n log (forget mem page)).map fun r => (r.1, r.2.1, page :: r.2.2.1, r.2.2.2)

/-! ## What a log holds -/

/-- A page of the log. -/
inductive Part where
  | pool (i : Nat)
  | list (k : Nat)
deriving DecidableEq

/-- The list page whose address entries lead to the pool page. -/
def Below : Part → Part → Prop
  | .pool i, .list k => INLINE_PAGES ≤ i ∧ (i - INLINE_PAGES) / LIST_ENTRIES = k
  | _, _ => False

/-- The list page that comes before pool page `i`. -/
def listAt (i : Nat) : List Part :=
  if INLINE_PAGES ≤ i ∧ (i - INLINE_PAGES) % LIST_ENTRIES = 0 then [.list ((i - INLINE_PAGES) / LIST_ENTRIES)] else []

/-- The list pages that so many pages need. -/
def listsFor (pages : Nat) : Nat := (pages - INLINE_PAGES + LIST_ENTRIES - 1) / LIST_ENTRIES

/-- The pages on the log, in the order in which they were taken; a list page may be there before its first address,
or still. -/
def partsOf (pages listPages : Nat) : List Part :=
  led listAt .pool pages ++
    if listsFor pages < listPages then [.list ((pages - INLINE_PAGES) / LIST_ENTRIES)] else []

/-- A page: 4 KiB, aligned, and not at 0. -/
structure Page (x : Nat) : Prop where
  ne_zero : x ≠ 0
  aligned : x % PAGE_SIZE = 0
  lt : x < 2 ^ 64

/-- The two counts fit together. -/
def Shape (pages listPages : Nat) : Prop :=
  listPages = listsFor pages ∨
    INLINE_PAGES ≤ pages ∧ (pages - INLINE_PAGES) % LIST_ENTRIES = 0 ∧
      listPages = (pages - INLINE_PAGES) / LIST_ENTRIES + 1

/-- The log and the words of its list pages lead to the pages `f` of its parts, which are all different. -/
structure Rep (log : PageLog) (mem : Mem) (f : Part → Nat) : Prop where
  shape : Shape log.pages log.listPages
  nodup : ((partsOf log.pages log.listPages).map f).Nodup
  page : ∀ p ∈ partsOf log.pages log.listPages, Page (f p)
  inline : ∀ i < INLINE_PAGES, i < log.pages → log.inline i = some (f (.pool i))
  list : log.list = if log.listPages = 0 then none else some (f (.list (log.listPages - 1)))
  link : ∀ k < log.listPages, mem (linkAt (f (.list k))) = some (if k = 0 then 0 else f (.list (k - 1)))
  entry : ∀ i, INLINE_PAGES ≤ i → i < log.pages →
    mem (entryAt (f (.list ((i - INLINE_PAGES) / LIST_ENTRIES))) ((i - INLINE_PAGES) % LIST_ENTRIES)) =
      some (f (.pool i))

section
variable {log log' : PageLog} {mem : Mem} {f : Part → Nat} {p q : Part} {x i pages listPages : Nat} {fs : List Nat}

theorem mem_listAt {a : Part} (ha : a ∈ listAt i ++ [.pool i]) :
    (a = .list ((i - INLINE_PAGES) / LIST_ENTRIES) ∧ INLINE_PAGES ≤ i ∧ (i - INLINE_PAGES) % LIST_ENTRIES = 0) ∨
      a = .pool i := by
  unfold listAt at ha
  split_ifs at ha with h
  · simp only [mem_append, mem_singleton] at ha
    exact ha.imp (⟨·, h⟩) id
  · exact .inr (by simpa using ha)

theorem mem_led_listAt {n : Nat} :
    p ∈ led listAt .pool n ↔
      match p with
      | .pool i => i < n
      | .list k => INLINE_PAGES + k * LIST_ENTRIES < n := by
  induction n with
  | zero => cases p <;> simp [led]
  | succ n ih =>
    rw [led_succ, mem_append, mem_append, ih]
    unfold listAt
    cases p with
    | pool i => split_ifs <;> simp <;> omega
    | list k =>
      unfold INLINE_PAGES LIST_ENTRIES
      split_ifs <;> simp <;> omega

theorem mem_partsOf (h : Shape pages listPages) :
    p ∈ partsOf pages listPages ↔
      match p with
      | .pool i => i < pages
      | .list k => k < listPages := by
  unfold partsOf
  rw [mem_append, mem_led_listAt]
  cases p with
  | pool i => split_ifs <;> simp
  | list k =>
    have hiff : (INLINE_PAGES + k * LIST_ENTRIES < pages ∨
        listsFor pages < listPages ∧ k = (pages - INLINE_PAGES) / LIST_ENTRIES) ↔ k < listPages := by
      unfold Shape listsFor at *
      unfold INLINE_PAGES LIST_ENTRIES at *
      omega
    simp only
    rw [← hiff]
    split_ifs with hc <;> simp [hc]

/-- Nothing is taken before the list page that its address goes into. -/
theorem partsOf_order (h : Shape pages listPages) :
    (partsOf pages listPages).Pairwise fun a b => ¬ Below a b := by
  have hbody : (led listAt .pool pages).Pairwise fun a b => ¬ Below a b := by
    refine led_pairwise _ _ pages (fun i _ => ?_) fun i j hij _ a ha b hb => ?_
    · unfold listAt
      split_ifs <;> simp [Below]
    · obtain ⟨rfl, -⟩ | rfl := mem_listAt ha
      · simp [Below]
      · obtain ⟨rfl, hj, hz⟩ | rfl := mem_listAt hb
        · simp only [Below]
          unfold INLINE_PAGES LIST_ENTRIES at *
          omega
        · simp [Below]
  unfold partsOf
  rw [pairwise_append]
  refine ⟨hbody, by split_ifs <;> simp, fun a ha b hb => ?_⟩
  split_ifs at hb with hc
  · rw [mem_singleton] at hb
    subst hb
    rw [mem_led_listAt] at ha
    cases a with
    | pool i =>
      simp only [Below]
      unfold Shape listsFor at *
      unfold INLINE_PAGES LIST_ENTRIES at *
      omega
    | list k => simp [Below]
  · simp at hb

theorem length_partsOf (h : Shape pages listPages) :
    (partsOf pages listPages).length = pages + listPages := by
  have hbody : ∀ n, (led listAt .pool n).length = n + listsFor n := by
    intro n
    induction n with
    | zero => simp [led, listsFor, LIST_ENTRIES]
    | succ n ih =>
      rw [led_succ, length_append, length_append, ih]
      unfold listAt listsFor INLINE_PAGES LIST_ENTRIES
      split_ifs with hc <;> simp <;> omega
  unfold partsOf
  rw [length_append, hbody]
  unfold Shape at h
  split_ifs with hc
  · rw [length_singleton]
    unfold listsFor at *
    unfold INLINE_PAGES LIST_ENTRIES at *
    omega
  · rw [length_nil]
    unfold listsFor at *
    unfold INLINE_PAGES LIST_ENTRIES at *
    omega

/-! ### Words -/

theorem entryAt_inj {y j : Nat} (hx : Page x) (hy : Page y) (hi : i ≤ LIST_ENTRIES) (hj : j ≤ LIST_ENTRIES)
    (h : entryAt x i = entryAt y j) : x = y ∧ i = j := by
  have h1 := hx.aligned
  have h2 := hy.aligned
  unfold entryAt at h
  unfold PAGE_SIZE LIST_ENTRIES at *
  omega

theorem pageOf_entryAt (hx : Page x) (hi : i ≤ LIST_ENTRIES) : entryAt x i / PAGE_SIZE * PAGE_SIZE = x := by
  have h1 := hx.aligned
  unfold entryAt
  unfold PAGE_SIZE LIST_ENTRIES at *
  omega

theorem Rep.isPage (h : Rep log mem f) :
    (∀ i < log.pages, Page (f (.pool i))) ∧ ∀ k < log.listPages, Page (f (.list k)) :=
  ⟨fun _ hi => h.page _ ((mem_partsOf h.shape).2 hi), fun _ hk => h.page _ ((mem_partsOf h.shape).2 hk)⟩

theorem Rep.inj_list (h : Rep log mem f) {j k : Nat} (hj : j < log.listPages) (hk : k < log.listPages)
    (heq : f (.list j) = f (.list k)) : j = k := by
  have := inj_on_of_nodup_map h.nodup ((mem_partsOf h.shape).2 hj)
    ((mem_partsOf h.shape).2 hk) heq
  simpa using this

theorem Shape.list_lt (h : Shape log.pages log.listPages) (h8 : INLINE_PAGES ≤ i) (hi : i < log.pages) :
    (i - INLINE_PAGES) / LIST_ENTRIES < log.listPages := by
  unfold Shape listsFor at h
  unfold INLINE_PAGES LIST_ENTRIES at *
  omega

theorem mod_le (i : Nat) : i % LIST_ENTRIES ≤ LIST_ENTRIES := (Nat.mod_lt _ (by decide)).le

theorem Rep.congr (h : Rep log mem f) {mem' : Mem}
    (hsame : ∀ k < log.listPages, ∀ i ≤ LIST_ENTRIES, mem' (entryAt (f (.list k)) i) = mem (entryAt (f (.list k)) i)) :
    Rep log mem' f :=
  ⟨h.shape, h.nodup, h.page, h.inline, h.list, fun k hk => (hsame k hk _ le_rfl).trans (h.link k hk),
    fun i h8 hi => (hsame _ (h.shape.list_lt h8 hi) _ (mod_le _)).trans (h.entry i h8 hi)⟩

theorem Rep.forget (h : Rep log mem f) (hx : x ∉ (partsOf log.pages log.listPages).map f) :
    Rep log (forget mem x) f := by
  refine h.congr fun k hk i hi => ?_
  have hne : f (.list k) ≠ x := by
    rintro rfl
    exact hx (mem_map_of_mem ((mem_partsOf h.shape).2 hk))
  rw [Slab.forget, pageOf_entryAt (h.isPage.2 k hk) hi, if_neg hne]

/-! ### One more page -/

/-- The log holds these pages, in the order in which it took them. -/
def Holds (log : PageLog) (mem : Mem) (fs : List Nat) : Prop :=
  ∃ f, Rep log mem f ∧ (partsOf log.pages log.listPages).map f = fs

/-- A list page, when the next address needs one. -/
theorem Rep.addListPage (h : Rep log mem f) (hneeds : needsListPage log = true) (hx : Page x)
    (hnew : x ∉ (partsOf log.pages log.listPages).map f) :
    Holds { log with list := some x, listPages := log.listPages + 1 }
      (update mem (linkAt x) (some (toWord log.list))) ((partsOf log.pages log.listPages).map f ++ [x]) := by
  have hsh := h.shape
  simp only [needsListPage, Bool.and_eq_true, decide_eq_true_eq] at hneeds
  obtain ⟨h8, hfull⟩ := hneeds
  have hdiv : (log.pages - INLINE_PAGES) / LIST_ENTRIES = log.listPages := by
    rw [hfull]
    exact Nat.mul_div_cancel _ (by decide)
  have hmod : (log.pages - INLINE_PAGES) % LIST_ENTRIES = 0 := by
    rw [hfull]
    exact Nat.mul_mod_left _ _
  have hcount : listsFor log.pages = log.listPages := by
    unfold listsFor
    unfold INLINE_PAGES LIST_ENTRIES at *
    omega
  have hparts : partsOf log.pages (log.listPages + 1) = partsOf log.pages log.listPages ++ [.list log.listPages] := by
    unfold partsOf
    rw [hcount, hdiv]
    simp
  have hnot : Part.list log.listPages ∉ partsOf log.pages log.listPages := by
    rw [mem_partsOf hsh]
    simp
  have hold : ∀ k < log.listPages, update f (.list log.listPages) x (.list k) = f (.list k) := fun k hk =>
    update_of_ne (by simp; omega) ..
  have hother : ∀ k < log.listPages, ∀ i ≤ LIST_ENTRIES,
      update mem (linkAt x) (some (toWord log.list)) (entryAt (f (.list k)) i) =
        mem (entryAt (f (.list k)) i) := by
    intro k hk i hi
    refine update_of_ne (fun heq => ?_) ..
    have := (entryAt_inj (h.isPage.2 k hk) hx hi le_rfl heq).1
    exact hnew (this ▸ mem_map_of_mem ((mem_partsOf hsh).2 hk))
  refine ⟨update f (.list log.listPages) x, ⟨.inr ⟨h8, hmod, by simp only; omega⟩, ?_, ?_, fun i h1 h2 => ?_,
    ?_, fun k hk => ?_, fun i h1 h2 => ?_⟩, ?_⟩
  · rw [hparts]
    exact nodup_push h.nodup hnot hnew
  · rw [hparts]
    exact forall_push h.page hx
  · exact h.inline i h1 h2
  · simp
  · obtain hlt | heq := Nat.lt_succ_iff_lt_or_eq.1 hk
    · rw [hold k hlt]
      refine ((hother k hlt _ le_rfl).trans (h.link k hlt)).trans ?_
      by_cases h0 : k = 0
      · simp [h0]
      · rw [if_neg h0, if_neg h0, hold (k - 1) (by omega)]
    · subst heq
      rw [update_self, update_self, h.list]
      by_cases h0 : log.listPages = 0
      · simp [h0, toWord]
      · rw [if_neg h0, if_neg h0, hold _ (by omega)]
        rfl
  · have hk := hsh.list_lt h1 h2
    rw [hold _ hk, hother _ hk _ (mod_le _)]
    exact h.entry i h1 h2
  · simp only
    rw [hparts]
    exact map_push hnot

theorem partsOf_succ
    (hlists : listPages = if pages < INLINE_PAGES then 0 else (pages - INLINE_PAGES) / LIST_ENTRIES + 1) :
    partsOf (pages + 1) listPages = partsOf pages listPages ++ [.pool pages] ∧ Shape (pages + 1) listPages := by
  have hshape : listsFor (pages + 1) = listPages := by
    rw [hlists]
    unfold listsFor INLINE_PAGES LIST_ENTRIES
    split_ifs <;> omega
  refine ⟨?_, .inl hshape.symm⟩
  unfold partsOf
  rw [hshape, if_neg (lt_irrefl _), led_succ, append_nil]
  congr 2
  rw [hlists]
  unfold listAt listsFor
  by_cases h8 : pages < INLINE_PAGES
  · rw [if_pos h8, if_neg (by omega), if_neg (Nat.not_lt_zero _)]
  · rw [if_neg h8]
    refine if_congr ?_ rfl rfl
    unfold INLINE_PAGES LIST_ENTRIES at *
    omega

/-- A pool page, once its address is in its place. -/
theorem Rep.pushPool (h : Rep log mem f) (hx : Page x) (hnew : x ∉ (partsOf log.pages log.listPages).map f)
    (hlists : log.listPages = if log.pages < INLINE_PAGES then 0 else (log.pages - INLINE_PAGES) / LIST_ENTRIES + 1)
    {inline : Nat → Option Nat} {mem' : Mem}
    (hinline : ∀ i < INLINE_PAGES, i < log.pages → inline i = log.inline i)
    (hinlinex : log.pages < INLINE_PAGES → inline log.pages = some x)
    (hlink : ∀ k < log.listPages, mem' (linkAt (f (.list k))) = mem (linkAt (f (.list k))))
    (hentry : ∀ i, INLINE_PAGES ≤ i → i < log.pages →
      mem' (entryAt (f (.list ((i - INLINE_PAGES) / LIST_ENTRIES))) ((i - INLINE_PAGES) % LIST_ENTRIES)) =
        mem (entryAt (f (.list ((i - INLINE_PAGES) / LIST_ENTRIES))) ((i - INLINE_PAGES) % LIST_ENTRIES)))
    (hentryx : INLINE_PAGES ≤ log.pages → mem' (entryAt (f (.list ((log.pages - INLINE_PAGES) / LIST_ENTRIES)))
      ((log.pages - INLINE_PAGES) % LIST_ENTRIES)) = some x) :
    Holds { log with inline := inline, pages := log.pages + 1 } mem'
      ((partsOf log.pages log.listPages).map f ++ [x]) := by
  obtain ⟨hparts, hshape⟩ := partsOf_succ hlists
  have hnot : Part.pool log.pages ∉ partsOf log.pages log.listPages := by
    rw [mem_partsOf h.shape]
    simp
  have hlist : ∀ k, update f (.pool log.pages) x (.list k) = f (.list k) := fun k =>
    update_of_ne (by simp) ..
  have hpool : ∀ i < log.pages, update f (.pool log.pages) x (.pool i) = f (.pool i) := fun i hi =>
    update_of_ne (by simp; omega) ..
  refine ⟨update f (.pool log.pages) x, ⟨hshape, ?_, ?_, fun i h1 h2 => ?_, ?_, fun k hk => ?_,
    fun i h1 h2 => ?_⟩, ?_⟩
  · rw [hparts]
    exact nodup_push h.nodup hnot hnew
  · rw [hparts]
    exact forall_push h.page hx
  · simp only
    obtain hlt | rfl := Nat.lt_succ_iff_lt_or_eq.1 h2
    · rw [hinline i h1 hlt, hpool i hlt]
      exact h.inline i h1 hlt
    · rw [hinlinex h1, update_self]
  · exact h.list
  · exact (hlink k hk).trans (h.link k hk)
  · rw [hlist]
    obtain hlt | rfl := Nat.lt_succ_iff_lt_or_eq.1 h2
    · rw [hentry i h1 hlt, hpool i hlt]
      exact h.entry i h1 hlt
    · rw [hentryx h1, update_self]
  · rw [hparts]
    exact map_push hnot

theorem record_spec {s : Paid} (hH : Holds s.log s.mem fs) (hneeds : needsListPage s.log = false)
    (hx : Page x) (hnew : x ∉ fs) :
    ∃ s', record s x = some s' ∧ s'.quota = s.quota ∧ s'.frames = s.frames ∧ s'.log.pages = s.log.pages + 1 ∧
      s'.log.listPages = s.log.listPages ∧ Holds s'.log s'.mem (fs ++ [x]) := by
  obtain ⟨f, h, rfl⟩ := hH
  have hsh := h.shape
  have hlists : s.log.listPages =
      if s.log.pages < INLINE_PAGES then 0 else (s.log.pages - INLINE_PAGES) / LIST_ENTRIES + 1 := by
    simp only [needsListPage, Bool.and_eq_false_iff, decide_eq_false_iff_not] at hneeds
    unfold Shape listsFor at hsh
    unfold INLINE_PAGES LIST_ENTRIES at *
    split_ifs <;> omega
  unfold record
  by_cases h8 : s.log.pages < INLINE_PAGES
  · rw [if_pos h8]
    rw [if_pos h8] at hlists
    refine ⟨_, rfl, rfl, rfl, rfl, rfl, ?_⟩
    refine h.pushPool hx hnew (by rw [if_pos h8]; exact hlists) (fun i _ hi => ?_) (fun _ => ?_) (fun _ _ => rfl)
      (fun _ _ _ => rfl) (fun hge => absurd h8 (by omega))
    · exact update_of_ne (by omega) ..
    · exact update_self ..
  · rw [if_neg h8]
    have hk : s.log.listPages = (s.log.pages - INLINE_PAGES) / LIST_ENTRIES + 1 := by rw [hlists, if_neg h8]
    have hlist : s.log.list = some (f (.list ((s.log.pages - INLINE_PAGES) / LIST_ENTRIES))) := by
      rw [h.list, if_neg (by rw [hk]; exact Nat.succ_ne_zero _), hk, Nat.add_sub_cancel]
    have hin : inList s.log = some ((s.log.pages - INLINE_PAGES) % LIST_ENTRIES) := by
      unfold inList
      rw [hk]
      unfold INLINE_PAGES LIST_ENTRIES
      rw [if_pos (by omega)]
      congr 1
      omega
    have hmod : (s.log.pages - INLINE_PAGES) % LIST_ENTRIES < LIST_ENTRIES := Nat.mod_lt _ (by decide)
    have hlast : (s.log.pages - INLINE_PAGES) / LIST_ENTRIES < s.log.listPages := by omega
    rw [hlist, Option.bind_some, hin, Option.bind_some, if_pos hmod]
    refine ⟨_, rfl, rfl, rfl, rfl, rfl, ?_⟩
    refine h.pushPool hx hnew hlists (fun _ _ _ => rfl) (fun hlt => absurd hlt h8) (fun k hk' => ?_)
      (fun i h1 h2 => ?_) (fun _ => update_self ..)
    · refine update_of_ne (fun heq => ?_) ..
      have := (entryAt_inj (h.isPage.2 k hk') (h.isPage.2 _ hlast) le_rfl hmod.le heq).2
      omega
    · refine update_of_ne (fun heq => ?_) ..
      have hlt := hsh.list_lt h1 h2
      obtain ⟨hpage, hindex⟩ := entryAt_inj (h.isPage.2 _ hlt) (h.isPage.2 _ hlast) (mod_le _) hmod.le heq
      have := h.inj_list hlt hlast hpage
      unfold INLINE_PAGES LIST_ENTRIES at *
      omega

/-! ### `alloc_page` -/

/-- A charge that passes takes the next frame. -/
theorem take_cases (s : Paid) (hframes : s.frames ≠ []) :
    take s = some none ∨ ∃ page frames quota, s.frames = page :: frames ∧ quota.used = s.quota.used + PAGE_SIZE ∧
      take s = some (some (page, ⟨s.log, Slab.forget s.mem page, quota, frames⟩)) := by
  unfold take
  cases hcharge : s.quota.charge PAGE_SIZE with
  | error e => exact .inl rfl
  | ok quota =>
    obtain ⟨page, frames, hpf⟩ := exists_cons_of_ne_nil hframes
    refine .inr ⟨page, frames, quota, hpf, ?_, by simp only [hpf]⟩
    unfold Account.charge at hcharge
    split_ifs at hcharge
    cases hcharge
    rfl

/-- What an allocation has done so far: it took the frames `xs` and charged for them. -/
structure Took (s s' : Paid) (fs xs : List Nat) : Prop where
  frames : s.frames = xs ++ s'.frames
  used : s'.quota.used = s.quota.used + PAGE_SIZE * xs.length
  holds : Holds s'.log s'.mem (fs ++ xs)

theorem Holds.forget (hH : Holds log mem fs) (hx : x ∉ fs) : Holds log (Slab.forget mem x) fs := by
  obtain ⟨f, h, rfl⟩ := hH
  exact ⟨f, h.forget hx, rfl⟩

theorem allocRest_spec {s : Paid} (hH : Holds s.log s.mem fs) (hneeds : needsListPage s.log = false)
    (hframes : s.frames ≠ []) (hpages : ∀ x ∈ s.frames, Page x) (hnd : (fs ++ s.frames).Nodup) :
    ∃ out s' xs, allocRest s = some (out, s') ∧ Took s s' fs xs := by
  unfold allocRest
  obtain htake | ⟨page, frames, quota, hpf, hused, htake⟩ := take_cases s hframes
  · exact ⟨none, s, [], by rw [htake]; rfl, rfl, rfl, by rw [append_nil]; exact hH⟩
  · have hnew : page ∉ fs := by
      rw [hpf] at hnd
      exact fun hmem => (nodup_append.1 hnd).2.2 page hmem page (by simp) rfl
    obtain ⟨s', h1, h2, h3, -, -, h4⟩ := record_spec (s := ⟨s.log, Slab.forget s.mem page, quota, frames⟩)
      (hH.forget hnew) hneeds (hpages page (by simp [hpf])) hnew
    refine ⟨some page, s', [page], ?_, by rw [hpf, h3]; rfl, ?_, h4⟩
    · rw [htake, Option.bind_some]
      simp only
      rw [h1, Option.map_some]
    · rw [h2, hused]
      rfl

/-- A log with the list page it needed needs none. -/
theorem needsListPage_after (hneeds : needsListPage log = true) (page : Nat) :
    needsListPage { log with list := some page, listPages := log.listPages + 1 } = false := by
  simp only [needsListPage, Bool.and_eq_true, decide_eq_true_eq] at hneeds
  simp only [needsListPage, Bool.and_eq_false_iff, decide_eq_false_iff_not]
  right
  rw [hneeds.2]
  unfold LIST_ENTRIES
  omega

/-- **`alloc_page`** takes what it charges for, and the log has it; also when a charge fails in the middle. -/
theorem allocPage_spec {s : Paid} (hH : Holds s.log s.mem fs) (hframes : 2 ≤ s.frames.length)
    (hpages : ∀ x ∈ s.frames, Page x) (hnd : (fs ++ s.frames).Nodup) :
    ∃ out s' xs, allocPage s = some (out, s') ∧ Took s s' fs xs := by
  have hne : s.frames ≠ [] := by
    rintro h0
    simp [h0] at hframes
  unfold allocPage
  by_cases hneeds : needsListPage s.log = true
  · rw [if_pos hneeds]
    obtain htake | ⟨page, frames, quota, hpf, hused, htake⟩ := take_cases s hne
    · exact ⟨none, s, [], by rw [htake]; rfl, rfl, rfl, by rw [append_nil]; exact hH⟩
    · rw [hpf] at hnd hframes
      have hnew : page ∉ fs := fun hmem => (nodup_append.1 hnd).2.2 page hmem page (by simp) rfl
      have hpage : Page page := hpages page (by simp [hpf])
      obtain ⟨f, h, hmap⟩ := hH.forget hnew
      have hlist := h.addListPage hneeds hpage (by rw [hmap]; exact hnew)
      rw [hmap] at hlist
      have hne' : frames ≠ [] := by
        rintro rfl
        simp at hframes
      rw [← singleton_append, ← append_assoc] at hnd
      obtain ⟨out, s', xs, h1, h2, h3, h4⟩ := allocRest_spec
        (s := addListPage ⟨s.log, Slab.forget s.mem page, quota, frames⟩ page) hlist
        (needsListPage_after hneeds page) hne' (fun x hx => hpages x (by rw [hpf]; exact mem_cons_of_mem _ hx)) hnd
      refine ⟨out, s', page :: xs, ?_, ?_, ?_, by simpa using h4⟩
      · rw [htake, Option.bind_some]
        exact h1
      · rw [hpf, cons_append]
        exact congrArg _ h2
      · rw [h3, length_cons, Nat.mul_succ]
        simp only [addListPage]
        omega
  · rw [if_neg hneeds]
    exact allocRest_spec hH (by simpa using hneeds) hne hpages hnd

/-! ### The release -/

theorem Rep.pop (h : Rep log mem f)
    (hparts : partsOf log.pages log.listPages = partsOf log'.pages log'.listPages ++ [p])
    (hs : Shape log'.pages log'.listPages) (hpages : log'.pages ≤ log.pages) (hlists : log'.listPages ≤ log.listPages)
    (hinline : ∀ i < INLINE_PAGES, i < log'.pages → log'.inline i = log.inline i)
    (hlist : log'.list = if log'.listPages = 0 then none else some (f (.list (log'.listPages - 1)))) :
    Rep log' mem f := by
  refine ⟨hs, ?_, fun q hq => h.page q (by rw [hparts]; simp [hq]), fun i h1 h2 => ?_, hlist,
    fun k hk => h.link k (by omega), fun i h1 h2 => h.entry i h1 (by omega)⟩
  · refine h.nodup.sublist (List.Sublist.map f ?_)
    rw [hparts]
    exact sublist_append_left _ _
  · rw [hinline i h1 h2]
    exact h.inline i h1 (by omega)

theorem partsOf_pred (hpos : 0 < pages) (hlists : listPages = listsFor pages) :
    partsOf pages listPages = partsOf (pages - 1) listPages ++ [.pool (pages - 1)] ∧ Shape (pages - 1) listPages := by
  obtain ⟨n, rfl⟩ := Nat.exists_eq_succ_of_ne_zero hpos.ne'
  have hcount : listPages = if n < INLINE_PAGES then 0 else (n - INLINE_PAGES) / LIST_ENTRIES + 1 := by
    rw [hlists]
    unfold listsFor INLINE_PAGES LIST_ENTRIES
    split_ifs <;> omega
  refine ⟨(partsOf_succ hcount).1, ?_⟩
  unfold Shape
  rw [hcount]
  unfold listsFor INLINE_PAGES LIST_ENTRIES
  split_ifs <;> omega

/-- **`pop`** takes the last page of the stack: it reads no word that was not written. -/
theorem pop_spec (h : Rep log mem f) :
    (partsOf log.pages log.listPages = [] ∧ pop log mem = some (none, log)) ∨
      ∃ log' p, partsOf log.pages log.listPages = partsOf log'.pages log'.listPages ++ [p] ∧
        pop log mem = some (some (f p), log') ∧ Rep log' mem f := by
  have hsh := h.shape
  have hword : ∀ {y}, Page y → ofWord y = some y := fun hy => if_neg hy.ne_zero
  unfold Slab.pop
  by_cases h0 : log.listPages = 0
  · -- the addresses in the log itself
    have hlist : log.list = none := by rw [h.list, if_pos h0]
    rw [hlist]
    by_cases hp0 : log.pages = 0
    · left
      refine ⟨?_, by rw [if_pos hp0]⟩
      rw [hp0, h0]
      decide
    · right
      rw [if_neg hp0]
      have hlt : log.pages - 1 < INLINE_PAGES := by
        unfold Shape listsFor at hsh
        unfold INLINE_PAGES LIST_ENTRIES at *
        omega
      have hlists : log.listPages = listsFor log.pages := by
        unfold Shape listsFor at *
        unfold INLINE_PAGES LIST_ENTRIES at *
        omega
      obtain ⟨hparts, hshape⟩ := partsOf_pred (by omega) hlists
      rw [if_pos hlt, h.inline _ hlt (by omega)]
      refine ⟨_, .pool (log.pages - 1), hparts, rfl, ?_⟩
      refine h.pop hparts hshape (Nat.sub_le _ _) le_rfl (fun i _ hi => ?_) ?_
      · simp only at hi
        exact update_of_ne (by omega) ..
      · simp [h0]
  · -- the newest list page
    right
    have hlist : log.list = some (f (.list (log.listPages - 1))) := by rw [h.list, if_neg h0]
    have hlast : log.listPages - 1 < log.listPages := by omega
    rw [hlist]
    simp only
    obtain hfull | ⟨h8, hmod, hk⟩ := hsh
    · -- with an address in it
      have hpos : INLINE_PAGES < log.pages := by
        unfold listsFor at hfull
        unfold INLINE_PAGES LIST_ENTRIES at *
        omega
      have hin : inList log = some ((log.pages - 1 - INLINE_PAGES) % LIST_ENTRIES + 1) := by
        unfold inList
        unfold listsFor at hfull
        unfold INLINE_PAGES LIST_ENTRIES at *
        rw [if_pos (by omega)]
        congr 1
        omega
      have hdiv : (log.pages - 1 - INLINE_PAGES) / LIST_ENTRIES = log.listPages - 1 := by
        unfold listsFor at hfull
        unfold INLINE_PAGES LIST_ENTRIES at *
        omega
      have hle : (log.pages - 1 - INLINE_PAGES) % LIST_ENTRIES + 1 ≤ LIST_ENTRIES := Nat.mod_lt _ (by decide)
      have hentry := h.entry (log.pages - 1) (by omega) (by omega)
      rw [hdiv] at hentry
      obtain ⟨hparts, hshape⟩ := partsOf_pred (by omega) hfull
      rw [hin, Option.bind_some, if_pos hle, Nat.add_sub_cancel, hentry, Option.map_some,
        hword (h.isPage.1 _ (by omega))]
      refine ⟨_, .pool (log.pages - 1), hparts, rfl, ?_⟩
      refine h.pop hparts hshape (Nat.sub_le _ _) le_rfl (fun _ _ _ => rfl) ?_
      rw [if_neg h0]
    · -- without: it goes itself
      have hin : inList log = some 0 := by
        unfold inList
        unfold INLINE_PAGES LIST_ENTRIES at *
        rw [if_pos (by omega)]
        congr 1
        omega
      have hcount : listsFor log.pages = log.listPages - 1 := by
        unfold listsFor
        unfold INLINE_PAGES LIST_ENTRIES at *
        omega
      have hdiv : (log.pages - INLINE_PAGES) / LIST_ENTRIES = log.listPages - 1 := by
        rw [hk, Nat.add_sub_cancel]
      have hparts : partsOf log.pages log.listPages =
          partsOf log.pages (log.listPages - 1) ++ [.list (log.listPages - 1)] := by
        unfold partsOf
        rw [hcount, hdiv, if_pos hlast, if_neg (lt_irrefl _), append_nil]
      rw [hin, Option.bind_some, h.link _ hlast, Option.map_some]
      refine ⟨_, .list (log.listPages - 1), hparts, rfl, ?_⟩
      refine h.pop hparts (.inl hcount.symm) le_rfl (Nat.sub_le _ _) (fun _ _ _ => rfl) ?_
      by_cases h1 : log.listPages - 1 = 0
      · rw [if_pos h1, if_pos h1]
        rfl
      · rw [if_neg h1, if_neg h1, hword (h.isPage.2 _ (by omega))]

/-- **`release_step`** pops the stack, and says whether that was all. -/
theorem releaseStep_spec (n : Nat) (h : Rep log mem f) :
    ∃ log' mem', releaseStep n log mem = some (log', mem',
        ((partsOf log.pages log.listPages).map f).reverse.take n,
        decide ((partsOf log.pages log.listPages).length ≤ n)) ∧ Rep log' mem' f ∧
      partsOf log'.pages log'.listPages =
        (partsOf log.pages log.listPages).take ((partsOf log.pages log.listPages).length - n) := by
  induction n generalizing log mem with
  | zero =>
    refine ⟨log, mem, ?_, h, by simp⟩
    have hlen := length_partsOf h.shape
    rw [releaseStep, hlen]
    congr 3
    rw [h.list]
    by_cases h0 : log.listPages = 0
    · simp [h0]
    · simp [h0]
  | succ n ih =>
    obtain ⟨hempty, hpop⟩ | ⟨log', p, hparts, hpop, hrep⟩ := pop_spec h
    · exact ⟨log, mem, by rw [releaseStep, hpop, hempty]; rfl, h, by simp [hempty]⟩
    · have hnd := h.nodup
      rw [hparts, map_append, nodup_append] at hnd
      have hnew : f p ∉ (partsOf log'.pages log'.listPages).map f := fun hmem =>
        hnd.2.2 (f p) hmem (f p) (by simp) rfl
      obtain ⟨log'', mem'', h1, h2, h3⟩ := ih (hrep.forget hnew)
      refine ⟨log'', mem'', ?_, h2, ?_⟩
      · rw [releaseStep, hpop]
        simp only [h1, Option.map_some, hparts, map_append, map_singleton, reverse_append,
          reverse_singleton, singleton_append, take_succ_cons, length_append,
          length_singleton, Nat.add_le_add_iff_right]
      · rw [h3, hparts, length_append, length_singleton, Nat.add_sub_add_right,
          take_append_of_le_length (Nat.sub_le _ _)]

end

/-! ## Runs -/

/-- The list pages, from the newest on, along their links. -/
def chain (mem : Mem) : Nat → Option Nat → List Nat
  | n + 1, some list => list :: chain mem n (ofWord ((mem (linkAt list)).getD 0))
  | _, _ => []

/-- A log with its memory, what its pages were charged, the pages it took and those it gave back, in their order. -/
structure State where
  log : PageLog
  mem : Mem
  charged : Nat
  taken : List Nat
  freed : List Nat

/-- An empty log, in any memory. -/
def Start (s : State) : Prop := s.log = PageLog.new ∧ s.charged = 0 ∧ s.taken = [] ∧ s.freed = []

/-- A call, or a change to words that are not of the list pages. An allocation finds any quota, and frames that are
pages, none that the log took, and enough of them for a charge that passes; none comes after the release began. -/
inductive Step : State → State → Prop
  | allocPage {s : State} {quota : Account} {frames : List Nat} {out : Option Nat} {r : Paid} (before : s.freed = [])
      (pages : ∀ x ∈ frames, Page x) (fresh : (s.taken ++ frames).Nodup) (enough : 2 ≤ frames.length)
      (done : allocPage ⟨s.log, s.mem, quota, frames⟩ = some (out, r)) :
      Step s ⟨r.log, r.mem, s.charged + (r.quota.used - quota.used),
        s.taken ++ frames.take (frames.length - r.frames.length), s.freed⟩
  | releaseStep {s : State} {n : Nat} {r : PageLog × Mem × List Nat × Bool}
      (done : releaseStep n s.log s.mem = some r) : Step s ⟨r.1, r.2.1, s.charged, s.taken, s.freed ++ r.2.2.1⟩
  | others {s : State} {mem : Mem}
      (same : ∀ a, a / PAGE_SIZE * PAGE_SIZE ∈ chain s.mem s.log.listPages s.log.list → mem a = s.mem a) :
      Step s { s with mem := mem }

/-- The pages `f` of the parts of a log of so many pages that were taken: those on the log and those gone make up
all. -/
structure Kept (s : State) (f : Part → Nat) (pages listPages : Nat) : Prop where
  rep : Rep s.log s.mem f
  shape : Shape pages listPages
  taken : s.taken = (partsOf pages listPages).map f
  held : partsOf s.log.pages s.log.listPages <+: partsOf pages listPages
  nodup : s.taken.Nodup
  page : ∀ x ∈ s.taken, Page x
  freed : s.taken.reverse = s.freed ++ ((partsOf s.log.pages s.log.listPages).map f).reverse
  charged : s.charged = PAGE_SIZE * s.taken.length

section
variable {s s' : State} {f : Part → Nat} {pages listPages : Nat}

theorem Kept.start (h : Start s) : Kept s (fun _ => 0) 0 0 := by
  obtain ⟨log, mem, charged, taken, freed⟩ := s
  obtain ⟨rfl, rfl, rfl, rfl⟩ := h
  have hparts : partsOf 0 0 = [] := by decide
  have hzero : 0 = listsFor 0 := by decide
  refine ⟨⟨.inl hzero, by simp [PageLog.new, hparts], by simp [PageLog.new, hparts], by simp [PageLog.new],
    by simp [PageLog.new], by simp [PageLog.new], by simp [PageLog.new]⟩, .inl hzero, by simp [hparts], by rfl, by simp,
    by simp, by simp [PageLog.new, hparts], by simp⟩

/-- The links lead along the list pages. -/
theorem mem_chain {log : PageLog} {mem : Mem} (h : Rep log mem f) {k : Nat} (hk : k < log.listPages) :
    f (.list k) ∈ chain mem log.listPages log.list := by
  have hchain : ∀ n, n < log.listPages → k ≤ n → f (.list k) ∈ chain mem (n + 1) (some (f (.list n))) := by
    intro n
    induction n with
    | zero =>
      intro _ hk0
      obtain rfl : k = 0 := by omega
      simp [chain]
    | succ n ih =>
      intro hn hkn
      rw [chain]
      obtain heq | hlt := Nat.eq_or_lt_of_le hkn
      · rw [heq]
        exact mem_cons_self
      · have hw : ofWord (f (.list n)) = some (f (.list n)) := if_neg (h.isPage.2 n (by omega)).ne_zero
        rw [h.link _ hn, if_neg (Nat.succ_ne_zero _), Nat.add_sub_cancel, Option.getD_some, hw]
        exact mem_cons_of_mem _ (ih (by omega) (by omega))
  have := hchain (log.listPages - 1) (by omega) (by omega)
  rw [Nat.sub_add_cancel (by omega)] at this
  rw [h.list, if_neg (by omega)]
  exact this

theorem Kept.others (h : Kept s f pages listPages) {mem : Mem}
    (same : ∀ a, a / PAGE_SIZE * PAGE_SIZE ∈ chain s.mem s.log.listPages s.log.list → mem a = s.mem a) :
    Kept { s with mem := mem } f pages listPages := by
  refine ⟨h.rep.congr fun k hk i hi => same _ ?_, h.shape, h.taken, h.held, h.nodup, h.page, h.freed, h.charged⟩
  rw [pageOf_entryAt (h.rep.isPage.2 k hk) hi]
  exact mem_chain h.rep hk

/-- **`alloc_page` returns**, with what it took charged and written down. -/
theorem Kept.allocPage (h : Kept s f pages listPages) (hbefore : s.freed = []) (quota : Account) {frames : List Nat}
    (hpages : ∀ x ∈ frames, Page x) (hnd : (s.taken ++ frames).Nodup) (henough : 2 ≤ frames.length) :
    ∃ out r, Slab.allocPage ⟨s.log, s.mem, quota, frames⟩ = some (out, r) ∧
      ∃ f' pages' listPages', Kept ⟨r.log, r.mem, s.charged + (r.quota.used - quota.used),
        s.taken ++ frames.take (frames.length - r.frames.length), s.freed⟩ f' pages' listPages' := by
  have hheld : (partsOf s.log.pages s.log.listPages).map f = s.taken := by
    have hfreed := h.freed
    rw [hbefore] at hfreed
    exact (reverse_inj.1 hfreed).symm
  obtain ⟨out, r, xs, h1, h2, h3, f', hrep, hmap⟩ := allocPage_spec (s := ⟨s.log, s.mem, quota, frames⟩)
    ⟨f, h.rep, hheld⟩ henough hpages hnd
  simp only at h2
  have hxs : frames.take (frames.length - r.frames.length) = xs := by
    rw [h2, length_append, Nat.add_sub_cancel, take_left]
  refine ⟨out, r, h1, f', r.log.pages, r.log.listPages, hrep, hrep.shape, ?_, prefix_rfl, ?_, ?_, ?_, ?_⟩
  · rw [hxs, hmap]
  · rw [hxs]
    refine hnd.sublist ((List.Sublist.refl _).append ?_)
    rw [h2]
    exact sublist_append_left _ _
  · rw [hxs]
    intro x hx
    rw [mem_append] at hx
    obtain hx | hx := hx
    · exact h.page x hx
    · exact hpages x (by rw [h2]; simp [hx])
  · rw [hxs, hbefore, hmap]
    rfl
  · rw [hxs, h3, h.charged, length_append]
    ring_nf
    omega

/-- **The release returns**: it pops the stack. -/
theorem Kept.releaseStep (h : Kept s f pages listPages) (n : Nat) :
    ∃ log' mem', Slab.releaseStep n s.log s.mem = some (log', mem', (s.taken.reverse.drop s.freed.length).take n,
        decide (s.taken.length ≤ s.freed.length + n)) ∧
      Kept ⟨log', mem', s.charged, s.taken, s.freed ++ (s.taken.reverse.drop s.freed.length).take n⟩ f pages
        listPages := by
  have hdrop : s.taken.reverse.drop s.freed.length = ((partsOf s.log.pages s.log.listPages).map f).reverse := by
    rw [h.freed, drop_left]
  have hlen : s.taken.length = s.freed.length + (partsOf s.log.pages s.log.listPages).length := by
    simpa using congrArg length h.freed
  obtain ⟨log', mem', h1, h2, h3⟩ := releaseStep_spec n h.rep
  refine ⟨log', mem', ?_, h2, h.shape, h.taken, ?_, h.nodup, h.page, ?_, h.charged⟩
  · rw [h1, hdrop, hlen]
    simp
  · rw [h3]
    exact ( take_prefix _ _).trans h.held
  · rw [hdrop, append_assoc, popped (by rw [h3, map_take, length_map])]
    exact h.freed

theorem Kept.step (h : Kept s f pages listPages) (hs : Step s s') : ∃ f' pages' listPages', Kept s' f' pages' listPages' := by
  cases hs with
  | @allocPage quota frames out r before pages fresh enough done =>
    obtain ⟨out', r', h1, hk⟩ := h.allocPage before quota pages fresh enough
    rw [done] at h1
    cases h1
    exact hk
  | @releaseStep n r done =>
    obtain ⟨log', mem', h1, hk⟩ := h.releaseStep n
    rw [done] at h1
    cases h1
    exact ⟨f, pages, listPages, hk⟩
  | others same => exact ⟨f, pages, listPages, h.others same⟩

theorem Kept.of_run (hs : Run.Reachable Start Step s) : ∃ f pages listPages, Kept s f pages listPages :=
  hs.invariant (P := fun s => ∃ f pages listPages, Kept s f pages listPages) (fun _ h => ⟨_, _, _, Kept.start h⟩)
    fun _ _ ⟨_, _, _, h⟩ hstep => h.step hstep

/-- Distinct pages of an address space of 64 bits: the counts stay far from an overflow. -/
theorem Kept.small (h : Kept s f pages listPages) : s.taken.length ≤ 2 ^ 52 := by
  have hinj : (s.taken.map (· / PAGE_SIZE)).Nodup := by
    refine h.nodup.map_on fun x hx y hy heq => ?_
    have hx' := (h.page x hx).aligned
    have hy' := (h.page y hy).aligned
    unfold PAGE_SIZE at *
    omega
  have hsub : (s.taken.map (· / PAGE_SIZE)) ⊆ range (2 ^ 52) := by
    intro y hy
    obtain ⟨x, hx, rfl⟩ := mem_map.1 hy
    have hlt := (h.page x hx).lt
    rw [mem_range]
    unfold PAGE_SIZE
    omega
  have := hinj.length_le_of_subset hsub
  rwa [length_map, length_range] at this

end

/-- **The pool pages of a payer in every run**: what the quota was charged is the price of the pages written down and
the list pages; every page taken is given back once, in the opposite order, a list page after the pages whose
addresses are in it; and neither an allocation nor a release step reads a word that was not written, underflows or
fails otherwise. -/
theorem paid_pages_of_run (s : State) (hs : Run.Reachable Start Step s) :
    s.charged = PAGE_SIZE * (s.log.pages + s.log.listPages + s.freed.length) ∧
      s.taken.length = s.log.pages + s.log.listPages + s.freed.length ∧ s.taken.length ≤ 2 ^ 52 ∧
      (∀ quota frames, s.freed = [] → (∀ x ∈ frames, Page x) → (s.taken ++ frames).Nodup → 2 ≤ frames.length →
        ∃ out r, allocPage ⟨s.log, s.mem, quota, frames⟩ = some (out, r)) ∧
      s.taken.Nodup ∧ s.freed = s.taken.reverse.take s.freed.length ∧
      (∀ n, ∃ log' mem', releaseStep n s.log s.mem = some (log', mem', (s.taken.reverse.drop s.freed.length).take n,
        decide (s.taken.length ≤ s.freed.length + n))) ∧
      ∃ (f : Part → Nat) (pages listPages : Nat), s.taken = (partsOf pages listPages).map f ∧
        partsOf s.log.pages s.log.listPages <+: partsOf pages listPages ∧
        (partsOf pages listPages).reverse.Pairwise (fun a b => ¬ Below b a) ∧
        (s.log.list = if s.log.listPages = 0 then none else some (f (.list (s.log.listPages - 1)))) ∧
        (∀ k < s.log.listPages, s.mem (linkAt (f (.list k))) = some (if k = 0 then 0 else f (.list (k - 1)))) ∧
        ∀ i < s.log.pages, if i < INLINE_PAGES then s.log.inline i = some (f (.pool i)) else
          s.mem (entryAt (f (.list ((i - INLINE_PAGES) / LIST_ENTRIES))) ((i - INLINE_PAGES) % LIST_ENTRIES)) =
            some (f (.pool i)) := by
  obtain ⟨f, pages, listPages, h⟩ := Kept.of_run hs
  have hlen : s.taken.length = s.log.pages + s.log.listPages + s.freed.length := by
    have := congrArg length h.freed
    rw [length_append, length_reverse, length_reverse, length_map,
      length_partsOf h.rep.shape] at this
    omega
  refine ⟨by rw [h.charged, hlen], hlen, h.small, fun quota frames hbefore hpages hnd henough => ?_, h.nodup, ?_,
    fun n => ?_, f, pages, listPages, h.taken, h.held, ?_, h.rep.list, h.rep.link, fun i hi => ?_⟩
  · obtain ⟨out, r, hr, -⟩ := h.allocPage hbefore quota hpages hnd henough
    exact ⟨out, r, hr⟩
  · rw [h.freed, take_left]
  · obtain ⟨log', mem', hr, -⟩ := h.releaseStep n
    exact ⟨log', mem', hr⟩
  · rw [pairwise_reverse]
    exact partsOf_order h.shape
  · split
    · exact h.rep.inline i ‹_› hi
    · exact h.rep.entry i (Nat.not_lt.1 ‹_›) hi

/-- A log after so many allocations, each with two frames of its own. -/
def allocs : Nat → State
  | 0 => ⟨.new, fun _ => none, 0, [], []⟩
  | k + 1 =>
    let s := allocs k
    let frames := [2 * k + 1, 2 * k + 2].map (PAGE_SIZE * ·)
    (allocPage ⟨s.log, s.mem, .new (2 * PAGE_SIZE), frames⟩).elim s fun (_, r) =>
      ⟨r.log, r.mem, s.charged + r.quota.used, s.taken ++ frames.take (frames.length - r.frames.length), s.freed⟩

theorem reachable_allocs : ∀ k ≤ 9, Run.Reachable Start Step (allocs k) := by
  have hall : ∀ k < 9, (allocs k).freed = [] ∧ ((allocs k).taken ++ [2 * k + 1, 2 * k + 2].map (PAGE_SIZE * ·)).Nodup ∧
      (allocPage ⟨(allocs k).log, (allocs k).mem, .new (2 * PAGE_SIZE),
        [2 * k + 1, 2 * k + 2].map (PAGE_SIZE * ·)⟩).isSome := by
    decide +kernel
  intro k
  induction k with
  | zero => exact fun _ => .start ⟨rfl, rfl, rfl, rfl⟩
  | succ k ih =>
    intro hk
    obtain ⟨hbefore, hfresh, hsome⟩ := hall k (by omega)
    obtain ⟨⟨out, r⟩, hdone⟩ := Option.isSome_iff_exists.1 hsome
    have hstep := (ih (by omega)).tail (.allocPage hbefore ?_ hfresh (by simp) hdone)
    · rw [allocs, hdone]
      exact hstep
    · refine forall_mem_map.2 fun n hn => ?_
      simp only [mem_cons, not_mem_nil, or_false] at hn
      unfold PAGE_SIZE
      exact ⟨by omega, Nat.mul_mod_right .., by omega⟩

/-- Nine pages and the list page that the ninth needed; a step gives the ninth and the list page back, one more the
others. -/
theorem paid_pages_of_run_list : (allocs 9).log.pages = 9 ∧ (allocs 9).log.listPages = 1 ∧
    (allocs 9).charged = PAGE_SIZE * 10 ∧
    ∃ s, Relation.ReflTransGen Step (allocs 9) s ∧ s.freed = (allocs 9).taken.reverse ∧ s.freed.length = 10 := by
  have hpages : (allocs 9).log.pages = 9 := by decide +kernel
  have hlist : (allocs 9).log.listPages = 1 := by decide +kernel
  have hfreed : (allocs 9).freed = [] := by decide +kernel
  have hreach := reachable_allocs 9 le_rfl
  obtain ⟨hcharged, hlen, -, -, -, -, hrelease, -⟩ := paid_pages_of_run _ hreach
  rw [hpages, hlist, hfreed] at hcharged hlen
  obtain ⟨log, mem, hsome⟩ := hrelease 2
  have hstep := Step.releaseStep hsome
  obtain ⟨-, -, -, -, -, -, hrelease, -⟩ := paid_pages_of_run _ (hreach.tail hstep)
  obtain ⟨log', mem', hrest⟩ := hrelease 8
  refine ⟨hpages, hlist, hcharged, _, .tail (.single hstep) (.releaseStep hrest), ?_, ?_⟩
  · have hlast : ((allocs 9).taken.reverse.drop 2).take 8 = (allocs 9).taken.reverse.drop 2 :=
      take_of_length_le (by simp [hlen])
    simp [hfreed, hlen, hlast]
  · simp [hfreed, hlen]

end Slab
