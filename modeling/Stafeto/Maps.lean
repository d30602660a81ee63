import Mathlib.Tactic
import Stafeto.Abi
import Stafeto.Lib.Run
import Stafeto.Lib.Slots

/-!
# The mappings of a process (kcore/src/maps.rs)

A table of 128 places. An entry shows `pages` pages of a memory object, from its page `offset` on, at the
addresses from `start` on. Read as a whole the table is a partial function from the pages of the address space
to the pages of objects and the rights on them (`Maps.view`).

The entries of a sound table lie apart from each other and are whole pages of the lower half (`Maps.Sound`).
`insert_checked` then adds exactly its mapping, `split` cuts an entry in up to three and leaves the partial
function as it was, and `shrink_to`, `drop_prefix` and `remove` restrict it to the other pages; all of them keep
the table sound.

The callers check a range before they pass it (args.rs:330): nothing here does. `split` cuts an entry at an
address inside a page as well, and then loses a page; and a range that ends at the top of the 64 bits is free in
every table (`split_inside_page_and_insert_at_the_top`).
-/

namespace Maps

open Abi Function List Option

/-- `MAX_MAPPINGS` (abi lib.rs:175). -/
def MAX_MAPPINGS : Nat := 128

instance : NeZero MAX_MAPPINGS := ⟨by decide⟩

def PAGE_SIZE : Nat := 2 ^ 12

/-- The end of the lower half (layout.rs:14). -/
def USER_END : Nat := 2 ^ 48

/-- `Mapping` (maps.rs:23): `start` has 64 bits, the other numbers 32. -/
structure Mapping (O : Type) where
  start : Nat
  object : O
  pages : Nat
  offset : Nat
  rights : Nat
  busy : Bool
deriving DecidableEq, Repr

variable {O : Type} {start pages : Nat}

/-- `Mapping::new` (maps.rs:39). -/
def Mapping.new (start pages offset : Nat) (object : O) (rights : Nat) : Mapping O :=
  ⟨start, object, pages, offset, rights, false⟩

/-- The first address past `pages` pages from `start`, in words of 64 bits. -/
def rangeEnd (start pages : Nat) : Nat := (start + pages * PAGE_SIZE % 2 ^ 64) % 2 ^ 64

/-- `end` (maps.rs:51). -/
def Mapping.end_ (m : Mapping O) : Nat := rangeEnd m.start m.pages

/-- `overlaps` (maps.rs:61). -/
def Mapping.overlaps (m : Mapping O) (start pages : Nat) : Bool :=
  decide (start < m.end_) && decide (m.start < rangeEnd start pages)

/-- `Maps` (maps.rs:69). -/
abbrev Table (O : Type) := Fin MAX_MAPPINGS → Option (Mapping O)

def Table.new : Table O := fun _ => none

/-- `len` (maps.rs:81). -/
def len (t : Table O) : Nat := (Slots.filled t).card

/-- `is_empty` (maps.rs:85). -/
def isEmpty (t : Table O) : Bool := (finRange MAX_MAPPINGS).all fun i => (t i).isNone

/-- `check_free` (maps.rs:96). -/
def checkFree (t : Table O) (start pages : Nat) : Except Error Unit :=
  if (finRange MAX_MAPPINGS).any fun i => (t i).any (·.overlaps start pages) then .error .invalidArgs
  else .ok ()

/-- `insert_free` (maps.rs:124): the table and the index. -/
def insertFree (t : Table O) (mapping : Mapping O) : Table O × Except Error (Fin MAX_MAPPINGS) :=
  match (finRange MAX_MAPPINGS).find? fun i => (t i).isNone with
  | none => (t, .error .limitReached)
  | some index => (update t index (some mapping), .ok index)

/-- `insert` (maps.rs:112): `none` stands for the assertion that fails. -/
def insert (t : Table O) (mapping : Mapping O) : Option (Table O × Except Error (Fin MAX_MAPPINGS)) :=
  match checkFree t mapping.start mapping.pages with
  | .ok _ => some (insertFree t mapping)
  | .error _ => none

/-- A turn of the loop of `insert_checked` (maps.rs:140): the first free place so far. -/
def scanEntry (t : Table O) (mapping : Mapping O) (free : Option (Fin MAX_MAPPINGS)) (i : Fin MAX_MAPPINGS) :
    Except Error (Option (Fin MAX_MAPPINGS)) :=
  match t i with
  | some m => if m.overlaps mapping.start mapping.pages then .error .invalidArgs else .ok free
  | none => .ok (free.or (some i))

/-- `insert_checked` (maps.rs:138). -/
def insertChecked (t : Table O) (mapping : Mapping O) : Table O × Except Error (Fin MAX_MAPPINGS) :=
  match (finRange MAX_MAPPINGS).foldlM (scanEntry t mapping) none with
  | .error e => (t, .error e)
  | .ok none => (t, .error .limitReached)
  | .ok (some index) => (update t index (some mapping), .ok index)

/-- `find_inside` (maps.rs:169). -/
def findInside (t : Table O) (start pages : Nat) : Except Error (Fin MAX_MAPPINGS) :=
  if pages * PAGE_SIZE < 2 ^ 64 ∧ start + pages * PAGE_SIZE < 2 ^ 64 then
    match (finRange MAX_MAPPINGS).find? fun i =>
        (t i).any fun m => m.start ≤ start ∧ start + pages * PAGE_SIZE ≤ m.end_ with
    | some i => .ok i
    | none => .error .invalidArgs
  else .error .invalidArgs

/-- `set_busy` (maps.rs:199); `none` when there is no mapping at the index, here and below. -/
def setBusy (t : Table O) (index : Fin MAX_MAPPINGS) (busy : Bool) : Option (Table O) :=
  (t index).map fun m => update t index (some { m with busy := busy })

/-- The free places, in order. -/
def freePlaces (t : Table O) : List (Fin MAX_MAPPINGS) := (finRange MAX_MAPPINGS).filter fun i => (t i).isNone

/-- The pieces of a mapping cut at both ends of a range (maps.rs:227): the edges that are not empty. -/
def edgesOf (m : Mapping O) (start pages before after : Nat) : List (Mapping O) :=
  (if before ≠ 0 then [{ m with pages := before }] else []) ++
    if after ≠ 0 then
      [{ m with
          start := rangeEnd start pages
          pages := after
          offset := ((m.offset + before) % 2 ^ 32 + pages % 2 ^ 32) % 2 ^ 32 }]
    else []

/-- The entry of the range itself. -/
def middleOf (m : Mapping O) (start pages before : Nat) : Mapping O :=
  { m with start := start, pages := pages % 2 ^ 32, offset := (m.offset + before) % 2 ^ 32, busy := true }

/-- `split` (maps.rs:219). -/
def split (t : Table O) (index : Fin MAX_MAPPINGS) (start pages : Nat) : Option (Table O × Except Error Nat) :=
  (t index).map fun m =>
    let fits := start + pages * PAGE_SIZE % 2 ^ 64 < 2 ^ 64 ∧ pages ≠ 0 ∧ pages ≤ m.pages
    if ¬ fits ∨ start < m.start ∨ m.end_ < rangeEnd start pages then (t, .error .invalidArgs)
    else if m.busy then (t, .error .badState)
    else
      let before := (start - m.start) / PAGE_SIZE % 2 ^ 32
      let after := (m.end_ - rangeEnd start pages) / PAGE_SIZE % 2 ^ 32
      let edges := (decide (before ≠ 0)).toNat + (decide (after ≠ 0)).toNat
      let places := (freePlaces t).take 2
      if places.length < edges then (t, .error .limitReached)
      else
        let t := Slots.putAll t (places.zip (edgesOf m start pages before after))
        (update t index (some (middleOf m start pages before)), .ok edges)

/-- `remove` (maps.rs:308). -/
def remove (t : Table O) (index : Fin MAX_MAPPINGS) : Option (Table O × Mapping O) :=
  (t index).map fun m => (update t index none, m)

/-- `shrink_to` (maps.rs:275); `none` also for the assertion. -/
def shrinkTo (t : Table O) (index : Fin MAX_MAPPINGS) (pages : Nat) : Option (Table O × Option O) :=
  (t index).bind fun m =>
    if m.pages < pages then none
    else if pages = 0 then (remove t index).map fun r => (r.1, some r.2.object)
    else some (update t index (some { m with pages := pages, busy := false }), none)

/-- `drop_prefix` (maps.rs:292). -/
def dropPrefix (t : Table O) (index : Fin MAX_MAPPINGS) (pages : Nat) : Option (Table O × Option O) :=
  (t index).bind fun m =>
    if m.pages < pages then none
    else if pages = m.pages then (remove t index).map fun r => (r.1, some r.2.object)
    else
      some (update t index (some { m with
        start := rangeEnd m.start pages
        offset := (m.offset + pages) % 2 ^ 32
        pages := m.pages - pages
        busy := false }), none)

/-- `drain` (maps.rs:315): the table, what was handed out, and whether the table is empty. -/
def drain (t : Table O) (n : Nat) : Table O × List (Mapping O) × Bool :=
  let taken := ((finRange MAX_MAPPINGS).filter fun i => (t i).isSome).take n
  let t' : Table O := fun i => if i ∈ taken then none else t i
  (t', taken.filterMap t, isEmpty t')

open Mapping

/-! ## The partial function -/

/-- What an entry shows at a page: the object, its page, which has 32 bits, and the rights. -/
def Mapping.shown (m : Mapping O) (page : Nat) : Option (O × Nat × Nat) :=
  if m.start / PAGE_SIZE ≤ page ∧ page < m.start / PAGE_SIZE + m.pages then
    some (m.object, (m.offset + (page - m.start / PAGE_SIZE)) % 2 ^ 32, m.rights)
  else none

/-- The table as a partial function from pages. -/
def view (t : Table O) (page : Nat) : Option (O × Nat × Nat) :=
  Slots.look t (·.shown page) (finRange MAX_MAPPINGS)

/-- Whole pages of the lower half. -/
structure Mapping.Fits (m : Mapping O) : Prop where
  aligned : m.start % PAGE_SIZE = 0
  inside : m.start + m.pages * PAGE_SIZE ≤ USER_END
  pages_lt : m.pages < 2 ^ 32
  offset_lt : m.offset < 2 ^ 32

/-- One ends where or before the other starts. -/
def Mapping.Apart (m m' : Mapping O) : Prop :=
  m.start + m.pages * PAGE_SIZE ≤ m'.start ∨ m'.start + m'.pages * PAGE_SIZE ≤ m.start

/-- Entries that are whole pages of the lower half, no two of them with an address in common. -/
structure Sound (t : Table O) : Prop where
  fits : ∀ i m, t i = some m → m.Fits
  apart : Slots.Pairwise Mapping.Apart t

/-- The range lies apart from every entry. -/
def Free (t : Table O) (start pages : Nat) : Prop :=
  ∀ i m, t i = some m → start + pages * PAGE_SIZE ≤ m.start ∨ m.start + m.pages * PAGE_SIZE ≤ start

section Entries

variable {m m' : Mapping O} {t t' : Table O} {i : Fin MAX_MAPPINGS} {page : Nat} {v : O × Nat × Nat}
  {o : Option (Mapping O)}

theorem Mapping.Apart.symm (h : m.Apart m') : m'.Apart m := Or.symm h

theorem rangeEnd_eq (h : start + pages * PAGE_SIZE < 2 ^ 64) :
    rangeEnd start pages = start + pages * PAGE_SIZE := by
  unfold rangeEnd
  rw [Nat.mod_eq_of_lt (by omega : pages * PAGE_SIZE < 2 ^ 64), Nat.mod_eq_of_lt h]

theorem Mapping.Fits.end_eq (h : m.Fits) : m.end_ = m.start + m.pages * PAGE_SIZE :=
  rangeEnd_eq (lt_of_le_of_lt h.inside (by decide))

/-- `overlaps` of an entry and a range that does not reach past the top. -/
theorem Mapping.Fits.overlaps_iff (h : m.Fits) (hr : start + pages * PAGE_SIZE < 2 ^ 64) :
    m.overlaps start pages = false ↔
      start + pages * PAGE_SIZE ≤ m.start ∨ m.start + m.pages * PAGE_SIZE ≤ start := by
  unfold overlaps
  rw [h.end_eq, rangeEnd_eq hr, Bool.and_eq_false_iff, decide_eq_false_iff_not, decide_eq_false_iff_not]
  omega

theorem Mapping.shown_eq_some : m.shown page = some v ↔
    (m.start / PAGE_SIZE ≤ page ∧ page < m.start / PAGE_SIZE + m.pages) ∧
      v = (m.object, (m.offset + (page - m.start / PAGE_SIZE)) % 2 ^ 32, m.rights) := by
  unfold shown
  split_ifs with h
  · simp [h, eq_comm]
  · simp [h]

theorem Mapping.isSome_shown : (m.shown page).isSome ↔
    m.start / PAGE_SIZE ≤ page ∧ page < m.start / PAGE_SIZE + m.pages := by
  unfold shown
  split_ifs with h <;> simp [h]

/-- Entries apart from each other do not show the same page. -/
theorem Mapping.Apart.not_both (h : m.Apart m') (hm : m.Fits) (hm' : m'.Fits) (h1 : (m.shown page).isSome)
    (h2 : (m'.shown page).isSome) : False := by
  rw [isSome_shown] at h1 h2
  have ha := hm.aligned
  have ha' := hm'.aligned
  unfold Mapping.Apart at h
  unfold PAGE_SIZE at *
  omega

/-- The pages of the partial function are those that an entry shows. -/
theorem Sound.view_eq_some (h : Sound t) : view t page = some v ↔ ∃ i m, t i = some m ∧ m.shown page = some v := by
  refine Slots.look_eq_some (fun i => mem_finRange i) fun i j m m' hi hj h1 h2 => ?_
  by_contra hne
  exact (h.apart i j m m' hne hi hj).not_both (h.fits i m hi) (h.fits j m' hj) h1 h2

/-- Two sound tables with the same pages shown are the same partial function. -/
theorem Sound.view_congr (h : Sound t) (h' : Sound t') {page' : Nat}
    (hiff : ∀ v, (∃ i m, t i = some m ∧ m.shown page = some v) ↔ ∃ i m, t' i = some m ∧ m.shown page' = some v) :
    view t page = view t' page' := by
  ext v
  rw [h.view_eq_some, h'.view_eq_some]
  exact hiff v

theorem Sound.new : Sound (Table.new : Table O) := ⟨by simp [Table.new], by simp [Slots.Pairwise, Table.new]⟩

theorem Sound.clear (h : Sound t) (i : Fin MAX_MAPPINGS) : Sound (update t i none) := by
  refine ⟨fun j m hj => ?_, h.apart.clear i⟩
  have hji : j ≠ i := by
    rintro rfl
    simp at hj
  rw [update_of_ne hji] at hj
  exact h.fits j m hj

theorem Sound.put (h : Sound t) (hm : m.Fits) (hnew : ∀ j m', j ≠ i → t j = some m' → m.Apart m') :
    Sound (update t i (some m)) := by
  refine ⟨fun j m' hj => ?_, h.apart.put (fun _ _ => Mapping.Apart.symm) hnew⟩
  by_cases hji : j = i
  · subst hji
    rw [update_self] at hj
    cases hj
    exact hm
  · rw [update_of_ne hji] at hj
    exact h.fits j m' hj

/-- An entry gets smaller, or changes in what is not its place. -/
theorem Sound.narrow (h : Sound t) (hi : t i = some m) (hm : m'.Fits) (hlo : m.start ≤ m'.start)
    (hhi : m'.start + m'.pages * PAGE_SIZE ≤ m.start + m.pages * PAGE_SIZE) :
    Sound (update t i (some m')) := by
  refine h.put hm fun j m'' hj hm'' => ?_
  have hapart := h.apart i j m m'' (Ne.symm hj) hi hm''
  unfold Mapping.Apart at hapart ⊢
  omega

theorem shows_update :
    (∃ j m', update t i o j = some m' ∧ m'.shown page = some v) ↔
      (∃ m', o = some m' ∧ m'.shown page = some v) ∨
        ∃ j m', j ≠ i ∧ t j = some m' ∧ m'.shown page = some v := by
  constructor
  · rintro ⟨j, m', hj, hv⟩
    by_cases hji : j = i
    · subst hji
      rw [update_self] at hj
      exact .inl ⟨m', hj, hv⟩
    · rw [update_of_ne hji] at hj
      exact .inr ⟨j, m', hji, hj, hv⟩
  · rintro (⟨m', rfl, hv⟩ | ⟨j, m', hji, hj, hv⟩)
    · exact ⟨i, m', by rw [update_self], hv⟩
    · exact ⟨j, m', by rw [update_of_ne hji, hj], hv⟩

/-- **Restricting an entry restricts the function**: the entry at `i` is replaced by what it shows outside of the
pages from `first` to `last`, which are its own. -/
theorem Sound.view_restrict (h : Sound t) (h' : Sound (update t i o))
    (hi : t i = some m) {first last : Nat} (hown : ∀ page, first ≤ page → page < last → (m.shown page).isSome)
    (hrest : ∀ page v, (∃ m', o = some m' ∧ m'.shown page = some v) ↔
      m.shown page = some v ∧ ¬ (first ≤ page ∧ page < last))
    (page : Nat) :
    view (update t i o) page = if first ≤ page ∧ page < last then none else view t page := by
  ext v
  rw [h'.view_eq_some, shows_update, hrest]
  by_cases hp : first ≤ page ∧ page < last
  · rw [if_pos hp]
    simp only [hp, and_self, not_true_eq_false, and_false, false_or, reduceCtorEq, iff_false]
    rintro ⟨j, m', hji, hj, hv⟩
    exact (h.apart i j m m' (Ne.symm hji) hi hj).not_both (h.fits i m hi) (h.fits j m' hj) (hown page hp.1 hp.2)
      (by simp [hv])
  · rw [if_neg hp, h.view_eq_some]
    simp only [hp, not_false_eq_true, and_true]
    constructor
    · rintro (hv | ⟨j, m', -, hj, hv⟩)
      · exact ⟨i, m, hi, hv⟩
      · exact ⟨j, m', hj, hv⟩
    · rintro ⟨j, m', hj, hv⟩
      by_cases hji : j = i
      · subst hji
        rw [hi] at hj
        cases hj
        exact .inl hv
      · exact .inr ⟨j, m', hji, hj, hv⟩

end Entries

/-! ## `insert_checked` -/

section Insert

variable {m : Mapping O} {t : Table O}

/-- The loop of `insert_checked` over the places of a list. -/
theorem scan_spec (l : List (Fin MAX_MAPPINGS)) (free : Option (Fin MAX_MAPPINGS)) :
    l.foldlM (scanEntry t m) free =
      if l.any fun i => (t i).any (·.overlaps m.start m.pages) then .error .invalidArgs
      else .ok (free.or (l.find? fun i => (t i).isNone)) := by
  induction l generalizing free with
  | nil => simp [pure, Except.pure]
  | cons i l ih =>
    rw [foldlM_cons, any_cons, find?_cons]
    cases hi : t i with
    | none =>
      have hturn : scanEntry t m free i = .ok (free.or (some i)) := by rw [scanEntry, hi]
      rw [hturn]
      simp only [bind, Except.bind, ih]
      cases free <;> simp
    | some e =>
      by_cases ho : e.overlaps m.start m.pages
      · have hturn : scanEntry t m free i = .error .invalidArgs := by rw [scanEntry, hi]; simp [ho]
        rw [hturn]
        simp [bind, Except.bind, ho]
      · have hturn : scanEntry t m free i = .ok free := by rw [scanEntry, hi]; simp [ho]
        rw [hturn]
        simp only [bind, Except.bind, ih, any_some, ho, Bool.false_or, isNone_some]

/-- One pass gives what the two give. -/
theorem insertChecked_eq (t : Table O) (m : Mapping O) :
    insertChecked t m =
      match checkFree t m.start m.pages with
      | .error e => (t, .error e)
      | .ok _ => insertFree t m := by
  unfold insertChecked checkFree insertFree
  rw [scan_spec]
  split_ifs with hany
  · rfl
  · cases (finRange MAX_MAPPINGS).find? fun i => (t i).isNone <;> rfl

/-- `check_free` in a sound table, for a range that does not reach past the top. -/
theorem Sound.checkFree_iff (h : Sound t) (hr : start + pages * PAGE_SIZE < 2 ^ 64) :
    checkFree t start pages = .ok () ↔ Free t start pages := by
  unfold checkFree
  split_ifs with hany
  · simp only [false_iff]
    obtain ⟨i, -, hi⟩ := any_eq_true.1 hany
    obtain ⟨m, hm, ho⟩ := (any_eq_true _ _).1 hi
    intro hfree
    rw [((h.fits i m hm).overlaps_iff hr).2 (hfree i m hm)] at ho
    cases ho
  · simp only [true_iff]
    intro i m hm
    refine ((h.fits i m hm).overlaps_iff hr).1 ?_
    by_contra ho
    rw [Bool.not_eq_false] at ho
    exact hany (any_eq_true.2 ⟨i, mem_finRange i, (any_eq_true _ _).2 ⟨m, hm, ho⟩⟩)

theorem insertFree_cases (t : Table O) (m : Mapping O) :
    (insertFree t m = (t, .error .limitReached) ∧ ∀ i, t i ≠ none) ∨
      ∃ i, t i = none ∧ insertFree t m = (update t i (some m), .ok i) := by
  unfold insertFree
  cases hfind : (finRange MAX_MAPPINGS).find? fun i => (t i).isNone with
  | none =>
    refine .inl ⟨rfl, fun i hi => ?_⟩
    have := find?_eq_none.1 hfind i (mem_finRange i)
    simp [hi] at this
  | some i =>
    have := find?_some hfind
    exact .inr ⟨i, by simpa using this, rfl⟩

/-- A range of pages with none of them shown is free, and the other way round, as long as nothing is empty. -/
theorem Sound.free_iff_view (h : Sound t) (hm : m.Fits) (hpos : 0 < m.pages)
    (hentries : ∀ i e, t i = some e → 0 < e.pages) :
    Free t m.start m.pages ↔ ∀ page, (m.shown page).isSome → view t page = none := by
  have ha := hm.aligned
  constructor
  · intro hfree page hpage
    rw [eq_none_iff_forall_ne_some]
    intro v hv
    obtain ⟨i, e, he, hev⟩ := h.view_eq_some.1 hv
    have hgap := hfree i e he
    have heshown := isSome_shown.1 (isSome_of_eq_some hev)
    rw [isSome_shown] at hpage
    unfold PAGE_SIZE at *
    omega
  · intro hnone i e he
    by_contra hcon
    have hea := (h.fits i e he).aligned
    have hepos := hentries i e he
    -- the later of the two first pages is in both
    have hboth : (m.shown (max (m.start / PAGE_SIZE) (e.start / PAGE_SIZE))).isSome ∧
        (e.shown (max (m.start / PAGE_SIZE) (e.start / PAGE_SIZE))).isSome := by
      rw [isSome_shown, isSome_shown]
      unfold PAGE_SIZE at *
      omega
    obtain ⟨v, hv⟩ := isSome_iff_exists.1 hboth.2
    have := hnone _ hboth.1
    rw [h.view_eq_some.2 ⟨i, e, he, hv⟩] at this
    cases this

/-- The table with one more entry, in a free range. -/
theorem Sound.insert (h : Sound t) (hm : m.Fits) (hfree : Free t m.start m.pages) {i : Fin MAX_MAPPINGS}
    (hi : t i = none) :
    Sound (update t i (some m)) ∧
      ∀ page, view (update t i (some m)) page = (m.shown page).or (view t page) := by
  have hsound : Sound (update t i (some m)) := h.put hm fun j m' _ hm' => hfree j m' hm'
  refine ⟨hsound, fun page => ?_⟩
  ext v
  rw [hsound.view_eq_some, shows_update, or_eq_some_iff, h.view_eq_some]
  simp only [some.injEq, exists_eq_left']
  refine or_congr_right ⟨?_, ?_⟩
  · rintro ⟨j, m', hji, hj, hv⟩
    refine ⟨?_, j, m', hj, hv⟩
    rw [← not_isSome_iff_eq_none]
    intro hshown
    have hapart : m.Apart m' := hfree j m' hj
    exact hapart.not_both hm (h.fits j m' hj) hshown (by simp [hv])
  · rintro ⟨-, j, m', hj, hv⟩
    refine ⟨j, m', ?_, hj, hv⟩
    rintro rfl
    rw [hi] at hj
    cases hj

end Insert

/-! ## `split` -/

section Split

variable {m mid e : Mapping O} {t : Table O} {i : Fin MAX_MAPPINGS} {ps : List (Fin MAX_MAPPINGS × Mapping O)}

/-- Pieces of an entry: they lie apart inside it and show together what it shows. -/
structure Pieces (m : Mapping O) (pieces : List (Mapping O)) : Prop where
  fits : ∀ e ∈ pieces, e.Fits
  lower : ∀ e ∈ pieces, m.start ≤ e.start
  upper : ∀ e ∈ pieces, e.start + e.pages * PAGE_SIZE ≤ m.start + m.pages * PAGE_SIZE
  apart : pieces.Pairwise Mapping.Apart
  shown : ∀ page v, m.shown page = some v ↔ ∃ e ∈ pieces, e.shown page = some v

/-- The entries after an entry was cut: its pieces and the other entries. -/
theorem cut_eq_some (hf : Slots.Fresh t ps) {j : Fin MAX_MAPPINGS}
    (hj : update (Slots.putAll t ps) i (some mid) j = some e) :
    (j = i ∧ e = mid) ∨ (j ≠ i ∧ (j, e) ∈ ps) ∨ (j ≠ i ∧ t j = some e) := by
  by_cases hji : j = i
  · subst hji
    rw [update_self] at hj
    exact .inl ⟨rfl, (some.inj hj).symm⟩
  · rw [update_of_ne hji, Slots.putAll_eq_some hf] at hj
    exact .inr (hj.imp (⟨hji, ·⟩) (⟨hji, ·⟩))

/-- A piece lies apart from the entries that the whole lies apart from. -/
theorem Pieces.apart_of {pieces : List (Mapping O)} (hp : Pieces m pieces) {m' : Mapping O} (he : e ∈ pieces)
    (h : m.Apart m') : e.Apart m' := by
  have h1 := hp.lower e he
  have h2 := hp.upper e he
  unfold Mapping.Apart at *
  omega

/-- **Cutting an entry** leaves the table sound and the partial function as it was. -/
theorem Sound.cut (h : Sound t) (hi : t i = some m)
    (hf : Slots.Fresh t ps) (hp : Pieces m (mid :: ps.map Prod.snd)) :
    Sound (update (Slots.putAll t ps) i (some mid)) ∧
      ∀ page, view (update (Slots.putAll t ps) i (some mid)) page = view t page := by
  have hmid : mid ∈ mid :: ps.map Prod.snd := mem_cons_self
  have hedge : ∀ j e, (j, e) ∈ ps → e ∈ mid :: ps.map Prod.snd := fun j e hje =>
    mem_cons_of_mem _ (mem_map.2 ⟨(j, e), hje, rfl⟩)
  obtain ⟨hfirst, hpair⟩ := pairwise_cons.1 hp.apart
  have hmidedge : ∀ j e, (j, e) ∈ ps → mid.Apart e := fun j e hje => hfirst e (mem_map.2 ⟨(j, e), hje, rfl⟩)
  have hedges : ∀ j k e e', j ≠ k → (j, e) ∈ ps → (k, e') ∈ ps → e.Apart e' := by
    intro j k e e' hjk hj hk
    rw [pairwise_map] at hpair
    have : Std.Symm fun x y : Fin MAX_MAPPINGS × Mapping O => x.2.Apart y.2 := ⟨fun _ _ => Mapping.Apart.symm⟩
    exact hpair.forall hj hk (by simp [hjk])
  have hsound : Sound (update (Slots.putAll t ps) i (some mid)) := by
    refine ⟨fun j e hj => ?_, fun j k e e' hjk hj hk => ?_⟩
    · obtain ⟨-, rfl⟩ | ⟨-, hj⟩ | ⟨-, hj⟩ := cut_eq_some hf hj
      · exact hp.fits _ hmid
      · exact hp.fits e (hedge j e hj)
      · exact h.fits j e hj
    · have hk' := cut_eq_some hf hk
      obtain ⟨rfl, rfl⟩ | ⟨hji, hje⟩ | ⟨hji, hje⟩ := cut_eq_some hf hj
      · obtain ⟨rfl, -⟩ | ⟨-, hke⟩ | ⟨-, hke⟩ := hk'
        · exact absurd rfl hjk
        · exact hmidedge k e' hke
        · exact hp.apart_of hmid (h.apart j k m e' hjk hi hke)
      · obtain ⟨rfl, rfl⟩ | ⟨-, hke⟩ | ⟨hki, hke⟩ := hk'
        · exact (hmidedge j e hje).symm
        · exact hedges j k e e' hjk hje hke
        · exact hp.apart_of (hedge j e hje) (h.apart i k m e' hki.symm hi hke)
      · obtain ⟨rfl, rfl⟩ | ⟨-, hke⟩ | ⟨-, hke⟩ := hk'
        · exact (hp.apart_of hmid (h.apart k j m e hjk.symm hi hje)).symm
        · exact (hp.apart_of (hedge k e' hke) (h.apart i j m e hji.symm hi hje)).symm
        · exact h.apart j k e e' hjk hje hke
  refine ⟨hsound, fun page => hsound.view_congr h fun v => ⟨?_, ?_⟩⟩
  · rintro ⟨j, e, hj, hv⟩
    obtain ⟨-, rfl⟩ | ⟨-, hj⟩ | ⟨-, hj⟩ := cut_eq_some hf hj
    · exact ⟨i, m, hi, (hp.shown page v).2 ⟨_, hmid, hv⟩⟩
    · exact ⟨i, m, hi, (hp.shown page v).2 ⟨e, hedge j e hj, hv⟩⟩
    · exact ⟨j, e, hj, hv⟩
  · rintro ⟨j, e, hj, hv⟩
    by_cases hji : j = i
    · subst hji
      rw [hi] at hj
      cases hj
      obtain ⟨e, he, hev⟩ := (hp.shown page v).1 hv
      rw [mem_cons, List.mem_map] at he
      obtain rfl | ⟨⟨k, e⟩, hk, rfl⟩ := he
      · exact ⟨j, e, by rw [update_self], hev⟩
      · have hkj : k ≠ j := by
          rintro rfl
          have := hf.free k (mem_map.2 ⟨_, hk, rfl⟩)
          rw [hi] at this
          cases this
        exact ⟨k, e, by rw [update_of_ne hkj, Slots.putAll_eq_some hf]; exact .inl hk, hev⟩
    · exact ⟨j, e, by rw [update_of_ne hji, Slots.putAll_eq_some hf]; exact .inr hj, hv⟩

/-- The entry `e` is a part of `m`, from its page `k` on. -/
structure Mapping.Part (m e : Mapping O) (k : Nat) : Prop where
  object : e.object = m.object
  rights : e.rights = m.rights
  start : e.start = m.start + k * PAGE_SIZE
  offset : e.offset = (m.offset + k) % 2 ^ 32
  pages : k + e.pages ≤ m.pages

theorem Mapping.Part.fits {k : Nat} (h : m.Part e k) (hm : m.Fits) :
    e.Fits ∧ m.start ≤ e.start ∧ e.start + e.pages * PAGE_SIZE ≤ m.start + m.pages * PAGE_SIZE := by
  obtain ⟨ha, hin, hlt, -⟩ := hm
  have hpages := h.pages
  have hupper : e.start + e.pages * PAGE_SIZE ≤ m.start + m.pages * PAGE_SIZE := by
    rw [h.start, add_assoc, ← add_mul]
    exact Nat.add_le_add_left (Nat.mul_le_mul_right _ hpages) _
  refine ⟨⟨?_, hupper.trans hin, by omega, ?_⟩, by rw [h.start]; omega, hupper⟩
  · rw [h.start, Nat.add_mul_mod_self_right, ha]
  · rw [h.offset]
    exact Nat.mod_lt _ (by norm_num)

theorem Mapping.Part.shown {k page : Nat} {v : O × Nat × Nat} (h : m.Part e k) : e.shown page = some v ↔
    (m.start / PAGE_SIZE + k ≤ page ∧ page < m.start / PAGE_SIZE + k + e.pages) ∧ m.shown page = some v := by
  have hpages := h.pages
  have hdiv : e.start / PAGE_SIZE = m.start / PAGE_SIZE + k := by
    rw [h.start]
    unfold PAGE_SIZE
    omega
  rw [shown_eq_some, shown_eq_some, hdiv, h.object, h.rights, h.offset]
  have hoff : m.start / PAGE_SIZE + k ≤ page → ((m.offset + k) % 2 ^ 32 + (page - (m.start / PAGE_SIZE + k))) % 2 ^ 32 =
      (m.offset + (page - m.start / PAGE_SIZE)) % 2 ^ 32 := by
    intro hle
    omega
  constructor
  · rintro ⟨hrange, rfl⟩
    exact ⟨hrange, by omega, by rw [hoff hrange.1]⟩
  · rintro ⟨hrange, -, rfl⟩
    exact ⟨hrange, by rw [hoff hrange.1]⟩

/-- The pieces that `split` makes, in whole pages: `before`, `pages` and `after` of them. -/
theorem pieces_of {before after : Nat} (hm : m.Fits) (hstart : start = m.start + before * PAGE_SIZE)
    (hsum : m.pages = before + pages + after) :
    Pieces m (middleOf m start pages before :: edgesOf m start pages before after) := by
  have hlt := hm.pages_lt
  have hend : rangeEnd start pages = m.start + (before + pages) * PAGE_SIZE := by
    have hin := hm.inside
    rw [rangeEnd_eq, hstart, add_mul, add_assoc]
    rw [hstart]
    unfold PAGE_SIZE USER_END at *
    omega
  have hmod : pages % 2 ^ 32 = pages := Nat.mod_eq_of_lt (by omega)
  -- the three pieces as entries, empty or not
  obtain ⟨left, hleft⟩ : ∃ left : Mapping O, left = { m with pages := before } := ⟨_, rfl⟩
  obtain ⟨right, hright⟩ : ∃ right : Mapping O, right =
      { m with start := m.start + (before + pages) * PAGE_SIZE, pages := after,
               offset := ((m.offset + before) % 2 ^ 32 + pages) % 2 ^ 32 } := ⟨_, rfl⟩
  obtain ⟨middle, hmiddle⟩ : ∃ middle : Mapping O, middle =
      { m with start := m.start + before * PAGE_SIZE, pages := pages, offset := (m.offset + before) % 2 ^ 32,
               busy := true } := ⟨_, rfl⟩
  have hmid : middleOf m start pages before = middle := by rw [hmiddle, middleOf, hmod, hstart]
  have hedges : edgesOf m start pages before after =
      (if before ≠ 0 then [left] else []) ++ if after ≠ 0 then [right] else [] := by
    rw [edgesOf, hend, hmod, hleft, hright]
  have hpl : m.Part left 0 ∧ left.pages = before := by
    rw [hleft]
    exact ⟨⟨rfl, rfl, by simp, (Nat.mod_eq_of_lt hm.offset_lt).symm, by simp only; omega⟩, rfl⟩
  have hpm : m.Part middle before ∧ middle.pages = pages := by
    rw [hmiddle]
    exact ⟨⟨rfl, rfl, rfl, rfl, by simp only; omega⟩, rfl⟩
  have hpr : m.Part right (before + pages) ∧ right.pages = after := by
    rw [hright]
    exact ⟨⟨rfl, rfl, rfl, by simp only; omega, by simp only; omega⟩, rfl⟩
  have hpart : ∀ e, e ∈ middle :: edgesOf m start pages before after →
      e.Fits ∧ m.start ≤ e.start ∧ e.start + e.pages * PAGE_SIZE ≤ m.start + m.pages * PAGE_SIZE := by
    intro e he
    have hmem : e = middle ∨ e = left ∨ e = right := by
      rw [hedges, mem_cons] at he
      split_ifs at he <;> simp at he <;> tauto
    obtain rfl | rfl | rfl := hmem
    · exact hpm.1.fits hm
    · exact hpl.1.fits hm
    · exact hpr.1.fits hm
  rw [hmid]
  refine ⟨fun e he => (hpart e he).1, fun e he => (hpart e he).2.1, fun e he => (hpart e he).2.2, ?_, fun page v => ?_⟩
  · have h1 : middle.Apart left := by
      simp only [Mapping.Apart, hmiddle, hleft]
      omega
    have h2 : middle.Apart right := by
      simp only [Mapping.Apart, hmiddle, hright]
      unfold PAGE_SIZE
      omega
    have h3 : left.Apart right := by
      simp only [Mapping.Apart, hleft, hright]
      unfold PAGE_SIZE
      omega
    rw [hedges]
    split_ifs <;> simp [h1, h2, h3]
  · -- an empty edge shows nothing, so it may as well be there
    have hall : (∃ e ∈ middle :: edgesOf m start pages before after, e.shown page = some v) ↔
        middle.shown page = some v ∨ left.shown page = some v ∨ right.shown page = some v := by
      have hl : before = 0 → left.shown page ≠ some v := fun h0 hv => by
        have := (hpl.1.shown.1 hv).1
        omega
      have hr : after = 0 → right.shown page ≠ some v := fun h0 hv => by
        have := (hpr.1.shown.1 hv).1
        omega
      rw [hedges]
      by_cases hb : before = 0 <;> by_cases haf : after = 0 <;> simp [hb, haf, hl, hr]
    rw [hall, hpl.1.shown, hpm.1.shown, hpr.1.shown, ← or_and_right, ← or_and_right]
    refine ⟨fun hv => ⟨?_, hv⟩, fun hv => hv.2⟩
    have hrange := (shown_eq_some.1 hv).1
    omega

theorem length_edgesOf (m : Mapping O) (start pages before after : Nat) :
    (edgesOf m start pages before after).length = (decide (before ≠ 0)).toNat + (decide (after ≠ 0)).toNat := by
  unfold edgesOf
  by_cases hb : before = 0 <;> by_cases ha : after = 0 <;> simp [hb, ha]

theorem fresh_places (edges : List (Mapping O)) : Slots.Fresh t (((freePlaces t).take 2).zip edges) := by
  refine Slots.fresh_zip (((nodup_finRange _).filter _).sublist (take_sublist _ _)) (fun i hi => ?_) edges
  simpa using (mem_filter.1 (mem_of_mem_take hi)).2

/-- **`split`**, for a range that starts at a page: it fails and changes nothing, or the entry at the index is the
range, marked busy, with as many entries more as it returns and the partial function as it was. -/
theorem split_spec (h : Sound t) (hi : t i = some m) (hs : start % PAGE_SIZE = 0) :
    ∃ t' r, split t i start pages = some (t', r) ∧
      ((∃ e, r = .error e ∧ t' = t) ∨
        ∃ n, r = .ok n ∧ Sound t' ∧ (∀ page, view t' page = view t page) ∧
          (∃ e, t' i = some e ∧ e.start = start ∧ e.pages = pages ∧ e.busy = true) ∧ len t' = len t + n) := by
  have hm := h.fits i m hi
  unfold split
  rw [hi, map_some]
  simp only
  split_ifs with hfit hbusy hplaces
  · exact ⟨t, _, rfl, .inl ⟨_, rfl, rfl⟩⟩
  · exact ⟨t, _, rfl, .inl ⟨_, rfl, rfl⟩⟩
  · exact ⟨t, _, rfl, .inl ⟨_, rfl, rfl⟩⟩
  · refine ⟨_, _, rfl, .inr ⟨_, rfl, ?_⟩⟩
    obtain ⟨ha, hin, hlt, -⟩ := hm
    rw [not_or, not_or, not_not] at hfit
    obtain ⟨⟨hf1, hf2, hf3⟩, hlow, hhigh⟩ := hfit
    have hsmall : pages * PAGE_SIZE < 2 ^ 64 := by
      unfold PAGE_SIZE
      omega
    rw [Nat.mod_eq_of_lt hsmall] at hf1
    have hend := (h.fits i m hi).end_eq
    have hrange := rangeEnd_eq hf1
    rw [hend, hrange] at hplaces ⊢
    -- the numbers of pages, exact
    obtain ⟨before, hbefore⟩ : ∃ before, before = (start - m.start) / PAGE_SIZE := ⟨_, rfl⟩
    obtain ⟨after, hafter⟩ : ∃ after, after =
        (m.start + m.pages * PAGE_SIZE - (start + pages * PAGE_SIZE)) / PAGE_SIZE := ⟨_, rfl⟩
    have hstart : start = m.start + before * PAGE_SIZE := by
      unfold PAGE_SIZE at *
      omega
    have hsum : m.pages = before + pages + after := by
      unfold PAGE_SIZE at *
      omega
    rw [← hbefore, ← hafter, Nat.mod_eq_of_lt (by omega : before < 2 ^ 32),
      Nat.mod_eq_of_lt (by omega : after < 2 ^ 32)] at hplaces ⊢
    have hlen := length_edgesOf m start pages before after
    have hps : (((freePlaces t).take 2).zip (edgesOf m start pages before after)).map Prod.snd =
        edgesOf m start pages before after := by
      rw [map_snd_zip]
      omega
    have hfresh : Slots.Fresh t (((freePlaces t).take 2).zip (edgesOf m start pages before after)) :=
      fresh_places _
    have hpieces := pieces_of (h.fits i m hi) hstart hsum
    rw [← hps] at hpieces
    obtain ⟨hsound, hview⟩ := h.cut hi hfresh hpieces
    refine ⟨hsound, hview, ⟨_, update_self .., rfl, ?_, rfl⟩, ?_⟩
    · exact Nat.mod_eq_of_lt (by omega)
    · have hput : Slots.putAll t (((freePlaces t).take 2).zip (edgesOf m start pages before after)) i = some m :=
        (Slots.putAll_eq_some hfresh).2 (.inr hi)
      unfold len
      rw [Slots.filled_replace hput, Slots.filled_putAll hfresh, length_zip]
      omega

/-- What `find_inside` finds holds the range, so `split` of it is refused for a busy entry, or else for want of a
place for each edge of a page or more, and for nothing else. -/
theorem split_of_findInside (h : Sound t) (hfind : findInside t start pages = .ok i) (hpages : pages ≠ 0) :
    ∃ m t', t i = some m ∧
      let edges := (decide (m.start + PAGE_SIZE ≤ start)).toNat +
        (decide (start + (pages + 1) * PAGE_SIZE ≤ m.end_)).toNat
      split t i start pages = some (t', if m.busy then .error .badState
        else if (freePlaces t).length < edges then .error .limitReached else .ok edges) := by
  unfold findInside at hfind
  split_ifs at hfind with hfit
  cases hpos : (finRange MAX_MAPPINGS).find? fun i =>
      (t i).any fun m => m.start ≤ start ∧ start + pages * PAGE_SIZE ≤ m.end_ with
  | none =>
    rw [hpos] at hfind
    cases hfind
  | some j =>
    rw [hpos] at hfind
    cases hfind
    have hany := find?_some hpos
    obtain ⟨m, hi, hin⟩ := (any_eq_true _ _).1 hany
    rw [decide_eq_true_eq] at hin
    have hend := (h.fits i m hi).end_eq
    have hlt := (h.fits i m hi).pages_lt
    have hrange := rangeEnd_eq hfit.2
    have hin' : ¬ (¬ (start + pages * PAGE_SIZE % 2 ^ 64 < 2 ^ 64 ∧ pages ≠ 0 ∧ pages ≤ m.pages) ∨
        start < m.start ∨ m.end_ < rangeEnd start pages) := by
      rw [Nat.mod_eq_of_lt hfit.1, hrange]
      unfold PAGE_SIZE at *
      omega
    have hbefore : (start - m.start) / PAGE_SIZE % 2 ^ 32 ≠ 0 ↔ m.start + PAGE_SIZE ≤ start := by
      unfold PAGE_SIZE at *
      omega
    have hafter : (m.end_ - rangeEnd start pages) / PAGE_SIZE % 2 ^ 32 ≠ 0 ↔
        start + (pages + 1) * PAGE_SIZE ≤ m.end_ := by
      rw [hrange]
      unfold PAGE_SIZE at *
      omega
    have hone := Bool.toNat_le (decide (m.start + PAGE_SIZE ≤ start))
    have htwo := Bool.toNat_le (decide (start + (pages + 1) * PAGE_SIZE ≤ m.end_))
    have hplaces : ((freePlaces t).take 2).length < (decide (m.start + PAGE_SIZE ≤ start)).toNat +
          (decide (start + (pages + 1) * PAGE_SIZE ≤ m.end_)).toNat ↔
        (freePlaces t).length < (decide (m.start + PAGE_SIZE ≤ start)).toNat +
          (decide (start + (pages + 1) * PAGE_SIZE ≤ m.end_)).toNat := by
      rw [length_take]
      omega
    refine ⟨m, ?_⟩
    unfold split
    rw [hi, map_some]
    simp only [if_neg hin', hbefore, hafter, hplaces, true_and]
    split_ifs
    · exact ⟨_, rfl⟩
    · exact ⟨_, rfl⟩
    · exact ⟨_, rfl⟩

end Split

/-! ## The parts that go -/

section Restrict

variable {m : Mapping O} {t : Table O} {i : Fin MAX_MAPPINGS}

/-- **`remove`** takes the pages of its entry. -/
theorem remove_spec (h : Sound t) (hi : t i = some m) :
    ∃ t', remove t i = some (t', m) ∧ Sound t' ∧
      ∀ page, view t' page =
        if m.start / PAGE_SIZE ≤ page ∧ page < m.start / PAGE_SIZE + m.pages then none else view t page := by
  refine ⟨update t i none, by rw [remove, hi, map_some], h.clear i, ?_⟩
  refine h.view_restrict (h.clear i) hi (fun page h1 h2 => isSome_shown.2 ⟨h1, h2⟩) fun page v => ?_
  simp only [reduceCtorEq, false_and, exists_false, false_iff]
  exact fun ⟨hv, hout⟩ => hout (shown_eq_some.1 hv).1

/-- **`shrink_to`** takes the pages of its entry after the first `pages`. -/
theorem shrinkTo_spec (h : Sound t) (hi : t i = some m) (hp : pages ≤ m.pages) :
    ∃ t' out, shrinkTo t i pages = some (t', out) ∧ Sound t' ∧
      ∀ page, view t' page =
        if m.start / PAGE_SIZE + pages ≤ page ∧ page < m.start / PAGE_SIZE + m.pages then none else view t page := by
  unfold shrinkTo
  rw [hi, bind_some, if_neg (not_lt.2 hp)]
  by_cases h0 : pages = 0
  · subst h0
    obtain ⟨t', hrem, hsound, hview⟩ := remove_spec h hi
    exact ⟨t', some m.object, by rw [if_pos rfl, hrem, map_some], hsound, by simpa using hview⟩
  · rw [if_neg h0]
    have hm := h.fits i m hi
    have hpart : m.Part { m with pages := pages, busy := false } 0 :=
      ⟨rfl, rfl, by simp, (Nat.mod_eq_of_lt hm.offset_lt).symm, by simpa using hp⟩
    obtain ⟨hfits, hlow, hhigh⟩ := hpart.fits hm
    have hsound := h.narrow hi hfits hlow hhigh
    refine ⟨_, _, rfl, hsound, ?_⟩
    refine h.view_restrict hsound hi (fun page h1 h2 => isSome_shown.2 (by omega)) fun page v => ?_
    simp only [some.injEq, exists_eq_left', hpart.shown]
    rw [and_comm, and_congr_right_iff]
    intro hv
    have hrange := (shown_eq_some.1 hv).1
    omega

/-- **`drop_prefix`** takes the first `pages` pages of its entry. -/
theorem dropPrefix_spec (h : Sound t) (hi : t i = some m) (hp : pages ≤ m.pages) :
    ∃ t' out, dropPrefix t i pages = some (t', out) ∧ Sound t' ∧
      ∀ page, view t' page =
        if m.start / PAGE_SIZE ≤ page ∧ page < m.start / PAGE_SIZE + pages then none else view t page := by
  unfold dropPrefix
  rw [hi, bind_some, if_neg (not_lt.2 hp)]
  by_cases hall : pages = m.pages
  · subst hall
    obtain ⟨t', hrem, hsound, hview⟩ := remove_spec h hi
    exact ⟨t', some m.object, by rw [if_pos rfl, hrem, map_some], hsound, hview⟩
  · rw [if_neg hall]
    have hm := h.fits i m hi
    have hend : rangeEnd m.start pages = m.start + pages * PAGE_SIZE := by
      have hin := hm.inside
      refine rangeEnd_eq ?_
      unfold PAGE_SIZE USER_END at *
      omega
    rw [hend]
    have hpart : m.Part { m with start := m.start + pages * PAGE_SIZE, offset := (m.offset + pages) % 2 ^ 32,
                                 pages := m.pages - pages, busy := false } pages :=
      ⟨rfl, rfl, rfl, rfl, by simp only; omega⟩
    obtain ⟨hfits, hlow, hhigh⟩ := hpart.fits hm
    have hsound := h.narrow hi hfits hlow hhigh
    refine ⟨_, _, rfl, hsound, ?_⟩
    refine h.view_restrict hsound hi (fun page h1 h2 => isSome_shown.2 (by omega)) fun page v => ?_
    simp only [some.injEq, exists_eq_left', hpart.shown]
    rw [and_comm, and_congr_right_iff]
    intro hv
    have hrange := (shown_eq_some.1 hv).1
    omega

theorem Sound.drain (h : Sound t) (n : Nat) : Sound (drain t n).1 := by
  have hsub : ∀ j m, (Maps.drain t n).1 j = some m → t j = some m := by
    intro j m hj
    simp only [Maps.drain] at hj
    split_ifs at hj
    exact hj
  exact ⟨fun j m hj => h.fits j m (hsub j m hj),
    fun j k m m' hjk hj hk => h.apart j k m m' hjk (hsub j m hj) (hsub k m' hk)⟩

theorem Sound.setBusy (h : Sound t) {busy : Bool} {t' : Table O} (hset : setBusy t i busy = some t') : Sound t' := by
  obtain ⟨m, hi, rfl⟩ := map_eq_some_iff.1 hset
  have hm := h.fits i m hi
  exact h.narrow hi ⟨hm.aligned, hm.inside, hm.pages_lt, hm.offset_lt⟩ le_rfl le_rfl

end Restrict

/-! ## Runs -/

/-- One call on the table. Mappings and ranges are whole pages of the lower half; `insert_free` is called for a
range that was found free. -/
inductive Step : Table O → Table O → Prop
  | insertChecked {t : Table O} {m : Mapping O} (fits : m.Fits) : Step t (insertChecked t m).1
  | insertFree {t : Table O} {m : Mapping O} (fits : m.Fits) (free : checkFree t m.start m.pages = .ok ()) :
      Step t (insertFree t m).1
  | insert {t : Table O} {m : Mapping O} {r : Table O × Except Error (Fin MAX_MAPPINGS)} (fits : m.Fits)
      (done : Maps.insert t m = some r) : Step t r.1
  | split {t : Table O} {i : Fin MAX_MAPPINGS} {start pages : Nat} {r : Table O × Except Error Nat}
      (aligned : start % PAGE_SIZE = 0) (done : Maps.split t i start pages = some r) : Step t r.1
  | shrinkTo {t : Table O} {i : Fin MAX_MAPPINGS} {pages : Nat} {r : Table O × Option O}
      (done : Maps.shrinkTo t i pages = some r) : Step t r.1
  | dropPrefix {t : Table O} {i : Fin MAX_MAPPINGS} {pages : Nat} {r : Table O × Option O}
      (done : Maps.dropPrefix t i pages = some r) : Step t r.1
  | remove {t : Table O} {i : Fin MAX_MAPPINGS} {r : Table O × Mapping O} (done : Maps.remove t i = some r) :
      Step t r.1
  | setBusy {t t' : Table O} {i : Fin MAX_MAPPINGS} {busy : Bool} (done : Maps.setBusy t i busy = some t') :
      Step t t'
  | drain {t : Table O} {n : Nat} : Step t (Maps.drain t n).1

section Runs

variable {m : Mapping O} {t t' : Table O} {r : Table O × Option O}

theorem Mapping.Fits.lt_top (h : m.Fits) : m.start + m.pages * PAGE_SIZE < 2 ^ 64 :=
  lt_of_le_of_lt h.inside (by decide)

theorem Sound.insertFree (h : Sound t) (hm : m.Fits) (hfree : checkFree t m.start m.pages = .ok ()) :
    Sound (Maps.insertFree t m).1 := by
  obtain ⟨hins, -⟩ | ⟨i, hi, hins⟩ := insertFree_cases t m
  · rw [hins]
    exact h
  · rw [hins]
    exact (h.insert hm ((h.checkFree_iff hm.lt_top).1 hfree) hi).1

theorem Sound.insertChecked (h : Sound t) (hm : m.Fits) : Sound (Maps.insertChecked t m).1 := by
  rw [insertChecked_eq]
  cases hfree : checkFree t m.start m.pages with
  | error e => exact h
  | ok u => exact h.insertFree hm hfree

/-- A call on an entry that returned had an entry, and a part of it to work on. -/
theorem of_shrinkTo {i : Fin MAX_MAPPINGS}
    (hr : shrinkTo t i pages = some r) : ∃ m, t i = some m ∧ pages ≤ m.pages := by
  obtain ⟨m, hi, hbody⟩ := bind_eq_some_iff.1 hr
  split_ifs at hbody with hlt
  all_goals exact ⟨m, hi, not_lt.1 hlt⟩

theorem of_dropPrefix {i : Fin MAX_MAPPINGS}
    (hr : dropPrefix t i pages = some r) : ∃ m, t i = some m ∧ pages ≤ m.pages := by
  obtain ⟨m, hi, hbody⟩ := bind_eq_some_iff.1 hr
  split_ifs at hbody with hlt
  all_goals exact ⟨m, hi, not_lt.1 hlt⟩

theorem Sound.step (h : Sound t) (hs : Step t t') : Sound t' := by
  cases hs with
  | insertChecked fits => exact h.insertChecked fits
  | insertFree fits free => exact h.insertFree fits free
  | @insert m r fits done =>
    unfold Maps.insert at done
    cases hfree : checkFree t m.start m.pages with
    | error e =>
      rw [hfree] at done
      cases done
    | ok u =>
      rw [hfree] at done
      cases done
      exact h.insertFree fits hfree
  | split aligned done =>
    obtain ⟨m, hi, -⟩ := map_eq_some_iff.1 done
    obtain ⟨t₁, r₁, hsplit, hcases⟩ := split_spec h hi aligned
    rw [done] at hsplit
    cases hsplit
    obtain ⟨-, -, rfl⟩ | ⟨-, -, hsound, -⟩ := hcases
    · exact h
    · exact hsound
  | shrinkTo done =>
    obtain ⟨m, hi, hle⟩ := of_shrinkTo done
    obtain ⟨t₁, out, hshrink, hsound, -⟩ := shrinkTo_spec h hi hle
    rw [done] at hshrink
    cases hshrink
    exact hsound
  | dropPrefix done =>
    obtain ⟨m, hi, hle⟩ := of_dropPrefix done
    obtain ⟨t₁, out, hdrop, hsound, -⟩ := dropPrefix_spec h hi hle
    rw [done] at hdrop
    cases hdrop
    exact hsound
  | remove done =>
    obtain ⟨m, hi, rfl⟩ := map_eq_some_iff.1 done
    exact h.clear _
  | setBusy done => exact h.setBusy done
  | drain => exact h.drain _

theorem Sound.of_run (hr : Run.Reachable (· = Table.new) Step t) : Sound t :=
  hr.invariant (fun _ h => h ▸ Sound.new) fun _ _ h hs => h.step hs

end Runs

/-- **The mapping table**, in every sound state and for mappings and ranges of whole pages: `insert_checked` adds
its mapping exactly when the range is free and a place is left, as `check_free` and `insert_free` do; `split` leaves
the partial function; `shrink_to`, `drop_prefix` and `remove` restrict it by the pages named; and every state of a
run is sound. -/
theorem mapping_table (t : Table O) :
    (Sound t →
      (∀ m : Mapping O, m.Fits →
        ((∃ i, (insertChecked t m).2 = .ok i) ↔ Free t m.start m.pages ∧ ∃ i, t i = none) ∧
        (0 < m.pages → (∀ i e, t i = some e → 0 < e.pages) →
          (Free t m.start m.pages ↔ ∀ page, (m.shown page).isSome → view t page = none)) ∧
        (insertChecked t m = match checkFree t m.start m.pages with
          | .error e => (t, .error e)
          | .ok _ => insertFree t m) ∧
        (∀ e, (insertChecked t m).2 = .error e → (insertChecked t m).1 = t) ∧
        ∀ i, (insertChecked t m).2 = .ok i → t i = none ∧ (insertChecked t m).1 = update t i (some m) ∧
          ∀ page, view (insertChecked t m).1 page = (m.shown page).or (view t page)) ∧
      ∀ i m, t i = some m →
        (∀ start pages, start % PAGE_SIZE = 0 → ∃ t' r, split t i start pages = some (t', r) ∧
          ((∃ e, r = .error e ∧ t' = t) ∨
            ∃ n, r = .ok n ∧ Sound t' ∧ (∀ page, view t' page = view t page) ∧
              (∃ e, t' i = some e ∧ e.start = start ∧ e.pages = pages ∧ e.busy = true) ∧ len t' = len t + n)) ∧
        (∀ pages ≤ m.pages, ∃ t' out, shrinkTo t i pages = some (t', out) ∧ ∀ page, view t' page =
          if m.start / PAGE_SIZE + pages ≤ page ∧ page < m.start / PAGE_SIZE + m.pages then none else view t page) ∧
        (∀ pages ≤ m.pages, ∃ t' out, dropPrefix t i pages = some (t', out) ∧ ∀ page, view t' page =
          if m.start / PAGE_SIZE ≤ page ∧ page < m.start / PAGE_SIZE + pages then none else view t page) ∧
        ∃ t', remove t i = some (t', m) ∧ ∀ page, view t' page =
          if m.start / PAGE_SIZE ≤ page ∧ page < m.start / PAGE_SIZE + m.pages then none else view t page) ∧
    (Run.Reachable (· = Table.new) Step t → Sound t) := by
  refine ⟨fun h => ⟨fun m hm => ?_, fun i m hi => ⟨fun start pages hs => split_spec h hi hs, ?_, ?_, ?_⟩⟩, Sound.of_run⟩
  · have hcheck := h.checkFree_iff hm.lt_top
    have heq := insertChecked_eq t m
    refine ⟨?_, fun hpos hentries => h.free_iff_view hm hpos hentries, heq, ?_⟩
    · rw [← hcheck, heq]
      cases hfree : checkFree t m.start m.pages with
      | error e => simp
      | ok u =>
        obtain ⟨hins, hfull⟩ | ⟨i, hi, hins⟩ := insertFree_cases t m
        · simp [hins, hfull]
        · simp only [hins, Except.ok.injEq, exists_eq', true_and, true_iff]
          exact ⟨i, hi⟩
    · rw [heq]
      cases hfree : checkFree t m.start m.pages with
      | error e => simp
      | ok u =>
        obtain ⟨hins, hfull⟩ | ⟨i, hi, hins⟩ := insertFree_cases t m
        · simp [hins]
        · simp only [hins, reduceCtorEq, false_implies, implies_true, true_and]
          rintro j hj
          cases hj
          exact ⟨hi, rfl, (h.insert hm (hcheck.1 hfree) hi).2⟩
  · intro pages hp
    obtain ⟨t', out, hshrink, -, hview⟩ := shrinkTo_spec h hi hp
    exact ⟨t', out, hshrink, hview⟩
  · intro pages hp
    obtain ⟨t', out, hdrop, -, hview⟩ := dropPrefix_spec h hi hp
    exact ⟨t', out, hdrop, hview⟩
  · obtain ⟨t', hrem, -, hview⟩ := remove_spec h hi
    exact ⟨t', hrem, hview⟩

/-- Three pages of an object from `0x1000` on. -/
def threePages : Table Nat := update Table.new 0 (some (new 0x1000 3 0 7 3))

theorem sound_threePages : Sound threePages :=
  Sound.new.put ⟨by decide, by decide, by decide, by decide⟩ (by simp [Table.new])

/-- In a table of one mapping the next one goes in beside it. -/
theorem mapping_table_beside :
    ∃ i, (insertChecked threePages (new 0x4000 2 1 7 3)).2 = .ok i := by
  refine (((mapping_table threePages).1 sound_threePages).1 (new 0x4000 2 1 7 3)
    ⟨by decide, by decide, by decide, by decide⟩).1.2 ⟨fun i m hi => ?_, 1, by decide⟩
  by_cases h0 : i = 0
  · subst h0
    simp only [threePages, update_self, some.injEq] at hi
    subst hi
    simp [new, PAGE_SIZE]
  · simp [threePages, h0, Table.new] at hi

/-- The second of the three pages is found and cut out, with an edge on each side. -/
theorem split_of_findInside_second : ∃ t, split threePages 0 0x2000 1 = some (t, .ok 2) := by
  have hfind : findInside threePages 0x2000 1 = .ok 0 := rfl
  obtain ⟨m, t, hi, hsplit⟩ := split_of_findInside sound_threePages hfind (by decide)
  cases hi
  exact ⟨t, hsplit.trans (congrArg (fun r => some (t, r)) (by decide +kernel))⟩

/-- **Without whole pages of the lower half it fails**: `split` at an address inside a page loses the last page of
the entry, and the last page of the 64 bits goes in twice. -/
theorem split_inside_page_and_insert_at_the_top :
    view threePages 3 = some (7, 2, 3) ∧
    (split threePages 0 0x1800 1).map (fun r => (r.2, view r.1 3)) = some (.ok 1, none) ∧
    (let m : Mapping Nat := new (2 ^ 64 - 0x1000) 1 0 7 3
     let t := (insertChecked Table.new m).1
     (insertChecked t m).2 = .ok 1 ∧ (insertChecked t m).1 0 = some m ∧ (insertChecked t m).1 1 = some m) := by
  decide +kernel

end Maps
