import Stafeto.Lib.Chain
import Stafeto.Process.Records

/-!
# The lists of children and of ready children

Each record is in the list of its parent's children and, while there is something to wait for, in the list of
the ready ones. Both lists are intrusive: three fields of the records hold one (`Fields`), and the two ways in
which a list changes, a record that comes to the front and a record that goes, are the same for both. What a
step leaves alone is said by a frame: the records are as before but for the fields that are cut away.
-/

namespace Process

open Chain Record Option

namespace Records

variable {t t' t1 : Records} {i c p x : Index} {r r' : Record} {α : Type} {f : Record → Record}

/-! ## Changes of records -/

theorem records_set (x : Index) : (t.set i r).records x = if x = i then some r else t.records x := by
  simp [set, Function.update_apply]

theorem field_set (F : Option Record → α) (x : Index) :
    F ((t.set i r).records x) = if x = i then F (some r) else F (t.records x) := by
  rw [records_set]
  split <;> rfl

theorem exists_set (h : ∃ r, t.records x = some r) : ∃ r', (t.set i r).records x = some r' := by
  rw [records_set]
  split
  · exact ⟨r, rfl⟩
  · exact h

theorem modify_of_some (h : t.records i = some r) (f : Record → Record) : t.modify i f = some (t.set i (f r)) := by
  rw [modify, h]
  rfl

theorem modify_eq_some (h : t.modify i f = some t') :
    ∃ r, t.records i = some r ∧ t' = t.set i (f r) := by
  obtain ⟨r, hr, rfl⟩ := map_eq_some_iff.1 h
  exact ⟨r, hr, rfl⟩

theorem field_modify {β : Type} (h : t.modify i f = some t') (F : Record → Option β) {v : Option β}
    (hf : ∀ r, F (f r) = v) (x : Index) : (t'.records x).bind F = if x = i then v else (t.records x).bind F := by
  obtain ⟨r, -, rfl⟩ := modify_eq_some h
  rw [field_set (·.bind F), bind_some, hf]

theorem same_modify (h : t.modify i f = some t') (F : Option Record → α)
    (hf : ∀ r, F (some (f r)) = F (some r)) (x : Index) : F (t'.records x) = F (t.records x) := by
  obtain ⟨r, hr, rfl⟩ := modify_eq_some h
  rw [field_set F, hf, ← hr]
  split
  case isTrue hx => rw [hx]
  case isFalse => rfl

/-! ## Frames -/

/-- The records are as before but for what `cut` takes away, and the rest of the table is as it was. -/
structure Frame (cut : Record → Record) (t t' : Records) : Prop where
  records : ∀ i, (t'.records i).map cut = (t.records i).map cut
  rest : t' = { t with records := t'.records }

namespace Frame

variable {cut cut' : Record → Record}

theorem refl (t : Records) : Frame cut t t := ⟨fun _ => rfl, rfl⟩

theorem trans (h : Frame cut t t1) (h' : Frame cut t1 t') : Frame cut t t' := by
  refine ⟨fun i => (h'.records i).trans (h.records i), ?_⟩
  rw [h'.rest, h.rest]

theorem set (h : t.records i = some r) (hr : cut r' = cut r) : Frame cut t (t.set i r') := by
  refine ⟨fun x => ?_, rfl⟩
  rw [records_set]
  split
  case isTrue hx => rw [hx, h, map_some, map_some, hr]
  case isFalse => rfl

theorem modify (h : t.modify i f = some t') (hf : ∀ r, cut (f r) = cut r) : Frame cut t t' := by
  obtain ⟨r, hr, rfl⟩ := modify_eq_some h
  exact .set hr (hf r)

theorem mono (h : Frame cut t t') (hc : ∀ r, cut' (cut r) = cut' r) : Frame cut' t t' := by
  refine ⟨fun i => ?_, h.rest⟩
  have hmap : ∀ o : Option Record, o.map cut' = (o.map cut).map cut' := by
    intro o
    cases o with
    | none => rfl
    | some r => rw [map_some, map_some, map_some, hc]
  rw [hmap, h.records, ← hmap]

/-- What can be told after the cut is as it was. -/
theorem field (h : Frame cut t t') (F : Option Record → α) (hF : ∀ o, F o = F (o.map cut)) (i : Index) :
    F (t'.records i) = F (t.records i) := by
  rw [hF, h.records, ← hF]

/-- A record is there before and after, and is the same one but for the cut. -/
theorem exists_of (h : Frame cut t t') (hr : t.records i = some r) : ∃ r', t'.records i = some r' ∧ cut r' = cut r := by
  have := h.records i
  rw [hr, map_some, map_eq_some_iff] at this
  exact this

end Frame

end Records

/-! ## The fields of a list -/

/-- The fields of the records that hold one list, and a record without them. -/
structure Fields where
  next : Record → Option Index
  prev : Record → Option Index
  first : Record → Option Index
  setNext : Option Index → Record → Record
  setPrev : Option Index → Record → Record
  setFirst : Option Index → Record → Record
  cut : Record → Record
  next_setNext : ∀ v r, next (setNext v r) = v
  next_setPrev : ∀ v r, next (setPrev v r) = next r
  next_setFirst : ∀ v r, next (setFirst v r) = next r
  prev_setNext : ∀ v r, prev (setNext v r) = prev r
  prev_setPrev : ∀ v r, prev (setPrev v r) = v
  prev_setFirst : ∀ v r, prev (setFirst v r) = prev r
  first_setNext : ∀ v r, first (setNext v r) = first r
  first_setPrev : ∀ v r, first (setPrev v r) = first r
  first_setFirst : ∀ v r, first (setFirst v r) = v
  cut_setNext : ∀ v r, cut (setNext v r) = cut r
  cut_setPrev : ∀ v r, cut (setPrev v r) = cut r
  cut_setFirst : ∀ v r, cut (setFirst v r) = cut r

/-- The list of children. -/
def byChild : Fields where
  next := next
  prev := previous
  first := firstChild
  setNext v r := { r with next := v }
  setPrev v r := { r with previous := v }
  setFirst v r := { r with firstChild := v }
  cut r := { r with next := none, previous := none, firstChild := none }
  next_setNext _ _ := rfl
  next_setPrev _ _ := rfl
  next_setFirst _ _ := rfl
  prev_setNext _ _ := rfl
  prev_setPrev _ _ := rfl
  prev_setFirst _ _ := rfl
  first_setNext _ _ := rfl
  first_setPrev _ _ := rfl
  first_setFirst _ _ := rfl
  cut_setNext _ _ := rfl
  cut_setPrev _ _ := rfl
  cut_setFirst _ _ := rfl

/-- The list of ready children. -/
def byReady : Fields where
  next := readyNext
  prev := readyPrevious
  first := firstReady
  setNext v r := { r with readyNext := v }
  setPrev v r := { r with readyPrevious := v }
  setFirst v r := { r with firstReady := v }
  cut r := { r with readyNext := none, readyPrevious := none, firstReady := none }
  next_setNext _ _ := rfl
  next_setPrev _ _ := rfl
  next_setFirst _ _ := rfl
  prev_setNext _ _ := rfl
  prev_setPrev _ _ := rfl
  prev_setFirst _ _ := rfl
  first_setNext _ _ := rfl
  first_setPrev _ _ := rfl
  first_setFirst _ _ := rfl
  cut_setNext _ _ := rfl
  cut_setPrev _ _ := rfl
  cut_setFirst _ _ := rfl

variable {v o : Option Index}

namespace Fields

variable {L : Fields} {t t' : Records} {c p : Index}

def nexts (L : Fields) (t : Records) (i : Index) : Option Index := (t.records i).bind L.next
def prevs (L : Fields) (t : Records) (i : Index) : Option Index := (t.records i).bind L.prev
def firsts (L : Fields) (t : Records) (i : Index) : Option Index := (t.records i).bind L.first

/-- The list that the records hold. -/
def list (L : Fields) (t : Records) (i : Index) : List Index := walk (L.nexts t) RECORDS (L.firsts t i)

/-- A record goes: its neighbours are joined, and the head moves on if it was the first. -/
def pluck (L : Fields) (t : Records) (parent : Index) (prev next : Option Index) : Option Records :=
  let joined := match prev with
    | some a => t.modify a (L.setNext next)
    | none => t.modify parent (L.setFirst next)
  joined.bind fun t => match next with
    | some b => t.modify b (L.setPrev prev)
    | none => some t

/-- A record is the first one now, before what was the first. -/
def front (L : Fields) (t : Records) (parent c : Index) (first : Option Index) : Option Records := do
  let t ← t.modify parent (L.setFirst (some c))
  match first with
  | some f => t.modify f (L.setPrev (some c))
  | none => some t

/-- What the two steps do to the links. -/
structure Links (L : Fields) (t t' : Records) (next prev first : Index → Option Index) : Prop where
  frame : Records.Frame L.cut t t'
  nexts : ∀ x, L.nexts t' x = next x
  prevs : ∀ x, L.prevs t' x = prev x
  firsts : ∀ x, L.firsts t' x = first x

theorem links_setNext {i : Index} (h : t.modify i (L.setNext v) = some t') :
    L.Links t t' (fun x => if x = i then v else L.nexts t x) (L.prevs t) (L.firsts t) where
  frame := .modify h (L.cut_setNext v)
  nexts := Records.field_modify h L.next (L.next_setNext v)
  prevs := Records.same_modify h (·.bind L.prev) (L.prev_setNext v)
  firsts := Records.same_modify h (·.bind L.first) (L.first_setNext v)

theorem links_setPrev {i : Index} (h : t.modify i (L.setPrev v) = some t') :
    L.Links t t' (L.nexts t) (fun x => if x = i then v else L.prevs t x) (L.firsts t) where
  frame := .modify h (L.cut_setPrev v)
  nexts := Records.same_modify h (·.bind L.next) (L.next_setPrev v)
  prevs := Records.field_modify h L.prev (L.prev_setPrev v)
  firsts := Records.same_modify h (·.bind L.first) (L.first_setPrev v)

theorem links_setFirst {i : Index} (h : t.modify i (L.setFirst v) = some t') :
    L.Links t t' (L.nexts t) (L.prevs t) (fun x => if x = i then v else L.firsts t x) where
  frame := .modify h (L.cut_setFirst v)
  nexts := Records.same_modify h (·.bind L.next) (L.next_setFirst v)
  prevs := Records.same_modify h (·.bind L.prev) (L.prev_setFirst v)
  firsts := Records.field_modify h L.first (L.first_setFirst v)

/-- Then the link back of a record that may not be there changes. -/
theorem Links.setPrev {t1 : Records} {next prev first : Index → Option Index} (hl : L.Links t t1 next prev first)
    (ho : ∀ b, o = some b → ∃ r, t.records b = some r) :
    ∃ t', (match o with
        | some b => t1.modify b (L.setPrev v)
        | none => some t1) = some t' ∧ L.Links t t' next (fun x => if some x = o then v else prev x) first := by
  cases o with
  | none => exact ⟨t1, rfl, by exact hl⟩
  | some b =>
    obtain ⟨r, hr⟩ := ho b rfl
    obtain ⟨r', hr', -⟩ := hl.frame.exists_of hr
    have h := Records.modify_of_some hr' (L.setPrev v)
    have hl' := links_setPrev h
    refine ⟨_, h, hl.frame.trans hl'.frame, fun x => ?_, fun x => ?_, fun x => ?_⟩
    · rw [hl'.nexts, hl.nexts]
    · simp [hl'.prevs, hl.prevs]
    · rw [hl'.firsts, hl.firsts]

theorem pluck_spec {prev next : Option Index} (hprev : ∀ a, prev = some a → ∃ r, t.records a = some r)
    (hnext : ∀ b, next = some b → ∃ r, t.records b = some r) (hp : ∃ r, t.records p = some r) :
    ∃ t', L.pluck t p prev next = some t' ∧
      L.Links t t' (fun x => if some x = prev then next else L.nexts t x)
        (fun x => if some x = next then prev else L.prevs t x)
        fun k => if k = p ∧ prev = none then next else L.firsts t k := by
  obtain ⟨t1, h1, hl⟩ : ∃ t1, (match prev with
      | some a => t.modify a (L.setNext next)
      | none => t.modify p (L.setFirst next)) = some t1 ∧
      L.Links t t1 (fun x => if some x = prev then next else L.nexts t x) (L.prevs t)
        fun k => if k = p ∧ prev = none then next else L.firsts t k := by
    cases prev with
    | some a =>
      obtain ⟨r, hr⟩ := hprev a rfl
      have h := Records.modify_of_some hr (L.setNext next)
      exact ⟨_, h, by simpa using links_setNext h⟩
    | none =>
      obtain ⟨r, hr⟩ := hp
      have h := Records.modify_of_some hr (L.setFirst next)
      exact ⟨_, h, by simpa using links_setFirst h⟩
  obtain ⟨t2, h2, hl2⟩ := hl.setPrev hnext
  refine ⟨t2, ?_, hl2⟩
  unfold pluck
  simp only [h1]
  exact h2

theorem front_spec {first : Option Index} (hfirst : ∀ f, first = some f → ∃ r, t.records f = some r)
    (hp : ∃ r, t.records p = some r) :
    ∃ t', L.front t p c first = some t' ∧
      L.Links t t' (L.nexts t) (fun x => if some x = first then some c else L.prevs t x)
        fun k => if k = p then some c else L.firsts t k := by
  obtain ⟨r, hr⟩ := hp
  have h1 := Records.modify_of_some hr (L.setFirst (some c))
  obtain ⟨t2, h2, hl2⟩ := (links_setFirst h1).setPrev hfirst
  refine ⟨t2, ?_, hl2⟩
  rw [front, h1]
  exact h2

end Fields

/-- A record without its place among the ready ones. -/
def Record.cutReady (r : Record) : Record := byReady.cut { r with ready := false }

namespace Records

variable {t t' t1 : Records} {i c p x : Index} {r : Record} {rdy : Index → List Index}

def parents (t : Records) (i : Index) : Option Index := (t.records i).bind parentIndex
def isReady (t : Records) (i : Index) : Bool := (t.records i).any ready

/-- Whose list of ready ones a record is in. -/
def readyOwner (t : Records) (i : Index) : Option Index :=
  (t.records i).bind fun r => if r.ready then r.parentIndex else none

/-! ## What the lists read of the records -/

/-- The lists of children. -/
def kinLinks (o : Option Record) : Option Index × Option Index × Option Index × Option Index × Nat :=
  (o.bind next, o.bind previous, o.bind firstChild, o.bind parentIndex, o.elim 0 children)

/-- The lists of ready ones, but for the parents. -/
def readyLinks (o : Option Record) : Option Index × Option Index × Option Index × Bool :=
  (o.bind readyNext, o.bind readyPrevious, o.bind firstReady, o.any ready)

/-- The lists of children see no change. -/
def SameKin (t t' : Records) : Prop := ∀ x, kinLinks (t'.records x) = kinLinks (t.records x)

namespace SameKin

theorem trans (h : SameKin t t1) (h' : SameKin t1 t') : SameKin t t' := fun x => (h' x).trans (h x)

theorem nexts (h : SameKin t t') : byChild.nexts t' = byChild.nexts t := funext fun x => congrArg (·.1) (h x)

theorem prevs (h : SameKin t t') : byChild.prevs t' = byChild.prevs t := funext fun x => congrArg (·.2.1) (h x)

theorem firsts (h : SameKin t t') : byChild.firsts t' = byChild.firsts t := funext fun x => congrArg (·.2.2.1) (h x)

theorem parents (h : SameKin t t') : t'.parents = t.parents := funext fun x => congrArg (·.2.2.2.1) (h x)

end SameKin

/-- No change of fields outside the lists of children. -/
theorem Frame.sameKin {cut : Record → Record} (h : Frame cut t t')
    (hc : ∀ r, kinLinks (some (cut r)) = kinLinks (some r)) : SameKin t t' := by
  refine h.field kinLinks fun o => ?_
  cases o with
  | none => rfl
  | some r => exact (hc r).symm

/-! ## Ready children -/

/-- The lists of ready children; who is in one has a parent. -/
structure Readies (t : Records) (rdy : Index → List Index) : Prop where
  family : Family (byReady.nexts t) (byReady.prevs t) (byReady.firsts t) t.readyOwner rdy
  parent : ∀ c, t.isReady c = true → ∃ p, t.parents c = some p

theorem exists_of_readyOwner (h : t.readyOwner i = some p) : ∃ r, t.records i = some r := by
  obtain ⟨r, hr, -⟩ := bind_eq_some_iff.1 h
  exact ⟨r, hr⟩

theorem isReady_of_some (h : t.records i = some r) : t.isReady i = r.ready := by
  rw [isReady, h]
  rfl

theorem parents_of_some (h : t.records i = some r) : t.parents i = r.parentIndex := by
  rw [parents, h]
  rfl

theorem readyOwner_of_some (h : t.records i = some r) :
    t.readyOwner i = if r.ready then r.parentIndex else none := by
  rw [readyOwner, h]
  rfl

theorem Readies.exists_parent (h : Readies t rdy) (hc : t.readyOwner c = some p) : ∃ r, t.records p = some r := by
  obtain ⟨x, hx⟩ := h.family.head_isSome hc
  obtain ⟨r, hr, -⟩ := bind_eq_some_iff.1 hx
  exact ⟨r, hr⟩

theorem isReady_pick (hc : t.isReady c = false) (x : Index) : t.isReady x = if x = c then false else t.isReady x := by
  split
  case isTrue hx => rw [hx, hc]
  case isFalse => rfl

/-- Owners of ready ones follow from parents and flags. -/
theorem readyOwner_eq (t : Records) (i : Index) : t.readyOwner i = if t.isReady i then t.parents i else none := by
  unfold readyOwner isReady parents
  cases t.records i <;> rfl

theorem Frame.parents_eq {cut : Record → Record} (h : Frame cut t t') (hc : ∀ r, (cut r).parentIndex = r.parentIndex) :
    t'.parents = t.parents := by
  funext i
  refine h.field (·.bind parentIndex) (fun o => ?_) i
  cases o with
  | none => rfl
  | some r => exact (hc r).symm

theorem ite_comm_of_ne {w : Option Index} (ho : o ≠ some c) :
    (if some x = o then v else if x = c then none else w) = if x = c then none else if some x = o then v else w := by
  by_cases hx : x = c
  · rw [if_neg, if_pos hx, if_pos hx]
    rintro rfl
    exact ho (by rw [hx])
  · rw [if_neg hx, if_neg hx]

/-- `ready_remove`: the record is in no list of ready ones. -/
theorem readyRemove_spec (h : Readies t rdy) (c : Index) :
    ∃ t' rdy', t.readyRemove c = some t' ∧ Frame cutReady t t' ∧ Readies t' rdy' ∧
      ∀ x, t'.isReady x = if x = c then false else t.isReady x := by
  unfold readyRemove
  cases hc : t.records c with
  | none => exact ⟨t, rdy, rfl, .refl t, h, isReady_pick (by rw [isReady, hc]; rfl)⟩
  | some r =>
    simp only
    cases hready : r.ready with
    | false => exact ⟨t, rdy, rfl, .refl t, h, isReady_pick ((isReady_of_some hc).trans hready)⟩
    | true =>
      obtain ⟨p, hp⟩ := h.parent c ((isReady_of_some hc).trans hready)
      rw [parents_of_some hc] at hp
      have howner : t.readyOwner c = some p := by rw [readyOwner_of_some hc, hready, if_pos rfl, hp]
      have hprev : byReady.prevs t c = r.readyPrevious := by rw [Fields.prevs, hc]; rfl
      have hnext : byReady.nexts t c = r.readyNext := by rw [Fields.nexts, hc]; rfl
      have hne := h.family.ne_self howner
      set t1 := t.set c { r with ready := false, readyPrevious := none, readyNext := none } with ht1
      obtain ⟨t2, h2, hl⟩ := Fields.pluck_spec (L := byReady) (t := t1)
        (fun a ha => exists_set (exists_of_readyOwner (h.family.owner_prev howner (hprev.trans ha))))
        (fun b hb => exists_set (exists_of_readyOwner (h.family.owner_next howner (hnext.trans hb))))
        (exists_set (h.exists_parent howner))
      have hframe : Frame cutReady t1 t2 := hl.frame.mono fun _ => rfl
      have hisReady : ∀ x, t2.isReady x = if x = c then false else t.isReady x := by
        intro x
        have h1 := hl.frame.field (·.any ready) (fun o => by cases o <;> rfl) x
        exact h1.trans (field_set (·.any ready) x)
      have hset : Frame cutReady t t1 := .set hc rfl
      have hparents := (hset.trans hframe).parents_eq fun _ => rfl
      refine ⟨t2, Function.update rdy p ((rdy p).erase c), ?_, hset.trans hframe, ⟨?_, fun x hx => ?_⟩, hisReady⟩
      · rw [← h2, hp]
        cases r.readyPrevious <;> rfl
      · refine h.family.remove howner (fun x => ?_) (fun x => ?_) (fun k => ?_) fun x => ?_
        · rw [hl.nexts, hnext, hprev, ← ite_comm_of_ne (hprev ▸ hne.2)]
          exact if_congr Iff.rfl rfl (field_set (·.bind byReady.next) x)
        · rw [hl.prevs, hnext, hprev, ← ite_comm_of_ne (hnext ▸ hne.1)]
          exact if_congr Iff.rfl rfl (field_set (·.bind byReady.prev) x)
        · rw [hl.firsts, hnext, hprev]
          have hsame := same_modify (modify_of_some hc fun r => { r with ready := false, readyPrevious := none, readyNext := none })
            (·.bind byReady.first) (fun _ => rfl) k
          exact if_congr Iff.rfl rfl hsame
        · rw [readyOwner_eq, readyOwner_eq, hparents, hisReady]
          split <;> simp
      · rw [hisReady] at hx
        rw [hparents]
        split at hx
        case isTrue => cases hx
        case isFalse => exact h.parent x hx

theorem readyAdd_eq {rp : Record} (hc : t.records c = some r) (hready : r.ready = false) (hstate : r.state ≠ .loading)
    (hpar : r.parentIndex = some p) (hrp : t.records p = some rp) :
    t.readyAdd c = (byReady.front t p c rp.firstReady).bind fun t =>
      t.modify c fun r => { r with ready := true, readyPrevious := none, readyNext := rp.firstReady } := by
  unfold readyAdd Fields.front
  rw [hc, modify_of_some hrp]
  simp only [bind_eq_bind, bind_some, hready, beq_eq_false_iff_ne.2 hstate, hpar, hrp]
  cases rp.firstReady <;> rfl

/-- `ready_add`: a child that is not being loaded is in the list of its parent's ready ones. -/
theorem readyAdd_spec (h : Readies t rdy) (hc : t.records c = some r)
    (hp : ∀ p, r.parentIndex = some p → ∃ rp, t.records p = some rp) :
    ∃ t' rdy', t.readyAdd c = some t' ∧ Frame cutReady t t' ∧ Readies t' rdy' ∧
      ∀ x, t'.isReady x = if x = c ∧ r.state ≠ .loading ∧ r.parentIndex ≠ none then true else t.isReady x := by
  by_cases hskip : (r.ready || r.state == .loading) = true
  · refine ⟨t, rdy, by rw [readyAdd, hc]; exact if_pos hskip, .refl t, h, fun x => ?_⟩
    split
    case isTrue hx =>
      have hready : r.ready = true := by simpa [hx.2.1] using hskip
      rw [hx.1, isReady_of_some hc, hready]
    case isFalse => rfl
  simp only [Bool.or_eq_true, not_or, Bool.not_eq_true, beq_eq_false_iff_ne] at hskip
  obtain ⟨hready, hstate⟩ := hskip
  cases hpar : r.parentIndex with
  | none => exact ⟨t, rdy, by simp [readyAdd, hc, hpar], .refl t, h, fun x => by simp⟩
  | some p =>
    obtain ⟨rp, hrp⟩ := hp p hpar
    have hfirst : byReady.firsts t p = rp.firstReady := by rw [Fields.firsts, hrp]; rfl
    have howner : t.readyOwner c = none := by rw [readyOwner_of_some hc, hready]; rfl
    obtain ⟨t1, h1, hl⟩ := Fields.front_spec (L := byReady) (c := c)
      (fun f (hf : rp.firstReady = some f) => exists_of_readyOwner (h.family.owner_head (hfirst.trans hf))) ⟨rp, hrp⟩
    obtain ⟨r1, hr1, -⟩ := hl.frame.exists_of hc
    have h2 := modify_of_some hr1 fun r => { r with ready := true, readyPrevious := none, readyNext := rp.firstReady }
    set t2 := t1.set c { r1 with ready := true, readyPrevious := none, readyNext := rp.firstReady }
    have hframe : Frame cutReady t t2 :=
      .trans (hl.frame.mono fun _ => rfl) (.modify h2 fun _ => rfl)
    have hparents := hframe.parents_eq fun _ => rfl
    have hisReady : ∀ x, t2.isReady x = if x = c then true else t.isReady x := by
      intro x
      have h1 := hl.frame.field (·.any ready) (fun o => by cases o <;> rfl) x
      refine (field_set (·.any ready) x).trans (if_congr Iff.rfl rfl h1)
    refine ⟨t2, Function.update rdy p (c :: rdy p), ?_, hframe, ⟨?_, fun x hx => ?_⟩, fun x => ?_⟩
    · rw [readyAdd_eq hc hready hstate hpar hrp, h1]
      exact h2
    · refine h.family.push howner (fun x => ?_) (fun x => ?_) (fun k => ?_) fun x => ?_
      · rw [hfirst, ← hl.nexts]
        exact field_modify h2 byReady.next (fun _ => rfl) x
      · rw [hfirst, ← hl.prevs]
        exact field_modify h2 byReady.prev (fun _ => rfl) x
      · rw [← hl.firsts]
        exact same_modify h2 (·.bind byReady.first) (fun _ => rfl) k
      · rw [readyOwner_eq, readyOwner_eq, hparents, hisReady]
        split
        case isTrue hx => rw [if_pos rfl, hx, parents_of_some hc, hpar]
        case isFalse => rfl
    · rw [hparents]
      rw [hisReady] at hx
      split at hx
      case isTrue hxc => exact ⟨p, by rw [hxc, parents_of_some hc, hpar]⟩
      case isFalse => exact h.parent x hx
    · rw [hisReady]
      simp [hstate]

end Records

end Process
