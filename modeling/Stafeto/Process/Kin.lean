import Stafeto.Process.Moves

/-!
# Births and ends

The invariant of the two kinds of lists (`Lists`), and what an insertion, an end and a reap do to it and to the
counts. An end goes over the children of the record while their list is taken apart from its head: in between the
head and the link back to it are the loop's own (`Kin` leaves them open).
-/

namespace Process

open Chain Records Function Record Option

namespace Records

variable {t t' t1 t3 : Records} {i c p index : Index} {r r' : Record} {ahead : Nat → Tally} {slack loose : Set Index}
  {kids rdy rdy' : Index → List Index} {back heads back' heads' : Index → Option Index}

def childCount (t : Records) (i : Index) : Nat := (t.records i).elim 0 children

/-- The lists of children, with the heads `heads` and the links `back`, and the lists of ready ones. A zombie
has no children, has its place among the ready ones and nothing else to report. -/
structure Kin (t : Records) (back heads : Index → Option Index) (kids rdy : Index → List Index) : Prop where
  family : Family (byChild.nexts t) back heads t.parents kids
  readies : Readies t rdy
  self : ∀ i, t.parents i ≠ some i
  zombie : ∀ i r, t.records i = some r → r.state.isZombie = true →
    kids i = [] ∧ (r.parentIndex ≠ none → r.ready = true) ∧ r.stopReport = none ∧ r.contReport = false

/-- The lists as the records hold them, with their lengths. -/
structure Lists (t : Records) (kids rdy : Index → List Index) : Prop where
  kin : Kin t (byChild.prevs t) (byChild.firsts t) kids rdy
  count : ∀ i, t.childCount i = (kids i).length
  bound : ∀ i, (kids i).length ≤ CHILDREN_MAX

theorem childCount_of_some (h : t.records i = some r) : t.childCount i = r.children := by
  rw [childCount, h]
  rfl

/-! ## What the lists do not see -/

theorem Readies.congr (hr : Readies t rdy) (h : ∀ x, readyLinks (t'.records x) = readyLinks (t.records x))
    (hpar : ∀ x, t.isReady x = true → t'.parents x = t.parents x) : Readies t' rdy := by
  have hn : byReady.nexts t' = byReady.nexts t := funext fun x => congrArg (·.1) (h x)
  have hp : byReady.prevs t' = byReady.prevs t := funext fun x => congrArg (·.2.1) (h x)
  have hf : byReady.firsts t' = byReady.firsts t := funext fun x => congrArg (·.2.2.1) (h x)
  have hi : t'.isReady = t.isReady := funext fun x => congrArg (·.2.2.2) (h x)
  have howner : t'.readyOwner = t.readyOwner := by
    funext x
    rw [readyOwner_eq, readyOwner_eq, hi]
    split
    case isTrue hx => exact hpar x hx
    case isFalse => rfl
  refine ⟨?_, fun c hc => ?_⟩
  · rw [hn, hp, hf, howner]
    exact hr.family
  · rw [hi] at hc
    rw [hpar c hc]
    exact hr.parent c hc

theorem Readies.unready (h : Readies t rdy) (hpar : t.parents c = none) : t.isReady c = false := by
  by_contra hready
  obtain ⟨p, hp⟩ := h.parent c (by simpa using hready)
  rw [hpar] at hp
  cases hp

theorem SameKin.childCount (h : SameKin t t') : t'.childCount = t.childCount :=
  funext fun x => congrArg (·.2.2.2.2) (h x)

/-- The lists of children see no change, and what is said of zombies holds. -/
theorem SameKin.lists (h : SameKin t t') (hl : Lists t kids rdy) (hr : Readies t' rdy')
    (hz : ∀ i r, t'.records i = some r → r.state.isZombie = true →
      kids i = [] ∧ (r.parentIndex ≠ none → r.ready = true) ∧ r.stopReport = none ∧ r.contReport = false) :
    Lists t' kids rdy' where
  kin := by
    refine ⟨?_, hr, ?_, hz⟩
    · rw [h.nexts, h.prevs, h.firsts, h.parents]
      exact hl.kin.family
    · rw [h.parents]
      exact hl.kin.self
  count := by
    rw [h.childCount]
    exact hl.count
  bound := hl.bound

/-- What the lists say of a zombie, but for its place in them. -/
def life (r : Record) : State × Option Index × Option Nat × Bool := (r.state, r.parentIndex, r.stopReport, r.contReport)

theorem Kin.zombie_of_life (hk : Kin t back heads kids rdy) (h : (t'.records i).map life = (t.records i).map life)
    (hr' : t'.records i = some r') (hz : r'.state.isZombie = true) : kids i = [] ∧
      (r'.parentIndex ≠ none → t.isReady i = true) ∧ r'.stopReport = none ∧ r'.contReport = false := by
  rw [hr', map_some, eq_comm, map_eq_some_iff] at h
  obtain ⟨r, hr, hs⟩ := h
  simp only [life, Prod.mk.injEq] at hs
  obtain ⟨hstate, hpar, hstop, hcont⟩ := hs
  obtain ⟨h1, h2, h3⟩ := hk.zombie i r hr (by rw [hstate, hz])
  rw [← hpar, ← hstop, ← hcont, isReady_of_some hr]
  exact ⟨h1, h2, h3⟩

/-- The lists of children may change, no zombie leaves the ready ones. -/
theorem Kin.congr (hk : Kin t back heads kids rdy) (hpar : t'.parents = t.parents)
    (hlife : ∀ i, (t'.records i).map life = (t.records i).map life)
    (hfam : Family (byChild.nexts t') back' heads' t.parents kids) (hr : Readies t' rdy')
    (hready : ∀ i r, t'.records i = some r → r.state.isZombie = true → t.isReady i = true → t'.isReady i = true) :
    Kin t' back' heads' kids rdy' where
  family := by
    rw [hpar]
    exact hfam
  readies := hr
  self := by
    rw [hpar]
    exact hk.self
  zombie i r hr' hz := by
    obtain ⟨h1, h2, h3⟩ := hk.zombie_of_life (hlife i) hr' hz
    refine ⟨h1, fun hp => ?_, h3⟩
    rw [← isReady_of_some hr']
    exact hready i r hr' hz (h2 hp)

section Alike

variable (h : Alike t t')

include h

theorem Alike.isReady : t'.isReady = t.isReady :=
  funext (h.field (·.any ready) fun o => by cases o <;> rfl)

theorem Alike.readies (hr : Readies t rdy) : Readies t' rdy :=
  hr.congr (h.field readyLinks fun o => by cases o <;> rfl) fun x _ => congrFun h.sameKin.parents x

theorem Alike.kin (hk : Kin t back heads kids rdy) : Kin t' back heads kids rdy := by
  refine hk.congr h.sameKin.parents (h.field (·.map life) fun o => by cases o <;> rfl) ?_ (h.readies hk.readies)
    fun i _ _ _ hi => ?_
  · rw [h.sameKin.nexts]
    exact hk.family
  · rw [h.isReady]
    exact hi

theorem Alike.lists (hl : Lists t kids rdy) : Lists t' kids rdy :=
  h.sameKin.lists hl (h.readies hl.kin.readies) (h.kin hl.kin).zombie

end Alike

/-! ## Steps that only touch the ready ones -/

theorem Frame.child_fields (h : Frame cutReady t t') : SameKin t t' := h.sameKin fun _ => rfl

/-- The records of before, of which no zombie left the ready ones. -/
theorem Lists.of_frame (hl : Lists t kids rdy) (h : Frame cutReady t t') (hr : Readies t' rdy')
    (hready : ∀ i r, t'.records i = some r → r.state.isZombie = true → t.isReady i = true → t'.isReady i = true) :
    Lists t' kids rdy' := by
  have hfam := hl.kin.family
  rw [← h.child_fields.nexts] at hfam
  exact h.child_fields.lists hl hr (hl.kin.congr h.child_fields.parents
    (h.field (·.map life) fun o => by cases o <;> rfl) hfam hr hready).zombie

theorem Lists.readyRemove (hl : Lists t kids rdy) (hr : t.records c = some r) (hz : r.state.isZombie = false) :
    ∃ t' rdy', t.readyRemove c = some t' ∧ Frame cutReady t t' ∧ Lists t' kids rdy' ∧
      ∀ x, t'.isReady x = if x = c then false else t.isReady x := by
  obtain ⟨t', rdy', h', hf, hrd, hi⟩ := readyRemove_spec hl.kin.readies c
  refine ⟨t', rdy', h', hf, hl.of_frame hf hrd fun i x hx hzx hix => ?_, hi⟩
  rw [hi, if_neg, hix]
  rintro rfl
  obtain ⟨x', hx', hs⟩ := hf.exists_of hr
  cases hx.symm.trans hx'
  rw [show x.state = r.state from (congrArg state hs :), hz] at hzx
  cases hzx

/-- The counts do not see the ready ones. -/
theorem Grouped.of_frame {cut : Record → Record} (h : Grouped t ahead slack loose) (hf : Frame cut t t')
    (hc : ∀ r, (cut r).core = r.core) : Grouped t' ahead slack loose := by
  have hcores := hf.cores_eq hc
  obtain ⟨R, rfl⟩ : ∃ R, t' = { t with records := R } := ⟨_, hf.rest⟩
  have hsep : ({ t with records := R } : Records).separates = t.separates := by
    funext p pgid sid
    rw [separates_eq, separates_eq, hcores]
  have hnum : ({ t with records := R } : Records).number = t.number := rfl
  exact {
    counted := fun i => by rw [hcores, hnum]; exact h.counted i
    placed := fun i c hc => h.placed i c (hcores ▸ hc)
    labelled := fun i c hc => h.labelled i c (hcores ▸ hc)
    linked := fun i c hc hi => by rw [hsep]; exact h.linked i c (hcores ▸ hc) hi
    held := fun g => by rw [hcores]; exact h.held g
    nodup := h.nodup
    listed := h.listed
    unused := fun i hi => by rw [hcores]; exact h.unused i hi
    free := fun i hi hc => h.free i hi (hcores ▸ hc) }

/-! ## The record goes -/

theorem readyRemove_of_not (h : t.isReady c = false) : t.readyRemove c = some t := by
  unfold readyRemove
  cases hc : t.records c with
  | none => rfl
  | some r =>
    rw [isReady_of_some hc] at h
    simp [h]

/-- `free_index` of a zombie that is in no list. -/
theorem freeIndex_spec (h : Grouped t ahead slack loose) (hr : t.records c = some r) (hz : r.state.isZombie = true)
    (hready : t.isReady c = false) (hchild : ∀ j, t.parents j ≠ some c) :
    ∃ t', t.freeIndex c = some t' ∧ Grouped t' ahead slack loose ∧ t'.records = update t.records c none := by
  -- the suspension first
  obtain ⟨t1, h1, hg1, hr1⟩ : ∃ t1, (if (t.records c).any fun r => r.stopped.isSome then t.setStopped c none else some t) =
      some t1 ∧ Grouped t1 ahead slack loose ∧ t1.records = update t.records c (some { r with stopped := none }) := by
    rw [hr]
    cases hstop : r.stopped with
    | none =>
      refine ⟨t, by simp [hstop], h, ?_⟩
      rw [eq_comm, update_eq_self_iff, hr, ← hstop]
    | some n =>
      obtain ⟨t1, v, h1, hv, hg1, hr1⟩ := setStopped_spec h hr none
      have hnone : v = none := by simpa using hv
      rw [hnone] at hr1
      exact ⟨t1, by simp [hstop, h1], hg1, hr1⟩
  set r1 : Record := { r with stopped := none } with hr1'
  have hc1 : t1.records c = some r1 := by rw [hr1, update_self]
  have halike : Alike t t1 := .of_update hr hr1 rfl
  -- the record out of the table: its member is still counted
  have hg2 : Grouped (t1.put c none t1.held) (ahead + member r.pgid r.sid r.linked) ({c} ∪ slack) loose := by
    have hmono : Grouped t1 (ahead + 0) ({c} ∪ slack) loose := hg1.mono Set.subset_union_right
    refine hmono.put (hg1.notMem_free_of_some hc1) (fun _ => .inl rfl) (fun n => ?_) (fun r he => by cases he) (fun g => ?_)
      fun j x hx hj => ?_
    · rw [cores_of_some hc1]
      exact add_comm _ _
    · rw [cores_of_some hc1]
      show t1.placesHeld g + holdsPlace g r1.core = t1.placesHeld g + 0
      rw [holdsPlace_zombie (r := r1) hz]
    · rw [cores_put, update_apply] at hx
      split at hx
      case isTrue => cases hx
      case isFalse hne =>
        rw [hg1.linked j x hx hj]
        congr 1
        refine any_congr fun p hp => (separates_put_of_ne (fun hpc => hchild j ?_) _ _).symm
        obtain ⟨y, hy, rfl⟩ := map_eq_some_iff.1 hx
        rw [← halike.sameKin.parents, parents_of_some hy, ← hpc]
        exact hp
  have hold := hg1.placed c _ (cores_of_some hc1)
  obtain ⟨t3, h3, hg3, hs3⟩ := leave_spec hg2 hold.1 hold.2
  obtain ⟨hg4, hs4⟩ := hg3.settle c
  refine ⟨t3.settle c, ?_, hg4.mono fun i hi => hi.1.resolve_left hi.2, ?_⟩
  · unfold freeIndex
    rw [readyRemove_of_not hready]
    simp only [bind_eq_bind, bind_some]
    have hleave := congrArg (·.bind fun t => some (t.settle c)) h3
    by_cases hstop : (t.records c).any (fun r => r.stopped.isSome) = true
    · rw [if_pos hstop] at h1 ⊢
      simp only [h1, bind_some, hc1]
      exact hleave
    · rw [if_neg hstop] at h1
      cases h1
      simp only [hc1]
      exact hleave
  · rw [hs4.records, hs3.records]
    show update t1.records c none = _
    rw [hr1, update_idem]

section Erase

variable (hrec : t'.records = update t.records c none)

include hrec

theorem field_erase {β : Type} (F : Record → Option β) (x : Index) :
    (t'.records x).bind F = if x = c then none else (t.records x).bind F := by
  rw [hrec, update_apply]
  split <;> rfl

theorem same_erase {β : Type} (F : Record → Option β) (hF : (t.records c).bind F = none) (x : Index) :
    (t'.records x).bind F = (t.records x).bind F := by
  rw [field_erase hrec]
  split
  case isTrue hx => rw [hx, hF]
  case isFalse => rfl

theorem isReady_erase (x : Index) : t'.isReady x = if x = c then false else t.isReady x := by
  rw [isReady, hrec, update_apply]
  split <;> rfl

theorem childCount_erase (x : Index) : t'.childCount x = if x = c then 0 else t.childCount x := by
  rw [childCount, hrec, update_apply]
  split <;> rfl

/-- A record that is in no list of ready ones and has none goes. -/
theorem Readies.erase (h : Readies t rdy) (hready : t.isReady c = false) (hno : ∀ x, t.parents x ≠ some c) :
    Readies t' rdy := by
  have howner : t.readyOwner c = none := by
    rw [readyOwner_eq, hready]
    rfl
  obtain ⟨hn, hp⟩ := h.family.outside c howner
  have hnil : rdy c = [] := by
    refine List.eq_nil_iff_forall_not_mem.2 fun x hx => ?_
    have hx := (h.family.mem c x).1 hx
    rw [readyOwner_eq] at hx
    split at hx
    · exact hno x hx
    · cases hx
  have hlinks : readyLinks (t.records c) = readyLinks none :=
    Prod.ext hn (Prod.ext hp (Prod.ext (h.family.head_eq_none.2 hnil) hready))
  refine h.congr (fun x => ?_) fun x hx => ?_
  · rw [hrec, update_apply]
    split
    case isTrue hx => rw [hx, hlinks]
    case isFalse => rfl
  · rw [parents, field_erase hrec, if_neg]
    · rfl
    · rintro rfl
      rw [hready] at hx
      cases hx

/-- A record without a parent and without children goes. -/
theorem Kin.erase (hk : Kin t back heads kids rdy) (hpar : t.parents c = none) (hno : ∀ x, t.parents x ≠ some c) :
    Kin t' back heads kids rdy where
  family := by
    have h1 : byChild.nexts t' = byChild.nexts t := funext (same_erase hrec byChild.next (hk.family.outside c hpar).1)
    have h2 : t'.parents = t.parents := funext (same_erase hrec _ hpar)
    rw [h1, h2]
    exact hk.family
  readies := hk.readies.erase hrec (hk.readies.unready hpar) hno
  self i hi := by
    rw [parents, field_erase hrec] at hi
    split at hi
    · cases hi
    · exact hk.self i hi
  zombie i r hr hz := by
    rw [hrec, update_apply] at hr
    split at hr
    · cases hr
    · exact hk.zombie i r hr hz

theorem Lists.erase (hl : Lists t kids rdy) (hpar : t.parents c = none) (hnil : kids c = [])
    (hno : ∀ x, t.parents x ≠ some c) : Lists t' kids rdy where
  kin := by
    have h1 : byChild.prevs t' = byChild.prevs t :=
      funext (same_erase hrec byChild.prev (hl.kin.family.outside c hpar).2)
    have h2 : byChild.firsts t' = byChild.firsts t :=
      funext (same_erase hrec byChild.first (hl.kin.family.head_eq_none.2 hnil))
    rw [h1, h2]
    exact hl.kin.erase hrec hpar hno
  count i := by
    rw [childCount_erase hrec]
    split
    case isTrue hi => rw [hi, hnil]; rfl
    case isFalse => exact hl.count i
  bound := hl.bound

end Erase

/-- A record without its place among the children. -/
def cutChild (r : Record) : Record := { byChild.cut r with children := 0 }

theorem Readies.of_cutChild (hr : Readies t rdy) (h : Frame cutChild t t') : Readies t' rdy :=
  hr.congr (h.field readyLinks fun o => by cases o <;> rfl) fun x _ => congrFun (h.parents_eq fun _ => rfl) x

/-- The lists of children change, the parents stay. -/
theorem Kin.of_cutChild (hk : Kin t back heads kids rdy) (hf : Frame cutChild t t')
    (hfam : Family (byChild.nexts t') back' heads' t.parents kids) : Kin t' back' heads' kids rdy := by
  refine hk.congr (hf.parents_eq fun _ => rfl) (hf.field (·.map life) fun o => by cases o <;> rfl) hfam
    (hk.readies.of_cutChild hf) fun i _ _ _ hi => ?_
  rw [isReady, hf.field (·.any ready) fun o => by cases o <;> rfl]
  exact hi

/-- A record without its places in the lists. -/
def cutLists (r : Record) : Record := cutChild r.cutReady

theorem Kin.parents_ne (hk : Kin t back heads kids rdy) (hc : kids c = []) (x : Index) : t.parents x ≠ some c := by
  intro hx
  have := (hk.family.mem c x).2 hx
  rw [hc] at this
  cases this

theorem Lists.exists_parent (hl : Lists t kids rdy) (hc : t.parents c = some p) : ∃ r, t.records p = some r := by
  obtain ⟨x, hx⟩ := hl.kin.family.head_isSome hc
  obtain ⟨r, hr, -⟩ := bind_eq_some_iff.1 hx
  exact ⟨r, hr⟩

/-- The neighbours joined and the parent's count lowered, as `reap` does it. -/
theorem reap_eq (hr : t.records c = some r) (hz : r.state.isZombie = true) (hpar : r.parentIndex = some p)
    {t2 : Records} (h1 : t.readyRemove c = some t1) (h2 : byChild.pluck t1 p r.previous r.next = some t2)
    (h3 : t2.modify p (fun r => { r with children := r.children - 1 }) = some t3) : t.reap c = t3.freeIndex c := by
  unfold reap
  simp only [hr, hz, h1, hpar, bind_eq_bind, bind_some]
  unfold Fields.pluck at h2
  cases hprev : r.previous with
  | some a =>
    simp only [hprev] at h2
    obtain ⟨ta, ha, h2⟩ := bind_eq_some_iff.1 h2
    change (t1.modify a (byChild.setNext r.next)).bind _ = _
    rw [ha, bind_some]
    cases hn : r.next with
    | some n =>
      simp only [hn] at h2
      change (ta.modify n (byChild.setPrev (some a))).bind _ = _
      rw [h2, bind_some, h3]
      rfl
    | none =>
      simp only [hn] at h2
      cases h2
      rw [h3]
      rfl
  | none =>
    simp only [hprev] at h2 ⊢
    obtain ⟨ta, ha, h2⟩ := bind_eq_some_iff.1 h2
    change t1.modify p (fun s => { s with firstChild := r.next }) = some ta at ha
    rw [ha]
    cases hn : r.next with
    | some n =>
      simp only [hn] at h2
      change (ta.modify n (byChild.setPrev none)).bind _ = _
      rw [h2, bind_some, h3]
      rfl
    | none =>
      simp only [hn] at h2
      cases h2
      rw [getD_some, h3]
      rfl

/-- The record `r` of `c` is out of the lists of its parent `p`. -/
structure Unlinked (t t' : Records) (c p : Index) (r : Record) : Prop where
  frame : Frame cutLists t t'
  ready : ∀ x, t'.isReady x = if x = c then false else t.isReady x
  nexts : ∀ x, byChild.nexts t' x = if some x = r.previous then r.next else byChild.nexts t x
  prevs : ∀ x, byChild.prevs t' x = if some x = r.next then r.previous else byChild.prevs t x
  firsts : ∀ x, byChild.firsts t' x = if x = p ∧ r.previous = none then r.next else byChild.firsts t x
  count : ∀ x, t'.childCount x = if x = p then t.childCount p - 1 else t.childCount x

/-- A zombie that leaves the lists of its parent, just before its record goes. -/
theorem reap_unlinks (hl : Lists t kids rdy) (hr : t.records c = some r) (hz : r.state.isZombie = true)
    (hpar : r.parentIndex = some p) :
    ∃ t3 rdy', t.reap c = t3.freeIndex c ∧ Readies t3 rdy' ∧ Unlinked t t3 c p r := by
  have howner : t.parents c = some p := by rw [parents_of_some hr, hpar]
  have hprev : byChild.prevs t c = r.previous := by rw [Fields.prevs, hr]; rfl
  have hnext : byChild.nexts t c = r.next := by rw [Fields.nexts, hr]; rfl
  obtain ⟨t1, rdy1, h1, hf1, hrd1, hi1⟩ := readyRemove_spec hl.kin.readies c
  have hthere : ∀ x, (∃ rx, t.records x = some rx) → ∃ rx, t1.records x = some rx := by
    rintro x ⟨rx, hx⟩
    obtain ⟨r', hr', -⟩ := hf1.exists_of hx
    exact ⟨r', hr'⟩
  have hsibling : ∀ x, t.parents x = some p → ∃ rx, t1.records x = some rx := by
    intro x hx
    obtain ⟨rx, hx, -⟩ := bind_eq_some_iff.1 hx
    exact hthere x ⟨rx, hx⟩
  obtain ⟨t2, h2, hl2⟩ := Fields.pluck_spec (L := byChild)
    (fun a (ha : r.previous = some a) => hsibling a (hl.kin.family.owner_prev howner (hprev.trans ha)))
    (fun b (hb : r.next = some b) => hsibling b (hl.kin.family.owner_next howner (hnext.trans hb)))
    (hthere p (hl.exists_parent howner))
  obtain ⟨rp, hrp⟩ := hthere p (hl.exists_parent howner)
  obtain ⟨rp2, hrp2, hcut⟩ := hl2.frame.exists_of hrp
  have h3 := modify_of_some hrp2 fun r => { r with children := r.children - 1 }
  have hf3 : Frame cutChild t1 (t2.set p { rp2 with children := rp2.children - 1 }) :=
    .trans (hl2.frame.mono fun _ => rfl) (.modify h3 fun _ => rfl)
  refine ⟨_, rdy1, reap_eq hr hz hpar h1 h2 h3, hrd1.of_cutChild hf3, .trans (hf1.mono fun _ => rfl)
    (hf3.mono fun _ => rfl), fun x => ?_, fun x => ?_, fun x => ?_, fun x => ?_, fun x => ?_⟩
  · rw [← hi1]
    exact (same_modify h3 (·.any ready) (fun _ => rfl) x).trans
      (hl2.frame.field (·.any ready) (fun o => by cases o <;> rfl) x)
  · rw [← congrFun hf1.child_fields.nexts x, ← hl2.nexts]
    exact same_modify h3 (·.bind next) (fun _ => rfl) x
  · rw [← congrFun hf1.child_fields.prevs x, ← hl2.prevs]
    exact same_modify h3 (·.bind previous) (fun _ => rfl) x
  · rw [← congrFun hf1.child_fields.firsts x, ← hl2.firsts]
    exact same_modify h3 (·.bind firstChild) (fun _ => rfl) x
  · have hc2 : ∀ x, t2.childCount x = t.childCount x := by
      intro x
      rw [← congrFun hf1.child_fields.childCount x]
      exact hl2.frame.field (·.elim 0 children) (fun o => by cases o <;> rfl) x
    rw [← hc2 p, ← hc2 x, childCount_of_some hrp2]
    exact field_set (·.elim 0 children) x

/-- What the cut leaves of a zombie. -/
theorem Kin.zombie_of_cutLists (hk : Kin t back heads kids rdy) (h : Frame cutLists t t') (hr' : t'.records i = some r')
    (hz : r'.state.isZombie = true) : kids i = [] ∧ (r'.parentIndex ≠ none → t.isReady i = true) ∧ r'.stopReport = none ∧
      r'.contReport = false :=
  hk.zombie_of_life (h.field (·.map life) (fun o => by cases o <;> rfl) i) hr' hz

/-- A zombie with a parent goes: the lists without it. -/
theorem Lists.reap (hl : Lists t kids rdy) (hr : t.records c = some r)
    (hz : r.state.isZombie = true) (hpar : r.parentIndex = some p) (hrd : Readies t3 rdy') (hu : Unlinked t t3 c p r)
    (hrec : t'.records = update t3.records c none) :
    Lists t' (update kids p ((kids p).erase c)) rdy' := by
  have howner : t.parents c = some p := by rw [parents_of_some hr, hpar]
  have hprev : byChild.prevs t c = r.previous := by rw [Fields.prevs, hr]; rfl
  have hnext : byChild.nexts t c = r.next := by rw [Fields.nexts, hr]; rfl
  have hparents : t3.parents = t.parents := hu.frame.parents_eq fun _ => rfl
  have hcp : c ≠ p := fun he => hl.kin.self c (by rw [howner, he])
  obtain ⟨hnil, -⟩ := hl.kin.zombie c r hr hz
  have hmem : c ∈ kids p := (hl.kin.family.mem p c).2 howner
  refine ⟨⟨?_, ?_, fun i hi => ?_, fun i x hx hzx => ?_⟩, fun i => ?_, fun i => ?_⟩
  · refine hl.kin.family.remove howner (fun x => ?_) (fun x => ?_) (fun k => ?_) fun x => ?_
    · rw [Fields.nexts, field_erase hrec, hnext, hprev, ← hu.nexts]
      rfl
    · rw [Fields.prevs, field_erase hrec, hnext, hprev, ← hu.prevs]
      rfl
    · rw [Fields.firsts, field_erase hrec, hnext, hprev]
      split
      case isTrue hk =>
        rw [hk, if_neg fun h => hcp h.1, hl.kin.family.head_eq_none.2 hnil]
      case isFalse => exact hu.firsts k
    · rw [parents, field_erase hrec, ← hparents]
      rfl
  · refine hrd.erase hrec (by rw [hu.ready, if_pos rfl]) ?_
    rw [hparents]
    exact hl.kin.parents_ne hnil
  · rw [parents, field_erase hrec] at hi
    split at hi
    · cases hi
    · exact hl.kin.self i (by rw [← hparents]; exact hi)
  · rw [hrec, update_apply] at hx
    split at hx
    · cases hx
    case isFalse hne =>
      obtain ⟨h1, h2, h3⟩ := hl.kin.zombie_of_cutLists hu.frame hx hzx
      have hip : i ≠ p := by
        rintro rfl
        rw [h1] at hmem
        cases hmem
      refine ⟨by rw [update_of_ne hip, h1], fun hpx => ?_, h3⟩
      rw [← isReady_of_some hx, hu.ready, if_neg hne]
      exact h2 hpx
  · rw [childCount_erase hrec, hu.count, update_apply]
    split
    case isTrue hic => rw [hic, if_neg hcp, hnil]; rfl
    case isFalse =>
      split
      · rw [hl.count, List.length_erase_of_mem hmem]
      · exact hl.count i
  · rw [update_apply]
    split
    · exact List.length_erase_le.trans (hl.bound p)
    · exact hl.bound i

/-- **`reap`**: a zombie goes from the lists, from the counts and from the table. -/
theorem reap_spec (hl : Lists t kids rdy) (hg : Grouped t ahead slack loose) (c : Index) :
    ∃ t' kids' rdy', t.reap c = some t' ∧ Lists t' kids' rdy' ∧ Grouped t' ahead slack loose := by
  cases hr : t.records c with
  | none => exact ⟨t, kids, rdy, by simp [reap, hr], hl, hg⟩
  | some r =>
    cases hz : r.state.isZombie with
    | false => exact ⟨t, kids, rdy, by simp [reap, hr, hz], hl, hg⟩
    | true =>
      obtain ⟨hnil, -⟩ := hl.kin.zombie c r hr hz
      have hchild := hl.kin.parents_ne hnil
      cases hpar : r.parentIndex with
      | none =>
        have hnone : t.parents c = none := by rw [parents_of_some hr, hpar]
        have hready := hl.kin.readies.unready hnone
        have hout := hl.kin.family.outside c hnone
        have hnext : r.next = none := by rw [← hout.1, Fields.nexts, hr]; rfl
        have hprev : r.previous = none := by rw [← hout.2, Fields.prevs, hr]; rfl
        obtain ⟨t', h', hg', hrec⟩ := freeIndex_spec hg hr hz hready hchild
        refine ⟨t', kids, rdy, ?_, hl.erase hrec hnone hnil hchild, hg'⟩
        rw [← h', reap, hr]
        simp [hz, readyRemove_of_not hready, hpar, hnext, hprev]
      | some p =>
        obtain ⟨t3, rdy', heq, hrd, hu⟩ := reap_unlinks hl hr hz hpar
        obtain ⟨r3, hr3, hs⟩ := hu.frame.exists_of hr
        have hparents : t3.parents = t.parents := hu.frame.parents_eq fun _ => rfl
        obtain ⟨t', h', hg', hrec⟩ := freeIndex_spec (hg.of_frame hu.frame fun _ => rfl) hr3
          (by rw [show r3.state = r.state from (congrArg state hs :), hz]) (by rw [hu.ready, if_pos rfl]) (by rw [hparents]; exact hchild)
        exact ⟨t', _, rdy', heq.trans h', hl.reap hr hz hpar hrd hu hrec, hg'⟩

end Records

end Process
