import Stafeto.Process.Kin

/-!
# The end of a process

`exited` takes the list of the children apart from its head: each child loses its parent and its link, a zombie
among them goes, the others live on without a parent. Then the record itself turns into a zombie, and goes at
once where nobody can wait for it.
-/

namespace Process

open Chain Records Function Record

/-- A child as the end of its parent leaves it. -/
def Record.disowned (r : Record) : Record :=
  { r with parentIndex := none, previous := none, next := none, linked := false }

/-- The zombie that a record turns into. -/
def Record.zombie (r : Record) (e : End) : Record :=
  { r with linked := false, state := .zombie e, stopReport := none, contReport := false }

namespace Records

variable {t t' t1 : Records} {i c p index : Index} {r r' : Record} {ahead : Nat → Tally} {slack loose : Set Index}
  {kids rdy rdy' : Index → List Index} {cursor : Option Index}

/-- The loop of `exited` is at `cursor`: the rest of the list hangs on the loop and not on the record. -/
structure Parting (t : Records) (index : Index) (cursor : Option Index) (kids rdy : Index → List Index)
    (ahead : Nat → Tally) (slack : Set Index) : Prop where
  kin : Kin t (fun x => if some x = cursor then none else byChild.prevs t x)
    (fun k => if k = index then cursor else byChild.firsts t k) kids rdy
  head : byChild.firsts t index = none
  count : ∀ i, i ≠ index → t.childCount i = (kids i).length
  bound : ∀ i, (kids i).length ≤ CHILDREN_MAX
  alive : ∃ r, t.records index = some r ∧ r.state.isZombie = false
  unready : t.isReady index = false
  grouped : Grouped t ahead slack ∅

/-- A child that is not among the ready ones loses its parent. -/
theorem Readies.orphan (h : Readies t rdy) (hr : t.records c = some r) (hready : t.isReady c = false) :
    Readies (t.set c r.disowned) rdy := by
  refine h.congr (same_modify (modify_of_some hr disowned) readyLinks fun _ => rfl) fun x hx => ?_
  refine (field_set (·.bind parentIndex) x).trans (if_neg ?_)
  rintro rfl
  rw [hready] at hx
  cases hx

theorem Parting.cursor_owner (h : Parting t index (some c) kids rdy ahead slack) : t.parents c = some index := by
  refine h.kin.family.owner_head ?_
  rw [if_pos rfl]

/-- The lists without the child at the cursor. -/
theorem Parting.kin_disowned (h : Parting t index (some c) kids rdy ahead slack)
    (hf : Frame cutReady t t1) (hrd : Readies t1 rdy') (hi : ∀ x, t1.isReady x = if x = c then false else t.isReady x)
    (hr : t1.records c = some r) :
    Kin (t1.set c r.disowned) (fun x => if some x = r.next then none else byChild.prevs (t1.set c r.disowned) x)
      (fun k => if k = index then r.next else byChild.firsts (t1.set c r.disowned) k)
      (update kids index ((kids index).erase c)) rdy' := by
  have howner := h.cursor_owner
  have hci : c ≠ index := fun he => h.kin.self c (by rw [howner, he])
  have hset := modify_of_some hr disowned
  have hparents : t1.parents = t.parents := hf.parents_eq fun _ => rfl
  have hsame := hf.child_fields
  have hnext : byChild.nexts t c = r.next := by rw [← hsame.nexts, Fields.nexts, hr]; rfl
  have hcut : Frame cutLists t t1 := hf.mono fun _ => rfl
  refine ⟨?_, hrd.orphan hr (by rw [hi, if_pos rfl]), fun i hself => ?_, fun i x hx hz => ?_⟩
  · refine h.kin.family.remove howner (fun x => ?_) (fun x => ?_) (fun k => ?_) fun x => ?_
    · simp only [if_true]
      rw [← hsame.nexts]
      exact field_set (·.bind next) x
    · have hset' : byChild.prevs (t1.set c r.disowned) x = if x = c then none else byChild.prevs t1 x :=
        field_set (·.bind previous) x
      simp only [hset', hsame.prevs, hnext]
      by_cases hx : x = c
      · simp [hx]
      · simp [hx]
    · have hset' : byChild.firsts (t1.set c r.disowned) k = byChild.firsts t k :=
        (same_modify hset (·.bind firstChild) (fun _ => rfl) k).trans (congrFun hsame.firsts k)
      simp only [hset', hnext]
      by_cases hk : k = index
      · simp [hk]
      · simp [hk]
    · rw [← hparents]
      exact field_set (·.bind parentIndex) x
  · have hset' : (t1.set c r.disowned).parents i = if i = c then none else t1.parents i :=
      field_set (·.bind parentIndex) i
    rw [hset', hparents] at hself
    split at hself
    · cases hself
    · exact h.kin.self i hself
  · rw [records_set] at hx
    split at hx
    case isTrue hic =>
      cases hx
      obtain ⟨h1, -, h3⟩ := h.kin.zombie_of_cutLists hcut hr hz
      rw [hic, update_of_ne hci]
      exact ⟨h1, fun hp => absurd rfl hp, h3⟩
    case isFalse hic =>
      obtain ⟨h1, h2, h3⟩ := h.kin.zombie_of_cutLists hcut hx hz
      have hii : i ≠ index := by
        rintro rfl
        obtain ⟨ri, hri, hzi⟩ := h.alive
        obtain ⟨x', hx', hs⟩ := hcut.exists_of hri
        cases hx.symm.trans hx'
        rw [show x.state = ri.state from (congrArg state hs :), hzi] at hz
        cases hz
      refine ⟨by rw [update_of_ne hii, h1], fun hpx => ?_, h3⟩
      rw [← isReady_of_some hx, hi, if_neg hic]
      exact h2 hpx

/-- The loop's state does not see what the counts do. -/
theorem Parting.of_records (h : Parting t index cursor kids rdy ahead slack) (hrec : t'.records = t.records)
    {ahead' : Nat → Tally} (hg : Grouped t' ahead' slack ∅) : Parting t' index cursor kids rdy ahead' slack := by
  have ha : Alike t t' := .of_records hrec
  refine ⟨?_, ?_, ?_, h.bound, ?_, ?_, hg⟩
  · rw [ha.sameKin.prevs, ha.sameKin.firsts]
    exact ha.kin h.kin
  · rw [ha.sameKin.firsts]
    exact h.head
  · rw [ha.sameKin.childCount]
    exact h.count
  · rw [hrec]
    exact h.alive
  · rw [ha.isReady]
    exact h.unready

theorem Parting.erase (h : Parting t index cursor kids rdy ahead slack) (hrec : t'.records = update t.records c none)
    (hci : c ≠ index) (hpar : t.parents c = none) (hprev : byChild.prevs t c = none) (hnil : kids c = [])
    (hg : Grouped t' ahead slack ∅) : Parting t' index cursor kids rdy ahead slack := by
  have hfirst : byChild.firsts t c = none := by
    have := h.kin.family.head_eq_none.2 hnil
    rwa [if_neg hci] at this
  have h1 : byChild.prevs t' = byChild.prevs t := funext (same_erase hrec byChild.prev hprev)
  have h2 : byChild.firsts t' = byChild.firsts t := funext (same_erase hrec byChild.first hfirst)
  refine ⟨?_, ?_, fun i hi => ?_, h.bound, ?_, ?_, hg⟩
  · rw [h1, h2]
    exact h.kin.erase hrec hpar (h.kin.parents_ne hnil)
  · rw [h2]
    exact h.head
  · rw [childCount_erase hrec]
    split
    case isTrue hic => rw [hic, hnil]; rfl
    case isFalse => exact h.count i hi
  · rw [hrec, update_of_ne hci.symm]
    exact h.alive
  · rw [isReady_erase hrec, if_neg hci.symm]
    exact h.unready

/-- The child has lost its parent; its link is still counted. -/
theorem Parting.disowned (h : Parting t index (some c) kids rdy ahead slack)
    (hf : Frame cutReady t t1) (hrd : Readies t1 rdy') (hi : ∀ x, t1.isReady x = if x = c then false else t.isReady x)
    (hr : t1.records c = some r) :
    Parting (t1.set c r.disowned) index r.next (update kids index ((kids index).erase c)) rdy'
      (ahead + Pi.single r.pgid (0, 0, r.linked.toNat, 0)) slack := by
  have hci : c ≠ index := fun he => h.kin.self c (by rw [h.cursor_owner, he])
  have hset := modify_of_some hr Record.disowned
  refine ⟨h.kin_disowned hf hrd hi hr, ?_, fun i hii => ?_, fun i => ?_, ?_, ?_, ?_⟩
  · rw [← h.head, ← hf.child_fields.firsts]
    exact same_modify hset (·.bind firstChild) (fun _ => rfl) index
  · rw [update_of_ne hii, ← h.count i hii, ← hf.child_fields.childCount]
    exact same_modify hset (·.elim 0 children) (fun _ => rfl) i
  · rw [update_apply]
    split
    · exact List.length_erase_le.trans (h.bound index)
    · exact h.bound i
  · obtain ⟨ri, hri, hz⟩ := h.alive
    obtain ⟨ri', hri', hs⟩ := hf.exists_of hri
    refine ⟨ri', by rw [records_set, if_neg hci.symm, hri'], ?_⟩
    rw [show ri'.state = ri.state from (congrArg state hs :), hz]
  · have hsame := same_modify hset (·.any ready) (fun _ => rfl) index
    rw [isReady, hsame]
    exact (hi index).trans (by rw [if_neg hci.symm, h.unready])
  · have hg1 : Grouped t1 (ahead + Pi.single r.pgid 0) slack ∅ := by
      rw [Pi.single_zero]
      exact h.grouped.of_frame hf fun _ => rfl
    refine hg1.retouch hr rfl rfl rfl ?_ (fun _ => rfl) (fun _ => ?_) fun _ hj _ => hj
    · simp [Record.disowned]
    · simp [Record.disowned]

theorem disownChild_spec (h : Parting t index (some c) kids rdy ahead slack) :
    ∃ t' r rdy', t.disownChild c = some (t', r) ∧
      Parting t' index r.next (update kids index ((kids index).erase c)) rdy' ahead slack := by
  have hci : c ≠ index := fun he => h.kin.self c (by rw [h.cursor_owner, he])
  obtain ⟨t1, rdy1, h1, hf1, hrd1, hi1⟩ := readyRemove_spec h.kin.readies c
  obtain ⟨r0, hr0, -⟩ := Option.bind_eq_some_iff.1 h.cursor_owner
  obtain ⟨r, hr, -⟩ := hf1.exists_of hr0
  have h2 := h.disowned hf1 hrd1 hi1 hr
  have hr2 : (t1.set c r.disowned).records c = some r.disowned := by rw [records_set, if_pos rfl]
  obtain ⟨t3, h3, hg3, hs3⟩ := unlink_spec h2.grouped (h2.grouped.placed c _ (cores_of_some hr2)).1
    fun p hp => h2.grouped.numbers_notMem_free hr2 (.inl hp)
  have hp3 := h2.of_records hs3.records hg3
  have hr3 : t3.records c = some r.disowned := by rw [hs3.records, hr2]
  cases hz : r.state.isZombie with
  | false =>
    refine ⟨t3, r, rdy1, ?_, hp3⟩
    unfold disownChild
    simp only [Option.bind_eq_bind, h1, Option.bind_some, hr]
    change ((t1.set c r.disowned).unlink r.pgid r.linked).bind _ = _
    simp [h3, hz]
  | true =>
    obtain ⟨hnil, -⟩ := hp3.kin.zombie c _ hr3 hz
    have hpar : t3.parents c = none := by rw [parents_of_some hr3]; rfl
    obtain ⟨t4, h4, hg4, hrec4⟩ := freeIndex_spec hg3 hr3 hz (hp3.kin.readies.unready hpar) (hp3.kin.parents_ne hnil)
    refine ⟨t4, r, rdy1, ?_, hp3.erase hrec4 hci hpar (by rw [Fields.prevs, hr3]; rfl) hnil hg4⟩
    unfold disownChild
    simp only [Option.bind_eq_bind, h1, Option.bind_some, hr]
    change ((t1.set c r.disowned).unlink r.pgid r.linked).bind _ = _
    simp [h3, hz, h4]

/-- **The loop of `exited`.** In the end the record has no children, and nobody has it as a parent. -/
theorem disown_spec {l : List Index} {fuel : Nat} {orphans : List Index}
    (h : Parting t index cursor kids rdy ahead slack) (hl : kids index = l) (hfuel : l.length ≤ fuel)
    (hroom : orphans.length + l.length ≤ CHILDREN_MAX) :
    ∃ t' orphans' kids' rdy', disown fuel cursor t orphans = some (t', orphans') ∧ kids' index = [] ∧
      Parting t' index none kids' rdy' ahead slack := by
  have hhead := (h.kin.family.linked index).head_eq
  simp only [hl] at hhead
  induction l generalizing t cursor kids rdy orphans fuel with
  | nil =>
    subst hhead
    refine ⟨t, orphans, kids, rdy, ?_, hl, h⟩
    cases fuel <;> rfl
  | cons c l ih =>
    subst hhead
    cases fuel with
    | zero => simp at hfuel
    | succ fuel =>
      obtain ⟨t1, r, rdy1, h1, hp1⟩ := disownChild_spec h
      have hl1 : update kids index ((kids index).erase c) index = l := by
        rw [update_self, hl, List.erase_cons_head]
      have hhead1 := (hp1.kin.family.linked index).head_eq
      simp only [hl1] at hhead1
      simp only [List.length_cons] at hroom
      have hdisown : disown (fuel + 1) (some c) t orphans =
          if r.state.isZombie then disown fuel r.next t1 orphans
          else if orphans.length < CHILDREN_MAX then disown fuel r.next t1 (orphans ++ [c]) else none := by
        rw [disown, h1]
        rfl
      rw [List.head?_cons, hdisown]
      cases r.state.isZombie with
      | true =>
        have hroom' : orphans.length + l.length ≤ CHILDREN_MAX := by omega
        exact ih hp1 hl1 (Nat.le_of_succ_le_succ hfuel) hroom' hhead1
      | false =>
        have hroom' : (orphans ++ [c]).length + l.length ≤ CHILDREN_MAX := by
          rw [List.length_append, List.length_singleton]
          omega
        simp only [Bool.false_eq_true, if_false]
        rw [if_pos (by omega)]
        exact ih hp1 hl1 (Nat.le_of_succ_le_succ hfuel) hroom' hhead1

/-! ## The record itself -/

/-- The head of the list moves from the record to the loop. -/
theorem Parting.start (hl : Lists t kids rdy) (hg : Grouped t ahead slack ∅) (hr : t.records index = some r)
    (hz : r.state.isZombie = false) (hready : t.isReady index = false) :
    Parting (t.set index { r with firstChild := none }) index r.firstChild kids rdy ahead slack := by
  have hset := modify_of_some hr fun r => { r with firstChild := none }
  set t1 := t.set index { r with firstChild := none }
  have hf : Frame cutChild t t1 := .modify hset fun _ => rfl
  have hfirst : byChild.firsts t index = r.firstChild := by rw [Fields.firsts, hr]; rfl
  have hn : byChild.nexts t1 = byChild.nexts t := funext (same_modify hset (·.bind next) fun _ => rfl)
  have hp : byChild.prevs t1 = byChild.prevs t := funext (same_modify hset (·.bind previous) fun _ => rfl)
  have hfst : ∀ k, byChild.firsts t1 k = if k = index then none else byChild.firsts t k :=
    field_modify hset firstChild fun _ => rfl
  have hback : (fun x => if some x = r.firstChild then none else byChild.prevs t1 x) = byChild.prevs t := by
    funext x
    rw [hp]
    split
    case isTrue hx =>
      have howner := hl.kin.family.owner_head (hfirst.trans hx.symm)
      exact (((hl.kin.family.linked index).prev_eq_none (hl.kin.family.nodup index)
        ((hl.kin.family.mem index x).2 howner)).2 (hfirst.trans hx.symm)).symm
    case isFalse => rfl
  have hheads : (fun k => if k = index then r.firstChild else byChild.firsts t1 k) = byChild.firsts t := by
    funext k
    rw [hfst]
    split
    case isTrue hk => rw [hk, hfirst]
    case isFalse => rfl
  refine ⟨hl.kin.of_cutChild hf ?_, ?_, fun i hii => ?_, hl.bound, ?_, ?_, hg.of_frame hf fun _ => rfl⟩
  · rw [hback, hheads, hn]
    exact hl.kin.family
  · rw [hfst, if_pos rfl]
  · rw [← hl.count]
    exact same_modify hset (·.elim 0 children) (fun _ => rfl) i
  · exact ⟨{ r with firstChild := none }, by rw [records_set, if_pos rfl], hz⟩
  · exact (same_modify hset (·.any ready) (fun _ => rfl) index).trans hready

/-- The lists once the loop is through. -/
theorem Parting.finish (h : Parting t index none kids rdy ahead slack) (hnil : kids index = [])
    (hr : t.records index = some r) : Lists (t.set index { r with children := 0 }) kids rdy := by
  have hset := modify_of_some hr fun r => { r with children := 0 }
  set t1 := t.set index { r with children := 0 }
  have hf : Frame cutChild t t1 := .modify hset fun _ => rfl
  have hn : byChild.nexts t1 = byChild.nexts t := funext (same_modify hset (·.bind next) fun _ => rfl)
  have hp : byChild.prevs t1 = byChild.prevs t := funext (same_modify hset (·.bind previous) fun _ => rfl)
  have hfst : byChild.firsts t1 = byChild.firsts t := funext (same_modify hset (·.bind firstChild) fun _ => rfl)
  have hheads : (fun k => if k = index then none else byChild.firsts t k) = byChild.firsts t := by
    funext k
    split
    case isTrue hk => rw [hk, h.head]
    case isFalse => rfl
  have hfam := h.kin.family
  rw [hheads] at hfam
  refine ⟨h.kin.of_cutChild hf ?_, fun i => ?_, h.bound⟩
  · rw [hn, hp, hfst]
    exact hfam
  · have hcount : t1.childCount i = if i = index then 0 else t.childCount i := field_set (·.elim 0 children) i
    rw [hcount]
    split
    case isTrue hii => rw [hii, hnil]; rfl
    case isFalse hii => exact h.count i hii

theorem partWithChildren_spec (hl : Lists t kids rdy) (hg : Grouped t ahead slack ∅) (hr : t.records index = some r)
    (hz : r.state.isZombie = false) :
    ∃ t' orphans kids' rdy' r', t.partWithChildren index = some (t', orphans) ∧ Lists t' kids' rdy' ∧
      Grouped t' ahead slack ∅ ∧ t'.records index = some r' ∧ r'.state.isZombie = false ∧ kids' index = [] := by
  obtain ⟨t1, rdy1, h1, hf1, hl1, hi1⟩ := hl.readyRemove hr hz
  obtain ⟨r1, hr1, hs1⟩ := hf1.exists_of hr
  have hstate1 : r1.state = r.state := (congrArg state hs1 :)
  obtain ⟨t2, v, h2, -, hg2, hrec2⟩ := setStopped_spec (hg.of_frame hf1 fun _ => rfl) hr1 none
  have ha2 : Alike t1 t2 := .of_update hr1 hrec2 rfl
  have hr2 : t2.records index = some { r1 with stopped := v } := by rw [hrec2, update_self]
  have hready2 : t2.isReady index = false := by rw [ha2.isReady, hi1, if_pos rfl]
  have hp3 := Parting.start (ha2.lists hl1) hg2 hr2 (by rw [← hz, ← hstate1]) hready2
  obtain ⟨t4, orphans, kids4, rdy4, h4, hnil, hp4⟩ := disown_spec hp3 rfl (hl.kin.family.nodup index).length_le_card
    (show ([] : List Index).length + _ ≤ _ by simpa using hl.bound index)
  obtain ⟨r4, hr4, hz4⟩ := hp4.alive
  have h5 := modify_of_some hr4 fun r => { r with children := 0 }
  refine ⟨_, orphans, kids4, rdy4, { r4 with children := 0 }, ?_, hp4.finish hnil hr4, ?_, ?_, hz4, hnil⟩
  · rw [Fintype.card_fin] at h4
    unfold partWithChildren
    simp [h1, h2, hr2, h4, h5]
  · exact hp4.grouped.of_frame (.modify h5 fun r => (rfl : cutChild { r with children := 0 } = cutChild r)) fun _ => rfl
  · rw [records_set, if_pos rfl]

/-- The record and the place of its grant: its link is still counted. -/
theorem Grouped.zombie (hg : Grouped t ahead slack ∅) (hr : t.records index = some r) (hz : r.state.isZombie = false)
    (e : End) : Grouped (t.put index (some (r.zombie e)) (t.giveUpPlace r.mark).held)
      (ahead + Pi.single r.pgid (0, 0, r.linked.toNat, 0)) slack ∅ := by
  have hle := hg.holdsPlace_le hr
  rw [← add_zero ahead, ← Pi.single_zero r.pgid] at hg
  refine hg.retouch hr rfl rfl rfl ?_ (fun g => ?_) (fun _ => rfl) fun _ hj _ => hj
  · simp [Record.zombie]
  · have hle := hle g
    rw [holdsPlace_alive hz] at hle ⊢
    show (t.giveUpPlace r.mark).placesHeld g + _ = _
    rw [placesHeld_giveUpPlace, Nat.sub_add_cancel hle]
    rfl

theorem becomeZombie_spec (hl : Lists t kids rdy) (hg : Grouped t ahead slack ∅) (hr : t.records index = some r)
    (hz : r.state.isZombie = false) (hnil : kids index = []) (e : End) :
    ∃ t' rdy', t.becomeZombie index e r = some t' ∧ Lists t' kids rdy' ∧ Grouped t' ahead slack ∅ := by
  have hset := modify_of_some hr fun r => r.zombie e
  set tz := t.set index (r.zombie e) with htz
  have hkinz : SameKin t tz := same_modify hset kinLinks fun _ => rfl
  have hrdz : Readies tz rdy :=
    hl.kin.readies.congr (same_modify hset readyLinks fun _ => rfl) fun x _ => congrFun hkinz.parents x
  have hg1 := hg.zombie hr hz e
  have hr1 : (t.put index (some (r.zombie e)) (t.giveUpPlace r.mark).held).records index = some (r.zombie e) :=
    update_self ..
  obtain ⟨t2, h2, hg2, hs2⟩ := unlink_spec hg1 (hg1.placed index _ (cores_of_some hr1)).1
    fun p hp => hg1.numbers_notMem_free hr1 (.inl hp)
  have ha2 : Alike tz t2 := .of_records hs2.records
  have hr2 : t2.records index = some (r.zombie e) := by rw [hs2.records, hr1]
  have hthere : ∀ x, (∃ rx, t.records x = some rx) → ∃ rx, t2.records x = some rx := by
    intro x hx
    rw [hs2.records]
    exact exists_set hx
  obtain ⟨t3, rdy3, h3, hf3, hrd3, hi3⟩ := readyAdd_spec (ha2.readies hrdz) hr2 fun p hp =>
    hthere p (hl.exists_parent (by rw [parents_of_some hr]; exact hp))
  have hkin := (hkinz.trans ha2.sameKin).trans hf3.child_fields
  have hready : ∀ x, t2.isReady x = t.isReady x := by
    intro x
    rw [ha2.isReady]
    exact same_modify hset (·.any ready) (fun _ => rfl) x
  refine ⟨t3, rdy3, ?_, hkin.lists hl hrd3 fun i x hx hzx => ?_, hg2.of_frame hf3 fun _ => rfl⟩
  · have hput : (t.giveUpPlace r.mark).set index (r.zombie e) =
        t.put index (some (r.zombie e)) (t.giveUpPlace r.mark).held := by
      conv_lhs => rw [giveUpPlace_eq]
      rfl
    unfold becomeZombie
    simp only [hz]
    change ((t.giveUpPlace r.mark).set index (r.zombie e) |>.unlink r.pgid r.linked).bind _ = _
    rw [hput, h2]
    exact h3
  · have hback := hf3.records i
    rw [hx, Option.map_some, eq_comm, Option.map_eq_some_iff] at hback
    obtain ⟨x2, hx2, hs⟩ := hback
    have hpar : x2.parentIndex = x.parentIndex := (congrArg parentIndex hs :)
    have hstate : x2.state = x.state := (congrArg state hs :)
    have hstop : x2.stopReport = x.stopReport := (congrArg stopReport hs :)
    have hcont : x2.contReport = x.contReport := (congrArg contReport hs :)
    rw [← isReady_of_some hx, hi3, ← hpar, ← hstop, ← hcont]
    by_cases hii : i = index
    · subst hii
      cases hr2.symm.trans hx2
      refine ⟨hnil, fun hp => ?_, rfl, rfl⟩
      have hloaded : (r.zombie e).state ≠ .loading := State.noConfusion
      rw [if_pos ⟨rfl, hloaded, hp⟩]
    · rw [hs2.records] at hx2
      have hx' : t.records i = some x2 := (update_of_ne hii ..).symm.trans hx2
      obtain ⟨h1, h2, h3⟩ := hl.kin.zombie i x2 hx' (by rw [hstate, hzx])
      rw [if_neg fun h => hii h.1, hready, isReady_of_some hx']
      exact ⟨h1, h2, h3⟩

/-- **`exited`**: whatever the record was, the lists, the counts and the free list are right after its end. -/
theorem exited_spec (hl : Lists t kids rdy) (hg : Grouped t ahead slack ∅) (hr : t.records index = some r)
    (hz : r.state.isZombie = false) (e : End) :
    ∃ t' exit orphans kids' rdy', t.exited index e = some (t', exit, orphans) ∧ Lists t' kids' rdy' ∧
      Grouped t' ahead slack ∅ := by
  obtain ⟨t1, orphans, kids1, rdy1, r1, h1, hl1, hg1, hr1, hz1, hnil⟩ := partWithChildren_spec hl hg hr hz
  obtain ⟨t2, rdy2, h2, hl2, hg2⟩ := becomeZombie_spec hl1 hg1 hr1 hz1 hnil e
  obtain ⟨t3, kids3, rdy3, h3, hl3, hg3⟩ := reap_spec hl2 hg2 index
  unfold exited
  simp only [Option.bind_eq_bind, h1, Option.bind_some, hr1, h2, h3]
  split
  · exact ⟨t2, _, orphans, kids1, rdy2, rfl, hl2, hg2⟩
  · exact ⟨t2, _, orphans, kids1, rdy2, rfl, hl2, hg2⟩
  · exact ⟨t3, _, orphans, kids3, rdy3, rfl, hl3, hg3⟩

end Records

end Process
