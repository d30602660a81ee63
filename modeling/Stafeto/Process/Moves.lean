import Stafeto.Process.Groups

/-!
# Moves between groups and sessions

A process that moves enters its new group and session, leaves the old ones, and then the links of its children are
looked at again: a child is linked while its parent is in another group of the same session, so a move of the
parent can change the link of every child and of nobody else.
-/

namespace Process

open Chain Records Function

/-- A record as the lists of children see it: without what belongs to the groups and the grants. -/
def Record.shape (r : Record) : Record :=
  { r with stopped := none, mark := none, pgid := 0, sid := 0, linked := false }

namespace Records

variable {t t' t1 : Records} {i p index : Index} {r r' : Record} {ahead : Nat → Tally} {slack loose loose' : Set Index}
  {prevs : Index → Option Index} {kids : Index → List Index}

/-- The records are as before but for their groups and grants. -/
def Alike (t t' : Records) : Prop := ∀ i, (t'.records i).map Record.shape = (t.records i).map Record.shape

namespace Alike

theorem refl (t : Records) : Alike t t := fun _ => rfl

theorem trans (h : Alike t t1) (h' : Alike t1 t') : Alike t t' := fun i => (h' i).trans (h i)

theorem of_records (h : t'.records = t.records) : Alike t t' := fun i => by rw [h]

theorem of_update (hr : t.records i = some r) (h : t'.records = update t.records i (some r'))
    (hs : r'.shape = r.shape) : Alike t t' := by
  intro x
  rw [h, update_apply]
  split
  case isTrue hx => rw [hx, hr, Option.map_some, Option.map_some, hs]
  case isFalse => rfl

theorem field {α : Type} (h : Alike t t') (F : Option Record → α) (hF : ∀ o, F o = F (o.map Record.shape)) (i : Index) :
    F (t'.records i) = F (t.records i) := by
  rw [hF, h i, ← hF]

theorem sameKin (h : Alike t t') : SameKin t t' := h.field kinLinks fun o => by cases o <;> rfl

end Alike

/-- A link that is found right is looked at. -/
theorem Grouped.tighten (h : Grouped t ahead slack loose) (hr : t.records i = some r)
    (hlinked : r.linked = (!r.state.isZombie && r.parentIndex.any fun p => t.separates p r.pgid r.sid))
    (hloose : ∀ j, j ∉ loose' → j ≠ i → j ∉ loose) : Grouped t ahead slack loose' := by
  refine { h with linked := fun j c hc hj => ?_ }
  by_cases hji : j = i
  · subst hji
    rw [cores_of_some hr] at hc
    cases hc
    exact hlinked
  · exact h.linked j c hc (hloose j hj hji)

theorem relinkChild_spec {c : Index} (h : Grouped t ahead slack loose) (hr : t.records c = some r)
    (hpar : r.parentIndex = some index) (hloose : ∀ j, j ∉ loose' → j ≠ c → j ∉ loose) :
    ∃ t', t.relinkChild index c r = some t' ∧ Grouped t' ahead slack loose' ∧ Alike t t' := by
  unfold relinkChild
  set now := t.separates index r.pgid r.sid && !r.state.isZombie with hnow
  have hright : now = (!r.state.isZombie && r.parentIndex.any fun p => t.separates p r.pgid r.sid) := by
    rw [hnow, Bool.and_comm, hpar]
    rfl
  by_cases hsame : now = r.linked
  · exact ⟨t, if_neg fun hne => hne hsame, h.tighten hr (hsame ▸ hright) hloose, .refl t⟩
  obtain ⟨p, hp, hplace⟩ := h.group_place hr
  rw [if_pos hsame, hplace]
  set f : Numbers → Numbers := fun g => { g with links := if now then g.links + 1 else g.links - 1 } with hf
  have h1 : Grouped ((t.put c (some { r with linked := now }) t.held).setNumbers p f) ahead slack loose' := by
    cases hnow' : now with
    | true =>
      have hfalse : r.linked = false := by simpa [hnow'] using Ne.symm hsame
      refine h.recount (b := (0, 0, 1, 0)) hr hp rfl rfl rfl (fun _ => rfl) (.inl rfl) ?_ (fun x hx => ?_) id
        (fun _ => hnow'.symm.trans hright) hloose
      · simp [hfalse]
      · rw [add_zero] at hx
        rw [← hx]
        simp [hf, hnow', Numbers.tally]
    | false =>
      have htrue : r.linked = true := by simpa [hnow'] using Ne.symm hsame
      refine h.recount (a := (0, 0, 1, 0)) hr hp rfl rfl rfl (fun _ => rfl) (.inr rfl) ?_
        (fun x hx => Numbers.tally_down hx rfl rfl (by simp [hf, hnow']) rfl) id (fun _ => hnow'.symm.trans hright) hloose
      simp [htrue]
  refine ⟨_, rfl, h1.markOrphan _, ?_⟩
  have hset : Alike t ((t.setNumbers p f).set c { r with linked := now }) := .of_update hr rfl rfl
  exact hset.trans (.of_records (Same.markOrphan _).records)

/-- The loop of `regroup` over the children: every link is right again. -/
theorem relink_spec {l : List Index} {fuel : Nat} {cursor pr : Option Index}
    (hl : IsLinked (byChild.nexts t) prevs pr cursor l) (hfuel : l.length ≤ fuel)
    (hparent : ∀ c ∈ l, t.parents c = some index) (h : Grouped t ahead slack { x | x ∈ l }) :
    ∃ t', relink index fuel cursor t = some t' ∧ Grouped t' ahead slack ∅ ∧ Alike t t' := by
  induction l generalizing t fuel cursor pr with
  | nil =>
    cases isLinked_nil.1 hl
    have hempty : { x | x ∈ ([] : List Index) } = ∅ := by
      ext x
      simp
    rw [hempty] at h
    refine ⟨t, ?_, h, .refl t⟩
    cases fuel <;> rfl
  | cons c l ih =>
    obtain ⟨rfl, -, hrest⟩ := isLinked_cons.1 hl
    cases fuel with
    | zero => simp at hfuel
    | succ fuel =>
      obtain ⟨r, hr, hpar⟩ := Option.bind_eq_some_iff.1 (hparent c (by simp))
      have hnext : byChild.nexts t c = r.next := by rw [Fields.nexts, hr]; rfl
      obtain ⟨t1, h1, hg1, ha1⟩ := relinkChild_spec h hr hpar fun j (hj : j ∉ { x | x ∈ l }) hjc hm =>
        (List.mem_cons.1 hm).elim hjc hj
      rw [hnext, ← ha1.sameKin.nexts] at hrest
      obtain ⟨t', h', hg', ha'⟩ := ih hrest (Nat.le_of_succ_le_succ hfuel)
        (fun x hx => by rw [ha1.sameKin.parents]; exact hparent x (by simp [hx])) hg1
      refine ⟨t', ?_, hg', ha1.trans ha'⟩
      rw [relink, hr]
      show (t.relinkChild index c r).bind _ = some t'
      rw [h1]
      exact h'

/-! ## The move itself -/

theorem core_tally_member (r : Record) : r.core.tally =
    member r.pgid r.sid r.linked + Pi.single r.pgid (0, r.stopped.isSome.toNat, 0, 0) := by
  have hsplit : ((1, r.stopped.isSome.toNat, r.linked.toNat, 0) : Tally) =
      (1, 0, r.linked.toNat, 0) + (0, r.stopped.isSome.toNat, 0, 0) := by simp
  rw [r.core_tally, hsplit, Pi.single_add, member]
  abel

theorem separates_put_of_ne {o : Option Record} {held : Nat → Nat} (hp : p ≠ i) (pgid sid : Nat) :
    (t.put i o held).separates p pgid sid = t.separates p pgid sid := by
  rw [separates_eq, separates_eq, cores_put, update_of_ne hp]

theorem any_congr {α : Type} {o : Option α} {f g : α → Bool} (h : ∀ x, o = some x → f x = g x) : o.any f = o.any g := by
  cases o with
  | none => rfl
  | some x => exact h x rfl

theorem setNumbers_comm {q : Index} (hpq : p ≠ q) (f g : Numbers → Numbers) :
    (t.setNumbers p f).setNumbers q g = (t.setNumbers q g).setNumbers p f := by
  unfold setNumbers
  simp only [update_of_ne hpq, update_of_ne hpq.symm]
  rw [update_comm hpq]

/-- The record moves: the counts are ahead by the member that it was. -/
theorem moveRecord_spec {pgid sid : Nat} {linked : Bool}
    (h : Grouped t (ahead + member pgid sid linked) slack ∅) (hr : t.records index = some r)
    (hz : r.state.isZombie = false) (hne : r.pgid ≠ pgid) (hg : t.Placed pgid) (hs : t.Placed sid)
    (hmem : ∀ h c, c ∈ kids h ↔ t.parents c = some h) (hself : r.parentIndex ≠ some index)
    (hlinked : linked = r.parentIndex.any fun p => t.separates p pgid sid) :
    ∃ t', t.moveStopped r pgid = some t' ∧
      Grouped (t'.set index { r with pgid := pgid, sid := sid, linked := linked })
        (ahead + member r.pgid r.sid r.linked) slack { x | x ∈ kids index } ∧ Same t t' := by
  set r' : Record := { r with pgid := pgid, sid := sid, linked := linked } with hr'
  -- the change of the record alone, whatever its group has counted before
  have hput : ∀ t1, Same t t1 → t1.free = t.free → Grouped t1 (ahead + r'.core.tally) slack ∅ →
      Grouped (t1.put index (some r') t1.held) (ahead + r.core.tally) slack { x | x ∈ kids index } := by
    intro t1 hsame hfree h1
    have hr1 : t1.records index = some r := by rw [hsame.records, hr]
    have hcore := cores_of_some hr1
    refine h1.put (h1.notMem_free_of_some hr1) (fun he => by cases he) (fun n => ?_) ?_ (fun g => ?_) fun j c hc hj => ?_
    · rw [hcore]
      exact add_comm _ _
    · rintro _ ⟨⟩
      exact ⟨⟨hsame.placed hg, hsame.placed hs⟩, h1.labelled index _ hcore⟩
    · rw [hcore]
      rfl
    · rw [cores_put, update_apply] at hc
      split at hc
      case isTrue he =>
        cases hc
        show linked = (!r.state.isZombie && r.parentIndex.any fun p => (t1.put index (some r') t1.held).separates p pgid sid)
        rw [hlinked, hz]
        refine any_congr fun p hp => ?_
        rw [separates_put_of_ne fun he => hself (by rw [hp, he]), hsame.separates]
      case isFalse he =>
        rw [h1.linked j c hc (by simp)]
        congr 1
        refine any_congr fun p hp => (separates_put_of_ne (fun hpi => hj ?_) _ _).symm
        rw [hsame.cores] at hc
        obtain ⟨x, hx, rfl⟩ := Option.map_eq_some_iff.1 hc
        rw [Set.mem_ofPred_eq, hmem, parents_of_some hx, ← hpi]
        exact hp
  have hmember : r'.core.tally = member pgid sid linked + Pi.single pgid (0, r.stopped.isSome.toNat, 0, 0) :=
    core_tally_member r'
  unfold moveStopped
  cases hstop : r.stopped.isSome with
  | false =>
    refine ⟨t, rfl, ?_, .refl t⟩
    have h1 := hput t (.refl t) rfl
    rw [hmember, core_tally_member, hstop] at h1
    have hz' : ∀ n : Nat, Pi.single (M := fun _ => Tally) n (0, false.toNat, 0, 0) = 0 := fun n => Pi.single_zero n
    rw [hz', hz'] at h1
    exact h1 h
  | true =>
    obtain ⟨q, hq, hplaceq⟩ := h.group_place hr
    obtain ⟨p, rfl, hgen⟩ := hg
    have hqp : q ≠ p := fun he => hne (by rw [hq, he])
    have hpfree : p ∉ t.free := by
      rw [member, add_comm (Pi.single _ _), ← add_assoc] at h
      exact h.notMem_free_of_ahead (.inl one_pos)
    have hqfree := h.numbers_notMem_free hr (.inl hq)
    set up : Numbers → Numbers := fun g => { g with stopped := g.stopped + 1 } with hup
    set down : Numbers → Numbers := fun g => { g with stopped := g.stopped - 1 } with hdown
    have h1 : Grouped (t.setNumbers p up) (ahead + r'.core.tally) slack ∅ := by
      rw [hmember, hstop, ← add_assoc]
      rw [← add_zero (ahead + _), ← Pi.single_zero (t.number p)] at h
      refine h.setNumbers hpfree (fun x hx => ?_) (.inr id)
      rw [add_zero] at hx
      rw [← hx]
      simp [hup, Numbers.tally]
    have h2 := hput _ (.setNumbers up) rfl h1
    rw [core_tally_member, hstop, ← add_assoc, hq] at h2
    have h3 : Grouped (((t.setNumbers p up).put index (some r') t.held).setNumbers q down)
        (ahead + member (t.number q) r.sid r.linked + Pi.single (t.number q) 0) slack { x | x ∈ kids index } :=
      Grouped.setNumbers h2 hqfree (fun x hx => Numbers.tally_down hx rfl rfl rfl rfl) (.inr id)
    rw [Pi.single_zero, add_zero, ← hq] at h3
    refine ⟨(t.setNumbers q down).setNumbers p up, ?_, ?_, .trans (.setNumbers _) (.setNumbers _)⟩
    · rw [hplaceq, placeOf_eq_some.2 ⟨rfl, hgen⟩]
      rfl
    · rw [setNumbers_comm hqp]
      exact h3

/-- **A move between groups.** The counts, the links and the free list are right after it. -/
theorem regroup_spec {pgid sid : Nat} {group session : Index}
    (h : Grouped t ahead slack ∅) (hk : Family (byChild.nexts t) prevs (byChild.firsts t) t.parents kids)
    (hr : t.records index = some r) (hz : r.state.isZombie = false) (hne : r.pgid ≠ pgid)
    (hself : r.parentIndex ≠ some index) (hg : t.placeOf pgid = some group) (hs : t.placeOf sid = some session)
    (hgf : group ∉ t.free) (hsf : session ∉ t.free) :
    ∃ t', t.regroup index pgid sid = some t' ∧ Grouped t' ahead slack ∅ ∧ Alike t t' := by
  set linked := r.parentIndex.any fun p => t.separates p pgid sid with hlinked
  obtain ⟨t1, h1, hg1, hs1, -⟩ : ∃ t1, t.enter pgid sid linked = some t1 ∧ _ := enter_spec h hg hs hgf hsf
  have hr1 : t1.records index = some r := by rw [hs1.records, hr]
  have hplaced : ∀ {n p}, t.placeOf n = some p → t1.Placed n := fun hp => hs1.placed ⟨_, placeOf_eq_some.1 hp⟩
  obtain ⟨t2, h2, hg2, hs2⟩ := moveRecord_spec hg1 hr1 hz hne (hplaced hg) (hplaced hs)
    (fun x c => by rw [hk.mem, parents, parents, hs1.records]) hself (by rw [hs1.separates])
  have hsame := hs1.trans hs2
  have hold := h.placed index _ (cores_of_some hr)
  obtain ⟨t3, h3, hg3, hs3⟩ := leave_spec hg2 (hsame.placed hold.1) (hsame.placed hold.2)
  have hrecords : t3.records = update t.records index (some { r with pgid := pgid, sid := sid, linked := linked }) := by
    rw [hs3.records, ← hsame.records]
    rfl
  have halike : Alike t t3 := .of_update hr hrecords rfl
  have hfirst : byChild.firsts t index = r.firstChild := by rw [Fields.firsts, hr]; rfl
  have hchain := hk.linked index
  rw [hfirst, ← halike.sameKin.nexts] at hchain
  obtain ⟨t4, h4, hg4, ha4⟩ := relink_spec hchain (hk.nodup index).length_le_card
    (fun c hc => by rw [halike.sameKin.parents]; exact (hk.mem index c).1 hc) hg3
  refine ⟨t4, ?_, hg4, halike.trans ha4⟩
  rw [regroup, hr]
  simp only [Option.bind_eq_bind, Option.bind_some, h1, h2, h3, ← hlinked]
  rw [Fintype.card_fin] at h4
  exact h4

end Records

end Process
