import Stafeto.Process.Births

/-!
# Runs of the process records

Every operation of the table keeps the lists (`Lists`) and the counts (`Grouped`) as long as no `set_pgid` moves a
zombie: `regroup` links the record it moves to its parent's group whatever its state, while a zombie counts for no
link anywhere else.
-/

namespace Process

open Chain Records Option

namespace Records

variable {t t' t1 : Records} {i c p index q : Index} {r r' : Record} {ahead : Nat → Tally} {slack loose : Set Index}
  {kids rdy : Index → List Index} {g : Nat} {P : Record → Bool}

/-! ## The operations -/

inductive Op where
  | insert (parent : Option Index) (flags pgroup : Nat)
  | retireNext
  | loaded (i : Index) (execed : Bool)
  | exec (i : Index)
  | exited (i : Index) (e : End)
  | reap (i : Index)
  | setPgid (caller : Index) (pid pgid : Nat)
  | setSid (caller : Index)
  | setStopped (i : Index) (signal : Option Nat)
  | report (i : Index) (signal : Option Nat)
  | consumeReport (child : Index) (result : WaitResult)
  | setMark (i : Index) (mark : Option Mark)
  | takeOrphan

/-- The table after a change of groups that may be refused. -/
def settled (t : Records) : Except GroupError Records → Records
  | .ok t' => t'
  | .error _ => t

def step (t : Records) : Op → Option Records
  | .insert none _ _ => do
    let label ← t.nextLabel
    t.insert label none .inherit
  | .insert (some p) flags pgroup => do
    let label ← t.nextLabel
    let join ← t.joining p flags pgroup label.pid
    t.insert label (some p) join
  | .retireNext => do
    let label ← t.nextLabel
    t.retireNext label
  | .loaded i execed => t.modify i fun r => { r with state := .alive, execed := execed }
  | .exec i => t.modify i fun r => { r with execed := true }
  | .exited i e => (t.exited i e).map (·.1)
  | .reap i => t.reap i
  | .setPgid caller pid pgid => (t.setPgid caller pid pgid).map t.settled
  | .setSid caller => (t.setSid caller).map t.settled
  | .setStopped i signal => t.setStopped i signal
  | .report i signal => t.report i signal
  | .consumeReport child result => t.consumeReport child result
  | .setMark i mark => some (t.setMark i mark)
  | .takeOrphan => some t.takeOrphan.2

def run (t : Records) : List Op → Option Records
  | [] => some t
  | op :: ops => (t.step op).bind (run · ops)

/-- There is a record in `i` and it is no zombie. -/
def lives (t : Records) (i : Index) : Bool := (t.records i).any fun r => !r.state.isZombie

/-- What the service sees to before it calls: a label for a new record, a living parent with room and a group it may
join, a living caller, a report that a wait has found, and a place for a mark that holds one. -/
def meets (t : Records) : Op → Bool
  | .insert none _ _ => t.nextLabel.isSome
  | .insert (some p) flags pgroup =>
    t.lives p && t.maySpawn p && t.nextLabel.any fun label => (t.joining p flags pgroup label.pid).isSome
  | .retireNext => t.nextLabel.isSome
  | .loaded i _ => (t.records i).any fun r => r.state == .loading
  | .exec i => t.lives i
  | .exited i _ => t.lives i
  | .reap _ => true
  | .setPgid caller _ _ => t.lives caller
  | .setSid caller => t.lives caller
  | .setStopped i _ => (t.records i).isSome
  | .report i _ => t.lives i
  | .consumeReport child .ended => (t.records child).isSome
  | .consumeReport child .stopped => (t.records child).any fun r => r.stopReport.isSome
  | .consumeReport child .continued => (t.records child).any fun r => r.contReport
  | .setMark i mark => (t.records i).isSome &&
    mark.all fun m => !m.holds || (decide (m.grant < GRANTS_MAX) && decide (t.held m.grant < 255))
  | .takeOrphan => true

/-- No `set_pgid` moves a zombie: it is refused, or the group is the one that the zombie has. -/
def spares (t : Records) : Op → Bool
  | .setPgid caller pid pgid => (t.records caller).all fun me =>
    match t.groupTarget caller me pid with
    | .error _ => true
    | .ok i => (t.records i).all fun r =>
      let g := if pgid = 0 then r.label.pid else pgid
      !r.state.isZombie || r.sid == r.label.pid || r.pgid == g || (g != r.label.pid && t.sessionOf g != some me.sid)
  | _ => true

/-- Every call of a run meets its contract, and the condition `P`. -/
def met (P : Records → Op → Bool) (t : Records) : List Op → Bool
  | [] => true
  | op :: ops => t.meets op && P t op && (t.step op).all fun t' => met P t' ops

theorem lives_iff : t.lives i = true ↔ ∃ r, t.records i = some r ∧ r.state.isZombie = false := by
  unfold lives
  rw [any_eq_true]
  simp

/-! ## What the record of one process says of itself -/

/-- A record without its state, its reports and whether it runs a program of its own. -/
def cutOwn (r : Record) : Record := { r with state := .loading, stopReport := none, contReport := false, execed := false }

theorem Lists.of_own (hl : Lists t kids rdy) (hr : t.records i = some r) (hc : cutOwn r' = cutOwn r)
    (hz : r'.state.isZombie = false) : Lists (t.set i r') kids rdy := by
  have hf : Frame cutOwn t (t.set i r') := .set hr hc
  have hkin : SameKin t (t.set i r') := hf.sameKin fun _ => rfl
  refine hkin.lists hl (hl.kin.readies.congr (hf.field readyLinks fun o => by cases o <;> rfl)
    fun x _ => congrFun hkin.parents x) fun j x hx hzx => ?_
  rw [records_set] at hx
  split at hx
  case isTrue =>
    cases hx
    rw [hz] at hzx
    cases hzx
  case isFalse => exact hl.kin.zombie j x hx hzx

theorem Grouped.of_core (h : Grouped t ahead slack loose) (hr : t.records i = some r) (hcore : r'.core = r.core) :
    Grouped (t.set i r') ahead slack loose := by
  have hpgid : r'.pgid = r.pgid := (congrArg Core.pgid hcore :)
  have hsid : r'.sid = r.sid := (congrArg Core.sid hcore :)
  have hstopped : r'.stopped.isSome = r.stopped.isSome := (congrArg Core.stopped hcore :)
  have hlinked : r'.linked = r.linked := (congrArg Core.linked hcore :)
  have hzombie : r'.state.isZombie = r.state.isZombie := (congrArg Core.zombie hcore :)
  have hparent : r'.parentIndex = r.parentIndex := (congrArg Core.parent hcore :)
  have hlink := h.linked i _ (cores_of_some hr)
  rw [← add_zero ahead, ← Pi.single_zero r.pgid] at h ⊢
  refine h.retouch hr (congrArg Core.label hcore :) hpgid hsid ?_ (fun g => ?_) (fun hi => ?_) fun _ hj _ => hj
  · rw [hstopped, hlinked]
  · rw [hcore]
    rfl
  · rw [hlinked, hzombie, hparent]
    exact hlink hi

/-- The invariant of the table. -/
def Sound (t : Records) : Prop := ∃ kids rdy, Lists t kids rdy ∧ Grouped t 0 ∅ ∅

/-! ## Every step keeps the invariant -/

theorem Sound.of_own (h : Sound t) (hr : t.records i = some r) (hc : cutOwn r' = cutOwn r) (hcore : r'.core = r.core)
    (hz : r'.state.isZombie = false) : Sound (t.set i r') := by
  obtain ⟨kids, rdy, hl, hg⟩ := h
  exact ⟨kids, rdy, hl.of_own hr hc hz, hg.of_core hr hcore⟩

theorem Sound.insert (h : Sound t) {parent : Option Index} {flags pgroup : Nat}
    (hm : t.meets (.insert parent flags pgroup) = true) :
    ∃ t', t.step (.insert parent flags pgroup) = some t' ∧ Sound t' := by
  obtain ⟨kids, rdy, hl, hg⟩ := h
  cases parent with
  | none =>
    obtain ⟨label, hlabel⟩ := isSome_iff_exists.1 hm
    obtain ⟨t', h', hl', hg'⟩ : ∃ t', t.insert label none .inherit = some t' ∧ _ := insert_alone_spec hl hg hlabel
    exact ⟨t', by rw [step, hlabel]; exact h', kids, rdy, hl', hg'⟩
  | some p =>
    simp only [meets, Bool.and_eq_true, any_eq_true, isSome_iff_exists] at hm
    obtain ⟨⟨hlives, hspawn⟩, label, hlabel, join, hjoin⟩ := hm
    obtain ⟨r, hr, hz⟩ := lives_iff.1 hlives
    have hroom : r.children < CHILDREN_MAX := by simpa [maySpawn, hr] using hspawn
    obtain ⟨t', kids', h', hl', hg'⟩ := insert_child_spec hl hg hlabel hr hz hroom fun g (hjg : join = .group g) => by
      subst hjg
      exact joining_group hjoin
    refine ⟨t', ?_, kids', rdy, hl', hg'⟩
    rw [step, hlabel]
    simp only [bind_eq_bind, bind_some, hjoin]
    exact h'

/-- A report waits for whoever asks: the child is among the ready ones. -/
theorem Sound.report (h : Sound t) {signal : Option Nat} (hm : t.lives i = true) :
    ∃ t', t.report i signal = some t' ∧ Sound t' := by
  obtain ⟨r, hr, hz⟩ := lives_iff.1 hm
  set t1 := t.set i { r with stopReport := signal, contReport := signal.isNone } with ht1
  obtain ⟨kids, rdy, hl, hg⟩ : Sound t1 := h.of_own hr rfl rfl hz
  have hr1 : t1.records i = some { r with stopReport := signal, contReport := signal.isNone } := by
    rw [records_set, if_pos rfl]
  obtain ⟨t', rdy', h', hf, hrd, hi⟩ := readyAdd_spec hl.kin.readies hr1 fun p hp =>
    hl.exists_parent (by rw [parents_of_some hr1]; exact hp)
  refine ⟨t', ?_, kids, rdy', hl.of_frame hf hrd fun j x _ _ hj => ?_, hg.of_frame hf fun _ => rfl⟩
  · rw [Records.report, modify_of_some hr]
    exact h'
  · rw [hi]
    split
    · rfl
    · exact hj

/-- A child that is no zombie leaves the ready ones. -/
theorem Sound.readyRemove (h : Sound t) (hr : t.records c = some r) (hz : r.state.isZombie = false) :
    ∃ t', t.readyRemove c = some t' ∧ Sound t' := by
  obtain ⟨kids, rdy, hl, hg⟩ := h
  obtain ⟨t', rdy', h', hf, hl', -⟩ := hl.readyRemove hr hz
  exact ⟨t', h', kids, rdy', hl', hg.of_frame hf fun _ => rfl⟩

theorem Sound.consumeReport (h : Sound t) {result : WaitResult} (hm : t.meets (.consumeReport c result) = true) :
    ∃ t', t.consumeReport c result = some t' ∧ Sound t' := by
  have hz : ∀ r, t.records c = some r → r.stopReport ≠ none ∨ r.contReport = true → r.state.isZombie = false := by
    intro r hr hrep
    by_contra hz
    obtain ⟨kids, rdy, hl, -⟩ := h
    obtain ⟨-, -, hstop, hcont⟩ := hl.kin.zombie c r hr (by simpa using hz)
    rcases hrep with hrep | hrep
    · exact hrep hstop
    · rw [hcont] at hrep
      cases hrep
  unfold Records.consumeReport
  cases result with
  | ended =>
    obtain ⟨r, hr⟩ := isSome_iff_exists.1 hm
    rw [hr]
    exact ⟨t, rfl, h⟩
  | stopped =>
    obtain ⟨r, hr, hrep⟩ := (any_eq_true ..).1 hm
    have hz := hz r hr (.inl (isSome_iff_ne_none.1 hrep))
    have h1 : Sound (t.set c { r with stopReport := none }) := h.of_own hr rfl rfl hz
    simp only [hr, bind_eq_bind, bind_some]
    split
    · exact ⟨_, rfl, h1⟩
    · refine h1.readyRemove (r := { r with stopReport := none }) ?_ hz
      rw [records_set, if_pos rfl]
  | continued =>
    obtain ⟨r, hr, hrep⟩ := (any_eq_true ..).1 hm
    have hz := hz r hr (.inr hrep)
    have h1 : Sound (t.set c { r with contReport := false }) := h.of_own hr rfl rfl hz
    simp only [hr, bind_eq_bind, bind_some]
    split
    · refine h1.readyRemove (r := { r with contReport := false }) ?_ hz
      rw [records_set, if_pos rfl]
    · exact ⟨_, rfl, h1⟩

/-! ## Moves -/

theorem Grouped.own_place (hg : Grouped t ahead slack loose) (hr : t.records i = some r) :
    r.label.pid = t.number i ∧ t.placeOf r.label.pid = some i := by
  obtain ⟨hlabel, hgen⟩ := hg.labelled i _ (cores_of_some hr)
  have hpid : r.label.pid = t.number i := by
    rw [show r.label = ⟨i, t.generations i⟩ from hlabel]
    rfl
  exact ⟨hpid, placeOf_eq_some.2 ⟨hpid, hgen⟩⟩

theorem Grouped.members_pos (hg : Grouped t ahead slack loose) (hr : t.records i = some r) (hp : r.pgid = t.number p) :
    0 < (t.numbers p).members := by
  obtain ⟨x, hx⟩ := Grouped.exists_rest (cores_of_some hr) (t.number p)
  have hc := hg.counted p
  rw [hx, r.core_tally, Pi.add_apply, hp, Pi.single_eq_same] at hc
  have h1 := congrArg (·.1) hc
  simp only [Numbers.tally, Prod.fst_add] at h1
  omega

theorem Sound.regroup (h : Sound t) {pgid sid : Nat} (hr : t.records index = some r) (hz : r.state.isZombie = false)
    (hne : r.pgid ≠ pgid) (hg : ∃ q, t.placeOf pgid = some q ∧ q ∉ t.free) (hs : ∃ q, t.placeOf sid = some q ∧ q ∉ t.free) :
    ∃ t', t.regroup index pgid sid = some t' ∧ Sound t' := by
  obtain ⟨kids, rdy, hl, hgr⟩ := h
  obtain ⟨group, hgroup, hgf⟩ := hg
  obtain ⟨session, hsession, hsf⟩ := hs
  have hself : r.parentIndex ≠ some index := by
    rw [← parents_of_some hr]
    exact hl.kin.self index
  obtain ⟨t', h', hg', ha⟩ := regroup_spec hgr hl.kin.family hr hz hne hself hgroup hsession hgf hsf
  exact ⟨t', h', kids, rdy, ha.lists hl, hg'⟩

theorem Sound.setSid (h : Sound t) (hm : t.lives c = true) : ∃ res, t.setSid c = some res ∧ Sound (t.settled res) := by
  obtain ⟨r, hr, hz⟩ := lives_iff.1 hm
  obtain ⟨kids, rdy, hl, hg⟩ := id h
  obtain ⟨hpid, hplace⟩ := hg.own_place hr
  unfold Records.setSid
  rw [hr]
  simp only [bind_eq_bind, bind_some]
  by_cases hmem : 0 < t.members r.label.pid
  · rw [if_pos hmem]
    exact ⟨_, rfl, h⟩
  · rw [if_neg hmem]
    have hne : r.pgid ≠ r.label.pid := by
      intro he
      apply hmem
      have := hg.members_pos hr (he.trans hpid)
      simpa [members, hplace] using this
    have hfree := hg.notMem_free_of_some hr
    obtain ⟨t', h', hs'⟩ := h.regroup hr hz hne ⟨c, hplace, hfree⟩ ⟨c, hplace, hfree⟩
    exact ⟨.ok t', by rw [h']; rfl, hs'⟩

/-- Whom `set_pgid` moves has a record. -/
theorem groupTarget_ok {me : Record} {pid : Nat} (hme : t.records c = some me)
    (h : t.groupTarget c me pid = .ok index) : ∃ r, t.records index = some r := by
  unfold groupTarget at h
  split at h
  case isFalse =>
    cases h
    exact ⟨me, hme⟩
  case isTrue =>
    split at h
    · cases h
    split at h
    · cases h
    case h_2 r hr =>
      split_ifs at h
      cases h
      exact ⟨r, hr⟩

theorem sessionOf_eq_some {sid : Nat} (h : t.sessionOf g = some sid) :
    ∃ q, t.placeOf g = some q ∧ 0 < (t.numbers q).members := by
  obtain ⟨q, hq, h⟩ := bind_eq_some_iff.1 h
  split at h
  case isTrue hm => exact ⟨q, hq, hm⟩
  case isFalse => cases h

theorem Sound.setPgid (h : Sound t) {pid pgid : Nat} (hm : t.lives c = true) (hs : t.spares (.setPgid c pid pgid) = true) :
    ∃ res, t.setPgid c pid pgid = some res ∧ Sound (t.settled res) := by
  obtain ⟨me, hme, hzme⟩ := lives_iff.1 hm
  obtain ⟨kids, rdy, hl, hg⟩ := id h
  unfold Records.setPgid
  rw [hme]
  simp only [bind_eq_bind, bind_some]
  cases htarget : t.groupTarget c me pid with
  | error e => exact ⟨_, rfl, h⟩
  | ok index =>
    obtain ⟨r, hr⟩ := groupTarget_ok hme htarget
    simp only [spares, hme, htarget, hr, all_some, Bool.or_eq_true, Bool.not_eq_true', beq_iff_eq, Bool.and_eq_true,
      bne_iff_ne] at hs
    simp only [hr, bind_some]
    by_cases hown : r.sid = r.label.pid
    · rw [if_pos hown]
      exact ⟨_, rfl, h⟩
    rw [if_neg hown]
    set g := if pgid = 0 then r.label.pid else pgid with hgdef
    by_cases hrefused : g ≠ r.label.pid ∧ t.sessionOf g ≠ some me.sid
    · rw [if_pos hrefused]
      exact ⟨_, rfl, h⟩
    rw [if_neg hrefused]
    by_cases hne : r.pgid ≠ g
    · rw [if_pos hne]
      have hz : r.state.isZombie = false := by
        rcases hs with ((hz | hsid) | hpgid) | hno
        · exact hz
        · exact absurd hsid hown
        · exact absurd hpgid hne
        · exact absurd hno hrefused
      have hgroup : ∃ q, t.placeOf g = some q ∧ q ∉ t.free := by
        by_cases hgo : g = r.label.pid
        · rw [hgo]
          exact ⟨index, (hg.own_place hr).2, hg.notMem_free_of_some hr⟩
        · have hsession : t.sessionOf g = some me.sid := by
            by_contra hsession
            exact hrefused ⟨hgo, hsession⟩
          obtain ⟨q, hq, hmem⟩ := sessionOf_eq_some hsession
          refine ⟨q, hq, hg.notMem_free ?_⟩
          rw [Numbers.unused, Bool.and_eq_false_iff]
          exact .inl (by simpa using ne_of_gt hmem)
      obtain ⟨s, hs, hsplace⟩ := hg.session_place hme
      obtain ⟨t', h', hs'⟩ := h.regroup hr hz hne hgroup ⟨s, hsplace, hg.numbers_notMem_free hme (.inr hs)⟩
      exact ⟨.ok t', by rw [h']; rfl, hs'⟩
    · rw [if_neg hne]
      exact ⟨_, rfl, h⟩

/-- **One step.** An operation that meets its contract, and that moves no zombie, returns and keeps the invariant. -/
theorem Sound.step (h : Sound t) {op : Op} (hm : t.meets op = true) (hs : t.spares op = true) :
    ∃ t', t.step op = some t' ∧ Sound t' := by
  obtain ⟨kids, rdy, hl, hg⟩ := id h
  cases op with
  | insert parent flags pgroup => exact h.insert hm
  | retireNext =>
    obtain ⟨label, hlabel⟩ := isSome_iff_exists.1 hm
    obtain ⟨t', h', hl', hg'⟩ := retireNext_spec hl hg hlabel
    exact ⟨t', by rw [Records.step, hlabel]; exact h', kids, rdy, hl', hg'⟩
  | loaded i execed =>
    obtain ⟨r, hr, hload⟩ := (any_eq_true ..).1 hm
    have hload : r.state = .loading := by simpa using hload
    have hcore : Record.core { r with state := .alive, execed := execed } = r.core := by
      simp [Record.core, hload, State.isZombie]
    exact ⟨_, modify_of_some hr _, h.of_own hr rfl hcore rfl⟩
  | exec i =>
    obtain ⟨r, hr, hz⟩ := lives_iff.1 hm
    exact ⟨_, modify_of_some hr _, h.of_own hr rfl rfl hz⟩
  | exited i e =>
    obtain ⟨r, hr, hz⟩ := lives_iff.1 hm
    obtain ⟨t', exit, orphans, kids', rdy', h', hl', hg'⟩ := exited_spec hl hg hr hz e
    exact ⟨t', by rw [Records.step, h']; rfl, kids', rdy', hl', hg'⟩
  | reap i =>
    obtain ⟨t', kids', rdy', h', hl', hg'⟩ := reap_spec hl hg i
    exact ⟨t', h', kids', rdy', hl', hg'⟩
  | setPgid caller pid pgid =>
    obtain ⟨res, h', hs'⟩ := h.setPgid hm hs
    exact ⟨_, by rw [Records.step, h']; rfl, hs'⟩
  | setSid caller =>
    obtain ⟨res, h', hs'⟩ := h.setSid hm
    exact ⟨_, by rw [Records.step, h']; rfl, hs'⟩
  | setStopped i signal =>
    obtain ⟨r, hr⟩ := isSome_iff_exists.1 hm
    obtain ⟨t', v, h', -, hg', hrec⟩ := setStopped_spec hg hr signal
    have ha : Alike t t' := .of_update hr hrec rfl
    exact ⟨t', h', kids, rdy, ha.lists hl, hg'⟩
  | report i signal => exact h.report hm
  | consumeReport child result => exact h.consumeReport hm
  | setMark i mark =>
    obtain ⟨hsome, hmark⟩ := (Bool.and_eq_true ..).mp hm
    obtain ⟨r, hr⟩ := isSome_iff_exists.1 hsome
    obtain ⟨hg', hrec⟩ := setMark_spec hg hr fun m (hm : mark = some m) hholds => by
      subst hm
      simpa [hholds] using hmark
    have ha : Alike t (t.setMark i mark) := .of_update hr hrec rfl
    exact ⟨_, rfl, kids, rdy, ha.lists hl, hg'⟩
  | takeOrphan =>
    obtain ⟨rest, hrest⟩ : ∃ rest, t.takeOrphan.2 = { t with orphaned := rest } := by
      unfold Records.takeOrphan
      split
      · exact ⟨t.orphaned, rfl⟩
      case h_2 group rest _ => exact ⟨rest, rfl⟩
    have ha : Alike t t.takeOrphan.2 := .of_records (by rw [hrest])
    have hsame : Same t t.takeOrphan.2 := by
      rw [hrest]
      exact ⟨rfl, rfl, rfl⟩
    refine ⟨_, rfl, kids, rdy, ha.lists hl, ?_⟩
    refine hg.of_same hsame (hg.counted.of_same hsame (by rw [hrest])) ?_ ?_ ?_ ?_
    all_goals rw [hrest]
    · exact hg.nodup
    · exact hg.listed
    · exact hg.unused
    · exact hg.free

/-! ## Runs -/

theorem Sound.run (h : Sound t) {ops : List Op} (hm : met spares t ops = true) : ∃ t', t.run ops = some t' ∧ Sound t' := by
  induction ops generalizing t with
  | nil => exact ⟨t, rfl, h⟩
  | cons op ops ih =>
    simp only [met, Bool.and_eq_true] at hm
    obtain ⟨⟨hmeets, hspares⟩, hrest⟩ := hm
    obtain ⟨t1, h1, hs1⟩ := h.step hmeets hspares
    rw [h1] at hrest
    obtain ⟨t', h', hs'⟩ := ih hs1 hrest
    exact ⟨t', by rw [Records.run, h1]; exact h', hs'⟩

theorem sound_new : Sound new := by
  have hnone : ∀ i c, new.cores i ≠ some c := fun i c hc => by cases hc
  have hfree : new.free = List.finRange RECORDS := by rw [new]
  refine ⟨fun _ => [], fun _ => [], ⟨⟨family_empty, ⟨family_empty, fun c hc => ?_⟩, fun i hi => ?_, fun i r hr => ?_⟩,
    fun i => rfl, fun i => Nat.zero_le _⟩, ?_⟩
  · cases hc
  · cases hi
  · cases hr
  · refine {
      counted := fun i => ?_
      placed := fun i c hc => absurd hc (hnone i c)
      labelled := fun i c hc => absurd hc (hnone i c)
      linked := fun i c hc => absurd hc (hnone i c)
      held := fun g => ?_
      nodup := by rw [hfree]; exact List.nodup_finRange RECORDS
      listed := fun i => ⟨fun _ => by rw [hfree]; exact List.mem_finRange i, fun _ => rfl⟩
      unused := fun i _ => ⟨rfl, rfl, show 0 < GENERATION_MAX by decide⟩
      free := fun i _ _ _ _ => by rw [hfree]; exact List.mem_finRange i }
    · rw [total_eq_zero fun j c hc => absurd hc (hnone j c)]
      rfl
    · have hzero : total new.cores (holdsPlace g) = 0 := Finset.sum_eq_zero fun _ _ => rfl
      rw [hzero]
      unfold placesHeld
      split <;> rfl

/-! ## What the table says -/

/-- How many records are like this. -/
def countOf (t : Records) (P : Record → Bool) : Nat := (Finset.univ.filter fun i => (t.records i).any P).card

theorem countOf_congr {Q : Record → Bool} (h : ∀ i r, t.records i = some r → P r = Q r) : t.countOf P = t.countOf Q := by
  unfold countOf
  congr 1
  refine Finset.filter_congr fun i _ => ?_
  rw [any_congr fun r hr => h i r hr]

theorem countOf_pos : 0 < t.countOf P ↔ ∃ i r, t.records i = some r ∧ P r = true := by
  unfold countOf
  rw [Finset.card_pos]
  constructor
  · rintro ⟨i, hi⟩
    obtain ⟨r, hr, hP⟩ := (any_eq_true ..).1 (Finset.mem_filter.1 hi).2
    exact ⟨i, r, hr, hP⟩
  · rintro ⟨i, r, hr, hP⟩
    exact ⟨i, Finset.mem_filter.2 ⟨Finset.mem_univ i, by rw [hr]; exact hP⟩⟩

theorem countOf_eq_zero : t.countOf P = 0 ↔ ∀ i r, t.records i = some r → P r = false := by
  constructor
  · intro h i r hr
    by_contra hP
    have := countOf_pos.2 ⟨i, r, hr, by simpa using hP⟩
    omega
  · intro h
    by_contra hne
    obtain ⟨i, r, hr, hP⟩ := countOf_pos.1 (Nat.pos_of_ne_zero hne)
    rw [h i r hr] at hP
    cases hP

theorem total_countOf (P : Core → Bool) : total t.cores (fun c => (P c).toNat) = t.countOf fun r => P r.core := by
  unfold total countOf cores
  rw [Finset.card_filter]
  refine Finset.sum_congr rfl fun i _ => ?_
  cases t.records i with
  | none => rfl
  | some r => cases hP : P r.core <;> simp [hP]

/-- A component of a sum is the sum of the components. -/
theorem map_total {M N : Type*} [AddCommMonoid M] [AddCommMonoid N] (φ : M →+ N) (f : Index → Option Core) (w : Core → M) :
    φ (total f w) = total f fun c => φ (w c) := by
  unfold total
  rw [map_sum]
  refine Finset.sum_congr rfl fun i _ => ?_
  cases f i with
  | none => exact map_zero φ
  | some c => rfl

theorem tally_eq (c : Core) (n : Nat) : c.tally n =
    ((c.pgid == n).toNat, (c.pgid == n && c.stopped).toNat, (c.pgid == n && c.linked).toNat, (c.sid == n).toNat) := by
  rw [Core.tally, Pi.add_apply, Pi.single_apply, Pi.single_apply]
  by_cases hp : n = c.pgid
  · by_cases hs : n = c.sid
    · subst hp
      simp [hs]
    · subst hp
      simp [hs, beq_eq_false_iff_ne.2 (Ne.symm hs)]
  · by_cases hs : n = c.sid
    · subst hs
      simp [hp, beq_eq_false_iff_ne.2 (Ne.symm hp)]
    · rw [if_neg hp, if_neg hs, beq_eq_false_iff_ne.2 (Ne.symm hp), beq_eq_false_iff_ne.2 (Ne.symm hs)]
      rfl

/-- The parent of `r` is in another group of its session. -/
def apart (t : Records) (r : Record) : Bool :=
  r.parentIndex.any fun p => (t.records p).any fun q => q.pgid != r.pgid && q.sid == r.sid

/-- What the table promises of its lists, its groups, its grants and its free places. -/
structure Exact (t : Records) : Prop where
  /-- The list of children holds the records with this parent, and their number is kept. -/
  children : ∀ i, (byChild.list t i).Nodup ∧ (∀ c, c ∈ byChild.list t i ↔ t.parents c = some i) ∧
    ∀ r, t.records i = some r → r.children = (byChild.list t i).length
  /-- A zombie stands once in the list of its parent's ready ones. -/
  zombies : ∀ c r p, t.records c = some r → r.state.isZombie = true → r.parentIndex = some p →
    (byReady.list t p).count c = 1
  /-- The numbers of the records have a place. -/
  placed : ∀ i r, t.records i = some r → (t.placeOf r.pgid).isSome ∧ (t.placeOf r.sid).isSome
  /-- The counts of a number. -/
  counts : ∀ g q, t.placeOf g = some q →
    (t.numbers q).members = t.countOf (fun r => r.pgid == g) ∧
    (t.numbers q).stopped = t.countOf (fun r => r.pgid == g && r.stopped.isSome) ∧
    (t.numbers q).links = t.countOf (fun r => r.pgid == g && !r.state.isZombie && t.apart r) ∧
    (t.numbers q).sessions = t.countOf fun r => r.sid == g
  /-- A group is orphaned when the parent of each member that lives is in the group or in no group of its session. -/
  orphans : ∀ g, t.isOrphaned g = some true ↔ (∃ i r, t.records i = some r ∧ r.pgid = g) ∧
    ∀ i r p q, t.records i = some r → r.pgid = g → r.state.isZombie = false → r.parentIndex = some p →
      t.records p = some q → q.pgid = g ∨ q.sid ≠ r.sid
  /-- The places of a grant are held by the records that live and have a mark of it. -/
  held : ∀ g, t.placesHeld g =
    t.countOf fun r => !r.state.isZombie && r.mark.any fun m => m.holds && m.grant == g
  /-- The free places. -/
  free : t.free.Nodup ∧ ∀ i, i ∈ t.free ↔ t.records i = none ∧
    (∀ j r, t.records j = some r → r.pgid ≠ t.number i ∧ r.sid ≠ t.number i) ∧ t.generations i < GENERATION_MAX

theorem Grouped.component (hg : Grouped t 0 ∅ ∅) (φ : Tally →+ Nat) {P : Core → Bool}
    (hP : ∀ c : Core, φ (c.tally (t.number q)) = (P c).toNat) : φ (t.numbers q).tally = t.countOf fun r => P r.core := by
  rw [hg.counted q, Pi.zero_apply, add_zero, map_total, ← total_countOf]
  congr 1
  ext c
  exact hP c

theorem Grouped.counts (hg : Grouped t 0 ∅ ∅) (hq : t.placeOf g = some q) :
    (t.numbers q).members = t.countOf (fun r => r.pgid == g) ∧
    (t.numbers q).stopped = t.countOf (fun r => r.pgid == g && r.stopped.isSome) ∧
    (t.numbers q).links = t.countOf (fun r => r.pgid == g && r.linked) ∧
    (t.numbers q).sessions = t.countOf fun r => r.sid == g := by
  obtain ⟨rfl, -⟩ := placeOf_eq_some.1 hq
  let snd := AddMonoidHom.snd Nat (Nat × Nat × Nat)
  let snd' := (AddMonoidHom.snd Nat (Nat × Nat)).comp snd
  refine ⟨?_, ?_, ?_, ?_⟩
  · exact hg.component (AddMonoidHom.fst Nat (Nat × Nat × Nat)) fun c => by rw [tally_eq]; rfl
  · exact hg.component ((AddMonoidHom.fst Nat (Nat × Nat)).comp snd) fun c => by rw [tally_eq]; rfl
  · exact hg.component ((AddMonoidHom.fst Nat Nat).comp snd') fun c => by rw [tally_eq]; rfl
  · exact hg.component ((AddMonoidHom.snd Nat Nat).comp snd') fun c => by rw [tally_eq]; rfl

theorem Lists.child_list (hl : Lists t kids rdy) (i : Index) : byChild.list t i = kids i := by
  have hle : (kids i).length ≤ RECORDS := by
    rw [← Fintype.card_fin RECORDS]
    exact (hl.kin.family.nodup i).length_le_card
  exact (hl.kin.family.linked i).walk_eq hle

theorem Readies.ready_list (h : Readies t rdy) (i : Index) : byReady.list t i = rdy i := by
  have hle : (rdy i).length ≤ RECORDS := by
    rw [← Fintype.card_fin RECORDS]
    exact (h.family.nodup i).length_le_card
  exact (h.family.linked i).walk_eq hle

/-- A link is what the groups of the parent and of the child say. -/
theorem Grouped.linked_eq (hg : Grouped t ahead slack ∅) (hr : t.records i = some r) :
    r.linked = (!r.state.isZombie && t.apart r) :=
  hg.linked i _ (cores_of_some hr) (by simp)

theorem Grouped.links_eq (hg : Grouped t 0 ∅ ∅) (hq : t.placeOf g = some q) :
    (t.numbers q).links = t.countOf fun r => r.pgid == g && !r.state.isZombie && t.apart r := by
  rw [(hg.counts hq).2.2.1]
  refine countOf_congr fun i r hr => ?_
  rw [hg.linked_eq hr, Bool.and_assoc]

theorem Grouped.held_eq (hg : Grouped t 0 ∅ ∅) (g : Nat) : t.placesHeld g =
    t.countOf fun r => !r.state.isZombie && r.mark.any fun m => m.holds && m.grant == g := by
  rw [hg.held]
  have hP : holdsPlace g = fun c => (decide (c.grant = some g)).toNat := by
    ext c
    unfold holdsPlace
    split
    case isTrue h => rw [decide_eq_true h]; rfl
    case isFalse h => rw [decide_eq_false h]; rfl
  rw [hP, total_countOf]
  refine countOf_congr fun i r hr => ?_
  cases hz : r.state.isZombie with
  | true => simp [Core.grant, Record.core, hz]
  | false =>
    cases hm : r.mark with
    | none => simp [Core.grant, Record.core, hm]
    | some m =>
      cases hh : m.holds with
      | false => simp [Core.grant, Record.core, hm, hh]
      | true => simp [Core.grant, Record.core, hz, hm, beq_eq_decide]

/-- `orphaned` is the definition of POSIX. -/
theorem Grouped.isOrphaned_iff (hg : Grouped t 0 ∅ ∅) (g : Nat) :
    t.isOrphaned g = some true ↔ (∃ i r, t.records i = some r ∧ r.pgid = g) ∧
      ∀ i r p q, t.records i = some r → r.pgid = g → r.state.isZombie = false → r.parentIndex = some p →
        t.records p = some q → q.pgid = g ∨ q.sid ≠ r.sid := by
  unfold isOrphaned
  cases hq : t.placeOf g with
  | none =>
    constructor
    · intro h
      cases h
    · rintro ⟨⟨i, r, hr, hp⟩, -⟩
      obtain ⟨q, -, hplace⟩ := hg.group_place hr
      rw [hp, hq] at hplace
      cases hplace
  | some q =>
    have hpos : 0 < (t.numbers q).members ↔ ∃ i r, t.records i = some r ∧ r.pgid = g := by
      rw [(hg.counts hq).1, countOf_pos]
      simp
    have hzero : (t.numbers q).links = 0 ↔ ∀ i r p q, t.records i = some r → r.pgid = g → r.state.isZombie = false →
        r.parentIndex = some p → t.records p = some q → q.pgid = g ∨ q.sid ≠ r.sid := by
      rw [hg.links_eq hq, countOf_eq_zero]
      constructor
      · intro h i r p q hr hg hz hp hq
        have := h i r hr
        simp only [apart, hg, hz, hp, hq, beq_self_eq_true, Bool.not_false, Bool.true_and, any_some,
          Bool.and_eq_false_iff, bne_eq_false_iff_eq, beq_eq_false_iff_ne] at this
        exact this
      · intro h i r hr
        by_contra hP
        simp only [Bool.not_eq_false, Bool.and_eq_true, beq_iff_eq, Bool.not_eq_true', apart, any_eq_true,
          bne_iff_ne] at hP
        obtain ⟨⟨hg, hz⟩, p, hp, q, hq, hne, hs⟩ := hP
        exact (h i r p q hr hg hz hp hq).elim (fun he => hne (he.trans hg.symm)) fun hn => hn hs
    rw [← hpos, ← hzero]
    by_cases hm : 0 < (t.numbers q).members
    · simp
    · simp

theorem Sound.exact (h : Sound t) : Exact t := by
  obtain ⟨kids, rdy, hl, hg⟩ := h
  refine ⟨fun i => ?_, fun c r p hr hz hp => ?_, fun i r hr => ?_, fun g q hq => ?_, hg.isOrphaned_iff, hg.held_eq, ?_⟩
  · rw [hl.child_list]
    refine ⟨hl.kin.family.nodup i, hl.kin.family.mem i, fun r hr => ?_⟩
    rw [← hl.count, childCount_of_some hr]
  · rw [hl.kin.readies.ready_list]
    refine List.count_eq_one_of_mem (hl.kin.readies.family.nodup p) ((hl.kin.readies.family.mem p c).2 ?_)
    rw [readyOwner_of_some hr, (hl.kin.zombie c r hr hz).2.1 (by rw [hp]; exact some_ne_none p), if_pos rfl, hp]
  · obtain ⟨q, -, hgroup⟩ := hg.group_place hr
    obtain ⟨s, -, hsession⟩ := hg.session_place hr
    rw [hgroup, hsession]
    exact ⟨rfl, rfl⟩
  · obtain ⟨hmembers, hstopped, -, hsessions⟩ := hg.counts hq
    exact ⟨hmembers, hstopped, hg.links_eq hq, hsessions⟩
  · refine ⟨hg.nodup, fun i => ⟨fun hi => ?_, fun ⟨hnone, hno, hgen⟩ => ?_⟩⟩
    · obtain ⟨hnone, -, hgen⟩ := hg.unused i hi
      refine ⟨map_eq_none_iff.1 hnone, fun j r hr => ?_, hgen⟩
      exact hg.ne_of_free hi (cores_of_some hr)
    · refine hg.free i (by simp) (by rw [cores, hnone]; rfl) ?_ hgen
      have hc := hg.counted i
      rw [total_eq_zero fun j c hc => ?_] at hc
      · rw [Numbers.unused_iff]
        exact ⟨congrArg (·.1) hc, congrArg (·.2.2.2) hc⟩
      · obtain ⟨r, hr, rfl⟩ := map_eq_some_iff.1 hc
        exact hno j r hr

/-- **The lists, the groups and the free places are exact.** Every run from the empty table whose calls meet their
contracts, and in which no `set_pgid` moves a zombie among its caller's children, returns, and in the state it reaches
the lists of children and of ready children, the four counts of each number, the places of the grants and the free
list are what the records say. -/
theorem exact_of_spares (ops : List Op) (hm : met spares new ops = true) : ∃ t, new.run ops = some t ∧ Exact t := by
  obtain ⟨t, h, hs⟩ := sound_new.run hm
  exact ⟨t, h, hs.exact⟩

/-- A run with two processes: a child that ends, and is waited for. -/
theorem exact_of_spares_wait :
    let ops : List Op := [.insert none 0 0, .loaded 0 true, .insert (some 0) 0 0, .loaded 1 false, .setPgid 0 257 0,
      .setStopped 1 (some 19), .report 1 (some 19), .exited 1 (.exited 0), .reap 1]
    met spares new ops = true ∧ ∃ t, new.run ops = some t ∧ Exact t := by
  have hmet : met spares new [.insert none 0 0, .loaded 0 true, .insert (some 0) 0 0, .loaded 1 false, .setPgid 0 257 0,
      .setStopped 1 (some 19), .report 1 (some 19), .exited 1 (.exited 0), .reap 1] = true := by decide +kernel
  exact ⟨hmet, exact_of_spares _ hmet⟩

/-- A zombie that its parent moves to a group of its own is counted as a link of the group: the group is not orphaned,
and nobody in it lives. -/
theorem zombie_keeps_link :
    let ops : List Op := [.insert none 0 0, .loaded 0 true, .insert (some 0) 0 0, .loaded 1 false, .exited 1 (.exited 0),
      .setPgid 0 257 0]
    met (fun _ _ => true) new ops = true ∧ ∃ t, new.run ops = some t ∧ ¬ Exact t := by
  intro ops
  have hmet : met (fun _ _ => true) new ops = true := by decide +kernel
  have hends : (new.run ops).any (fun t => t.isOrphaned 257 == some false && ((t.records 1).any fun r => r.pgid == 257) &&
      (List.finRange RECORDS).all fun i => (t.records i).all fun r => r.pgid != 257 || r.state.isZombie) = true := by
    decide +kernel
  obtain ⟨t, ht, hfacts⟩ := (any_eq_true ..).1 hends
  simp only [Bool.and_eq_true, beq_iff_eq] at hfacts
  obtain ⟨⟨hfalse, hmember⟩, hzombies⟩ := hfacts
  obtain ⟨r, hr, hpgid⟩ := (any_eq_true ..).1 hmember
  refine ⟨hmet, t, ht, fun hexact => ?_⟩
  -- its one member is a zombie, so that nothing keeps the group from being orphaned
  have horphaned := (hexact.orphans 257).2 ⟨⟨1, r, hr, by simpa using hpgid⟩, fun i x p q hx hg hz => ?_⟩
  · rw [hfalse] at horphaned
    cases horphaned
  · have := List.all_eq_true.1 hzombies i (List.mem_finRange i)
    rw [hx, all_some, hg, hz] at this
    cases this

end Records

end Process
