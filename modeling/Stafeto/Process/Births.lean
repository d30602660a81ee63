import Stafeto.Process.Ends

/-!
# Births

A new record takes the first free place and the next label there, so the place has a number that no group and no
session had before. The record enters its group and its session and stands first among its parent's children.
-/

namespace Process

open Chain Records Function Record Option

namespace Records

variable {t t' t1 : Records} {i c p index : Index} {r r' : Record} {ahead : Nat → Tally} {slack loose : Set Index}
  {kids rdy : Index → List Index} {g : Nat} {rest : List Index} {join : Join}

/-! ## The place -/

theorem nextLabel_eq_some {label : Label} (h : t.nextLabel = some label) :
    ∃ rest, t.free = label.index :: rest ∧ t.generations label.index < GENERATION_MAX ∧
      label.generation = t.generations label.index + 1 := by
  obtain ⟨index, hindex, h⟩ := bind_eq_some_iff.1 h
  obtain ⟨generation, hgen, h⟩ := bind_eq_some_iff.1 h
  cases h
  obtain ⟨rest, hrest⟩ := List.head?_eq_some_iff.1 hindex
  unfold Label.nextGeneration at hgen
  split at hgen
  case isTrue => cases hgen
  case isFalse hlt =>
    cases hgen
    exact ⟨rest, hrest, Nat.not_le.1 hlt, rfl⟩

/-- The first free place gets the generation `g`. -/
def relabel (t : Records) (index : Index) (g : Nat) : Records :=
  { t with free := t.free.tail, listed := update t.listed index false,
           generations := update t.generations index g }

theorem number_relabel_of_ne (h : i ≠ index) : (t.relabel index g).number i = t.number i := by
  unfold number relabel
  dsimp only
  rw [update_of_ne h]

theorem total_eq_zero {n : Nat} (h : ∀ i c, t.cores i = some c → c.pgid ≠ n ∧ c.sid ≠ n) :
    total t.cores (·.tally n) = 0 := by
  refine Finset.sum_eq_zero fun i _ => ?_
  cases hc : t.cores i with
  | none => rfl
  | some c =>
    obtain ⟨hp, hs⟩ := h i c hc
    show c.tally n = 0
    rw [Core.tally, Pi.add_apply, Pi.single_eq_of_ne hp.symm, Pi.single_eq_of_ne hs.symm, add_zero]

/-- The numbers of the records have other places than a free one. -/
theorem Grouped.ne_of_free (h : Grouped t ahead slack loose) (hi : index ∈ t.free) {c : Core} (hc : t.cores i = some c) :
    c.pgid ≠ t.number index ∧ c.sid ≠ t.number index := by
  obtain ⟨r, hr, rfl⟩ := map_eq_some_iff.1 hc
  exact ⟨fun he => h.numbers_notMem_free hr (.inl he) hi, fun he => h.numbers_notMem_free hr (.inr he) hi⟩

/-- A free place gets a new number: nobody has had it. -/
theorem Grouped.relabel (h : Grouped t 0 slack loose) (hfree : t.free = index :: rest)
    (hg : t.generations index < g) : Grouped (t.relabel index g) 0 ({index} ∪ slack) loose := by
  have hmem : index ∈ t.free := by rw [hfree]; simp
  have hnodup := h.nodup
  rw [hfree] at hnodup
  obtain ⟨hnot, hnd⟩ := List.nodup_cons.1 hnodup
  have hnone : t.cores index = none := (h.unused index hmem).1
  have htail : (t.relabel index g).free = rest := by
    show t.free.tail = rest
    rw [hfree, List.tail_cons]
  have hgen : ∀ i, i ≠ index → (t.relabel index g).generations i = t.generations i := fun i hi =>
    update_of_ne hi ..
  have hplaced : ∀ i c, t.cores i = some c → ∀ n, (n = c.pgid ∨ n = c.sid) → t.Placed n → (t.relabel index g).Placed n := by
    rintro i c hc n hn ⟨p, rfl, hp⟩
    have hne := h.ne_of_free hmem hc
    have hpi : p ≠ index := by
      rintro rfl
      exact hn.elim (fun he => hne.1 he.symm) fun he => hne.2 he.symm
    exact ⟨p, (number_relabel_of_ne hpi).symm, by rw [hgen p hpi]; exact hp⟩
  refine {
    counted := fun i => ?_
    placed := fun i c hc => ⟨hplaced i c hc _ (.inl rfl) (h.placed i c hc).1, hplaced i c hc _ (.inr rfl) (h.placed i c hc).2⟩
    labelled := fun i c hc => ?_
    linked := h.linked
    held := h.held
    nodup := by rw [htail]; exact hnd
    listed := fun i => ?_
    unused := fun i hi => ?_
    free := fun i hi hc hu hlt => ?_ }
  · by_cases hi : i = index
    · subst hi
      have hold := h.counted i
      rw [total_eq_zero fun j c hc => h.ne_of_free hmem hc] at hold
      have hnew : total (t.relabel i g).cores (·.tally ((t.relabel i g).number i)) = 0 := by
        refine total_eq_zero fun j c hc => ?_
        have hne : ∀ n, t.Placed n → n ≠ t.number i → n ≠ (t.relabel i g).number i := by
          rintro n ⟨p, rfl, hp⟩ hpi he
          have hmod := congrArg (· % RECORDS) he
          simp only [number_mod] at hmod
          exact hpi (by rw [Fin.ext hmod])
        exact ⟨hne _ (h.placed j c hc).1 (h.ne_of_free hmem hc).1, hne _ (h.placed j c hc).2 (h.ne_of_free hmem hc).2⟩
      rw [hnew]
      exact hold
    · have hcores : (t.relabel index g).cores = t.cores := rfl
      rw [number_relabel_of_ne hi, hcores]
      exact h.counted i
  · have hi : i ≠ index := by
      rintro rfl
      rw [show t.cores i = some c from hc] at hnone
      cases hnone
    rw [hgen i hi]
    exact h.labelled i c hc
  · rw [htail]
    show update t.listed index false i = true ↔ _
    by_cases hi : i = index
    · subst hi
      simp [hnot]
    · rw [update_of_ne hi, h.listed, hfree]
      simp [hi]
  · rw [htail] at hi
    have hii : i ≠ index := fun he => hnot (he ▸ hi)
    rw [hgen i hii]
    exact h.unused i (by rw [hfree]; exact List.mem_cons_of_mem _ hi)
  · have hii : i ≠ index := fun he => hi (.inl he)
    rw [hgen i hii] at hlt
    have := h.free i (fun hm => hi (.inr hm)) hc hu hlt
    rw [hfree] at this
    rw [htail]
    exact (List.mem_cons.1 this).resolve_left hii

/-- `retire_next`: the place has no label left and is never free again. -/
theorem retireNext_spec {label : Label} (hl : Lists t kids rdy) (hg : Grouped t 0 ∅ ∅) (hlabel : t.nextLabel = some label) :
    ∃ t', t.retireNext label = some t' ∧ Lists t' kids rdy ∧ Grouped t' 0 ∅ ∅ := by
  obtain ⟨rest, hfree, hlt, -⟩ := nextLabel_eq_some hlabel
  refine ⟨t.relabel label.index GENERATION_MAX, ?_, ?_, ?_⟩
  · rw [retireNext, if_neg fun hne => hne hlabel]
    rfl
  · have ha : Alike t (t.relabel label.index GENERATION_MAX) := .of_records rfl
    exact ha.lists hl
  · have h := hg.relabel hfree hlt
    refine { h with free := fun i hi hc hu hgen => h.free i (fun hm => ?_) hc hu hgen }
    rcases hm with rfl | hm
    · rw [show (t.relabel label.index GENERATION_MAX).generations label.index = GENERATION_MAX from
        update_self ..] at hgen
      exact absurd hgen (lt_irrefl _)
    · exact hm

/-! ## The record -/

/-- A number that a new record may have: its own, or one that is in use. -/
def Joins (t : Records) (label : Label) (n : Nat) : Prop := n = label.pid ∨ ∃ q, t.placeOf n = some q ∧ q ∉ t.free

theorem Joins.place {label : Label} {n : Nat} (h : Joins t label n) (hg : Grouped t 0 slack loose)
    (hfree : t.free = label.index :: rest) (hne : label.generation ≠ 0) :
    ∃ q, (t.relabel label.index label.generation).placeOf n = some q ∧ q ∉ (t.relabel label.index label.generation).free := by
  have hnodup := hg.nodup
  rw [hfree] at hnodup
  have htail : (t.relabel label.index label.generation).free = rest := by
    show t.free.tail = rest
    rw [hfree, List.tail_cons]
  have hgen : (t.relabel label.index label.generation).generations label.index = label.generation := update_self ..
  rcases h with rfl | ⟨q, hq, hnot⟩
  · refine ⟨label.index, placeOf_eq_some.2 ⟨?_, ?_⟩, ?_⟩
    · rw [Label.pid, number, hgen]
    · rw [hgen]
      exact hne
    · rw [htail]
      exact (List.nodup_cons.1 hnodup).1
  · obtain ⟨rfl, hqgen⟩ := placeOf_eq_some.1 hq
    have hqi : q ≠ label.index := by
      rintro rfl
      exact hnot (by rw [hfree]; simp)
    refine ⟨q, placeOf_eq_some.2 ⟨(number_relabel_of_ne hqi).symm, ?_⟩, ?_⟩
    · rw [show (t.relabel label.index label.generation).generations q = t.generations q from update_of_ne hqi ..]
      exact hqgen
    · rw [htail]
      rw [hfree] at hnot
      exact fun hm => hnot (List.mem_cons_of_mem _ hm)

theorem enter_set (t : Records) (i : Index) (r : Record) (pgid sid : Nat) (linked : Bool) :
    (t.set i r).enter pgid sid linked = (t.enter pgid sid linked).map (·.set i r) := by
  have hplace : (t.set i r).placeOf = t.placeOf := rfl
  unfold enter
  rw [hplace]
  cases t.placeOf pgid with
  | none => rfl
  | some group =>
    cases t.placeOf sid with
    | none => rfl
    | some session => rfl

/-- The new record enters its group and its session. -/
theorem born_enters {label : Label} {parent next : Option Index} {pgid sid : Nat} {linked : Bool}
    (hg : Grouped t 0 ∅ ∅) (hlabel : t.nextLabel = some label) (hpgid : Joins t label pgid) (hsid : Joins t label sid)
    (hparent : ∀ p, parent = some p → p ≠ label.index) (hchild : ∀ j, t.parents j ≠ some label.index)
    (hlinked : linked = parent.any fun p => t.separates p pgid sid) :
    ∃ t', ((t.take label).set label.index (born label parent pgid sid linked next)).enter pgid sid linked = some t' ∧
      Grouped t' 0 ∅ ∅ ∧
      t'.records = update t.records label.index (some (born label parent pgid sid linked next)) := by
  obtain ⟨rest, hfree, -, hgen⟩ := nextLabel_eq_some hlabel
  have hne : label.generation ≠ 0 := by omega
  have hnodup := hg.nodup
  rw [hfree] at hnodup
  have h1 := hg.relabel hfree (show t.generations label.index < label.generation by omega)
  obtain ⟨group, hgroup, hgf⟩ := hpgid.place hg hfree hne
  obtain ⟨session, hsession, hsf⟩ := hsid.place hg hfree hne
  obtain ⟨t2, h2, hg2, hs2, hf2⟩ : ∃ t2, (t.take label).enter pgid sid linked = some t2 ∧ _ :=
    enter_spec h1 hgroup hsession hgf hsf
  have hfree2 : label.index ∉ t2.free := by
    rw [hf2]
    show label.index ∉ t.free.tail
    rw [hfree]
    exact (List.nodup_cons.1 hnodup).1
  have hcores2 : t2.cores = t.cores := hs2.cores
  have hnone : t2.cores label.index = none := by
    rw [hcores2]
    exact (hg.unused label.index (by rw [hfree]; simp)).1
  have hsep2 : t2.separates = t.separates := hs2.separates
  have hplaced : ∀ {n q}, (t.relabel label.index label.generation).placeOf n = some q → t2.Placed n := fun hq =>
    hs2.placed ⟨_, placeOf_eq_some.1 hq⟩
  set record := born label parent pgid sid linked next with hrecord
  have hg3 : Grouped (t2.put label.index (some record) t2.held) (0 + 0) ({label.index} ∪ ∅) ∅ := by
    refine hg2.put hfree2 (fun he => by cases he) (fun n => ?_) ?_ (fun g => ?_) fun j c hc _ => ?_
    · rw [hnone]
      exact add_comm _ _
    · rintro _ ⟨⟩
      refine ⟨⟨hplaced hgroup, hplaced hsession⟩, ?_⟩
      rw [hs2.generations, show (t.take label).generations label.index = label.generation from update_self ..]
      exact ⟨rfl, hne⟩
    · rw [hnone]
      rfl
    · rw [cores_put, update_apply] at hc
      split at hc
      case isTrue =>
        cases hc
        show linked = (!false && parent.any fun p => (t2.put label.index (some record) t2.held).separates p pgid sid)
        rw [hlinked]
        refine any_congr fun p hp => ?_
        rw [separates_put_of_ne (hparent p hp), hsep2]
      case isFalse =>
        rw [hcores2] at hc
        rw [hg.linked j c hc (by simp)]
        congr 1
        refine any_congr fun p hp => ?_
        rw [separates_put_of_ne, hsep2]
        rintro rfl
        obtain ⟨x, hx, rfl⟩ := map_eq_some_iff.1 hc
        exact hchild j (by rw [parents_of_some hx]; exact hp)
  refine ⟨t2.set label.index record, ?_, ?_, ?_⟩
  · rw [enter_set, h2]
    rfl
  · refine { hg3 with free := fun i _ hc => hg3.free i (fun hm => ?_) hc }
    rcases hm with rfl | hm
    · rw [cores_set, update_self] at hc
      cases hc
    · exact hm
  · show update t2.records label.index (some record) = _
    rw [hs2.records]
    rfl

/-! ## The lists -/

section Born

variable {label : Label} {parent next : Option Index} {pgid sid : Nat} {linked : Bool} (hnone : t.records index = none)
  (hrec : t'.records = update t.records index (some (born label parent pgid sid linked next)))

include hrec

theorem field_born {α : Type} (F : Option Record → α) (x : Index) : F (t'.records x) =
    if x = index then F (some (born label parent pgid sid linked next)) else F (t.records x) := by
  rw [hrec, update_apply]
  split <;> rfl

include hnone

theorem same_born {α : Type} (F : Option Record → α) (hF : F (some (born label parent pgid sid linked next)) = F none)
    (x : Index) : F (t'.records x) = F (t.records x) := by
  rw [field_born hrec F]
  split
  case isTrue hx => rw [hx, hnone, hF]
  case isFalse => rfl

theorem Readies.born (h : Readies t rdy) : Readies t' rdy := by
  refine h.congr (same_born hnone hrec readyLinks rfl) fun x hx => ?_
  refine (field_born hrec (·.bind parentIndex) x).trans (if_neg ?_)
  rintro rfl
  rw [isReady, hnone] at hx
  cases hx

end Born

/-- A record without a parent is born: the lists are the same. -/
theorem Lists.born_alone {label : Label} {pgid sid : Nat} {linked : Bool} (hl : Lists t kids rdy)
    (hnone : t.records index = none)
    (hrec : t'.records = update t.records index (some (born label none pgid sid linked none))) :
    Lists t' kids rdy := by
  have hkin : SameKin t t' := same_born hnone hrec kinLinks rfl
  refine hkin.lists hl (hl.kin.readies.born hnone hrec) fun i x hx hz => ?_
  rw [hrec, update_apply] at hx
  split at hx
  case isTrue =>
    cases hx
    cases hz
  case isFalse => exact hl.kin.zombie i x hx hz

/-- The parent `p` counts its new child and has it at the front. -/
structure Fronted (t t' : Records) (index p : Index) : Prop where
  frame : Frame cutChild t t'
  nexts : byChild.nexts t' = byChild.nexts t
  prevs : ∀ x, byChild.prevs t' x = if some x = byChild.firsts t p then some index else byChild.prevs t x
  firsts : ∀ k, byChild.firsts t' k = if k = p then some index else byChild.firsts t k
  count : ∀ x, t'.childCount x = if x = p then t.childCount p + 1 else t.childCount x

theorem bornChild_links (index : Index) (hl : Lists t kids rdy) (hr : t.records p = some r)
    (hp : r.firstChild = byChild.firsts t p) :
    ∃ t1, byChild.front (t.set p { r with children := r.children + 1 }) p index r.firstChild = some t1 ∧
      Fronted t t1 index p := by
  have hset := modify_of_some hr fun r => { r with children := r.children + 1 }
  set t0 := t.set p { r with children := r.children + 1 }
  obtain ⟨t1, h1, hl1⟩ := Fields.front_spec (t := t0)
    (fun f (hf : r.firstChild = some f) => by
      have howner := hl.kin.family.owner_head (hp.symm.trans hf)
      obtain ⟨rf, hrf, -⟩ := bind_eq_some_iff.1 howner
      exact exists_set ⟨rf, hrf⟩) (exists_set ⟨r, hr⟩)
  have hn0 : byChild.nexts t0 = byChild.nexts t := funext (same_modify hset (·.bind next) fun _ => rfl)
  have hp0 : byChild.prevs t0 = byChild.prevs t := funext (same_modify hset (·.bind previous) fun _ => rfl)
  have hf0 : byChild.firsts t0 = byChild.firsts t := funext (same_modify hset (·.bind firstChild) fun _ => rfl)
  refine ⟨t1, h1, .trans (.modify hset fun _ => rfl) (hl1.frame.mono fun _ => rfl), ?_, fun x => ?_, fun k => ?_,
    fun x => ?_⟩
  · rw [← hn0]
    exact funext hl1.nexts
  · rw [hl1.prevs, hp0, hp]
  · rw [hl1.firsts, hf0]
  · have h2 := hl1.frame.field (·.elim 0 children) (fun o => by cases o <;> rfl) x
    rw [childCount_of_some hr]
    exact h2.trans (field_set (·.elim 0 children) x)

/-- A child is born: it stands first in the list of its parent. -/
theorem Lists.born_child {label : Label} {pgid sid : Nat} {linked : Bool} (hl : Lists t kids rdy)
    (hnone : t.records index = none) (hr : t.records p = some r) (hz : r.state.isZombie = false)
    (hroom : r.children < CHILDREN_MAX) (hf : Fronted t t1 index p)
    (hrec : t'.records = update t1.records index (some (born label (some p) pgid sid linked (byChild.firsts t p)))) :
    Lists t' (update kids p (index :: kids p)) rdy := by
  have hip : index ≠ p := by
    rintro rfl
    rw [hnone] at hr
    cases hr
  have hnone1 : t1.records index = none := by
    have := hf.frame.records index
    rwa [hnone, map_none, map_eq_none_iff] at this
  have hparents : t1.parents = t.parents := hf.frame.parents_eq fun _ => rfl
  have howner : t.parents index = none := by rw [parents, hnone]; rfl
  have hnil : kids index = [] := by
    refine hl.kin.family.head_eq_none.1 ?_
    rw [Fields.firsts, hnone]
    rfl
  refine ⟨⟨?_, (hl.kin.readies.of_cutChild hf.frame).born hnone1 hrec, fun i hi => ?_, fun i x hx hzx => ?_⟩, fun i => ?_,
    fun i => ?_⟩
  · refine hl.kin.family.push howner (fun x => ?_) (fun x => ?_) (fun k => ?_) fun x => ?_
    · rw [← hf.nexts]
      exact field_born hrec (·.bind next) x
    · rw [← hf.prevs]
      exact field_born hrec (·.bind previous) x
    · rw [← hf.firsts]
      refine (field_born hrec (·.bind firstChild) k).trans ?_
      split
      case isTrue hk =>
        have hnone' : byChild.firsts t1 index = none := by rw [Fields.firsts, hnone1]; rfl
        rw [hk, hnone']
        rfl
      case isFalse => rfl
    · rw [← hparents]
      exact field_born hrec (·.bind parentIndex) x
  · have := field_born hrec (·.bind parentIndex) i
    rw [show (t'.records i).bind parentIndex = some i from hi] at this
    split at this
    case isTrue hii =>
      rw [hii] at this
      exact hip (some.inj this)
    case isFalse =>
      refine hl.kin.self i ?_
      rw [← hparents]
      exact this.symm
  · rw [hrec, update_apply] at hx
    split at hx
    case isTrue =>
      cases hx
      cases hzx
    case isFalse =>
      obtain ⟨h1, h2, h3⟩ := hl.kin.zombie_of_cutLists (hf.frame.mono fun _ => rfl) hx hzx
      have hi : i ≠ p := by
        rintro rfl
        obtain ⟨x', hx', hs⟩ := hf.frame.exists_of hr
        cases hx.symm.trans hx'
        rw [show x.state = r.state from (congrArg state hs :), hz] at hzx
        cases hzx
      refine ⟨by rw [update_of_ne hi, h1], fun hpx => ?_, h3⟩
      rw [← isReady_of_some hx, isReady, hf.frame.field (·.any ready) fun o => by cases o <;> rfl]
      exact h2 hpx
  · refine (field_born hrec (·.elim 0 children) i).trans ?_
    rw [update_apply]
    split
    case isTrue hi => rw [hi, if_neg hip, hnil]; rfl
    case isFalse =>
      refine (hf.count i).trans ?_
      split
      · rw [hl.count]
        rfl
      · exact hl.count i
  · rw [update_apply]
    split
    · rw [List.length_cons, ← hl.count, childCount_of_some hr]
      exact hroom
    · exact hl.bound i

/-! ## `insert` -/

theorem set_set (t : Records) (i : Index) (r r' : Record) : (t.set i r).set i r' = t.set i r' := by
  unfold set
  rw [update_idem]

/-- A join that a parent may ask for: the numbers are in use or the child's own. -/
theorem Grouped.joins (hg : Grouped t 0 ∅ ∅) (hr : t.records p = some r) (label : Label)
    (hjoin : ∀ g, join = .group g → ∃ q, t.placeOf g = some q ∧ 0 < (t.numbers q).members) :
    Joins t label (join.numbers label.pid r.pgid r.sid).1 ∧ Joins t label (join.numbers label.pid r.pgid r.sid).2 := by
  obtain ⟨q, hq, hgroup⟩ := hg.group_place hr
  obtain ⟨s, hs, hsession⟩ := hg.session_place hr
  have hpgid : Joins t label r.pgid := .inr ⟨q, hgroup, hg.numbers_notMem_free hr (.inl hq)⟩
  have hsid : Joins t label r.sid := .inr ⟨s, hsession, hg.numbers_notMem_free hr (.inr hs)⟩
  cases join with
  | inherit => exact ⟨hpgid, hsid⟩
  | newGroup => exact ⟨.inl rfl, hsid⟩
  | group g =>
    obtain ⟨q', hq', hm⟩ := hjoin g rfl
    refine ⟨.inr ⟨q', hq', hg.notMem_free ?_⟩, hsid⟩
    rw [Numbers.unused, Bool.and_eq_false_iff]
    exact .inl (by simpa using ne_of_gt hm)
  | newSession => exact ⟨.inl rfl, .inl rfl⟩

/-- A group that `joining` admits has members. -/
theorem joining_group {flags pgroup own : Nat} (h : t.joining p flags pgroup own = some (.group g)) :
    ∃ q, t.placeOf g = some q ∧ 0 < (t.numbers q).members := by
  obtain ⟨r, -, h⟩ := bind_eq_some_iff.1 h
  split at h
  · split at h <;> cases h
  split at h
  · cases h
  split at h
  · cases h
  obtain ⟨q, hq, h⟩ := bind_eq_some_iff.1 h
  dsimp only at h
  split at h
  case isTrue hm =>
    cases h
    exact ⟨q, hq, hm.1⟩
  case isFalse => cases h

/-- The next place has no record, and nobody's parent is there. -/
theorem Lists.nextLabel_unused {label : Label} (hl : Lists t kids rdy) (hg : Grouped t 0 ∅ ∅)
    (hlabel : t.nextLabel = some label) :
    t.records label.index = none ∧ ∀ j, t.parents j ≠ some label.index := by
  obtain ⟨rest, hfree, -, -⟩ := nextLabel_eq_some hlabel
  have hnone : t.records label.index = none := by
    have := (hg.unused label.index (by rw [hfree]; simp)).1
    rwa [cores, map_eq_none_iff] at this
  refine ⟨hnone, fun j hj => ?_⟩
  obtain ⟨r, hr⟩ := hl.exists_parent hj
  rw [hnone] at hr
  cases hr

theorem insert_alone_spec {label : Label} (hl : Lists t kids rdy) (hg : Grouped t 0 ∅ ∅)
    (hlabel : t.nextLabel = some label) :
    ∃ t', t.insert label none join = some t' ∧ Lists t' kids rdy ∧ Grouped t' 0 ∅ ∅ := by
  obtain ⟨hnone, hchild⟩ := hl.nextLabel_unused hg hlabel
  obtain ⟨t', h', hg', hrec⟩ : ∃ t', ((t.take label).set label.index (born label none label.pid label.pid false none)).enter
      label.pid label.pid false = some t' ∧ _ :=
    born_enters hg hlabel (.inl rfl) (.inl rfl) (fun p hp => by cases hp) hchild rfl
  refine ⟨t', ?_, hl.born_alone hnone hrec, hg'⟩
  rw [insert, if_neg fun hne => hne hlabel]
  exact h'

theorem insert_child_spec {label : Label} (hl : Lists t kids rdy) (hg : Grouped t 0 ∅ ∅)
    (hlabel : t.nextLabel = some label) (hr : t.records p = some r) (hz : r.state.isZombie = false)
    (hroom : r.children < CHILDREN_MAX)
    (hjoin : ∀ g, join = .group g → ∃ q, t.placeOf g = some q ∧ 0 < (t.numbers q).members) :
    ∃ t' kids', t.insert label (some p) join = some t' ∧ Lists t' kids' rdy ∧ Grouped t' 0 ∅ ∅ := by
  obtain ⟨hnone, hchild⟩ := hl.nextLabel_unused hg hlabel
  have hfirst : r.firstChild = byChild.firsts t p := by rw [Fields.firsts, hr]; rfl
  obtain ⟨t1, h1, hf⟩ := bornChild_links label.index hl hr hfirst
  obtain ⟨hj1, hj2⟩ := hg.joins hr label hjoin
  set pgid := (join.numbers label.pid r.pgid r.sid).1 with hpgid
  set sid := (join.numbers label.pid r.pgid r.sid).2 with hsid
  have hlabel1 : t1.nextLabel = some label := by rw [hf.frame.rest]; exact hlabel
  have hparents : t1.parents = t.parents := hf.frame.parents_eq fun _ => rfl
  obtain ⟨t', h', hg', hrec⟩ : ∃ t', ((t1.take label).set label.index
      (born label (some p) pgid sid (t1.separates p pgid sid) r.firstChild)).enter pgid sid (t1.separates p pgid sid) =
        some t' ∧ _ :=
    born_enters (hg.of_frame hf.frame fun _ => rfl) hlabel1 (by rw [hf.frame.rest]; exact hj1)
      (by rw [hf.frame.rest]; exact hj2)
      (fun q hq hqi => by
        cases hq
        rw [hqi, hnone] at hr
        cases hr) (by rw [hparents]; exact hchild) rfl
  rw [hfirst] at hrec
  refine ⟨t', _, ?_, hl.born_child hnone hr hz hroom hf hrec, hg'⟩
  have hspawn : t.maySpawn p = true := by simp [maySpawn, hr, hroom]
  have hset : (t.set p { r with children := r.children + 1 }).records p = some { r with children := r.children + 1 } := by
    rw [records_set, if_pos rfl]
  rw [Fields.front, modify_of_some hset, set_set] at h1
  rw [insert, if_neg fun hne => hne hlabel]
  simp only [hspawn, hr, bind_eq_bind, bind_some]
  cases hfc : r.firstChild with
  | none =>
    rw [hfc] at h1 h'
    cases h1
    exact h'
  | some f =>
    rw [hfc] at h1 h'
    change Option.bind _ _ = _
    change (t.set p { r with children := r.children + 1, firstChild := some label.index }).modify f
      (fun s => { s with previous := some label.index }) = some t1 at h1
    rw [h1]
    exact h'

end Records

end Process
