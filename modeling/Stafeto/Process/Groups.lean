import Mathlib.Algebra.BigOperators.Pi
import Mathlib.Data.Fintype.BigOperators
import Mathlib.Tactic.Abel
import Stafeto.Process.Lists

/-!
# What is counted of the groups and the sessions

The place of a number keeps four counts: the members of the group, those suspended, those linked to another group
of their session, and the processes of the session. A record adds to the counts of its own numbers only, so the
counts are sums over the table (`Grouped.counted`). The functions that move a record change the counts and the
record one after the other; what the counts are ahead by in between is carried along (`ahead`), and so are the
places that may have to go back on the free list (`slack`) and the records whose link is not yet looked at
(`loose`). At rest there is nothing of either kind.
-/

namespace Process

open Records Function Option

/-- What the counts see of a record. -/
structure Core where
  label : Label
  parent : Option Index
  zombie : Bool
  stopped : Bool
  mark : Option Mark
  pgid : Nat
  sid : Nat
  linked : Bool

def Record.core (r : Record) : Core :=
  ⟨r.label, r.parentIndex, r.state.isZombie, r.stopped.isSome, r.mark, r.pgid, r.sid, r.linked⟩

/-- Members, stopped, links and sessions. -/
abbrev Tally := Nat × Nat × Nat × Nat

def Numbers.tally (n : Numbers) : Tally := (n.members, n.stopped, n.links, n.sessions)

/-- What a record adds to the counts of each number. -/
def Core.tally (c : Core) : Nat → Tally :=
  Pi.single c.pgid (1, c.stopped.toNat, c.linked.toNat, 0) + Pi.single c.sid (0, 0, 0, 1)

theorem Record.core_tally (r : Record) : r.core.tally =
    Pi.single r.pgid (1, r.stopped.isSome.toNat, r.linked.toNat, 0) + Pi.single r.sid (0, 0, 0, 1) := rfl

/-- The grant of which a record holds a place. -/
def Core.grant (c : Core) : Option Nat :=
  if c.zombie then none else (c.mark.filter Mark.holds).map Mark.grant

/-- How a record counts for the places of `g`. -/
def holdsPlace (g : Nat) (c : Core) : Nat := if c.grant = some g then 1 else 0

variable {g : Nat}

theorem holdsPlace_zombie {r : Record} (hz : r.state.isZombie = true) : holdsPlace g r.core = 0 := by
  rw [Record.core, hz]
  rfl

theorem holdsPlace_alive {r : Record} (hz : r.state.isZombie = false) :
    holdsPlace g r.core = if (r.mark.filter Mark.holds).map Mark.grant = some g then 1 else 0 := by
  rw [Record.core, hz]
  rfl

/-! ## Sums over the table -/

section Sums

variable {M : Type*} [AddCommMonoid M] {f : Index → Option Core} {i : Index} {v : Option Core}

/-- The sum of what the records give. -/
def total (f : Index → Option Core) (w : Core → M) : M := ∑ i, (f i).elim 0 w

theorem total_update (w : Core → M) (i : Index) (v : Option Core) :
    total (update f i v) w + (f i).elim 0 w = total f w + v.elim 0 w := by
  have hrest : ∑ j ∈ Finset.univ.erase i, (update f i v j).elim 0 w =
      ∑ j ∈ Finset.univ.erase i, (f j).elim 0 w := by
    refine Finset.sum_congr rfl fun j hj => ?_
    rw [update_of_ne (Finset.ne_of_mem_erase hj)]
  unfold total
  rw [← Finset.add_sum_erase _ _ (Finset.mem_univ i), ← Finset.add_sum_erase _ (fun j => (f j).elim 0 w) (Finset.mem_univ i),
    hrest, update_self]
  abel

end Sums

namespace Records

variable {t t' : Records} {i p : Index} {r r' : Record} {ahead d d' : Nat → Tally} {slack loose loose' : Set Index}
  {a b : Tally} {pgid : Nat} {linked : Bool} {o : Option Record} {held : Nat → Nat}

def cores (t : Records) (i : Index) : Option Core := (t.records i).map Record.core

theorem cores_of_some (h : t.records i = some r) : t.cores i = some r.core := by
  rw [cores, h]
  rfl

theorem cores_set : (t.set i r).cores = update t.cores i (some r.core) := by
  funext x
  rw [update_apply]
  exact field_set (·.map Record.core) x

theorem Frame.cores_eq {cut : Record → Record} (h : Frame cut t t') (hc : ∀ r, (cut r).core = r.core) :
    t'.cores = t.cores := by
  funext i
  refine h.field (·.map Record.core) (fun o => ?_) i
  cases o with
  | none => rfl
  | some r => exact congrArg some (hc r).symm

theorem separates_eq (t : Records) (p : Index) (pgid sid : Nat) :
    t.separates p pgid sid = (t.cores p).any fun c => c.pgid != pgid && c.sid == sid := by
  unfold separates cores
  cases t.records p <;> rfl

/-! ## Numbers and their places -/

/-- The number that a place has: the PID of the last record there. -/
def number (t : Records) (i : Index) : Nat := i + RECORDS * t.generations i

theorem number_mod (t : Records) (i : Index) : t.number i % RECORDS = i := by
  rw [number, Nat.add_mul_mod_self_left, Nat.mod_eq_of_lt i.isLt]

theorem number_div (t : Records) (i : Index) : t.number i / RECORDS = t.generations i := by
  rw [number, Nat.add_mul_div_left _ _ (by decide), Nat.div_eq_of_lt i.isLt, zero_add]

theorem number_injective (t : Records) : Function.Injective t.number := by
  intro i j h
  have := congrArg (· % RECORDS) h
  simp only [number_mod] at this
  exact Fin.ext this

theorem placeOf_eq_some {n : Nat} : t.placeOf n = some p ↔ n = t.number p ∧ t.generations p ≠ 0 := by
  unfold placeOf
  simp only [ite_none_right_eq_some, some.injEq]
  constructor
  · rintro ⟨⟨hne, hgen⟩, rfl⟩
    refine ⟨?_, hgen ▸ hne⟩
    rw [number, hgen]
    exact (Nat.mod_add_div n RECORDS).symm
  · rintro ⟨rfl, hne⟩
    have hp : Fin.ofNat RECORDS (t.number p) = p := Fin.ext (t.number_mod p)
    rw [hp, number_div]
    exact ⟨⟨hne, rfl⟩, rfl⟩

/-- A number that a place has. -/
def Placed (t : Records) (n : Nat) : Prop := ∃ p, n = t.number p ∧ t.generations p ≠ 0

/-! ## The counts -/

/-- The counts are those of the records, and ahead of them by `ahead`. -/
def Counted (t : Records) (ahead : Nat → Tally) : Prop :=
  ∀ i, (t.numbers i).tally = total t.cores (·.tally (t.number i)) + ahead (t.number i)

theorem cores_setNumbers (f : Numbers → Numbers) : (t.setNumbers p f).cores = t.cores := rfl

theorem number_setNumbers (f : Numbers → Numbers) : (t.setNumbers p f).number = t.number := rfl

theorem numbers_setNumbers (f : Numbers → Numbers) (i : Index) :
    (t.setNumbers p f).numbers i = if i = p then f (t.numbers p) else t.numbers i :=
  update_apply ..

theorem Counted.setNumbers {f : Numbers → Numbers} (h : Counted t (ahead + Pi.single (t.number p) a))
    (hf : ∀ x, (t.numbers p).tally = x + a → (f (t.numbers p)).tally = x + b) :
    Counted (t.setNumbers p f) (ahead + Pi.single (t.number p) b) := by
  intro i
  have hi := h i
  rw [cores_setNumbers, number_setNumbers, numbers_setNumbers]
  by_cases hp : i = p
  · subst hp
    rw [Pi.add_apply, Pi.single_eq_same, ← add_assoc] at hi
    rw [if_pos rfl, Pi.add_apply, Pi.single_eq_same, ← add_assoc]
    exact hf _ hi
  · have hne : t.number i ≠ t.number p := fun he => hp (t.number_injective he)
    rw [Pi.add_apply, Pi.single_eq_of_ne hne] at hi
    rw [if_neg hp, hi, Pi.add_apply, Pi.single_eq_of_ne hne]

/-- A record changes: the counts are ahead by what it gave before instead of what it gives now. -/
theorem Counted.update {o : Option Core} (h : Counted t (ahead + d))
    (hcores : t'.cores = update t.cores i o) (hn : t'.numbers = t.numbers) (hg : t'.generations = t.generations)
    (hd : ∀ n, o.elim 0 (·.tally n) + d' n = (t.cores i).elim 0 (·.tally n) + d n) : Counted t' (ahead + d') := by
  intro j
  have hnum : t'.number j = t.number j := by rw [number, number, hg]
  have hsum := total_update (f := t.cores) (·.tally (t.number j)) i o
  rw [hn, hnum, h j, hcores, Pi.add_apply]
  refine add_right_cancel (b := (t.cores i).elim 0 (·.tally (t.number j))) ?_
  have hdj := hd (t.number j)
  generalize total (Function.update t.cores i o) (·.tally (t.number j)) = x at *
  generalize (t.cores i).elim 0 (·.tally (t.number j)) = y at *
  generalize o.elim 0 (·.tally (t.number j)) = z at *
  calc total t.cores (·.tally (t.number j)) + (ahead (t.number j) + d (t.number j)) + y
      = total t.cores (·.tally (t.number j)) + ahead (t.number j) + (y + d (t.number j)) := by abel
    _ = (total t.cores (·.tally (t.number j)) + z) + ahead (t.number j) + d' (t.number j) := by rw [← hdj]; abel
    _ = x + (ahead (t.number j) + d' (t.number j)) + y := by rw [← hsum]; abel

/-! ## The invariant of the counts and of the free list -/

/-- What the table says of its groups, its sessions, its grants and its free places. -/
structure Grouped (t : Records) (ahead : Nat → Tally) (slack loose : Set Index) : Prop where
  counted : Counted t ahead
  placed : ∀ i c, t.cores i = some c → t.Placed c.pgid ∧ t.Placed c.sid
  labelled : ∀ i c, t.cores i = some c → c.label = ⟨i, t.generations i⟩ ∧ t.generations i ≠ 0
  linked : ∀ i c, t.cores i = some c → i ∉ loose →
    c.linked = (!c.zombie && c.parent.any fun p => t.separates p c.pgid c.sid)
  held : ∀ g, t.placesHeld g = total t.cores (holdsPlace g)
  nodup : t.free.Nodup
  listed : ∀ i, t.listed i = true ↔ i ∈ t.free
  unused : ∀ i ∈ t.free, t.cores i = none ∧ (t.numbers i).unused = true ∧ t.generations i < GENERATION_MAX
  free : ∀ i, i ∉ slack → t.cores i = none → (t.numbers i).unused = true → t.generations i < GENERATION_MAX → i ∈ t.free

/-- The records, their labels and the places of the grants are as before. -/
structure Same (t t' : Records) : Prop where
  records : t'.records = t.records
  generations : t'.generations = t.generations
  held : t'.held = t.held

namespace Same

variable {t1 : Records}

theorem refl (t : Records) : Same t t := ⟨rfl, rfl, rfl⟩

theorem trans (h : Same t t1) (h' : Same t1 t') : Same t t' :=
  ⟨h'.records.trans h.records, h'.generations.trans h.generations, h'.held.trans h.held⟩

theorem cores (h : Same t t') : t'.cores = t.cores := by
  funext i
  rw [Records.cores, Records.cores, h.records]

theorem number (h : Same t t') : t'.number = t.number := by
  funext i
  rw [Records.number, Records.number, h.generations]

theorem separates (h : Same t t') : t'.separates = t.separates := by
  funext p pgid sid
  rw [separates_eq, separates_eq, h.cores]

theorem placed (h : Same t t') {n : Nat} (hn : t.Placed n) : t'.Placed n := by
  unfold Placed
  rw [h.number, h.generations]
  exact hn

theorem setNumbers (f : Numbers → Numbers) : Same t (t.setNumbers p f) := ⟨rfl, rfl, rfl⟩

theorem markOrphan (b : Bool) : Same t (t.markOrphan p b) := by
  unfold Records.markOrphan
  dsimp only
  split <;> exact ⟨rfl, rfl, rfl⟩

end Same

theorem Counted.of_same (h : Counted t ahead) (hs : Same t t') (hn : t'.numbers = t.numbers) : Counted t' ahead := by
  intro i
  rw [hn, hs.cores, hs.number]
  exact h i

theorem markOrphan_rest (b : Bool) : (t.markOrphan p b).numbers = t.numbers ∧ (t.markOrphan p b).free = t.free ∧
    (t.markOrphan p b).listed = t.listed := by
  unfold markOrphan
  dsimp only
  split <;> exact ⟨rfl, rfl, rfl⟩

/-- What the counts were ahead by is taken off. -/
theorem Numbers.tally_down {n n' : Numbers} {x : Tally} (h : n.tally = x + a) (hm : n'.members = n.members - a.1)
    (hs : n'.stopped = n.stopped - a.2.1) (hl : n'.links = n.links - a.2.2.1)
    (hse : n'.sessions = n.sessions - a.2.2.2) : n'.tally = x + 0 := by
  simp only [Numbers.tally, Prod.ext_iff, Prod.fst_add, Prod.snd_add] at h ⊢
  simp only [Prod.fst_zero, Prod.snd_zero]
  omega

theorem Numbers.unused_iff (n : Numbers) : n.unused = true ↔ n.members = 0 ∧ n.sessions = 0 := by
  simp [Numbers.unused]

namespace Grouped

variable {slack' : Set Index}

theorem of_same (h : Grouped t ahead slack loose) (hs : Same t t') {ahead' : Nat → Tally}
    (hcounted : Counted t' ahead') (hnodup : t'.free.Nodup) (hlisted : ∀ i, t'.listed i = true ↔ i ∈ t'.free)
    (hunused : ∀ i ∈ t'.free, t.cores i = none ∧ (t'.numbers i).unused = true ∧ t.generations i < GENERATION_MAX)
    (hfree : ∀ i, i ∉ slack' → t.cores i = none → (t'.numbers i).unused = true → t.generations i < GENERATION_MAX →
      i ∈ t'.free) : Grouped t' ahead' slack' loose where
  counted := hcounted
  placed i c hc := by
    rw [hs.cores] at hc
    exact ⟨hs.placed (h.placed i c hc).1, hs.placed (h.placed i c hc).2⟩
  labelled i c hc := by
    rw [hs.cores] at hc
    rw [hs.generations]
    exact h.labelled i c hc
  linked i c hc hi := by
    rw [hs.cores] at hc
    rw [hs.separates]
    exact h.linked i c hc hi
  held g := by
    rw [placesHeld, hs.held, hs.cores]
    exact h.held g
  nodup := hnodup
  listed := hlisted
  unused := by
    rw [hs.cores, hs.generations]
    exact hunused
  free := by
    rw [hs.cores, hs.generations]
    exact hfree

theorem mono (h : Grouped t ahead slack loose) (hs : slack ⊆ slack') :
    Grouped t ahead slack' loose :=
  { h with free := fun i hi => h.free i fun hm => hi (hs hm) }

theorem markOrphan (h : Grouped t ahead slack loose) (b : Bool) : Grouped (t.markOrphan p b) ahead slack loose := by
  obtain ⟨hn, hf, hl⟩ := markOrphan_rest b
  refine h.of_same (.markOrphan b) (h.counted.of_same (.markOrphan b) hn) ?_ ?_ ?_ ?_
  · rw [hf]
    exact h.nodup
  · rw [hf, hl]
    exact h.listed
  · rw [hf, hn]
    exact h.unused
  · rw [hf, hn]
    exact h.free

theorem setNumbers {f : Numbers → Numbers}
    (h : Grouped t (ahead + Pi.single (t.number p) a) slack loose) (hp : p ∉ t.free)
    (hf : ∀ x, (t.numbers p).tally = x + a → (f (t.numbers p)).tally = x + b)
    (hs : p ∈ slack ∨ ((f (t.numbers p)).unused = true → (t.numbers p).unused = true)) :
    Grouped (t.setNumbers p f) (ahead + Pi.single (t.number p) b) slack loose := by
  refine h.of_same (.setNumbers f) (h.counted.setNumbers hf) h.nodup h.listed (fun i hi => ?_) fun i hi hc hu hg => ?_
  · have hne : i ≠ p := fun he => hp (he ▸ hi)
    rw [numbers_setNumbers, if_neg hne]
    exact h.unused i hi
  · rw [numbers_setNumbers] at hu
    split at hu
    case isTrue he =>
      subst he
      exact h.free i hi hc ((hs.resolve_left hi) hu) hg
    case isFalse => exact h.free i hi hc hu hg

theorem notMem_free (h : Grouped t ahead slack loose) (hp : (t.numbers p).unused = false) : p ∉ t.free := by
  intro hm
  rw [(h.unused p hm).2.1] at hp
  cases hp

theorem notMem_free_of_ahead (h : Grouped t (ahead + Pi.single (t.number p) a) slack loose)
    (ha : 0 < a.1 ∨ 0 < a.2.2.2) : p ∉ t.free := by
  intro hm
  have hu := (Numbers.unused_iff _).1 (h.unused p hm).2.1
  have hc := h.counted p
  rw [Pi.add_apply, Pi.single_eq_same] at hc
  have h1 := congrArg (·.1) hc
  have h4 := congrArg (·.2.2.2) hc
  simp only [Numbers.tally, Prod.fst_add, Prod.snd_add] at h1 h4
  omega

theorem exists_rest {c : Core} (h : t.cores i = some c) (n : Nat) : ∃ x, total t.cores (·.tally n) = x + c.tally n := by
  have hsum := total_update (f := t.cores) (·.tally n) i none
  rw [h, elim_none, add_zero] at hsum
  exact ⟨_, hsum.symm⟩

theorem numbers_notMem_free (h : Grouped t ahead slack loose) (hr : t.records i = some r)
    (hp : r.pgid = t.number p ∨ r.sid = t.number p) : p ∉ t.free := by
  intro hm
  have hu := (Numbers.unused_iff _).1 (h.unused p hm).2.1
  obtain ⟨x, hx⟩ := exists_rest (cores_of_some hr) (t.number p)
  have hc := h.counted p
  rw [hx, r.core_tally, Pi.add_apply] at hc
  have h1 := congrArg (·.1) hc
  have h4 := congrArg (·.2.2.2) hc
  rcases hp with hp | hp
  · rw [hp, Pi.single_eq_same] at h1
    simp only [Numbers.tally, Prod.fst_add] at h1
    omega
  · rw [hp, Pi.single_eq_same] at h4
    simp only [Numbers.tally, Prod.snd_add] at h4
    omega

/-- `settle`: a place that nothing uses any more is free again. -/
theorem settle (h : Grouped t ahead slack loose) (p : Index) :
    Grouped (t.settle p) ahead (slack \ {p}) loose ∧ Same t (t.settle p) := by
  have hsame : Same t (t.settle p) := by
    unfold Records.settle
    dsimp only
    split
    · split <;> exact ⟨rfl, rfl, rfl⟩
    · exact .refl t
  have hn : (t.settle p).numbers = t.numbers := by
    unfold Records.settle
    dsimp only
    split
    · split <;> rfl
    · rfl
  have hcores : (t.records p).isNone = (t.cores p).isNone := by
    rw [cores, isNone_map]
  refine ⟨?_, hsame⟩
  have hcounted := h.counted.of_same hsame hn
  by_cases hgoes : ((t.records p).isNone && (t.numbers p).unused && !t.listed p) = true
  · simp only [Bool.and_eq_true, Bool.not_eq_true', hcores, isNone_iff_eq_none] at hgoes
    obtain ⟨⟨hnone, hunused⟩, hlisted⟩ := hgoes
    have hnot : p ∉ t.free := fun hm => by simp [(h.listed p).2 hm] at hlisted
    by_cases hspent : GENERATION_MAX ≤ t.generations p
    · -- the labels of the place are used up: it stays off the list
      have hfree : (t.settle p).free = t.free ∧ (t.settle p).listed = t.listed := by
        simp [Records.settle, hcores, hnone, hunused, hlisted, Label.nextGeneration, hspent]
      refine h.of_same hsame hcounted ?_ ?_ ?_ fun i hi hc hu hg => ?_
      · rw [hfree.1]
        exact h.nodup
      · rw [hfree.1, hfree.2]
        exact h.listed
      · rw [hfree.1, hn]
        exact h.unused
      · rw [hfree.1]
        rw [hn] at hu
        refine h.free i (fun hm => hi ⟨hm, ?_⟩) hc hu hg
        rintro rfl
        exact absurd hspent (Nat.not_le.2 hg)
    · have hfree : (t.settle p).free = p :: t.free ∧ (t.settle p).listed = update t.listed p true := by
        simp [Records.settle, hcores, hnone, hunused, hlisted, Label.nextGeneration, hspent]
      refine h.of_same hsame hcounted ?_ ?_ ?_ fun i hi hc hu hg => ?_
      · rw [hfree.1]
        exact List.nodup_cons.2 ⟨hnot, h.nodup⟩
      · intro i
        rw [hfree.1, hfree.2]
        by_cases hip : i = p
        · simp [hip]
        · simp [hip, h.listed i]
      · rw [hfree.1, hn]
        intro i hi
        rcases List.mem_cons.1 hi with rfl | hi
        · exact ⟨hnone, hunused, Nat.not_le.1 hspent⟩
        · exact h.unused i hi
      · rw [hfree.1]
        rw [hn] at hu
        by_cases hip : i = p
        · simp [hip]
        · exact List.mem_cons_of_mem _ (h.free i (fun hm => hi ⟨hm, hip⟩) hc hu hg)
  · have hstay : t.settle p = t := by
      exact if_neg hgoes
    rw [hstay]
    refine { h with free := fun i hi hc hu hg => ?_ }
    by_cases hip : i = p
    · subst hip
      rw [hcores, hc, hu] at hgoes
      exact (h.listed i).1 (by simpa using hgoes)
    · exact h.free i (fun hm => hi ⟨hm, hip⟩) hc hu hg

end Grouped

/-- What a member gives to its group and its session but for whether it is stopped. -/
def member (pgid sid : Nat) (linked : Bool) : Nat → Tally :=
  Pi.single pgid (1, 0, linked.toNat, 0) + Pi.single sid (0, 0, 0, 1)

/-- `enter`: the counts are ahead by a member. -/
theorem enter_spec {group session : Index} {sid : Nat} (h : Grouped t ahead slack loose)
    (hg : t.placeOf pgid = some group) (hs : t.placeOf sid = some session) (hgf : group ∉ t.free) (hsf : session ∉ t.free) :
    ∃ t', t.enter pgid sid linked = some t' ∧ Grouped t' (ahead + member pgid sid linked) slack loose ∧ Same t t' ∧
      t'.free = t.free := by
  obtain ⟨rfl, -⟩ := placeOf_eq_some.1 hg
  obtain ⟨rfl, -⟩ := placeOf_eq_some.1 hs
  unfold enter
  rw [hg, hs]
  refine ⟨_, rfl, ?_, .trans (.setNumbers _) (.setNumbers _), rfl⟩
  rw [← add_zero ahead, ← Pi.single_zero (t.number group)] at h
  have h1 := h.setNumbers (b := (1, 0, linked.toNat, 0)) (f := fun g =>
    { g with session := if g.members = 0 then t.number session else g.session, members := g.members + 1,
             links := g.links + linked.toNat }) hgf (fun x hx => ?_) (.inr fun hu => ?_)
  rotate_left
  · rw [add_zero] at hx
    rw [← hx]
    rfl
  · simp [Numbers.unused] at hu
  rw [← add_zero (ahead + _), ← Pi.single_zero (t.number session)] at h1
  have h2 := h1.setNumbers (b := (0, 0, 0, 1)) (f := fun g => { g with sessions := g.sessions + 1 }) hsf (fun x hx => ?_)
    (.inr fun hu => ?_)
  rotate_left
  · rw [add_zero] at hx
    rw [← hx]
    rfl
  · simp [Numbers.unused] at hu
  rw [member, ← add_assoc]
  exact h2

/-- `leave`: the member that the counts were ahead by is gone, and a place that nothing uses any more is free. -/
theorem leave_spec {sid : Nat} (h : Grouped t (ahead + member pgid sid linked) slack loose)
    (hg : t.Placed pgid) (hs : t.Placed sid) :
    ∃ t', t.leave pgid sid linked = some t' ∧ Grouped t' ahead slack loose ∧ Same t t' := by
  obtain ⟨group, rfl, hggen⟩ := hg
  obtain ⟨session, rfl, hsgen⟩ := hs
  unfold leave
  rw [placeOf_eq_some.2 ⟨rfl, hggen⟩, placeOf_eq_some.2 ⟨rfl, hsgen⟩]
  refine ⟨_, rfl, ?_⟩
  have h0 : Grouped t (ahead + Pi.single (t.number session) (0, 0, 0, 1) +
      Pi.single (t.number group) (1, 0, linked.toNat, 0)) ({session, group} ∪ slack) loose := by
    rw [add_assoc, add_comm (Pi.single (t.number session) _)]
    exact h.mono Set.subset_union_right
  have h1 := h0.setNumbers (f := fun g => { g with members := g.members - 1, links := g.links - linked.toNat })
    (h0.notMem_free_of_ahead (.inl one_pos)) (fun x hx => Numbers.tally_down hx rfl rfl rfl rfl) (.inl (.inl (.inr rfl)))
  rw [Pi.single_zero] at h1
  have h2 := h1.markOrphan (p := group) linked
  have hs1 : Same t _ := .trans (.setNumbers _) (.markOrphan (t := t.setNumbers group fun g =>
    { g with members := g.members - 1, links := g.links - linked.toNat }) (p := group) linked)
  rw [← hs1.number] at h2
  have h3 := h2.setNumbers (f := fun g => { g with sessions := g.sessions - 1 })
    (h2.notMem_free_of_ahead (.inr one_pos)) (fun x hx => Numbers.tally_down hx rfl rfl rfl rfl) (.inl (.inl (.inl rfl)))
  rw [Pi.single_zero] at h3
  obtain ⟨h4, hs4⟩ := h3.settle group
  obtain ⟨h5, hs5⟩ := h4.settle session
  refine ⟨h5.mono ?_, hs1.trans (.trans (.setNumbers _) (hs4.trans hs5))⟩
  rintro i ⟨⟨hi, hne⟩, hne'⟩
  exact hi.resolve_left fun hm => hm.elim hne' hne

/-- `unlink`: the link that the counts were ahead by is gone. -/
theorem unlink_spec (h : Grouped t (ahead + Pi.single pgid (0, 0, linked.toNat, 0)) slack loose)
    (hg : t.Placed pgid) (hfree : ∀ p, pgid = t.number p → p ∉ t.free) :
    ∃ t', t.unlink pgid linked = some t' ∧ Grouped t' ahead slack loose ∧ Same t t' := by
  obtain ⟨p, rfl, hgen⟩ := hg
  unfold unlink
  cases linked with
  | false =>
    have hz : Pi.single (M := fun _ => Tally) (t.number p) (0, 0, false.toNat, 0) = 0 := Pi.single_zero _
    rw [hz] at h
    exact ⟨t, rfl, h, .refl t⟩
  | true =>
    rw [placeOf_eq_some.2 ⟨rfl, hgen⟩]
    refine ⟨_, rfl, ?_, .trans (.setNumbers _) (.markOrphan _)⟩
    have h1 := h.setNumbers (f := fun g => { g with links := g.links - 1 }) (hfree p rfl)
      (fun x hx => Numbers.tally_down hx rfl rfl rfl rfl) (.inr fun hu => hu)
    rw [Pi.single_zero] at h1
    exact h1.markOrphan true

/-! ## Changes of records -/

/-- The table with the record in `i` replaced, and with other counts of the places held. -/
def put (t : Records) (i : Index) (o : Option Record) (held : Nat → Nat) : Records :=
  { t with records := update t.records i o, held := held }

theorem cores_put (o : Option Record) (held : Nat → Nat) :
    (t.put i o held).cores = update t.cores i (o.map Record.core) := by
  funext x
  unfold cores put
  dsimp only
  rw [update_apply, update_apply]
  split <;> rfl

section
variable (h : Grouped t ahead slack loose)
include h

theorem held_put
    (hheld : (t.put i o held).placesHeld g + (t.cores i).elim 0 (holdsPlace g) =
      t.placesHeld g + (o.map Record.core).elim 0 (holdsPlace g)) :
    (t.put i o held).placesHeld g = total (t.put i o held).cores (holdsPlace g) := by
  have hsum := total_update (f := t.cores) (holdsPlace g) i (o.map Record.core)
  have hold := h.held g
  rw [cores_put]
  omega

omit h in
/-- A record comes, goes or changes. -/
theorem Grouped.put
    (h : Grouped t (ahead + d) slack loose) (hi : i ∉ t.free) (hslack : o = none → i ∈ slack)
    (hd : ∀ n, (o.map Record.core).elim 0 (·.tally n) + d' n = (t.cores i).elim 0 (·.tally n) + d n)
    (hown : ∀ r, o = some r → (t.Placed r.pgid ∧ t.Placed r.sid) ∧ r.label = ⟨i, t.generations i⟩ ∧ t.generations i ≠ 0)
    (hheld : ∀ g, (t.put i o held).placesHeld g + (t.cores i).elim 0 (holdsPlace g) =
      t.placesHeld g + (o.map Record.core).elim 0 (holdsPlace g))
    (hlinked : ∀ j c, (t.put i o held).cores j = some c → j ∉ loose' →
      c.linked = (!c.zombie && c.parent.any fun p => (t.put i o held).separates p c.pgid c.sid)) :
    Grouped (t.put i o held) (ahead + d') slack loose' where
  counted := h.counted.update (cores_put o held) rfl rfl hd
  placed j c hc := by
    rw [cores_put, update_apply] at hc
    split at hc
    case isTrue hj =>
      obtain ⟨r, rfl, rfl⟩ := map_eq_some_iff.1 hc
      exact (hown r rfl).1
    case isFalse => exact h.placed j c hc
  labelled j c hc := by
    rw [cores_put, update_apply] at hc
    split at hc
    case isTrue hj =>
      obtain ⟨r, rfl, rfl⟩ := map_eq_some_iff.1 hc
      subst hj
      exact (hown r rfl).2
    case isFalse => exact h.labelled j c hc
  linked := hlinked
  held g := held_put h (hheld g)
  nodup := h.nodup
  listed := h.listed
  unused j hj := by
    rw [cores_put, update_of_ne fun he => hi (by rw [← he]; exact hj)]
    exact h.unused j hj
  free j hj hc hu hg := by
    rw [cores_put, update_apply] at hc
    split at hc
    case isTrue he =>
      subst he
      exact absurd (hslack (map_eq_none_iff.1 hc)) hj
    case isFalse => exact h.free j hj hc hu hg

section
variable (hr : t.records i = some r)
include hr

theorem Grouped.notMem_free_of_some : i ∉ t.free := by
  intro hm
  have := (h.unused i hm).1
  rw [cores_of_some hr] at this
  cases this

theorem Grouped.group_place :
    ∃ p, r.pgid = t.number p ∧ t.placeOf r.pgid = some p := by
  obtain ⟨p, hp, hgen⟩ := (h.placed i _ (cores_of_some hr)).1
  exact ⟨p, hp, placeOf_eq_some.2 ⟨hp, hgen⟩⟩

theorem Grouped.session_place :
    ∃ p, r.sid = t.number p ∧ t.placeOf r.sid = some p := by
  obtain ⟨p, hp, hgen⟩ := (h.placed i _ (cores_of_some hr)).2
  exact ⟨p, hp, placeOf_eq_some.2 ⟨hp, hgen⟩⟩

omit hr in
omit h in
/-- A record that keeps its label and its numbers changes. -/
theorem Grouped.retouch {a' : Tally}
    (h : Grouped t (ahead + Pi.single r.pgid a) slack loose) (hr : t.records i = some r) (hlabel : r'.label = r.label)
    (hpgid : r'.pgid = r.pgid) (hsid : r'.sid = r.sid)
    (ha : (1, r'.stopped.isSome.toNat, r'.linked.toNat, 0) + a' = (1, r.stopped.isSome.toNat, r.linked.toNat, 0) + a)
    (hheld : ∀ g, (t.put i (some r') held).placesHeld g + holdsPlace g r.core =
      t.placesHeld g + holdsPlace g r'.core)
    (hlinked : i ∉ loose' →
      r'.linked = (!r'.state.isZombie && r'.parentIndex.any fun p => t.separates p r.pgid r.sid))
    (hloose : ∀ j, j ∉ loose' → j ≠ i → j ∉ loose) :
    Grouped (t.put i (some r') held) (ahead + Pi.single r.pgid a') slack loose' := by
  have hcore := cores_of_some hr
  have hsep : (t.put i (some r') held).separates = t.separates := by
    funext p pgid sid
    rw [separates_eq, separates_eq, cores_put, update_apply]
    split
    case isTrue hp =>
      rw [hp, hcore]
      show (r'.pgid != pgid && r'.sid == sid) = (r.pgid != pgid && r.sid == sid)
      rw [hpgid, hsid]
    case isFalse => rfl
  refine h.put (h.notMem_free_of_some hr) (fun he => by cases he) (fun n => ?_) ?_ ?_ fun j c hc hj => ?_
  · rw [hcore]
    show (r'.core.tally + Pi.single r.pgid a' : Nat → Tally) n = (r.core.tally + Pi.single r.pgid a : Nat → Tally) n
    have ht : ∀ x : Record, x.pgid = r.pgid → x.sid = r.sid → ∀ b : Tally, x.core.tally + Pi.single r.pgid b =
        Pi.single r.pgid ((1, x.stopped.isSome.toNat, x.linked.toNat, 0) + b) + Pi.single r.sid (0, 0, 0, 1) := by
      intro x hx hx' b
      rw [Pi.single_add, x.core_tally, hx, hx']
      abel
    rw [ht r' hpgid hsid, ht r rfl rfl, ha]
  · rintro _ ⟨⟩
    rw [hpgid, hsid, hlabel]
    exact ⟨h.placed i _ hcore, h.labelled i _ hcore⟩
  · intro g
    rw [hcore]
    exact hheld g
  · rw [hsep]
    rw [cores_put, update_apply] at hc
    split at hc
    case isTrue he =>
      subst he
      cases hc
      show r'.linked = (!r'.state.isZombie && r'.parentIndex.any fun p => t.separates p r'.pgid r'.sid)
      rw [hpgid, hsid]
      exact hlinked hj
    case isFalse he => exact h.linked j c hc (hloose j hj he)

/-- A record that keeps its label and its numbers changes together with the counts of its group: up or down. -/
theorem Grouped.recount {f : Numbers → Numbers}
    (hp : r.pgid = t.number p) (hlabel : r'.label = r.label) (hpgid : r'.pgid = r.pgid)
    (hsid : r'.sid = r.sid) (hheld : ∀ g, holdsPlace g r.core = holdsPlace g r'.core) (hab : a = 0 ∨ b = 0)
    (hcount : (1, r'.stopped.isSome.toNat, r'.linked.toNat, 0) + a = (1, r.stopped.isSome.toNat, r.linked.toNat, 0) + b)
    (hf : ∀ x, (t.numbers p).tally = x + a → (f (t.numbers p)).tally = x + b)
    (hu : (f (t.numbers p)).unused = true → (t.numbers p).unused = true)
    (hlinked : i ∉ loose' →
      r'.linked = (!r'.state.isZombie && r'.parentIndex.any fun p => t.separates p r.pgid r.sid))
    (hloose : ∀ j, j ∉ loose' → j ≠ i → j ∉ loose) :
    Grouped ((t.put i (some r') t.held).setNumbers p f) ahead slack loose' := by
  have hfree := h.numbers_notMem_free hr (.inl hp)
  have hheld' : ∀ g, t.placesHeld g + holdsPlace g r.core = t.placesHeld g + holdsPlace g r'.core := by
    intro g
    rw [hheld]
  rcases hab with rfl | rfl
  · -- up: the count first, so that it is ahead by what the record is about to give
    have h1 : Grouped (t.setNumbers p f) (ahead + Pi.single r.pgid b) slack loose := by
      rw [← add_zero ahead, ← Pi.single_zero (t.number p)] at h
      rw [hp]
      exact h.setNumbers hfree hf (.inr hu)
    have h2 : Grouped ((t.setNumbers p f).put i (some r') t.held) (ahead + Pi.single r.pgid 0) slack loose' :=
      h1.retouch hr hlabel hpgid hsid hcount hheld' hlinked hloose
    rw [Pi.single_zero] at h2
    exact h2
  · rw [← add_zero ahead, ← Pi.single_zero r.pgid] at h
    have h1 : Grouped (t.put i (some r') t.held) (ahead + Pi.single (t.number p) a) slack loose' := by
      rw [← hp]
      exact h.retouch hr hlabel hpgid hsid hcount hheld' hlinked hloose
    have h2 : Grouped ((t.put i (some r') t.held).setNumbers p f) (ahead + Pi.single (t.number p) 0) slack loose' :=
      h1.setNumbers hfree hf (.inr hu)
    rw [Pi.single_zero] at h2
    exact h2

/-! ## Stops and marks -/

/-- `set_stopped`: the record and the count of its group. -/
theorem setStopped_spec (signal : Option Nat) :
    ∃ t' v, t.setStopped i signal = some t' ∧ v.isSome = signal.isSome ∧ Grouped t' ahead slack loose ∧
      t'.records = update t.records i (some { r with stopped := v }) := by
  unfold setStopped
  rw [hr]
  by_cases hsame : r.stopped.isSome = signal.isSome
  · refine ⟨t, r.stopped, if_pos hsame, hsame, h, ?_⟩
    rw [eq_comm, update_eq_self_iff, hr]
  obtain ⟨p, hp, hplace⟩ := h.group_place hr
  set f : Numbers → Numbers := fun g => { g with stopped := if signal.isSome then g.stopped + 1 else g.stopped - 1 } with hf
  refine ⟨(t.put i (some { r with stopped := signal }) t.held).setNumbers p f, signal, ?_, rfl, ?_, rfl⟩
  · have hplace : (t.set i { r with stopped := signal }).placeOf r.pgid = some p := hplace
    simp only [bind_eq_bind, bind_some, if_neg hsame, hplace]
    rfl
  have hlinked := h.linked i _ (cores_of_some hr)
  cases hsig : signal with
  | some n =>
    have hnone : r.stopped.isSome = false := by simpa [hsig] using hsame
    refine h.recount (b := (0, 1, 0, 0)) hr hp rfl rfl rfl (fun _ => rfl) (.inl rfl) ?_ (fun x hx => ?_) id hlinked
      fun _ hj _ => hj
    · simp [hnone]
    · rw [add_zero] at hx
      rw [← hx]
      simp [hf, hsig, Numbers.tally]
  | none =>
    have hsome : r.stopped.isSome = true := by simpa [hsig, isSome_iff_ne_none] using hsame
    refine h.recount (a := (0, 1, 0, 0)) hr hp rfl rfl rfl (fun _ => rfl) (.inr rfl) ?_
      (fun x hx => Numbers.tally_down hx rfl (by simp [hf, hsig]) rfl rfl) id hlinked fun _ hj _ => hj
    simp [hsome]

/-- Who holds a place of `g` is counted. -/
theorem Grouped.holdsPlace_le (g : Nat) :
    holdsPlace g r.core ≤ t.placesHeld g := by
  have hsum := total_update (f := t.cores) (holdsPlace g) i none
  rw [cores_of_some hr, elim_some, elim_none, ← h.held g] at hsum
  omega

end

end

theorem placesHeld_giveUpPlace (t : Records) (mark : Option Mark) (g : Nat) :
    (t.giveUpPlace mark).placesHeld g =
      t.placesHeld g - if (mark.filter Mark.holds).map Mark.grant = some g then 1 else 0 := by
  unfold giveUpPlace placesHeld
  cases mark with
  | none => simp
  | some m =>
    cases hm : m.holds with
    | false => simp [hm]
    | true =>
      by_cases hg : m.grant < GRANTS_MAX
      · by_cases he : m.grant = g
        · subst he
          simp [hm, hg]
        · simp [hm, hg, he, update_of_ne (Ne.symm he)]
      · by_cases he : m.grant = g
        · subst he
          simp [hg]
        · simp [hg, he]

theorem placesHeld_takePlace (t : Records) (mark : Option Mark) (g : Nat)
    (hm : ∀ m, mark = some m → m.holds = true → m.grant < GRANTS_MAX ∧ t.held m.grant < 255) :
    (t.takePlace mark).placesHeld g =
      t.placesHeld g + if (mark.filter Mark.holds).map Mark.grant = some g then 1 else 0 := by
  unfold takePlace placesHeld
  cases mark with
  | none => simp
  | some m =>
    cases hholds : m.holds with
    | false => simp [hholds]
    | true =>
      obtain ⟨hg, hroom⟩ := hm m rfl hholds
      by_cases he : m.grant = g
      · subst he
        simp [hholds, hg, min_eq_left (Nat.succ_le_of_lt hroom)]
      · simp [hholds, hg, he, update_of_ne (Ne.symm he)]

/-- The places held are all that the marks change. -/
theorem giveUpPlace_eq (t : Records) (mark : Option Mark) :
    t.giveUpPlace mark = { t with held := (t.giveUpPlace mark).held } := by
  unfold giveUpPlace
  cases mark with
  | none => rfl
  | some m =>
    dsimp only
    split <;> rfl

theorem giveUpPlace_set (t : Records) (mark : Option Mark) :
    (t.set i r).giveUpPlace mark = t.put i (some r) (t.giveUpPlace mark).held := by
  unfold giveUpPlace set put
  cases mark with
  | none => rfl
  | some m =>
    dsimp only
    split <;> rfl

theorem takePlace_put (t : Records) (o : Option Record) (mark : Option Mark) :
    (t.put i o t'.held).takePlace mark = t.put i o (t'.takePlace mark).held := by
  unfold takePlace put
  cases mark with
  | none => rfl
  | some m =>
    dsimp only
    split <;> rfl

theorem setMark_eq (hr : t.records i = some r) (mark : Option Mark) :
    t.setMark i mark = t.put i (some { r with mark := mark })
      (if r.state.isZombie then t.held else ((t.giveUpPlace r.mark).takePlace mark).held) := by
  unfold setMark
  simp only [hr]
  split
  · rfl
  · rw [giveUpPlace_set, takePlace_put]

/-- `set_mark`: the record and the places held. -/
theorem setMark_spec (h : Grouped t ahead slack loose) (hr : t.records i = some r) {mark : Option Mark}
    (hm : ∀ m, mark = some m → m.holds = true → m.grant < GRANTS_MAX ∧ t.held m.grant < 255) :
    Grouped (t.setMark i mark) ahead slack loose ∧
      (t.setMark i mark).records = update t.records i (some { r with mark := mark }) := by
  have hlinked := h.linked i _ (cores_of_some hr)
  have hle := h.holdsPlace_le hr
  rw [setMark_eq hr]
  refine ⟨?_, rfl⟩
  rw [← add_zero ahead, ← Pi.single_zero r.pgid] at h ⊢
  refine h.retouch hr rfl rfl rfl rfl (fun g => ?_) hlinked fun _ hj _ => hj
  cases hz : r.state.isZombie with
  | true =>
    rw [holdsPlace_zombie hz, holdsPlace_zombie (r := { r with mark := mark }) hz]
    rfl
  | false =>
    have hle := hle g
    rw [holdsPlace_alive hz] at hle ⊢
    rw [holdsPlace_alive (r := { r with mark := mark }) hz]
    have htake := placesHeld_takePlace (t.giveUpPlace r.mark) mark g fun m hmark hholds => ?_
    · rw [placesHeld_giveUpPlace] at htake
      show ((t.giveUpPlace r.mark).takePlace mark).placesHeld g + _ = _
      rw [htake, add_right_comm, Nat.sub_add_cancel hle]
    · obtain ⟨h1, h2⟩ := hm m hmark hholds
      refine ⟨h1, ?_⟩
      have := placesHeld_giveUpPlace t r.mark m.grant
      simp only [placesHeld, if_pos h1] at this
      rw [this]
      exact lt_of_le_of_lt (Nat.sub_le _ _) h2

end Records

end Process
