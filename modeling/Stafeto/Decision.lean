import Stafeto.Scheduler

/-!
# The decision (kcore/src/sched.rs, `pick`, `preempt`, `can_hand_off` and `hand_off`)

`pick` has three competitors: the thread on the CPU, the ready threads and the cleanup. `pick_decides` says
which of them goes on, in every state that a sequence of operations reaches. `handOff_eq_wake_pick` says that
the hand-over of the CPU by a message, which never goes through the queue, leaves the state that waking the
receiver and a decision leave.
-/

namespace Sched

open Abi Function Scheduler Option

variable {T : Type} {s s' s1 : Scheduler T} {c c' : T → Nat} {t r : T} {now L : Nat} {cleanup : Option Nat}

/-- `Node::priority` (sched.rs:268): the level of the thread. -/
def Node.priority (n : Node T) : Nat := n.link.level

theorem Inv.top_eq_none (hI : Inv c s) : s.ready.top = none ↔ ∀ t, ¬ IsReady s t := by
  obtain ⟨ls, hq⟩ := hI.queue
  exact hq.top_eq_none

theorem Inv.top_eq_some (hI : Inv c s) :
    s.ready.top = some L ↔ (∃ t, IsReady s t ∧ (s.node t).priority = L) ∧ ∀ t, IsReady s t → (s.node t).priority ≤ L := by
  obtain ⟨ls, hq⟩ := hI.queue
  exact hq.top_eq_some

/-- The level is what the base and the boost make: what leaves these leaves the level. -/
theorem Inv.priority_eq (hI : Inv c s) (hI' : Inv c' s') (hbase : (s'.node t).base = (s.node t).base)
    (hboost : (s'.node t).boost = (s.node t).boost) : (s'.node t).priority = (s.node t).priority := by
  calc (s'.node t).priority = (s'.node t).effective := (hI'.thread t).level
    _ = (s.node t).effective := by rw [Node.effective, hbase, hboost]; rfl
    _ = (s.node t).priority := (hI.thread t).level.symm

section
variable [DecidableEq T] {q : ReadyQueue T} {m : Links T}

/-! ## The running thread goes back -/

theorem linkLast_heads {q' : ReadyQueue T} {m' : Links T} {level l : Nat}
    (h : q.linkLast m t level = some (q', m')) (hl : l ≠ level) : q'.heads l = q.heads l := by
  unfold ReadyQueue.linkLast at h
  split at h
  case isTrue => cases h
  case isFalse =>
    split at h
    case h_1 =>
      cases h
      exact update_of_ne hl ..
    case h_2 =>
      obtain ⟨tail, -, h⟩ := bind_eq_some_iff.1 h
      cases h
      rfl

/-- Either push writes links and the head of one level. -/
theorem push_inv {tail : Bool} (h : (if tail then s.pushTail t else s.pushHead t) = some s') :
    ∃ r, s' = s.withQueue r ∧ ∀ l, l ≠ (s.node t).priority → r.1.heads l = s.ready.heads l := by
  rw [push_eq, map_eq_some_iff] at h
  obtain ⟨⟨q, m⟩, hp, rfl⟩ := h
  refine ⟨(q, m), rfl, fun l hl => ?_⟩
  have hlevel : ∀ L, ReadyQueue.levelOf s.links t = some L → l ≠ L := by
    intro L hL
    unfold ReadyQueue.levelOf at hL
    split at hL
    · cases hL
      exact hl
    · cases hL
  cases tail with
  | true =>
    obtain ⟨L, hL, hp⟩ := bind_eq_some_iff.1 hp
    exact linkLast_heads hp (hlevel L hL)
  | false =>
    obtain ⟨L, hL, hp⟩ := bind_eq_some_iff.1 hp
    obtain ⟨⟨q1, m1⟩, h1, hp⟩ := bind_eq_some_iff.1 hp
    cases hp
    exact (update_of_ne (hlevel L hL) ..).trans (linkLast_heads h1 (hlevel L hL))

/-- `preempt`: the running thread is one more ready thread at its level; the other levels keep their heads. -/
theorem preempt_spec (now : Nat) (hI : Inv c s) (hr : s.running = some r) :
    ∃ s1, s.preempt r now = some s1 ∧ Inv c s1 ∧ s1.running = none ∧ (∀ u, IsReady s1 u ↔ IsReady s u ∨ u = r) ∧
      (∀ u, (s1.node u).priority = (s.node u).priority) ∧
      ∀ l, l ≠ (s.node r).priority → s1.ready.first l = s.ready.first l := by
  obtain ⟨-, s1, he, hI1, hr1, -⟩ := inv_preempt now hI hr
  refine ⟨s1, he, hI1, hr1, ?_⟩
  rw [preempt_eq, map_eq_some_iff] at he
  obtain ⟨s2, hp, rfl⟩ := he
  obtain ⟨q, rfl, hheads⟩ := push_inv hp
  refine ⟨fun u => ?_, fun u => hI.priority_eq hI1 ?_ ?_, fun l hl => hheads l ?_⟩
  · show (node _ u).state = .ready ↔ _
    by_cases hu : u = r
    · subst hu; simp [withQueue_node, Node.back]
    · simp [withQueue_node, setNode_ne hu, hu, IsReady]
  · by_cases hu : u = r
    · subst hu; simp [withQueue_node, Node.back]
    · simp [withQueue_node, setNode_ne hu]
  · by_cases hu : u = r
    · subst hu; simp [withQueue_node, Node.back]
    · simp [withQueue_node, setNode_ne hu]
  · rw [setNode_self]
    exact hl

/-! ## Nothing runs -/

theorem pickNext_spec (now : Nat) (cleanup : Option Nat) (hI : Inv c s) (hr : s.running = none) :
    ∃ d s', s.pickNext now cleanup = some (d, s') ∧
      ((d = .clean ∧ s' = s ∧ ∃ b, cleanup = some b ∧ ∀ u, IsReady s u → (s.node u).priority ≤ b) ∨
        (d = .idle ∧ s' = s ∧ cleanup = none ∧ ∀ u, ¬ IsReady s u) ∨
        ∃ t, d = .run t ∧ s'.running = some t ∧ (s'.node t).state = .running ∧ IsReady s t ∧
          s.ready.top = some (s.node t).priority ∧ s.ready.first (s.node t).priority = some t ∧
          (∀ b, cleanup = some b → b < (s.node t).priority) ∧ (∀ u, IsReady s' u ↔ IsReady s u ∧ u ≠ t) ∧
          ∀ u, (s'.node u).priority = (s.node u).priority) := by
  obtain ⟨d, s', he, hI', ⟨rfl, ⟨rfl, hc⟩ | ⟨rfl, ht, hc⟩⟩ | ⟨t, q, n, rfl, hready, ht, hfirst, hc, rfl, hs', -⟩⟩ :=
    inv_pickNext now hI hr cleanup
  · obtain ⟨b, rfl, htop⟩ := (any_eq_true _ _).1 hc
    refine ⟨_, _, he, Or.inl ⟨rfl, rfl, b, rfl, fun u hu => ?_⟩⟩
    cases ht : s'.ready.top with
    | none => exact absurd hu (hI.top_eq_none.1 ht u)
    | some L =>
      rw [ht] at htop
      exact ((hI.top_eq_some.1 ht).2 u hu).trans (by simpa using htop)
  · refine ⟨_, _, he, Or.inr (Or.inl ⟨rfl, rfl, ?_, hI.top_eq_none.1 ht⟩)⟩
    cases cleanup with
    | none => rfl
    | some b => simp [ht] at hc
  · refine ⟨_, _, he, Or.inr (Or.inr ⟨t, rfl, by rw [hs'], by simp [hs'], hready, ht, hfirst, fun b hb => ?_, fun u => ?_,
      fun u => hI.priority_eq hI' ?_ ?_⟩)⟩
    · subst hb
      simpa [ht, Node.priority] using hc
    · rw [hs']
      show (node _ u).state = .ready ↔ _
      by_cases hu : u = t
      · subst hu; simp
      · simp [setNode_ne hu, withQueue_node, hu, IsReady]
    all_goals
      rw [hs']
      by_cases hu : u = t
      · subst hu; simp
      · simp [setNode_ne hu, withQueue_node]

/-! ## The decision -/

/-- What a decision `d` that leads from `s` to `s'` has to be. -/
structure Decided (s : Scheduler T) (cleanup : Option Nat) (d : Decision T) (s' : Scheduler T) : Prop where
  /-- The thread that runs is at the top, above the cleanup; it went on or is the head of the highest level. -/
  run : ∀ t, d = .run t → s'.running = some t ∧ (s'.node t).state = .running ∧
    (∀ u, IsReady s u ∨ IsReady s' u → (s.node u).priority ≤ (s.node t).priority) ∧
    (∀ b, cleanup = some b → b < (s.node t).priority) ∧
    (s.running = some t ∧ s' = s ∨ s.running ≠ some t ∧ IsReady s t ∧ s.ready.top = some (s.node t).priority ∧
      s.ready.first (s.node t).priority = some t)
  /-- Who may take the CPU from the thread that has it. -/
  replaced : ∀ r, s.running = some r → d = .run r ∨
    (∃ u, d = .run u ∧ IsReady s u ∧ (s.node r).priority < (s.node u).priority) ∨
    d = .clean ∧ ∃ b, cleanup = some b ∧ (s.node r).priority ≤ b
  /-- It goes on when nothing is above it. -/
  goesOn : ∀ r, s.running = some r → (∀ u, IsReady s u → (s.node u).priority ≤ (s.node r).priority) →
    (∀ b, cleanup = some b → b < (s.node r).priority) → d = .run r ∧ s' = s
  /-- The cleanup comes when no thread is above it, the one that had the CPU among them. -/
  clean : d = .clean → s'.running = none ∧ (∀ u, s.running = some u ∨ IsReady s u → IsReady s' u) ∧
    ∃ b, cleanup = some b ∧ ∀ u, IsReady s u ∨ IsReady s' u → (s.node u).priority ≤ b
  idle : d = .idle → s.running = none ∧ s' = s ∧ cleanup = none ∧ ∀ u, ¬ IsReady s u
  priority : ∀ u, (s'.node u).priority = (s.node u).priority

omit [DecidableEq T] in
theorem decided_goesOn (hI : Inv c s) (hr : s.running = some r)
    (hready : ∀ u, IsReady s u → (s.node u).priority ≤ (s.node r).priority)
    (hclean : ∀ b, cleanup = some b → b < (s.node r).priority) : Decided s cleanup (.run r) s := by
  refine ⟨fun t ht => ?_, fun r' hr' => ?_, fun r' hr' _ _ => ?_, nofun, nofun, fun _ => rfl⟩
  · cases ht
    refine ⟨hr, hI.running_state hr, fun u hu => hready u (hu.elim id id), hclean, Or.inl ⟨hr, rfl⟩⟩
  · cases hr.symm.trans hr'
    exact Or.inl rfl
  · cases hr.symm.trans hr'
    exact ⟨rfl, rfl⟩

theorem decided_pickNext (now : Nat) (cleanup : Option Nat) (hI : Inv c s) (hr : s.running = none) :
    ∃ d s', s.pickNext now cleanup = some (d, s') ∧ Decided s cleanup d s' := by
  have hno : ∀ {P : T → Prop}, ∀ r, s.running = some r → P r := by
    intro P r h
    rw [hr] at h
    cases h
  obtain ⟨d, s', he, ⟨rfl, rfl, b, hb, hle⟩ | ⟨rfl, rfl, hb, hnone⟩ |
      ⟨t, rfl, hrun, hst, ht, htop, hfirst, hb, hready, hp⟩⟩ :=
    pickNext_spec now cleanup hI hr
  · exact ⟨_, _, he, nofun, hno, hno, fun _ => ⟨hr, fun u hu => hu.elim (hno u) id, b, hb, fun u hu => hle u (hu.elim id id)⟩,
      nofun, fun _ => rfl⟩
  · exact ⟨_, _, he, nofun, hno, hno, nofun, fun _ => ⟨hr, rfl, hb, hnone⟩, fun _ => rfl⟩
  · refine ⟨_, _, he, fun t' h => ?_, hno, hno, nofun, nofun, hp⟩
    cases h
    refine ⟨hrun, hst, fun u hu => (hI.top_eq_some.1 htop).2 u ?_, hb, Or.inr ⟨by rw [hr]; simp, ht, htop, hfirst⟩⟩
    exact hu.elim id fun h => ((hready u).1 h).1

/-- The running thread is put back first: what is above it, or the cleanup, is what comes next. -/
theorem decided_preempt (now : Nat) (hI : Inv c s) (hr : s.running = some r)
    (hout : (∃ u, IsReady s u ∧ (s.node r).priority < (s.node u).priority) ∨
      ∃ b, cleanup = some b ∧ (s.node r).priority ≤ b) :
    ∃ s1 d s', s.preempt r now = some s1 ∧ s1.pickNext now cleanup = some (d, s') ∧ Decided s cleanup d s' := by
  obtain ⟨s1, he1, hI1, hr1, hready1, hp1, hfirst1⟩ := preempt_spec now hI hr
  obtain ⟨d, s', he, hd⟩ := decided_pickNext now cleanup hI1 hr1
  have hrr : ∀ r', s.running = some r' → r' = r := fun r' h => by cases hr.symm.trans h; rfl
  -- a thread that runs next was ready before, at a higher level
  have habove : ∀ u, d = .run u → IsReady s u ∧ (s.node r).priority < (s.node u).priority := by
    intro u hu
    obtain ⟨-, -, hmax, hb, hwhy⟩ := hd.run u hu
    simp only [hp1, hready1] at hmax hb hwhy
    have hlt : (s.node r).priority < (s.node u).priority := by
      rcases hout with ⟨v, hv, hlt⟩ | ⟨b, hb', hle⟩
      · exact lt_of_lt_of_le hlt (hmax v (Or.inl (Or.inl hv)))
      · exact lt_of_le_of_lt hle (hb b hb')
    rw [hr1] at hwhy
    have hu1 := (hwhy.resolve_left (by simp)).2.1
    refine ⟨hu1.resolve_right fun h => ?_, hlt⟩
    subst h
    exact lt_irrefl _ hlt
  refine ⟨s1, d, s', he1, he, ⟨fun t ht => ?_, fun r' hr' => ?_, fun r' hr' hmax hb => ?_, fun hc => ?_, fun hi => ?_,
    fun u => (hd.priority u).trans (hp1 u)⟩⟩
  · obtain ⟨hrt, hst, hmax, hb, hwhy⟩ := hd.run t ht
    obtain ⟨hts, hlt⟩ := habove t ht
    simp only [hp1, hready1] at hmax hb hwhy
    rw [hr1] at hwhy
    obtain ⟨-, -, htop, hfirst⟩ := hwhy.resolve_left (by simp)
    refine ⟨hrt, hst, fun u hu => hmax u (hu.imp_left Or.inl), hb, Or.inr ⟨fun h => ?_, hts, ?_, ?_⟩⟩
    · rw [hrr t h] at hlt
      exact lt_irrefl _ hlt
    · exact hI.top_eq_some.2 ⟨⟨t, hts, rfl⟩, fun u hu => hmax u (Or.inl (Or.inl hu))⟩
    · rw [← hfirst1 _ (ne_of_gt hlt)]
      exact hfirst
  · rw [hrr r' hr']
    cases hdd : d with
    | run u => exact Or.inr (Or.inl ⟨u, rfl, habove u hdd⟩)
    | clean =>
      obtain ⟨-, -, b, hb, hle⟩ := hd.clean hdd
      refine Or.inr (Or.inr ⟨rfl, b, hb, ?_⟩)
      rw [← hp1]
      exact hle r (Or.inl ((hready1 r).2 (Or.inr rfl)))
    | idle => exact absurd ((hready1 r).2 (Or.inr rfl)) ((hd.idle hdd).2.2.2 r)
  · rw [hrr r' hr'] at hmax hb
    rcases hout with ⟨u, hu, hlt⟩ | ⟨b, hb', hle⟩
    · exact absurd (hmax u hu) (Nat.not_le_of_lt hlt)
    · exact absurd (hb b hb') (Nat.not_lt_of_le hle)
  · obtain ⟨hrn, hstay, b, hb, hle⟩ := hd.clean hc
    simp only [hp1, hready1] at hle hstay
    refine ⟨hrn, fun u hu => hstay u (Or.inr ?_), b, hb, fun u hu => hle u (hu.imp_left Or.inl)⟩
    exact hu.elim (fun h => Or.inr (hrr u h)) Or.inl
  · exact absurd ((hready1 r).2 (Or.inr rfl)) ((hd.idle hi).2.2.2 r)

theorem decided_pick (now : Nat) (cleanup : Option Nat) (hI : Inv c s) :
    ∃ d s', s.pick now cleanup = some (d, s') ∧ Decided s cleanup d s' := by
  unfold pick
  cases hr : s.running with
  | none => exact decided_pickNext now cleanup hI hr
  | some r =>
    simp only
    split
    case isTrue hgo =>
      rw [Bool.and_eq_true, Bool.not_eq_true', all_eq_true] at hgo
      refine ⟨_, _, rfl, decided_goesOn hI hr (fun u hu => ?_) fun b hb => ?_⟩
      · cases ht : s.ready.top with
        | none => exact absurd hu (hI.top_eq_none.1 ht u)
        | some L =>
          have hL := hgo.1
          simp only [ht, any_some, decide_eq_false_iff_not, not_lt] at hL
          exact ((hI.top_eq_some.1 ht).2 u hu).trans hL
      · simpa [Node.priority] using hgo.2 b hb
    case isFalse hgo =>
      have hout : (∃ u, IsReady s u ∧ (s.node r).priority < (s.node u).priority) ∨
          ∃ b, cleanup = some b ∧ (s.node r).priority ≤ b := by
        rw [Bool.and_eq_true, not_and_or, Bool.not_eq_true', Bool.not_eq_false, any_eq_true] at hgo
        rcases hgo with ⟨L, ht, hlt⟩ | hc
        · obtain ⟨⟨u, hu, rfl⟩, -⟩ := hI.top_eq_some.1 ht
          exact Or.inl ⟨u, hu, of_decide_eq_true hlt⟩
        · cases cleanup with
          | none => simp at hc
          | some b => exact Or.inr ⟨b, rfl, by simpa [Node.priority] using hc⟩
      obtain ⟨s1, d, s', he1, he, hd⟩ := decided_preempt now hI hr hout
      exact ⟨d, s', by simp only [he1, bind_eq_bind, bind_some, he], hd⟩

/-- **The decision of the scheduler**, in every state that operations meeting their contracts reach: `pick`
decides, and `Decided` holds of what it decides. -/
theorem pick_decides (s₀ : Scheduler T) (h : Init s₀) (ops : List (Op T)) (hm : Met s₀ ops) (s : Scheduler T)
    (hs : run s₀ ops = some s) (now : Nat) (cleanup : Option Nat) :
    ∃ d s', s.pick now cleanup = some (d, s') ∧ Decided s cleanup d s' := by
  obtain ⟨s', hr, hI⟩ := inv_run ops (inv_init h) hm
  cases hs.symm.trans hr
  exact decided_pick now cleanup hI

/-- One thread on the CPU, one ready at its level: the first goes on below a cleanup of level 9, and gives
way to one of level 10. -/
theorem pick_decides_two_threads :
    ∃ s, run ⟨ReadyQueue.new, none, 0, 100, fun _ : Bool => Node.new 10 .roundRobin⟩
        [.start true, .start false, .pick 0 none] = some s ∧
      (∃ s', s.pick 5 (some 9) = some (.run true, s')) ∧ ∃ s', s.pick 5 (some 10) = some (.clean, s') := by
  have hm : Met ⟨ReadyQueue.new, none, 0, 100, fun _ : Bool => Node.new 10 .roundRobin⟩
      [.start true, .start false, .pick 0 none] := by
    simp [Met, Op.Meets]
  have hinit : Init ⟨ReadyQueue.new, none, 0, 100, fun _ : Bool => Node.new 10 .roundRobin⟩ :=
    ⟨rfl, rfl, by decide, fun _ => ⟨10, .roundRobin, by decide, rfl⟩⟩
  obtain ⟨s, hs, -⟩ := inv_run _ (inv_init hinit) hm
  have hrun : s.running = some true ∧ (s.node true).priority = 10 ∧ ∀ u, (s.node u).priority ≤ 10 := by
    cases hs
    decide
  refine ⟨s, hs, ?_, ?_⟩
  · obtain ⟨d, s', he, hd⟩ := pick_decides _ hinit _ hm s hs 5 (some 9)
    obtain ⟨rfl, -⟩ := hd.goesOn true hrun.1 (fun u _ => by rw [hrun.2.1]; exact hrun.2.2 u) fun b hb => by
      cases hb
      rw [hrun.2.1]
      decide
    exact ⟨s', he⟩
  · obtain ⟨d, s', he, hd⟩ := pick_decides _ hinit _ hm s hs 5 (some 10)
    rcases hd.replaced true hrun.1 with rfl | ⟨u, -, -, hlt⟩ | ⟨rfl, -⟩
    · have := (hd.run true rfl).2.2.2.1 10 rfl
      rw [hrun.2.1] at this
      exact absurd this (by decide)
    · rw [hrun.2.1] at hlt
      exact absurd (hrun.2.2 u) (Nat.not_le_of_lt hlt)
    · exact ⟨s', he⟩

/-! ## The hand-over of the CPU -/

theorem remove_pushTail (hL : (m t).level = L)
    (hr : 1 ≤ L ∧ L < PRIORITY_LEVELS) (hhead : q.heads L = none) (hbit : q.mask.testBit L = false)
    (hmask : ∀ l, q.mask.testBit l = true → l < 64)
    (ht : m t = { m t with queued := false, prev := none, next := none }) :
    ∃ q1 m1, q.pushTail m t = some (q1, m1) ∧ q1.heads L = some t ∧ q1.remove m1 t = some (q, m) := by
  have hlev : ReadyQueue.levelOf m t = some L := by rw [ReadyQueue.levelOf, hL, if_pos hr]
  have hq : (m t).queued = false := by rw [ht]
  have hback : ReadyQueue.clearBit (q.mask ||| 1 <<< L) L = q.mask := by
    apply Nat.eq_of_testBit_eq
    intro i
    rw [Bool.eq_iff_iff, clearBit_testBit, Nat.one_shiftLeft]
    · by_cases hi : i = L
      · subst hi; simp [hbit]
      · simp [hi, Ne.symm hi]
    · intro hi
      rw [Nat.testBit_or, Nat.one_shiftLeft, Nat.testBit_two_pow, Bool.or_eq_true, decide_eq_true_iff] at hi
      rcases hi with hi | rfl
      · exact hmask i hi
      · exact hr.2
  refine ⟨⟨q.mask ||| 1 <<< L, update q.heads L (some t)⟩,
    ((m.setQueued t true).setPrev t (some t)).setNext t (some t), ?_, update_self .., ?_⟩
  · rw [ReadyQueue.pushTail, hlev]
    simp [ReadyQueue.linkLast, hq, hhead]
  · have hlev1 : ReadyQueue.levelOf (((m.setQueued t true).setPrev t (some t)).setNext t (some t)) t = some L := by
      simp [ReadyQueue.levelOf, hL, hr]
    simp only [ReadyQueue.remove, hlev1, bind_eq_bind]
    simp only [Links.setNext_apply, Links.setPrev_apply, Links.setQueued_apply, if_true, bind_some, hback]
    refine congrArg some (Prod.ext ?_ ?_)
    · show ReadyQueue.mk q.mask _ = q
      congr 1
      rw [update_idem, update_eq_self_iff, hhead]
    · funext x
      by_cases hx : x = t
      · subst hx
        refine Eq.trans ?_ ht.symm
        simp
      · simp [hx]

theorem pickNext_head (htop : s.ready.top = some L) (hhead : s.ready.heads L = some t)
    (hrem : s.remove t = some s1) (hclean : ∀ b, cleanup = some b → b < L) :
    s.pickNext now cleanup = some (.run t, { s1.setNode t { s1.node t with
      state := .running, since := now, sliceLeft := 0 } with
      running := some t, sliceEnd := satAdd now (s1.node t).sliceLeft }) := by
  have hnot : ¬ cleanup.any (fun b => (some L).all (· ≤ b)) = true := by
    rw [any_eq_true]
    rintro ⟨b, hb, hle⟩
    exact absurd (hclean b hb) (by simpa using hle)
  unfold pickNext
  rw [htop, if_neg hnot]
  simp [ReadyQueue.first, hhead, hrem]

omit [DecidableEq T] in
theorem canHandOff_clean (h : s.canHandOff L cleanup = true) : ∀ b, cleanup = some b → b < L := by
  rw [canHandOff, Bool.and_eq_true, all_eq_true] at h
  exact fun b hb => by simpa using h.1 b hb

omit [DecidableEq T] in
/-- Every ready thread is below the level that may take the CPU. -/
theorem Inv.lt_of_canHandOff (hI : Inv c s) (h : s.canHandOff L cleanup = true) {u : T} (hu : IsReady s u) :
    (s.node u).priority < L := by
  rw [canHandOff, Bool.and_eq_true] at h
  have hall := (all_eq_true _ _).1 h.2
  cases ht : s.ready.top with
  | none => exact absurd hu (hI.top_eq_none.1 ht u)
  | some top => exact lt_of_le_of_lt ((hI.top_eq_some.1 ht).2 u hu) (by simpa using hall top ht)

omit [DecidableEq T] in
theorem Inv.link_waiting (hI : Inv c s) (ht : (s.node t).state = .waiting) :
    s.links t = { s.links t with queued := false, prev := none, next := none } := by
  obtain ⟨hp, hn⟩ := (hI.thread t).unlinked (Or.inr (Or.inr ht))
  have hq := hI.not_queued (by rw [ht]; simp)
  show (s.node t).link = { (s.node t).link with queued := false, prev := none, next := none }
  generalize (s.node t).link = l at hp hn hq
  cases l
  cases hp
  cases hn
  cases hq
  rfl

/-- A thread above all others: its level is empty, and the queue with it and then without it is the same. -/
theorem Inv.remove_pushTail (hI : Inv c s) (ht : (s.node t).state = .waiting)
    (hbelow : ∀ u, IsReady s u → (s.node u).priority < (s.node t).priority) :
    ∃ q1 m1, s.ready.pushTail s.links t = some (q1, m1) ∧ q1.heads (s.node t).priority = some t ∧
      q1.remove m1 t = some (s.ready, s.links) := by
  obtain ⟨ls, hq⟩ := hI.queue
  have hT := hI.thread t
  have hnil : ls (s.node t).priority = [] := by
    refine List.eq_nil_iff_forall_not_mem.2 fun u hu => ?_
    obtain ⟨hu1, hu2⟩ := (hq.mem_iff _).1 hu
    exact ne_of_lt (hbelow u hu1) hu2.symm
  refine Sched.remove_pushTail rfl ?_ ?_ ?_ (fun l hl => ?_) (hI.link_waiting ht)
  · show 1 ≤ (s.node t).link.level ∧ (s.node t).link.level < PRIORITY_LEVELS
    rw [hT.level]
    exact effective_range hT.base hT.boost
  · rw [hq.holds.head, hnil]
    rfl
  · rw [← Bool.not_eq_true, hq.holds.mask, hnil]
    simp
  · exact (hq.holds.level l ((hq.holds.mask l).1 hl)).2

theorem handOff_of_inv (hI : Inv c s) (hr : s.running = none) (ht : (s.node t).state = .waiting)
    (hcan : s.canHandOff (s.node t).priority cleanup = true) :
    ∃ s1 s', s.wake t = some s1 ∧ s1.pick now cleanup = some (.run t, s') ∧ s.handOff t now = some s' := by
  have hbelow : ∀ u, IsReady s u → (s.node u).priority < (s.node t).priority := fun u => hI.lt_of_canHandOff hcan
  obtain ⟨q1, m1, hpush, hhead, hrem⟩ := hI.remove_pushTail ht hbelow
  obtain ⟨n, hn⟩ : ∃ n : Node T, n = { s.node t with state := .ready, sliceLeft := s.quantum } := ⟨_, rfl⟩
  obtain ⟨s1, hs1⟩ : ∃ s1, s1 = (s.setNode t n).withQueue (q1, m1) := ⟨_, rfl⟩
  have hwake : s.wake t = some s1 := by
    have hlinks : (s.setNode t n).links = s.links := links_setNode_same (by rw [hn])
    rw [wake]
    simp only [ht, ← hn]
    show ((s.setNode t n).ready.pushTail (s.setNode t n).links t).map _ = _
    rw [hlinks, hs1]
    exact congrArg (Option.map _) hpush
  have hI1 : Inv c s1 := by
    obtain ⟨s1', he, hI1, -⟩ := inv_wake hI ht
    cases hwake.symm.trans he
    exact hI1
  have hprio : ∀ u, (s1.node u).priority = (s.node u).priority := by
    intro u
    refine hI.priority_eq hI1 ?_ ?_
    all_goals
      by_cases hu : u = t
      · subst hu; simp [hs1, withQueue_node, hn]
      · simp [hs1, withQueue_node, setNode_ne hu]
  have htop : s1.ready.top = some (s.node t).priority := by
    refine hI1.top_eq_some.2 ⟨⟨t, ?_, hprio t⟩, fun u hu => ?_⟩
    · simp [IsReady, hs1, withQueue_node, hn]
    · rw [hprio]
      by_cases hut : u = t
      · rw [hut]
      · refine (hbelow u ?_).le
        simpa [IsReady, hs1, withQueue_node, setNode_ne hut] using hu
  have hrem1 : s1.remove t = some (s1.withQueue (s.ready, s.links)) := by
    rw [hs1]
    exact congrArg (Option.map _) hrem
  refine ⟨s1, { s.setNode t { s.node t with state := .running, since := now, sliceLeft := 0 } with
    sliceEnd := satAdd now s.quantum, running := some t }, hwake, ?_, ?_⟩
  · rw [pick, show s1.running = none by rw [hs1]; exact hr]
    refine (pickNext_head htop (by rw [hs1]; exact hhead) hrem1 (canHandOff_clean hcan)).trans ?_
    refine congrArg some (Prod.ext rfl ?_)
    -- the links are those from before; the state, the stint and the quantum are written by hand
    simp only [hs1, setNode, withQueue, mk.injEq, true_and, update_self, hn]
    refine funext fun u => ?_
    by_cases hu : u = t
    · subst hu; simp [links]
    · simp [hu, links]
  · have hcan' : s.canHandOff (s.node t).link.level none = true := by
      rw [canHandOff, Bool.and_eq_true] at hcan ⊢
      exact ⟨rfl, hcan.2⟩
    rw [handOff]
    simp only [hr, ht, hcan', if_true]
    rfl

/-- **The hand-over of the CPU by a message is the slow path**: in every reachable state where nothing runs and
the waiting thread `t` is above the cleanup and every ready thread, `hand_off` leaves the very state that
`wake` and then `pick` leave, and that decision is `Run(t)`. -/
theorem handOff_eq_wake_pick (s₀ : Scheduler T) (h : Init s₀) (ops : List (Op T)) (hm : Met s₀ ops) (s : Scheduler T)
    (hs : run s₀ ops = some s) (hr : s.running = none) (t : T) (ht : (s.node t).state = .waiting) (now : Nat)
    (cleanup : Option Nat) (hcan : s.canHandOff (s.node t).priority cleanup = true) :
    ∃ s1 s', s.wake t = some s1 ∧ s1.pick now cleanup = some (.run t, s') ∧ s.handOff t now = some s' := by
  obtain ⟨s', hr', hI⟩ := inv_run ops (inv_init h) hm
  cases hs.symm.trans hr'
  exact handOff_of_inv hI hr ht hcan

/-- A server that waits above its client, when the client blocks. -/
theorem handOff_eq_wake_pick_server :
    ∃ s s1 s', run ⟨ReadyQueue.new, none, 0, 100, fun server : Bool => Node.new (cond server 12 10) .roundRobin⟩
        [.start true, .pick 0 none, .block 3, .start false, .pick 4 none, .block 9] = some s ∧
      s.wake true = some s1 ∧ s1.pick 9 (some 11) = some (.run true, s') ∧ s.handOff true 9 = some s' := by
  have hm : Met ⟨ReadyQueue.new, none, 0, 100, fun server : Bool => Node.new (cond server 12 10) .roundRobin⟩
      [.start true, .pick 0 none, .block 3, .start false, .pick 4 none, .block 9] := by
    refine ⟨trivial, fun s1 h1 => ⟨trivial, fun s2 h2 => ⟨?_, fun s3 h3 => ⟨trivial, fun s4 h4 => ⟨trivial, fun s5 h5 =>
      ⟨?_, fun _ _ => trivial⟩⟩⟩⟩⟩⟩
    · cases h1; cases h2; rfl
    · cases h1; cases h2; cases h3; cases h4; cases h5; rfl
  have hinit : Init ⟨ReadyQueue.new, none, 0, 100, fun server : Bool => Node.new (cond server 12 10) .roundRobin⟩ :=
    ⟨rfl, rfl, by decide, fun b => ⟨cond b 12 10, .roundRobin, by cases b <;> decide, rfl⟩⟩
  obtain ⟨s, hs, -⟩ := inv_run _ (inv_init hinit) hm
  have hfacts : s.running = none ∧ (s.node true).state = .waiting ∧
      s.canHandOff (s.node true).priority (some 11) = true := by
    cases hs
    decide
  obtain ⟨s1, s', h1, h2, h3⟩ :=
    handOff_eq_wake_pick _ hinit _ hm s hs hfacts.1 true hfacts.2.1 9 (some 11) hfacts.2.2
  exact ⟨s, s1, s', hs, h1, h2, h3⟩

end

end Sched
