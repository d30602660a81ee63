import Stafeto.ReadyQueue

/-!
# The scheduler (kcore/src/sched.rs, `Node` and `Scheduler`)

One CPU's scheduler with the nodes of its threads. Every operation of the source is a function that
gives the next state, or `none` where an assertion fails. The running thread is in no list; a ready one
is in the list of its level; the kernel keeps a waiting or parked one elsewhere.

`run` executes a sequence of operations and `Met` says that each of them meets the contract that its
method states. One lemma for each operation says that it keeps the invariant and, in `Moves`, what it does to
each thread: it stays off the CPU or on it, leaves it or takes it. `sched_safe` is the invariant of the whole
component: no assertion fails, and the states, the lists, the levels and the boosts agree after every sequence.
-/

namespace Sched

open Abi Function Option

/-- The arithmetic of `u64::saturating_add`. -/
def satAdd (a b : Nat) : Nat := min (a + b) (2 ^ 64 - 1)

/-- `State` (sched.rs:45). -/
inductive State where
  | stopped
  | ready
  | running
  | waiting
  | dead
  | parked
  deriving DecidableEq, Repr

/-- `Node` (sched.rs:231). -/
structure Node (T : Type) where
  policy : Policy
  state : State
  sliceLeft : Nat
  base : Nat
  boost : Nat
  ran : Nat
  since : Nat
  link : Link T

variable {T : Type}

/-- `Node::new`: a stopped thread. -/
def Node.new (priority : Nat) (policy : Policy) : Node T :=
  ⟨policy, .stopped, 0, priority, 0, 0, 0, Link.new priority⟩

/-- `Node::effective`. -/
def Node.effective (n : Node T) : Nat := max n.base n.boost

/-- `Decision` (sched.rs:558). -/
inductive Decision (T : Type) where
  | run (t : T)
  | clean
  | idle

/-- `Scheduler` (sched.rs:571), with the nodes that its threads keep. -/
structure Scheduler (T : Type) where
  ready : ReadyQueue T
  running : Option T
  sliceEnd : Nat
  quantum : Nat
  node : T → Node T

namespace Scheduler

def links (s : Scheduler T) : Links T := fun t => (s.node t).link

/-- The scheduler after an operation on its queue. -/
def withQueue (s : Scheduler T) (r : ReadyQueue T × Links T) : Scheduler T :=
  { s with ready := r.1, node := fun t => { s.node t with link := r.2 t } }

/-- `can_hand_off` (sched.rs:718). -/
def canHandOff (s : Scheduler T) (level : Nat) (cleanup : Option Nat) : Bool :=
  cleanup.all (· < level) && s.ready.top.all (· < level)

variable [DecidableEq T]

def setNode (s : Scheduler T) (t : T) (n : Node T) : Scheduler T := { s with node := update s.node t n }

/-- `set_level` on the link of `t`. -/
def setLevel (s : Scheduler T) (t : T) (level : Nat) : Option (Scheduler T) :=
  ((s.node t).link.setLevel level).map fun l => s.setNode t { s.node t with link := l }

def pushTail (s : Scheduler T) (t : T) : Option (Scheduler T) := (s.ready.pushTail s.links t).map s.withQueue
def pushHead (s : Scheduler T) (t : T) : Option (Scheduler T) := (s.ready.pushHead s.links t).map s.withQueue
def remove (s : Scheduler T) (t : T) : Option (Scheduler T) := (s.ready.remove s.links t).map s.withQueue
def moveTo (s : Scheduler T) (t : T) (level : Nat) : Option (Scheduler T) :=
  (s.ready.moveTo s.links t level).map s.withQueue

/-- `charge` (sched.rs:614). -/
def charge (s : Scheduler T) (r : T) (now : Nat) : Scheduler T :=
  let n := s.node r
  s.setNode r { n with ran := satAdd n.ran (now - n.since) }

/-- `start` (sched.rs:649). -/
def start (s : Scheduler T) (t : T) : Option (Except Error (Scheduler T)) :=
  if s.quantum = 0 then none
  else
    let n := s.node t
    if n.state ≠ .stopped then some (.error .badState)
    else
      let s := s.setNode t { n with state := .ready, sliceLeft := s.quantum }
      (s.pushTail t).map .ok

/-- `preempt` (sched.rs:728). -/
def preempt (s : Scheduler T) (r : T) (now : Nat) : Option (Scheduler T) :=
  let rest := s.sliceEnd - now
  let s := s.charge r now
  let n := s.node r
  let ended := decide (n.policy = .roundRobin ∧ rest = 0)
  let s := s.setNode r { n with state := .ready, sliceLeft := if ended then s.quantum else rest }
  (if ended then s.pushTail r else s.pushHead r).map fun s => { s with running := none }

/-- The second half of `pick` (sched.rs:690): nothing runs. -/
def pickNext (s : Scheduler T) (now : Nat) (cleanup : Option Nat) : Option (Decision T × Scheduler T) :=
  let top := s.ready.top
  if cleanup.any (fun c => top.all (· ≤ c)) then some (.clean, s)
  else
    match top with
    | none => some (.idle, s)
    | some top => do
      let next ← s.ready.first top
      let s ← s.remove next
      let n := s.node next
      let sliceEnd := satAdd now n.sliceLeft
      let s := s.setNode next { n with state := .running, since := now, sliceLeft := 0 }
      some (.run next, { s with running := some next, sliceEnd := sliceEnd })

/-- `pick` (sched.rs:679). -/
def pick (s : Scheduler T) (now : Nat) (cleanup : Option Nat) : Option (Decision T × Scheduler T) :=
  match s.running with
  | some r =>
    let level := (s.node r).link.level
    let above := s.ready.top.any (level < ·)
    if !above && cleanup.all (· < level) then some (.run r, s)
    else do
      let s ← s.preempt r now
      s.pickNext now cleanup
  | none => s.pickNext now cleanup

/-- `tick` (sched.rs:754). -/
def tick (s : Scheduler T) (now : Nat) : Option (Scheduler T) :=
  match s.running with
  | none => some s
  | some r =>
    if (s.node r).policy ≠ .roundRobin ∨ now < s.sliceEnd then some s
    else
      let s := s.charge r now
      let s := s.setNode r { s.node r with state := .ready, sliceLeft := s.quantum }
      (s.pushTail r).map fun s => { s with running := none }

/-- `yield_running` (sched.rs:780). -/
def yieldRunning (s : Scheduler T) (now : Nat) : Option (Scheduler T) :=
  match s.running with
  | none => some s
  | some r =>
    let s := { s with running := none }
    let s := s.charge r now
    let s := s.setNode r { s.node r with state := .ready, sliceLeft := s.quantum }
    s.pushTail r

/-- `relevel` (sched.rs:922). -/
def relevel (s : Scheduler T) (t : T) (level : Nat) : Option (Scheduler T) :=
  let old := (s.node t).link.level
  if level = old then some s
  else if (s.node t).state ≠ .ready then s.setLevel t level
  else
    let s := if old < level then s.setNode t { s.node t with sliceLeft := s.quantum } else s
    s.moveTo t level

/-- The new quantum of a thread that turns from FIFO to round robin (sched.rs:834). -/
def toRoundRobin (s : Scheduler T) (t : T) (policy : Policy) (now : Nat) : Scheduler T :=
  if (s.node t).policy = .fifo ∧ policy = .roundRobin then
    match (s.node t).state with
    | .ready => s.setNode t { s.node t with sliceLeft := s.quantum }
    | .running => { s with sliceEnd := satAdd now s.quantum }
    | _ => s
  else s

/-- `set_priority` (sched.rs:817). -/
def setPriority (s : Scheduler T) (t : T) (priority : Nat) (policy : Policy) (tail : Bool) (now : Nat) :
    Option (Except Error (Scheduler T)) :=
  if ¬ (1 ≤ priority ∧ priority < PRIORITY_LEVELS) then none
  else if (s.node t).state = .dead then some (.error .badState)
  else
    let s := s.toRoundRobin t policy now
    let s := s.setNode t { s.node t with policy := policy, base := priority }
    let level := (s.node t).effective
    let toTail := tail && decide ((s.node t).boost ≤ (s.node t).base)
    (match toTail, (s.node t).state with
      | true, .ready => do
        let s ← s.remove t
        let s ← s.setLevel t level
        let s := s.setNode t { s.node t with sliceLeft := s.quantum }
        s.pushTail t
      | true, .running => do
        let s := s.charge t now
        let s ← s.setLevel t level
        let s := s.setNode t { s.node t with state := .ready, sliceLeft := s.quantum }
        let s := { s with running := none }
        s.pushTail t
      | _, _ => s.relevel t level).map .ok

/-- `boost` (sched.rs:886). -/
def boost (s : Scheduler T) (t : T) (level ceiling : Nat) : Option (Scheduler T) :=
  let s := s.setNode t { s.node t with boost := max (s.node t).boost (min level ceiling) }
  s.relevel t (s.node t).effective

/-- `unboost` (sched.rs:905). -/
def unboost (s : Scheduler T) (t : T) : Option (Scheduler T) :=
  let s := s.setNode t { s.node t with boost := 0 }
  s.relevel t (s.node t).effective

/-- `block` (sched.rs:951). -/
def block (s : Scheduler T) (now : Nat) : Option (T × Scheduler T) := do
  let r ← s.running
  let s := { s with running := none }
  let s := s.charge r now
  some (r, s.setNode r { s.node r with state := .waiting })

/-- `wake` (sched.rs:968). -/
def wake (s : Scheduler T) (t : T) : Option (Scheduler T) :=
  let n := s.node t
  if n.state = .waiting then (s.setNode t { n with state := .ready, sliceLeft := s.quantum }).pushTail t else none

/-- `park` (sched.rs:987). -/
def park (s : Scheduler T) (t : T) (now : Nat) : Option (Scheduler T) :=
  if s.running = some t then
    let s := { s with running := none }
    let s := s.charge t now
    some (s.setNode t { s.node t with state := .parked })
  else none

/-- `unpark` (sched.rs:1001). -/
def unpark (s : Scheduler T) (t : T) : Option (Scheduler T) :=
  let n := s.node t
  if n.state = .parked then (s.setNode t { n with state := .waiting }).wake t else none

/-- `hand_off` (sched.rs:1020). -/
def handOff (s : Scheduler T) (t : T) (now : Nat) : Option (Scheduler T) :=
  if s.running.isSome then none
  else
    let n := s.node t
    if n.state ≠ .waiting then none
    else if s.canHandOff n.link.level none then
      let s := s.setNode t { n with state := .running, since := now, sliceLeft := 0 }
      some { s with sliceEnd := satAdd now s.quantum, running := some t }
    else none

/-- `exit` (sched.rs:1046). -/
def exit (s : Scheduler T) (t : T) (now : Nat) : Option (Scheduler T) := do
  let n := s.node t
  let s ← match n.state with
    | .running => if s.running = some t then some ({ s with running := none }.charge t now) else none
    | .ready => s.remove t
    | .waiting | .parked => if n.link.queued then none else some s
    | .stopped | .dead => some s
  some (s.setNode t { s.node t with state := .dead })

end Scheduler

open Scheduler

/-! ## Sequences of operations -/

/-- The operations. `create` makes a thread's node at the place of one that never started or has ended;
`parked` is what a `ParkedList`, through which the kernel keeps the parked threads of a process, does to
the link of one. -/
inductive Op (T : Type) where
  | create (t : T) (priority : Nat) (policy : Policy)
  | start (t : T)
  | pick (now : Nat) (cleanup : Option Nat)
  | tick (now : Nat)
  | yieldRunning (now : Nat)
  | setPriority (t : T) (priority : Nat) (policy : Policy) (tail : Bool) (now : Nat)
  | boost (t : T) (level ceiling : Nat)
  | unboost (t : T)
  | block (now : Nat)
  | wake (t : T)
  | park (t : T) (now : Nat)
  | unpark (t : T)
  | handOff (t : T) (now : Nat)
  | exit (t : T) (now : Nat)
  | parked (t : T) (prev next : Option T)

/-- The instant that an operation is given. -/
def Op.instant : Op T → Option Nat
  | pick now _ | tick now | yieldRunning now | setPriority _ _ _ _ now | block now | park _ now | handOff _ now
  | exit _ now => some now
  | create _ _ _ | start _ | boost _ _ _ | unboost _ | wake _ | unpark _ | parked _ _ _ => none

/-- The contracts the methods state. -/
def Op.Meets (s : Scheduler T) : Op T → Prop
  | create t priority _ =>
    (1 ≤ priority ∧ priority < PRIORITY_LEVELS) ∧ ((s.node t).state = .stopped ∨ (s.node t).state = .dead)
  | setPriority _ priority _ _ _ => 1 ≤ priority ∧ priority < PRIORITY_LEVELS
  | boost _ level ceiling =>
    (1 ≤ level ∧ level < PRIORITY_LEVELS) ∧ (1 ≤ ceiling ∧ ceiling < PRIORITY_LEVELS)
  | block _ => s.running.isSome
  | wake t => (s.node t).state = .waiting
  | park t _ => s.running = some t
  | unpark t => (s.node t).state = .parked ∧ (s.node t).link.prev = none ∧ (s.node t).link.next = none
  | handOff t _ =>
    s.running = none ∧ (s.node t).state = .waiting ∧ s.canHandOff (s.node t).link.level none = true
  | parked t _ _ => (s.node t).state = .parked
  | start _ | pick _ _ | tick _ | yieldRunning _ | unboost _ | exit _ _ => True

/-- The ceiling that the operation gives for the boost of `t`. -/
def Op.ceiling [DecidableEq T] (t : T) : Op T → Nat
  | boost u _ ceiling => if u = t then ceiling else 0
  | _ => 0

section
variable [DecidableEq T]

/-- The state that a call leaves: as it was when it returned an error. -/
def kept (s : Scheduler T) : Except Error (Scheduler T) → Scheduler T
  | .ok s' => s'
  | .error _ => s

def exec (s : Scheduler T) : Op T → Option (Scheduler T)
  | .create t priority policy => some (s.setNode t (Node.new priority policy))
  | .start t => (s.start t).map (kept s)
  | .pick now cleanup => (s.pick now cleanup).map Prod.snd
  | .tick now => s.tick now
  | .yieldRunning now => s.yieldRunning now
  | .setPriority t priority policy tail now => (s.setPriority t priority policy tail now).map (kept s)
  | .boost t level ceiling => s.boost t level ceiling
  | .unboost t => s.unboost t
  | .block now => (s.block now).map Prod.snd
  | .wake t => s.wake t
  | .park t now => s.park t now
  | .unpark t => s.unpark t
  | .handOff t now => s.handOff t now
  | .exit t now => s.exit t now
  | .parked t prev next =>
    some (s.setNode t { s.node t with link := { (s.node t).link with prev := prev, next := next } })

def run (s : Scheduler T) : List (Op T) → Option (Scheduler T)
  | [] => some s
  | op :: ops => (exec s op).bind fun s => run s ops

/-- Each operation meets its contract where it is executed. -/
def Met (s : Scheduler T) : List (Op T) → Prop
  | [] => True
  | op :: ops => op.Meets s ∧ ∀ s', exec s op = some s' → Met s' ops

/-- The largest ceiling given to a boost of `t`. -/
def maxCeiling (t : T) : List (Op T) → Nat
  | [] => 0
  | op :: ops => max (op.ceiling t) (maxCeiling t ops)

end

/-- At boot: a quantum is set, no thread has started. -/
def Init (s : Scheduler T) : Prop :=
  s.ready = ReadyQueue.new ∧ s.running = none ∧ 0 < s.quantum ∧
    ∀ t, ∃ priority policy, (1 ≤ priority ∧ priority < PRIORITY_LEVELS) ∧ s.node t = Node.new priority policy

/-! ## The invariant -/

/-- A thread by itself; `c` bounds its boost. -/
structure Thread (c : Nat) (n : Node T) : Prop where
  level : n.link.level = n.effective
  base : 1 ≤ n.base ∧ n.base < PRIORITY_LEVELS
  boost : n.boost < PRIORITY_LEVELS
  cap : n.boost ≤ c
  /-- Only a ready thread is linked, or a parked one, through its process. -/
  unlinked : n.state = .stopped ∨ n.state = .running ∨ n.state = .waiting →
    n.link.prev = none ∧ n.link.next = none

def IsReady (s : Scheduler T) (t : T) : Prop := (s.node t).state = .ready

structure Inv (c : T → Nat) (s : Scheduler T) : Prop where
  queue : ∃ ls, HoldsSet s.ready s.links (IsReady s) ls
  running : ∀ t, s.running = some t ↔ (s.node t).state = .running
  thread : ∀ t, Thread (c t) (s.node t)
  quantum : 0 < s.quantum

variable {s s' s1 : Scheduler T} {c c' : T → Nat} {t : T} {n n' k : Node T} {i q e e' : Nat}

theorem effective_range (hb : 1 ≤ n.base ∧ n.base < PRIORITY_LEVELS) (hx : n.boost < PRIORITY_LEVELS) :
    1 ≤ n.effective ∧ n.effective < PRIORITY_LEVELS := by
  unfold Node.effective
  omega

theorem Thread.mono {a b : Nat} (h : Thread a n) (hab : a ≤ b) : Thread b n :=
  ⟨h.level, h.base, h.boost, h.cap.trans hab, h.unlinked⟩

/-! ## What an operation does to a thread -/

/-- The nodes agree but for the level, what makes it and the neighbours. -/
structure Alike (n n' : Node T) : Prop where
  policy : n'.policy = n.policy
  state : n'.state = n.state
  sliceLeft : n'.sliceLeft = n.sliceLeft
  ran : n'.ran = n.ran
  since : n'.since = n.since

/-- A thread at the instant `i`, its node `n` before and `n'` after; `e` and `e'` are the ends of the quantum
on the CPU and `q` is a whole quantum. -/
inductive Moves (i q e e' : Nat) (n n' : Node T) : Prop where
  /-- Off the CPU: a ready round-robin thread has what it had, or a new quantum. -/
  | off (h : n.state ≠ .running) (h' : n'.state ≠ .running) (ran : n'.ran = n.ran)
    (slice : n'.state = .ready → n'.policy = .roundRobin →
      n'.sliceLeft = q ∨ n.state = .ready ∧ n.policy = .roundRobin ∧ n'.sliceLeft = n.sliceLeft)
  /-- On the CPU: the quantum goes on, or begins when the thread turns round robin. -/
  | on (h : n.state = .running) (h' : n'.state = .running) (ran : n'.ran = n.ran) (since : n'.since = n.since)
    (slice : n'.policy = .roundRobin → n.policy = .roundRobin ∧ e' = e ∨ n.policy = .fifo ∧ e' = satAdd i q)
  /-- From the CPU: the stint is charged; to the queue with a new quantum or the rest of this one. -/
  | leaves (h : n.state = .running) (h' : n'.state ≠ .running) (ran : n'.ran = satAdd n.ran (i - n.since))
    (slice : n'.state = .ready → n'.policy = .roundRobin →
      n'.sliceLeft = q ∨ n.policy = .roundRobin ∧ i < e ∧ n'.sliceLeft = e - i)
  /-- To the CPU: a stint begins, from the queue with what was left, or from a wait with a new quantum. -/
  | enters (h : n.state ≠ .running) (h' : n'.state = .running) (ran : n'.ran = n.ran) (since : n'.since = i)
    (slice : n.state = .ready ∧ n'.policy = n.policy ∧ e' = satAdd i n.sliceLeft ∨ n.state = .waiting ∧ e' = satAdd i q)

theorem Alike.refl (n : Node T) : Alike n n := ⟨rfl, rfl, rfl, rfl, rfl⟩

theorem Alike.trans (h : Alike n n') (h' : Alike n' k) : Alike n k :=
  ⟨h'.policy.trans h.policy, h'.state.trans h.state, h'.sliceLeft.trans h.sliceLeft, h'.ran.trans h.ran,
    h'.since.trans h.since⟩

theorem Moves.stays (hst : n'.state = n.state) (hran : n'.ran = n.ran) (hsince : n'.since = n.since)
    (hslice : n.state = .ready → n'.policy = .roundRobin →
      n'.sliceLeft = q ∨ n.policy = .roundRobin ∧ n'.sliceLeft = n.sliceLeft)
    (hend : n.state = .running → n'.policy = .roundRobin →
      n.policy = .roundRobin ∧ e' = e ∨ n.policy = .fifo ∧ e' = satAdd i q) : Moves i q e e' n n' := by
  by_cases hr : n.state = .running
  · exact .on hr (hst.trans hr) hran hsince (hend hr)
  · refine .off hr (by rwa [hst]) hran fun hs hp => ?_
    rw [hst] at hs
    exact (hslice hs hp).imp_right fun h => ⟨hs, h⟩

theorem Alike.moves (h : Alike n n') (he : n.state = .running → e' = e) : Moves i q e e' n n' :=
  .stays h.state h.ran h.since (fun _ hp => .inr ⟨h.policy ▸ hp, h.sliceLeft⟩) fun hr hp => .inl ⟨h.policy ▸ hp, he hr⟩

/-- What a thread does is said of the fields that alike nodes share. -/
theorem Moves.congr {m : Node T} (hl : Alike n k) (h : Moves i q e e' k m) (hr : Alike m n') : Moves i q e e' n n' := by
  obtain ⟨hpol, hst, hslice, hran, hsince⟩ := hr
  obtain ⟨hpol', hst', hslice', hran', hsince'⟩ := hl
  cases h with
  | off h h' ran slice =>
    rw [hst', hpol', hslice', ← hst, ← hpol, ← hslice] at slice
    exact .off (hst' ▸ h) (hst ▸ h') (hran.trans (ran.trans hran')) slice
  | «on» h h' ran since slice =>
    rw [hpol', ← hpol] at slice
    exact .on (hst' ▸ h) (hst ▸ h') (hran.trans (ran.trans hran')) (hsince.trans (since.trans hsince')) slice
  | leaves h h' ran slice =>
    rw [hpol', ← hst, ← hpol, ← hslice] at slice
    rw [hran', hsince', ← hran] at ran
    exact .leaves (hst' ▸ h) (hst ▸ h') ran slice
  | enters h h' ran since slice =>
    rw [hst', hpol', hslice', ← hpol] at slice
    exact .enters (hst' ▸ h) (hst ▸ h') (hran.trans (ran.trans hran')) (hsince.trans since) slice

/-- The operation at the instant `i` leads from `s` to `s'`. -/
def AllMove (i : Nat) (s s' : Scheduler T) : Prop :=
  s'.quantum = s.quantum ∧ ∀ x, Moves i s.quantum s.sliceEnd s'.sliceEnd (s.node x) (s'.node x)

theorem allMove_refl (i : Nat) (s : Scheduler T) : AllMove i s s := ⟨rfl, fun _ => (Alike.refl _).moves fun _ => rfl⟩

/-- From `s` to `s'` the thread `t` got the node `n` and the quantum on the CPU the end `e`; of the other threads only
neighbours in the queue were written. -/
structure Turn (s : Scheduler T) (t : T) (n : Node T) (e : Nat) (s' : Scheduler T) : Prop where
  quantum : s'.quantum = s.quantum
  sliceEnd : s'.sliceEnd = e
  self : Alike n (s'.node t)
  other : ∀ x, x ≠ t → Alike (s.node x) (s'.node x)

theorem Turn.node (h : Turn s t n e s') (hn : Alike n' n) : Turn s t n' e s' :=
  ⟨h.quantum, h.sliceEnd, hn.trans h.self, h.other⟩

theorem Turn.trans (h : Turn s t n e s1) (h' : Turn s1 t n' e' s') : Turn s t n' e' s' :=
  ⟨h'.quantum.trans h.quantum, h'.sliceEnd, h'.self, fun x hx => (h.other x hx).trans (h'.other x hx)⟩

/-- What `t` did, and that the others did nothing. -/
theorem Turn.allMove (h : Turn s t n e s') (hm : Moves i s.quantum s.sliceEnd e (s.node t) n)
    (he : ∀ x, x ≠ t → (s.node x).state = .running → e = s.sliceEnd) : AllMove i s s' := by
  obtain ⟨hq, rfl, hself, hother⟩ := h
  refine ⟨hq, fun x => ?_⟩
  by_cases hx : x = t
  · subst hx
    exact .congr (.refl _) hm hself
  · exact (hother x hx).moves (he x hx)

/-! ## What keeps the invariant -/

/-- Once the queue, the running thread and `t` are in order, everything is: of the other threads only the
ready ones changed, and of those only the neighbours. -/
theorem Inv.change (hI : Inv c s) (t : T) (hc : ∀ x, c x ≤ c' x)
    (hn : ∀ x, x ≠ t → s'.node x = { s.node x with link := s'.links x })
    (hf : SetFrame s.links s'.links (IsReady s) t) (hq : ∃ ls, HoldsSet s'.ready s'.links (IsReady s') ls)
    (hr : ∀ x, x ≠ t → (s'.running = some x ↔ s.running = some x))
    (hrt : s'.running = some t ↔ (s'.node t).state = .running) (ht : Thread (c' t) (s'.node t))
    (hquant : s'.quantum = s.quantum) (hs : Alike n (s'.node t)) : Inv c' s' ∧ Turn s t n s'.sliceEnd s' := by
  refine ⟨⟨hq, fun x => ?_, fun x => ?_, by rw [hquant]; exact hI.quantum⟩, hquant, rfl, hs, fun x hx => ?_⟩
  · by_cases hx : x = t
    · subst hx; exact hrt
    · rw [hr x hx, hI.running x, hn x hx]
  · by_cases hx : x = t
    · subst hx; exact ht
    · have hT := (hI.thread x).mono (hc x)
      rw [hn x hx]
      refine ⟨?_, hT.base, hT.boost, hT.cap, fun hst => ?_⟩
      · rw [hf.level x hx]
        exact hT.level
      · have hne : ¬ IsReady s x := by
          intro hrx
          simp only [IsReady] at hrx
          simp only [hrx] at hst
          rcases hst with hst | hst | hst <;> cases hst
        rw [hf.same x hx hne]
        exact hT.unlinked hst
  · rw [hn x hx]
    exact ⟨rfl, rfl, rfl, rfl, rfl⟩

section
variable [DecidableEq T]

@[simp] theorem setNode_self : (s.setNode t n).node t = n := update_self ..

theorem setNode_ne {x : T} (h : x ≠ t) : (s.setNode t n).node x = s.node x := update_of_ne h ..

theorem links_setNode : (s.setNode t n).links = update s.links t n.link := by
  funext x
  by_cases h : x = t
  · subst h; simp [links]
  · simp [links, setNode_ne h, h]

theorem links_setNode_same (h : n.link = (s.node t).link) : (s.setNode t n).links = s.links := by
  rw [links_setNode, h]
  exact update_eq_self t s.links

section
variable (hI : Inv c s) (hc : ∀ x, c x ≤ c' x) (running : Option T) (sliceEnd : Nat)
include hI hc

/-- A thread that is ready before and after, or neither. -/
theorem inv_setNode (hq : ∃ ls, HoldsSet s.ready (update s.links t n.link) (IsReady s) ls)
    (hs : n.state = .ready ↔ (s.node t).state = .ready) (ht : Thread (c' t) n)
    (hr : ∀ x, x ≠ t → (running = some x ↔ s.running = some x)) (hrt : running = some t ↔ n.state = .running) :
    Inv c' { s.setNode t n with running := running, sliceEnd := sliceEnd } ∧
      Turn s t n sliceEnd { s.setNode t n with running := running, sliceEnd := sliceEnd } := by
  obtain ⟨ls, hq⟩ := hq
  have hlinks : (s.setNode t n).links = update s.links t n.link := links_setNode
  refine hI.change t hc (fun x hx => ?_) ?_ ⟨ls, ?_⟩ hr ?_ ?_ rfl (by rw [setNode_self]; exact .refl _)
  · simp only [setNode_ne hx]
    show s.node x = { s.node x with link := (s.setNode t n).links x }
    rw [hlinks, update_of_ne hx]
    rfl
  · show SetFrame s.links (s.setNode t n).links _ t
    rw [hlinks]
    exact ⟨fun x hx => by rw [update_of_ne hx], fun x hx _ => update_of_ne hx ..⟩
  · show HoldsSet s.ready (s.setNode t n).links _ ls
    rw [hlinks]
    refine hq.congr fun x => ?_
    by_cases hx : x = t
    · subst hx
      simp only [IsReady, setNode_self]
      exact hs.symm
    · simp [IsReady, setNode_ne hx]
  · simpa using hrt
  · simpa using ht

theorem inv_touch (hl : n.link = (s.node t).link) (hs : n.state = .ready ↔ (s.node t).state = .ready)
    (ht : Thread (c' t) n) (hr : ∀ x, x ≠ t → (running = some x ↔ s.running = some x))
    (hrt : running = some t ↔ n.state = .running) :
    Inv c' { s.setNode t n with running := running, sliceEnd := sliceEnd } ∧
      Turn s t n sliceEnd { s.setNode t n with running := running, sliceEnd := sliceEnd } := by
  refine inv_setNode hI hc running sliceEnd ?_ hs ht hr hrt
  rw [hl]
  exact (update_eq_self t s.links).symm ▸ hI.queue

theorem inv_outside (hne : (s.node t).state ≠ .ready) (hn : n.state ≠ .ready) (hk : n.link.queued = false)
    (ht : Thread (c' t) n) (hr : ∀ x, x ≠ t → (running = some x ↔ s.running = some x))
    (hrt : running = some t ↔ n.state = .running) :
    Inv c' { s.setNode t n with running := running, sliceEnd := sliceEnd } ∧
      Turn s t n sliceEnd { s.setNode t n with running := running, sliceEnd := sliceEnd } := by
  obtain ⟨ls, hq⟩ := hI.queue
  exact inv_setNode hI hc running sliceEnd ⟨ls, hq.set_link hne hk⟩ (iff_of_false hn hne) ht hr hrt

end

omit [DecidableEq T] in
/-- What an operation on the queue does to the nodes: it writes the links. -/
theorem withQueue_node (r : ReadyQueue T × Links T) (x : T) :
    (s.withQueue r).node x = { s.node x with link := r.2 x } := rfl

theorem inv_enqueue (hI : Inv c s) (hc : ∀ x, c x ≤ c' x) (hne : (s.node t).state ≠ .ready) (hn : n.state = .ready)
    (hk : n.link.queued = false) (ht : Thread (c' t) n) (tail : Bool) :
    ∃ r, (if tail then s.ready.pushTail (s.setNode t n).links t
        else s.ready.pushHead (s.setNode t n).links t) = some r ∧
      ∀ (running : Option T) (sliceEnd : Nat), (∀ x, x ≠ t → (running = some x ↔ s.running = some x)) →
        running ≠ some t →
        Inv c' { (s.setNode t n).withQueue r with running := running, sliceEnd := sliceEnd } ∧
          Turn s t n sliceEnd { (s.setNode t n).withQueue r with running := running, sliceEnd := sliceEnd } := by
  obtain ⟨ls, hq⟩ := hI.queue
  have hlinks : (s.setNode t n).links = update s.links t n.link := links_setNode
  have hq1 : HoldsSet s.ready (s.setNode t n).links (IsReady s) ls := by
    rw [hlinks]
    exact hq.set_link hne hk
  have hlt : ((s.setNode t n).links t).level = n.effective := by
    simp only [links, setNode_self]
    exact ht.level
  obtain ⟨q', m', ls', he, hset, hf, hlev⟩ := hq1.push hne (by rw [hlt]; exact effective_range ht.base ht.boost) tail
  refine ⟨(q', m'), he, fun running sliceEnd hr hrt => ?_⟩
  refine hI.change t hc (fun x hx => ?_) ⟨fun x hx => ?_, fun x hx hrx => ?_⟩ ⟨ls', hset.congr fun x => ?_⟩ hr ?_ ?_ rfl
    (by rw [withQueue_node, setNode_self]; exact ⟨rfl, rfl, rfl, rfl, rfl⟩)
  · simp only [withQueue_node, setNode_ne hx]
    rfl
  · show (m' x).level = _
    rw [hf.level x hx, hlinks, update_of_ne hx]
  · show m' x = _
    rw [hf.same x hx hrx, hlinks, update_of_ne hx]
  · simp only [IsReady, withQueue_node]
    by_cases hx : x = t
    · subst hx; simp [hn]
    · simp [setNode_ne hx, hx]
  · simp only [withQueue_node, setNode_self, hn]
    exact iff_of_false hrt (by simp)
  · simp only [withQueue_node, setNode_self]
    refine ⟨?_, ht.base, ht.boost, ht.cap, fun hst => ?_⟩
    · rw [hlev, hlt]
      rfl
    · simp only [hn] at hst
      rcases hst with hst | hst | hst <;> cases hst

theorem inv_dequeue (hI : Inv c s) (hready : (s.node t).state = .ready) :
    ∃ r, s.ready.remove s.links t = some r ∧
      r.2 t = { (s.node t).link with queued := false, prev := none, next := none } ∧
      ∀ (n : Node T) (running : Option T) (sliceEnd : Nat), n.link = r.2 t → n.state ≠ .ready → Thread (c t) n →
        (∀ x, x ≠ t → (running = some x ↔ s.running = some x)) → (running = some t ↔ n.state = .running) →
        Inv c { (s.withQueue r).setNode t n with running := running, sliceEnd := sliceEnd } ∧
          Turn s t n sliceEnd { (s.withQueue r).setNode t n with running := running, sliceEnd := sliceEnd } := by
  obtain ⟨ls, hq⟩ := hI.queue
  obtain ⟨q', m', ls', he, hset, hf, hmt⟩ := hq.remove hready
  refine ⟨(q', m'), he, hmt, fun n running sliceEnd hnl hns ht hr hrt => ?_⟩
  have hlinks : ((s.withQueue (q', m')).setNode t n).links = m' := by
    rw [links_setNode_same hnl]
    rfl
  refine hI.change t (fun _ => le_rfl) (fun x hx => ?_) ?_ ⟨ls', ?_⟩ hr ?_ ?_ rfl (by rw [setNode_self]; exact .refl _)
  · simp only [setNode_ne hx, withQueue_node]
    show _ = { s.node x with link := ((s.withQueue (q', m')).setNode t n).links x }
    rw [hlinks]
  · show SetFrame s.links ((s.withQueue (q', m')).setNode t n).links _ t
    rw [hlinks]
    exact hf
  · show HoldsSet q' ((s.withQueue (q', m')).setNode t n).links _ ls'
    rw [hlinks]
    refine hset.congr fun x => ?_
    simp only [IsReady]
    by_cases hx : x = t
    · subst hx; simp [hns]
    · simp [setNode_ne hx, hx, withQueue_node]
  · simpa using hrt
  · simpa using ht

/-- A ready thread with another base or boost moves to its new level. -/
theorem inv_move (hI : Inv c s) (hc : ∀ x, c x ≤ c' x) (hready : (s.node t).state = .ready)
    (hl : n.link = (s.node t).link) (hs : n.state = .ready) (hb : 1 ≤ n.base ∧ n.base < PRIORITY_LEVELS)
    (hx : n.boost < PRIORITY_LEVELS) (hcap : n.boost ≤ c' t) :
    ∃ r, s.ready.moveTo s.links t n.effective = some r ∧ Inv c' ((s.setNode t n).withQueue r) ∧
      Turn s t n s.sliceEnd ((s.setNode t n).withQueue r) := by
  obtain ⟨ls, hq⟩ := hI.queue
  obtain ⟨q', m', ls', he, hset, hf, hlev⟩ := hq.moveTo hready (effective_range hb hx)
  refine ⟨(q', m'), he, hI.change t hc (fun x hx => ?_) hf ⟨ls', hset.congr fun x => ?_⟩ (fun x hx => Iff.rfl) ?_ ?_ rfl
    (by rw [withQueue_node, setNode_self]; exact ⟨rfl, rfl, rfl, rfl, rfl⟩)⟩
  · simp only [withQueue_node, setNode_ne hx]
    rfl
  · simp only [IsReady, withQueue_node]
    by_cases hx : x = t
    · subst hx; simp [hs, hready]
    · simp [setNode_ne hx]
  · simp only [withQueue_node, setNode_self, hs]
    refine iff_of_false (fun hr => ?_) (by simp)
    have := (hI.running t).1 hr
    rw [hready] at this
    cases this
  · simp only [withQueue_node, setNode_self]
    refine ⟨hlev, hb, hx, hcap, fun hst => ?_⟩
    simp only [hs] at hst
    rcases hst with hst | hst | hst <;> cases hst

@[simp] theorem setNode_setNode {n' : Node T} : (s.setNode t n).setNode t n' = s.setNode t n' := by
  simp [setNode]

theorem push_eq (tail : Bool) : (if tail then s.pushTail t else s.pushHead t) =
    (if tail then s.ready.pushTail s.links t else s.ready.pushHead s.links t).map s.withQueue := by
  cases tail <;> rfl

/-- Who runs does not matter to the queue. -/
theorem pushTail_running (r : Option T) :
    { s with running := r }.pushTail t = (s.pushTail t).map fun s => { s with running := r } := by
  show (s.ready.pushTail s.links t).map _ = ((s.ready.pushTail s.links t).map _).map _
  rw [map_map]
  rfl

/-! ## The operations keep it -/

variable (now : Nat) {priority : Nat}

omit [DecidableEq T] in
theorem Inv.running_state (hI : Inv c s) (hr : s.running = some t) : (s.node t).state = .running :=
  (hI.running t).1 hr

omit [DecidableEq T] in
theorem Inv.off (hI : Inv c s) (hr : s.running ≠ some t) : (s.node t).state ≠ .running := fun h => hr ((hI.running t).2 h)

omit [DecidableEq T] in
theorem Inv.not_queued (hI : Inv c s) (hne : (s.node t).state ≠ .ready) : (s.node t).link.queued = false := by
  obtain ⟨ls, hq⟩ := hI.queue
  exact hq.not_queued hne

omit [DecidableEq T] in
theorem off_cpu (hr : s.running = some t) :
    ∀ x, x ≠ t → ((none : Option T) = some x ↔ s.running = some x) := by
  intro x hx
  rw [hr]
  exact iff_of_false (by simp) fun h => hx (some.inj h).symm

/-- The node of a thread that goes from the CPU back to the queue. -/
def Node.back (n : Node T) (now slice : Nat) : Node T :=
  { n with state := .ready, sliceLeft := slice, ran := satAdd n.ran (now - n.since) }

theorem charge_back (slice : Nat) :
    (s.charge t now).setNode t { (s.charge t now).node t with state := .ready, sliceLeft := slice } =
      s.setNode t ((s.node t).back now slice) := by
  simp [charge, Node.back]

section
variable (hI : Inv c s)
include hI

/-- The running thread goes back to the queue, at the tail or the head of its level. -/
theorem inv_requeue (hr : s.running = some t) (slice : Nat) (tail : Bool) :
    ∃ r, (if tail then (s.setNode t ((s.node t).back now slice)).pushTail t
        else (s.setNode t ((s.node t).back now slice)).pushHead t) = some r ∧ Inv c { r with running := none } ∧
      Turn s t ((s.node t).back now slice) s.sliceEnd { r with running := none } := by
  have hst := hI.running_state hr
  have hne : (s.node t).state ≠ .ready := by rw [hst]; simp
  have hT := hI.thread t
  obtain ⟨r, he, hinv⟩ := inv_enqueue (n := (s.node t).back now slice) hI (fun _ => le_rfl) hne rfl
    (hI.not_queued hne) ⟨hT.level, hT.base, hT.boost, hT.cap, by simp [Node.back]⟩ tail
  refine ⟨_, ?_, hinv none s.sliceEnd (off_cpu hr) (by simp)⟩
  rw [push_eq]
  exact congrArg (Option.map _) he

omit [DecidableEq T] in
/-- Its stint is charged. -/
theorem Inv.leaves (hr : s.running = some t) (hst : n.state ≠ .running)
    (hran : n.ran = satAdd (s.node t).ran (now - (s.node t).since))
    (hslice : n.state = .ready → n.policy = .roundRobin →
      n.sliceLeft = s.quantum ∨ (s.node t).policy = .roundRobin ∧ now < s.sliceEnd ∧ n.sliceLeft = s.sliceEnd - now) :
    Moves now s.quantum s.sliceEnd e' (s.node t) n :=
  .leaves (hI.running_state hr) hst hran hslice

theorem inv_create {policy : Policy}
    (hp : 1 ≤ priority ∧ priority < PRIORITY_LEVELS)
    (hs : (s.node t).state = .stopped ∨ (s.node t).state = .dead) :
    Inv c (s.setNode t (Node.new priority policy)) := by
  have hne : (s.node t).state ≠ .ready := by rcases hs with h | h <;> rw [h] <;> simp
  refine (inv_outside hI (fun _ => le_rfl) s.running s.sliceEnd hne (by simp [Node.new])
    rfl ?_ (fun _ _ => Iff.rfl) ?_).1
  · exact ⟨by simp [Node.new, Node.effective, Link.new], hp, by simp [Node.new, PRIORITY_LEVELS], Nat.zero_le _,
      fun _ => ⟨rfl, rfl⟩⟩
  · rw [hI.running t]
    refine iff_of_false ?_ (by simp [Node.new])
    rcases hs with h | h <;> rw [h] <;> simp

/-- A thread that did not run becomes ready, with a new quantum. -/
theorem inv_ready (hne : (s.node t).state ≠ .ready) (hnr : (s.node t).state ≠ .running) :
    ∃ s', (s.setNode t { s.node t with state := .ready, sliceLeft := s.quantum }).pushTail t = some s' ∧ Inv c s' ∧
      ∀ i, AllMove i s s' := by
  have hT := hI.thread t
  obtain ⟨r, he, hinv⟩ := inv_enqueue (n := { s.node t with state := .ready, sliceLeft := s.quantum }) hI
    (fun _ => le_rfl) hne rfl (hI.not_queued hne) ⟨hT.level, hT.base, hT.boost, hT.cap, by simp⟩ true
  obtain ⟨hI', hturn⟩ := hinv s.running s.sliceEnd (fun _ _ => Iff.rfl) (by rwa [Ne, hI.running t])
  exact ⟨_, congrArg (Option.map _) he, hI', fun i =>
    hturn.allMove (.off hnr (by simp) rfl fun _ _ => .inl rfl) fun _ _ _ => rfl⟩

theorem inv_start : ∃ s', (s.start t).map (kept s) = some s' ∧ Inv c s' ∧ ∀ i, AllMove i s s' := by
  unfold start
  rw [if_neg (Nat.ne_of_gt hI.quantum)]
  simp only
  split
  case isTrue => exact ⟨s, rfl, hI, fun i => allMove_refl i s⟩
  case isFalse hst =>
    have hst : (s.node t).state = .stopped := by simpa using hst
    obtain ⟨s', he, hI'⟩ := inv_ready hI (by rw [hst]; simp) (by rw [hst]; simp)
    exact ⟨s', by simp only [he]; rfl, hI'⟩

omit hI in
theorem preempt_eq : s.preempt t now =
    (let ended := decide ((s.node t).policy = .roundRobin ∧ s.sliceEnd - now = 0)
      let s := s.setNode t ((s.node t).back now (if ended then s.quantum else s.sliceEnd - now))
      if ended then s.pushTail t else s.pushHead t).map fun s => { s with running := none } := by
  unfold preempt charge
  simp only [setNode_self, setNode_setNode]
  rfl

/-- The one that goes back has a new quantum, or the rest of the old one. -/
theorem inv_preempt (hr : s.running = some t) :
    ∃ n s', s.preempt t now = some s' ∧ Inv c s' ∧ s'.running = none ∧ Turn s t n s.sliceEnd s' ∧
      ∀ e', Moves now s.quantum s.sliceEnd e' (s.node t) n := by
  obtain ⟨r, he, hinv, hturn⟩ := inv_requeue now hI hr
    (if decide ((s.node t).policy = .roundRobin ∧ s.sliceEnd - now = 0) then s.quantum else s.sliceEnd - now)
    (decide ((s.node t).policy = .roundRobin ∧ s.sliceEnd - now = 0))
  refine ⟨_, { r with running := none }, ?_, hinv, rfl, hturn, fun e' =>
    hI.leaves now hr (by simp [Node.back]) rfl fun _ hp => ?_⟩
  · rw [preempt_eq]
    exact congrArg (Option.map _) he
  · have hp : (s.node t).policy = .roundRobin := hp
    by_cases hrest : s.sliceEnd - now = 0
    · exact .inl (by simp [Node.back, hp, hrest])
    · exact .inr ⟨hp, by omega, by simp [Node.back, hrest]⟩

/-- The decision while nothing runs: the cleanup, nobody, or the head of the highest level. -/
theorem inv_pickNext (hr : s.running = none) (cleanup : Option Nat) :
    ∃ d s', s.pickNext now cleanup = some (d, s') ∧ Inv c s' ∧
      (s' = s ∧ (d = .clean ∧ cleanup.any (fun b => s.ready.top.all (· ≤ b)) = true ∨
          d = .idle ∧ s.ready.top = none ∧ cleanup.any (fun b => s.ready.top.all (· ≤ b)) = false) ∨
        ∃ t r n, d = .run t ∧ IsReady s t ∧ s.ready.top = some (s.node t).link.level ∧
          s.ready.first (s.node t).link.level = some t ∧ cleanup.any (fun b => s.ready.top.all (· ≤ b)) = false ∧
          n = { s.node t with state := .running, since := now, sliceLeft := 0, link := r.2 t } ∧
          s' = { (s.withQueue r).setNode t n with running := some t, sliceEnd := satAdd now (s.node t).sliceLeft } ∧
          Turn s t n s'.sliceEnd s' ∧ ∀ e, Moves now s.quantum e s'.sliceEnd (s.node t) n) := by
  unfold pickNext
  simp only
  split
  case isTrue hc => exact ⟨_, _, rfl, hI, .inl ⟨rfl, .inl ⟨rfl, hc⟩⟩⟩
  case isFalse hc =>
    rw [Bool.not_eq_true] at hc
    split
    case h_1 htop => exact ⟨_, _, rfl, hI, .inl ⟨rfl, .inr ⟨rfl, htop, hc⟩⟩⟩
    case h_2 top htop =>
      obtain ⟨ls, hq⟩ := hI.queue
      -- the top level has a head, and the head is ready
      obtain ⟨hne, _⟩ := hq.holds.top_some htop
      obtain ⟨next, rest, hl⟩ := List.exists_cons_of_ne_nil hne
      have hfirst : s.ready.first top = some next := by
        rw [ReadyQueue.first, hq.holds.head, hl]
        rfl
      have hmem : next ∈ ls top := by simp [hl]
      obtain ⟨hready, rfl⟩ := (hq.mem_iff top).1 hmem
      have hT := hI.thread next
      obtain ⟨q, he, hnext, hinv⟩ := inv_dequeue hI hready
      have he' : s.remove next = some (s.withQueue q) := congrArg (Option.map _) he
      obtain ⟨hI', hturn⟩ := hinv { s.node next with state := .running, since := now, sliceLeft := 0, link := q.2 next }
        (some next) (satAdd now (s.node next).sliceLeft) rfl (by simp) ⟨(congrArg Link.level hnext).trans hT.level, hT.base,
          hT.boost, hT.cap, fun _ => ⟨congrArg Link.prev hnext, congrArg Link.next hnext⟩⟩
        (fun x hx => by rw [hr]; exact iff_of_false (fun h => hx (some.inj h).symm) (by simp)) (by simp)
      exact ⟨_, _, by simp only [hfirst, he', bind_eq_bind, bind_some]; rfl, hI', .inr ⟨next, q, _, rfl, hready, htop,
        hfirst, hc, rfl, rfl, hturn, fun e => .enters (hI.off (by simp [hr])) rfl rfl rfl (.inl ⟨hready, rfl, rfl⟩)⟩⟩

theorem inv_pick (cleanup : Option Nat) : ∃ d s', s.pick now cleanup = some (d, s') ∧ Inv c s' := by
  unfold pick
  cases hr : s.running with
  | none =>
    obtain ⟨d, s', he, hI', -⟩ := inv_pickNext now hI hr cleanup
    exact ⟨d, s', he, hI'⟩
  | some r =>
    simp only
    split
    case isTrue => exact ⟨_, _, rfl, hI⟩
    case isFalse =>
      obtain ⟨-, s1, he, hI1, hr1, -⟩ := inv_preempt now hI hr
      obtain ⟨d, s', he', hI', -⟩ := inv_pickNext now hI1 hr1 cleanup
      exact ⟨d, s', by simp only [he, bind_eq_bind, bind_some, he'], hI'⟩

theorem inv_tick : ∃ s', s.tick now = some s' ∧ Inv c s' ∧ AllMove now s s' := by
  unfold tick
  cases hr : s.running with
  | none => exact ⟨s, rfl, hI, allMove_refl now s⟩
  | some r =>
    simp only
    split
    case isTrue => exact ⟨s, rfl, hI, allMove_refl now s⟩
    case isFalse =>
      obtain ⟨q, he, hinv, hturn⟩ := inv_requeue now hI hr s.quantum true
      refine ⟨_, ?_, hinv, hturn.allMove (hI.leaves now hr (by simp [Node.back]) rfl fun _ _ => .inl rfl) fun _ _ _ => rfl⟩
      simp only [charge_back]
      exact congrArg (Option.map _) he

theorem inv_yieldRunning : ∃ s', s.yieldRunning now = some s' ∧ Inv c s' ∧ AllMove now s s' := by
  unfold yieldRunning
  cases hr : s.running with
  | none => exact ⟨s, rfl, hI, allMove_refl now s⟩
  | some r =>
    obtain ⟨q, he, hinv, hturn⟩ := inv_requeue now hI hr s.quantum true
    refine ⟨{ q with running := none }, ?_, hinv,
      hturn.allMove (hI.leaves now hr (by simp [Node.back]) rfl fun _ _ => .inl rfl) fun _ _ _ => rfl⟩
    simp only [charge_back]
    exact (pushTail_running none).trans (congrArg (Option.map _) he)

theorem inv_off (hr : s.running = some t) {state : State} (hst : state = .waiting ∨ state = .parked ∨ state = .dead) :
    Inv c { (s.charge t now).setNode t { (s.charge t now).node t with state := state } with running := none } ∧
      AllMove now s
        { (s.charge t now).setNode t { (s.charge t now).node t with state := state } with running := none } := by
  have hrun := hI.running_state hr
  have hne : (s.node t).state ≠ .ready := by rw [hrun]; simp
  have hT := hI.thread t
  have hout : state ≠ .ready ∧ state ≠ .running := by
    rcases hst with rfl | rfl | rfl <;> simp
  simp only [charge, setNode_self, setNode_setNode]
  obtain ⟨hI', hturn⟩ := inv_outside (n := { s.node t with
      state := state, ran := satAdd (s.node t).ran (now - (s.node t).since) }) hI (fun _ => le_rfl) none s.sliceEnd hne
    hout.1 (hI.not_queued hne) ⟨hT.level, hT.base, hT.boost, hT.cap, fun _ => hT.unlinked (.inr (.inl hrun))⟩ (off_cpu hr)
    (iff_of_false (by simp) hout.2)
  exact ⟨hI', hturn.allMove (hI.leaves now hr hout.2 rfl fun h => absurd h hout.1) fun _ _ _ => rfl⟩

theorem inv_block (hr : s.running.isSome) :
    ∃ s', (s.block now).map Prod.snd = some s' ∧ Inv c s' ∧ AllMove now s s' := by
  obtain ⟨r, hr⟩ := isSome_iff_exists.1 hr
  exact ⟨_, by simp only [block, hr]; rfl, inv_off now hI hr (.inl rfl)⟩

theorem inv_wake (hw : (s.node t).state = .waiting) : ∃ s', s.wake t = some s' ∧ Inv c s' ∧ ∀ i, AllMove i s s' := by
  unfold wake
  rw [if_pos hw]
  exact inv_ready hI (by rw [hw]; simp) (by rw [hw]; simp)

theorem inv_park (hr : s.running = some t) : ∃ s', s.park t now = some s' ∧ Inv c s' ∧ AllMove now s s' :=
  ⟨_, by simp only [park, hr]; rfl, inv_off now hI hr (.inr (.inl rfl))⟩

theorem inv_unpark (hp : (s.node t).state = .parked) :
    ∃ s', s.unpark t = some s' ∧ Inv c s' ∧ ∀ i, AllMove i s s' := by
  unfold unpark wake
  rw [if_pos hp]
  simp only [setNode_self, setNode_setNode]
  exact inv_ready hI (by rw [hp]; simp) (by rw [hp]; simp)

theorem inv_handOff (hr : s.running = none) (hw : (s.node t).state = .waiting)
    (hcan : s.canHandOff (s.node t).link.level none = true) :
    ∃ s', s.handOff t now = some s' ∧ Inv c s' ∧ AllMove now s s' := by
  have hne : (s.node t).state ≠ .ready := by rw [hw]; simp
  have hT := hI.thread t
  obtain ⟨hI', hturn⟩ := inv_outside (n := { s.node t with state := .running, since := now, sliceLeft := 0 }) hI
    (fun _ => le_rfl) (some t) (satAdd now s.quantum) hne (by simp) (hI.not_queued hne)
    ⟨hT.level, hT.base, hT.boost, hT.cap, fun _ => hT.unlinked (.inr (.inr hw))⟩
    (fun x hx => by rw [hr]; exact iff_of_false (fun h => hx (some.inj h).symm) (by simp)) (by simp)
  refine ⟨_, by simp only [handOff, hr, hw, hcan]; rfl, hI',
    hturn.allMove (.enters (by rw [hw]; simp) rfl rfl rfl (.inr ⟨hw, rfl⟩)) fun x _ hx => ?_⟩
  exact absurd hx (hI.off (by rw [hr]; simp))

theorem inv_parked (hp : (s.node t).state = .parked) {prev next : Option T} :
    Inv c (s.setNode t { s.node t with link := { (s.node t).link with prev := prev, next := next } }) ∧
      ∀ i, AllMove i s (s.setNode t { s.node t with link := { (s.node t).link with prev := prev, next := next } }) := by
  have hne : (s.node t).state ≠ .ready := by rw [hp]; simp
  have hT := hI.thread t
  obtain ⟨hI', hturn⟩ := inv_outside (n := { s.node t with link := { (s.node t).link with prev := prev, next := next } })
    hI (fun _ => le_rfl) s.running s.sliceEnd hne hne (hI.not_queued hne)
    ⟨hT.level, hT.base, hT.boost, hT.cap, by simp [hp]⟩ (fun _ _ => Iff.rfl) (hI.running t)
  exact ⟨hI', fun i => hturn.allMove (Alike.moves ⟨rfl, rfl, rfl, rfl, rfl⟩ fun _ => rfl) fun _ _ _ => rfl⟩

theorem inv_exit : ∃ s', s.exit t now = some s' ∧ Inv c s' ∧ AllMove now s s' := by
  have hT := hI.thread t
  -- a thread that is neither ready nor running ends
  have hstay : (s.node t).state ≠ .ready → (s.node t).state ≠ .running →
      Inv c (s.setNode t { s.node t with state := .dead }) ∧
        AllMove now s (s.setNode t { s.node t with state := .dead }) := by
    intro hne hnr
    obtain ⟨hI', hturn⟩ := inv_outside (n := { s.node t with state := .dead }) hI (fun _ => le_rfl) s.running s.sliceEnd
      hne (by simp) (hI.not_queued hne) ⟨hT.level, hT.base, hT.boost, hT.cap, by simp⟩ (fun _ _ => Iff.rfl)
      (iff_of_false (by rwa [hI.running t]) (by simp))
    exact ⟨hI', hturn.allMove (.off hnr (by simp) rfl (by simp)) fun _ _ _ => rfl⟩
  unfold exit
  cases hst : (s.node t).state with
  | running =>
    have hr := (hI.running t).2 hst
    exact ⟨_, by simp only [hst, hr]; rfl, inv_off now hI hr (.inr (.inr rfl))⟩
  | ready =>
    obtain ⟨r, he, hrt, hinv⟩ := inv_dequeue hI hst
    have he' : s.remove t = some (s.withQueue r) := congrArg (Option.map _) he
    obtain ⟨hI', hturn⟩ := hinv { s.node t with state := .dead, link := r.2 t } s.running s.sliceEnd rfl (by simp)
      ⟨by simp only [hrt]; exact hT.level, hT.base, hT.boost, hT.cap, by simp⟩ (fun _ _ => Iff.rfl)
      (by rw [hI.running t, hst]; simp)
    exact ⟨_, by simp only [hst, he']; rfl, hI',
      hturn.allMove (.off (by rw [hst]; simp) (by simp) rfl (by simp)) fun _ _ _ => rfl⟩
  | waiting | parked =>
    have hq := hI.not_queued (by rw [hst]; simp)
    exact ⟨_, by simp only [hst, hq]; rfl, hstay (by rw [hst]; simp) (by rw [hst]; simp)⟩
  | stopped | dead => exact ⟨_, by simp only [hst]; rfl, hstay (by rw [hst]; simp) (by rw [hst]; simp)⟩

/-! ## Levels -/

/-- A thread with another base or boost takes the level they make; a ready one that goes up has a new quantum. -/
theorem inv_relevel (hc : ∀ x, c x ≤ c' x) (hl : n.link = (s.node t).link)
    (hs : n.state = (s.node t).state) (hb : 1 ≤ n.base ∧ n.base < PRIORITY_LEVELS)
    (hx : n.boost < PRIORITY_LEVELS) (hcap : n.boost ≤ c' t) :
    ∃ slice s', (s.setNode t n).relevel t n.effective = some s' ∧ (slice = n.sliceLeft ∨ slice = s.quantum) ∧
      Inv c' s' ∧ Turn s t { n with sliceLeft := slice } s.sliceEnd s' := by
  have hT := hI.thread t
  have hrun : s.running = some t ↔ n.state = .running := by rw [hs]; exact hI.running t
  unfold relevel
  simp only [setNode_self]
  by_cases heq : n.effective = n.link.level
  · rw [if_pos heq]
    refine ⟨_, _, rfl, .inl rfl, inv_touch hI hc s.running s.sliceEnd hl (by rw [hs])
      ⟨heq.symm, hb, hx, hcap, fun hst => ?_⟩ (fun _ _ => Iff.rfl) hrun⟩
    rw [hl]
    exact hT.unlinked (hs ▸ hst)
  · rw [if_neg heq]
    by_cases hready : (s.node t).state = .ready
    · rw [if_neg (by rw [hs, hready]; simp)]
      -- the queue does not see the quantum
      obtain ⟨slice, hk, hslice⟩ : ∃ slice,
          (if n.link.level < n.effective then (s.setNode t n).setNode t { n with sliceLeft := (s.setNode t n).quantum }
            else s.setNode t n) = s.setNode t { n with sliceLeft := slice } ∧
            (slice = n.sliceLeft ∨ slice = s.quantum) := by
        split
        · exact ⟨_, setNode_setNode, .inr rfl⟩
        · exact ⟨_, rfl, .inl rfl⟩
      obtain ⟨r, he, hinv⟩ := inv_move (n := { n with sliceLeft := slice }) hI hc hready hl (hs.trans hready) hb hx hcap
      refine ⟨slice, _, ?_, hslice, hinv⟩
      have hlinks : (s.setNode t { n with sliceLeft := slice }).links = s.links := links_setNode_same hl
      rw [hk]
      show (s.ready.moveTo (s.setNode t { n with sliceLeft := slice }).links t n.effective).map _ = _
      rw [hlinks]
      exact congrArg (Option.map _) he
    · rw [if_pos (by rw [hs]; exact hready)]
      have hq : n.link.queued = false := by rw [hl]; exact hI.not_queued hready
      obtain ⟨hI', hturn⟩ := inv_outside (n := { n with link := { n.link with level := n.effective } }) hI hc s.running
        s.sliceEnd hready (by rw [hs]; exact hready) hq
        ⟨rfl, hb, hx, hcap, fun hst => by simp only [hl]; exact hT.unlinked (hs ▸ hst)⟩ (fun _ _ => Iff.rfl) hrun
      refine ⟨n.sliceLeft, s.setNode t { n with link := { n.link with level := n.effective } }, ?_, .inl rfl, hI',
        hturn.node ⟨rfl, rfl, rfl, rfl, rfl⟩⟩
      simp [setLevel, Link.setLevel, hq]

theorem inv_setBoost {boost : Nat} (hc : ∀ x, c x ≤ c' x) (hb : boost < PRIORITY_LEVELS) (hcap : boost ≤ c' t) :
    ∃ s', (s.setNode t { s.node t with boost := boost }).relevel t (max (s.node t).base boost) = some s' ∧
      Inv c' s' ∧ ∀ i, AllMove i s s' := by
  obtain ⟨slice, s', he, hslice, hI', hturn⟩ := inv_relevel (n := { s.node t with boost := boost }) hI hc rfl rfl
    (hI.thread t).base hb hcap
  refine ⟨s', he, hI', fun i =>
    hturn.allMove (.stays rfl rfl rfl (fun _ hp => ?_) fun _ hp => .inl ⟨hp, rfl⟩) fun _ _ _ => rfl⟩
  exact hslice.symm.imp_right fun h => ⟨hp, h⟩

theorem inv_boost {level ceiling : Nat} (hlev : level < PRIORITY_LEVELS) (hc : ∀ x, c x ≤ c' x)
    (hceil : ceiling ≤ c' t) : ∃ s', s.boost t level ceiling = some s' ∧ Inv c' s' ∧ ∀ i, AllMove i s s' := by
  have hT := hI.thread t
  have hcap := hT.cap
  have hcc := hc t
  have hb := hT.boost
  unfold boost
  simp only [setNode_self]
  exact inv_setBoost hI hc (by omega) (by omega)

theorem inv_unboost : ∃ s', s.unboost t = some s' ∧ Inv c s' ∧ ∀ i, AllMove i s s' := by
  unfold unboost
  simp only [setNode_self]
  exact inv_setBoost hI (fun _ => le_rfl) (by simp [PRIORITY_LEVELS]) (Nat.zero_le _)

/-- The quantum of a thread that turns round robin. -/
theorem toRoundRobin_eq (policy : Policy) : ∃ e slice,
    s.toRoundRobin t policy now = { s.setNode t { s.node t with sliceLeft := slice } with sliceEnd := e } ∧
      ((s.node t).state = .ready → policy = .roundRobin →
        slice = s.quantum ∨ (s.node t).policy = .roundRobin ∧ slice = (s.node t).sliceLeft) ∧
      ((s.node t).state = .running → policy = .roundRobin →
        (s.node t).policy = .roundRobin ∧ e = s.sliceEnd ∨ (s.node t).policy = .fifo ∧ e = satAdd now s.quantum) ∧
      ∀ x, x ≠ t → (s.node x).state = .running → e = s.sliceEnd := by
  have hsame : s = { s.setNode t { s.node t with sliceLeft := (s.node t).sliceLeft } with sliceEnd := s.sliceEnd } := by
    simp [setNode]
  have hpol : ∀ p : Policy, ¬ p = .fifo → p = .roundRobin := by
    intro p hp
    cases p
    · rfl
    · exact absurd rfl hp
  unfold toRoundRobin
  split
  case isTrue hto =>
    split
    case h_1 hst =>
      exact ⟨s.sliceEnd, s.quantum, rfl, fun _ _ => Or.inl rfl, by simp [hst], fun _ _ _ => rfl⟩
    case h_2 hst =>
      refine ⟨satAdd now s.quantum, (s.node t).sliceLeft, ?_, by simp [hst], fun _ _ => Or.inr ⟨hto.1, rfl⟩,
        fun x hx hrun => ?_⟩
      · simp [setNode]
      · exact absurd hrun (hI.off (by rw [(hI.running t).2 hst]; exact fun h => hx (some.inj h).symm))
    case h_3 h1 h2 =>
      exact ⟨s.sliceEnd, (s.node t).sliceLeft, hsame, fun h => absurd h h1, fun h => absurd h h2, fun _ _ _ => rfl⟩
  case isFalse hto =>
    refine ⟨s.sliceEnd, (s.node t).sliceLeft, hsame, fun _ hp => Or.inr ⟨hpol _ fun hf => hto ⟨hf, hp⟩, rfl⟩,
      fun _ hp => Or.inl ⟨hpol _ fun hf => hto ⟨hf, hp⟩, rfl⟩, fun _ _ _ => rfl⟩

omit hI in
theorem setLevel_eq (hq : (s.node t).link.queued = false) (L : Nat) :
    s.setLevel t L = some (s.setNode t { s.node t with link := { (s.node t).link with level := L } }) := by
  unfold setLevel Link.setLevel
  rw [if_neg (by simp [hq])]
  rfl

/-- A ready thread goes to the tail of the level of its new base. -/
theorem inv_toTail (hready : (s.node t).state = .ready) (hl : n.link = (s.node t).link)
    (hs : n.state = .ready) (hb : 1 ≤ n.base ∧ n.base < PRIORITY_LEVELS) (hx : n.boost = (s.node t).boost) :
    ∃ s', ((s.setNode t n).remove t).bind (fun s => (s.setLevel t n.effective).bind fun s =>
      (s.setNode t { s.node t with sliceLeft := s.quantum }).pushTail t) = some s' ∧ Inv c s' ∧
      Turn s t { n with sliceLeft := s.quantum } s.sliceEnd s' := by
  have hT := hI.thread t
  have hlinks : (s.setNode t n).links = s.links := links_setNode_same hl
  -- out of the queue, as if it were parked, and in again
  obtain ⟨r, he, hrt, hinv⟩ := inv_dequeue hI hready
  obtain ⟨(hI0 : Inv c ((s.withQueue r).setNode t { s.node t with link := r.2 t, state := .parked })), hturn⟩ :=
    hinv { s.node t with link := r.2 t, state := .parked } s.running s.sliceEnd rfl (by simp)
      ⟨by simp only [hrt]; exact hT.level, hT.base, hT.boost, hT.cap, by simp⟩ (fun _ _ => Iff.rfl)
      (by rw [hI.running t, hready]; simp)
  have hq : (r.2 t).queued = false := by rw [hrt]
  obtain ⟨k, hk⟩ : ∃ k : Node T, k = { n with link := { r.2 t with level := n.effective }, sliceLeft := s.quantum } :=
    ⟨_, rfl⟩
  obtain ⟨r2, he2, hinv2⟩ := inv_enqueue (t := t) (n := k) hI0 (fun _ => le_rfl) (by simp)
    (by rw [hk]; exact hs) (by rw [hk]; exact hq)
    ⟨by rw [hk]; rfl, by rw [hk]; exact hb, by rw [hk]; simp only [hx]; exact hT.boost,
      by rw [hk]; simp only [hx]; exact hT.cap, by rw [hk]; simp [hs]⟩ true
  have hnode : ∀ k' : Node T, ((s.setNode t n).withQueue r).setNode t k' = (s.withQueue r).setNode t k' := by
    intro k'
    simp only [setNode, withQueue, mk.injEq, true_and]
    funext x
    by_cases hxt : x = t
    · subst hxt; simp
    · simp [hxt]
  have h1 : (s.setNode t n).remove t = some ((s.setNode t n).withQueue r) := by
    show (s.ready.remove (s.setNode t n).links t).map _ = _
    rw [hlinks, he]
    rfl
  have h2 : ((s.setNode t n).withQueue r).setLevel t n.effective =
      some ((s.withQueue r).setNode t { n with link := { r.2 t with level := n.effective } }) := by
    rw [setLevel_eq (by rw [withQueue_node]; exact hq), hnode, withQueue_node, setNode_self]
  obtain ⟨hI', hturn'⟩ := hinv2 s.running s.sliceEnd (fun _ _ => Iff.rfl) (by rw [Ne, hI.running t, hready]; simp)
  refine ⟨_, ?_, hI', (hturn.trans hturn').node (by rw [hk]; exact ⟨rfl, rfl, rfl, rfl, rfl⟩)⟩
  rw [h1, bind_some, h2, bind_some, setNode_self, setNode_setNode]
  rw [setNode_setNode] at he2 ⊢
  subst hk
  exact congrArg (Option.map _) he2

/-- The running thread gives the CPU up for the tail of the level of its new base. -/
theorem inv_offTail (hr : s.running = some t) (hl : n.link = (s.node t).link)
    (hb : 1 ≤ n.base ∧ n.base < PRIORITY_LEVELS) (hx : n.boost = (s.node t).boost) :
    ∃ s', (((s.setNode t n).charge t now).setLevel t n.effective).bind (fun s =>
      { s.setNode t { s.node t with state := .ready, sliceLeft := s.quantum } with running := none }.pushTail t) =
        some s' ∧ Inv c s' ∧ Turn s t { n with
          state := .ready, sliceLeft := s.quantum, ran := satAdd n.ran (now - n.since) } s.sliceEnd s' := by
  have hT := hI.thread t
  have hne : (s.node t).state ≠ .ready := by rw [hI.running_state hr]; simp
  have hq : n.link.queued = false := by rw [hl]; exact hI.not_queued hne
  obtain ⟨k, hk⟩ : ∃ k : Node T, k = { n with
      state := .ready, sliceLeft := s.quantum,
      ran := satAdd n.ran (now - n.since), link := { n.link with level := n.effective } } := ⟨_, rfl⟩
  obtain ⟨r, he, hinv⟩ := inv_enqueue (n := k) hI (fun _ => le_rfl) hne (by rw [hk]) (by rw [hk]; exact hq)
    ⟨by rw [hk]; rfl, by rw [hk]; exact hb, by rw [hk]; simp only [hx]; exact hT.boost,
      by rw [hk]; simp only [hx]; exact hT.cap, by rw [hk]; simp⟩ true
  obtain ⟨hI', hturn⟩ := hinv none s.sliceEnd (off_cpu hr) (by simp)
  refine ⟨_, ?_, hI', hturn.node (by rw [hk]; exact ⟨rfl, rfl, rfl, rfl, rfl⟩)⟩
  rw [charge, setNode_setNode, setNode_self, setLevel_eq (by rw [setNode_self]; exact hq), bind_some,
    setNode_self, setNode_setNode, setNode_self, setNode_setNode, pushTail_running]
  subst hk
  exact congrArg (Option.map _) (congrArg (Option.map _) he)

theorem inv_setPriority (policy : Policy) (tail : Bool)
    (hp : 1 ≤ priority ∧ priority < PRIORITY_LEVELS) :
    ∃ s', (s.setPriority t priority policy tail now).map (kept s) = some s' ∧ Inv c s' ∧ AllMove now s s' := by
  have hT := hI.thread t
  unfold setPriority
  rw [if_neg (not_not_intro hp)]
  split
  case isTrue => exact ⟨s, rfl, hI, allMove_refl now s⟩
  case isFalse =>
    obtain ⟨e, slice, heq, hslice, hend, hoth⟩ := toRoundRobin_eq now hI policy
    obtain ⟨hI1, hturn1⟩ : Inv c (s.toRoundRobin t policy now) ∧
        Turn s t { s.node t with sliceLeft := slice } e (s.toRoundRobin t policy now) := by
      rw [heq]
      exact inv_touch hI (fun _ => le_rfl) s.running e rfl Iff.rfl
        ⟨hT.level, hT.base, hT.boost, hT.cap, hT.unlinked⟩ (fun _ _ => Iff.rfl) (hI.running t)
    have hnode : (s.toRoundRobin t policy now).node t = { s.node t with sliceLeft := slice } := by rw [heq]; simp
    generalize s.toRoundRobin t policy now = s1 at hI1 hturn1 hnode
    have hquant := hturn1.quantum
    have hse := hturn1.sliceEnd
    simp only [setNode_self, hnode]
    split
    case h_1 htail hst =>
      obtain ⟨s', he, hI', hturn⟩ := inv_toTail
        (n := { s.node t with sliceLeft := slice, policy := policy, base := priority }) hI1 (by rw [hnode]; exact hst)
        (by rw [hnode]) hst hp (by rw [hnode])
      rw [hquant, hse] at hturn
      refine ⟨s', (congrArg (Option.map _) (congrArg (Option.map _) he)), hI',
        (hturn1.trans hturn).allMove (.off ?_ ?_ rfl fun _ _ => .inl rfl) hoth⟩
      · rw [hst]; simp
      · simp [hst]
    case h_2 htail hst =>
      obtain ⟨s', he, hI', hturn⟩ := inv_offTail
        (n := { s.node t with sliceLeft := slice, policy := policy, base := priority }) now hI1
        ((hI1.running t).2 (by rw [hnode]; exact hst)) (by rw [hnode]) hp (by rw [hnode])
      rw [hquant, hse] at hturn
      exact ⟨s', (congrArg (Option.map _) (congrArg (Option.map _) he)), hI',
        (hturn1.trans hturn).allMove (.leaves hst (by simp) rfl fun _ _ => .inl rfl) hoth⟩
    case h_3 =>
      obtain ⟨slice', s', he, hslice', hI', hturn⟩ := inv_relevel
        (n := { s.node t with sliceLeft := slice, policy := policy, base := priority }) hI1 (fun _ => le_rfl)
        (by rw [hnode]) (by rw [hnode]) hp hT.boost hT.cap
      rw [hquant, hse] at *
      refine ⟨s', by rw [he]; rfl, hI', (hturn1.trans hturn).allMove (.stays rfl rfl rfl (fun hst hpol => ?_) hend) hoth⟩
      rcases hslice' with rfl | rfl
      · exact hslice hst hpol
      · exact .inl rfl

/-! ## Runs -/

/-- The threads move, unless the operation makes one; of a `pick` the decision says how. -/
def Op.Moved (op : Op T) (s s' : Scheduler T) : Prop :=
  (∃ t p pol, op = create t p pol) ∨ (∃ now cleanup, op = pick now cleanup) ∨
    ∀ i, (∀ j, op.instant = some j → j = i) → AllMove i s s'

/-- One operation that meets its contract passes its assertions and keeps the invariant; the bound on the
boost of a thread grows by the ceiling it was given. -/
theorem inv_exec (op : Op T) (hm : op.Meets s) :
    ∃ s', exec s op = some s' ∧ Inv (fun t => max (c t) (op.ceiling t)) s' ∧ op.Moved s s' := by
  have hsame : ∀ {s'}, Inv c s' → Inv (fun t => max (c t) 0) s' := fun h => by simpa using h
  have hall : ∀ {o : Option (Scheduler T)}, (∃ s', o = some s' ∧ Inv c s' ∧ ∀ i, AllMove i s s') →
      ∃ s', o = some s' ∧ Inv (fun t => max (c t) 0) s' ∧ op.Moved s s' := by
    rintro o ⟨s', he, h, hmoves⟩
    exact ⟨s', he, hsame h, .inr (.inr fun i _ => hmoves i)⟩
  have hone : ∀ {o : Option (Scheduler T)} {now : Nat}, op.instant = some now →
      (∃ s', o = some s' ∧ Inv c s' ∧ AllMove now s s') →
      ∃ s', o = some s' ∧ Inv (fun t => max (c t) 0) s' ∧ op.Moved s s' := by
    rintro o now hnow ⟨s', he, h, hmoves⟩
    exact ⟨s', he, hsame h, .inr (.inr fun i hi => hi now hnow ▸ hmoves)⟩
  cases op with
  | create t priority policy => exact ⟨_, rfl, hsame (inv_create hI hm.1 hm.2), .inl ⟨_, _, _, rfl⟩⟩
  | start t => exact hall (inv_start hI)
  | pick now cleanup =>
    obtain ⟨d, s', he, h⟩ := inv_pick now hI cleanup
    exact ⟨s', congrArg (Option.map _) he, hsame h, .inr (.inl ⟨_, _, rfl⟩)⟩
  | tick now => exact hone rfl (inv_tick now hI)
  | yieldRunning now => exact hone rfl (inv_yieldRunning now hI)
  | setPriority t priority policy tail now => exact hone rfl (inv_setPriority now hI policy tail hm)
  | boost t level ceiling =>
    obtain ⟨s', he, h, hmoves⟩ : ∃ s', s.boost t level ceiling = some s' ∧
        Inv (fun x => max (c x) (Op.ceiling x (.boost t level ceiling))) s' ∧ ∀ i, AllMove i s s' :=
      inv_boost hI hm.1.2 (fun x => le_max_left ..) (by simp [Op.ceiling])
    exact ⟨s', he, h, .inr (.inr fun i _ => hmoves i)⟩
  | unboost t => exact hall (inv_unboost hI)
  | block now => exact hone rfl (inv_block now hI hm)
  | wake t => exact hall (inv_wake hI hm)
  | park t now => exact hone rfl (inv_park now hI hm)
  | unpark t => exact hall (inv_unpark hI hm.1)
  | handOff t now => exact hone rfl (inv_handOff now hI hm.1 hm.2.1 hm.2.2)
  | exit t now => exact hone rfl (inv_exit now hI)
  | parked t prev next => exact hall ⟨_, rfl, inv_parked hI hm⟩

end

theorem inv_run (ops : List (Op T)) : ∀ {c : T → Nat} {s : Scheduler T}, Inv c s → Met s ops →
    ∃ s', run s ops = some s' ∧ Inv (fun t => max (c t) (maxCeiling t ops)) s' := by
  induction ops with
  | nil =>
    intro c s hI _
    exact ⟨s, rfl, by simpa [maxCeiling] using hI⟩
  | cons op ops ih =>
    intro c s hI hm
    obtain ⟨s1, he, hI1, -⟩ := inv_exec hI op hm.1
    obtain ⟨s', hr, hI'⟩ := ih hI1 (hm.2 s1 he)
    refine ⟨s', by rw [run, he]; exact hr, ?_⟩
    simpa [maxCeiling] using hI'

omit [DecidableEq T] in
theorem inv_init (h : Init s) : Inv (fun _ => 0) s := by
  obtain ⟨hready, hrun, hquant, hnode⟩ := h
  have hstop : ∀ t, (s.node t).state = .stopped := by
    intro t
    obtain ⟨p, pol, _, hn⟩ := hnode t
    rw [hn]
    rfl
  refine ⟨⟨fun _ => [], ?_, fun t => ?_, fun t => ?_⟩, fun t => ?_, fun t => ?_, hquant⟩
  · rw [hready]; exact holds_new _
  · simp [IsReady, hstop]
  · obtain ⟨p, pol, _, hn⟩ := hnode t
    simp [IsReady, links, hn, Node.new, Link.new]
  · rw [hrun, hstop]; simp
  · obtain ⟨p, pol, hp, hn⟩ := hnode t
    rw [hn]
    exact ⟨by simp [Node.new, Node.effective, Link.new], hp, by simp [Node.new, PRIORITY_LEVELS], le_rfl,
      fun _ => ⟨rfl, rfl⟩⟩

/-- **The scheduler's invariant**: after every sequence of operations that meet their contracts, no
assertion has failed; each ready thread stands in the queue once, at the higher of its base and its boost,
and no other one does; the running thread is the only one in that state and stands in no list; and no
boost is above the largest ceiling given for it. -/
theorem sched_safe (s : Scheduler T) (h : Init s) (ops : List (Op T)) (hm : Met s ops) :
    ∃ s', run s ops = some s' ∧
      (∃ ls, Holds s'.ready s'.links ls ∧ ∀ t l, (ls l).count t =
        if (s'.node t).state = .ready ∧ l = max (s'.node t).base (s'.node t).boost then 1 else 0) ∧
      (∀ t, s'.running = some t ↔
        (s'.node t).state = .running ∧ ∀ u, (s'.node u).state = .running → u = t) ∧
      (∀ t, s'.running = some t →
        (s'.node t).link.queued = false ∧ (s'.node t).link.prev = none ∧ (s'.node t).link.next = none) ∧
      ∀ t, (s'.node t).boost ≤ maxCeiling t ops := by
  obtain ⟨s', hr, hI⟩ := inv_run ops (inv_init h) hm
  refine ⟨s', hr, ?_, fun t => ⟨fun ht => ⟨hI.running_state ht, fun u hu => ?_⟩, fun ht => (hI.running t).2 ht.1⟩,
    fun t ht => ?_, fun t => ?_⟩
  · obtain ⟨ls, hq⟩ := hI.queue
    refine ⟨ls, hq.holds, fun t l => ?_⟩
    have hmem : t ∈ ls l ↔ (s'.node t).state = .ready ∧ l = max (s'.node t).base (s'.node t).boost := by
      rw [hq.mem_iff l]
      show _ ∧ l = (s'.node t).link.level ↔ _
      rw [(hI.thread t).level]
      rfl
    simp [(hq.holds.nodup l).count, hmem]
  · have := (hI.running u).2 hu
    rw [ht] at this
    exact (some.inj this).symm
  · have hst := hI.running_state ht
    exact ⟨hI.not_queued (by rw [hst]; simp), (hI.thread t).unlinked (Or.inr (Or.inl hst))⟩
  · exact (hI.thread t).cap

/-- Two threads of level 10 with a boost, a hand-over of the CPU and an exit. -/
theorem sched_safe_two_threads :
    ∃ s', run ⟨ReadyQueue.new, none, 0, 100, fun _ : Bool => Node.new 10 .roundRobin⟩
        [.start true, .start false, .pick 0 none, .boost true 12 11, .yieldRunning 5, .pick 5 (some 3), .exit false 9] =
          some s' ∧ (s'.node true).boost ≤ 11 := by
  have hm : Met ⟨ReadyQueue.new, none, 0, 100, fun _ : Bool => Node.new 10 .roundRobin⟩
      [.start true, .start false, .pick 0 none, .boost true 12 11, .yieldRunning 5, .pick 5 (some 3), .exit false 9] := by
    simp [Met, Op.Meets, PRIORITY_LEVELS]
  obtain ⟨s', hr, _, _, _, hb⟩ := sched_safe _ ⟨rfl, rfl, by decide, fun _ => ⟨10, .roundRobin, by decide, rfl⟩⟩ _ hm
  exact ⟨s', hr, hb true⟩

end

end Sched
