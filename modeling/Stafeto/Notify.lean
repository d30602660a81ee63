import Mathlib.Algebra.BigOperators.Group.Finset.Piecewise
import Stafeto.Lib.Run
import Stafeto.ReadyQueue

/-!
# Notification slots and the queue of a channel (kcore/src/notify.rs)

A post ORs bits into a slot and counts; the slot goes to a thread waiting in `receive` at once, or into the
queue of its channel, once. The queue is a queue of 64 levels (`Sched.ReadyQueue`) that holds slots and
requests, or else receivers, and a flag says which; the flag goes stale when the last receiver leaves.

A `View` says what an observer of the calls expects: two queues, of which the receivers' is one, each with the
oldest item of a level first, and for every slot the posts that no one has received. `Event.Right` says what
each call answers, in the terms of the view before it. The code refines the view: `Inv` ties the two, `exec_spec`
is one call and `run_spec` any number of them.

Of a slot the owner is left out, which no function here reads. `len` and the counts are `u32`; the kernel is
built without overflow checks, so `len` wraps. An assertion that fails is `none`.
-/

namespace Notify

open Abi Sched Function List

variable {T : Type} {k : Nat}

/-- The slots (notify.rs:36), by field. -/
structure Slots (T : Type) where
  links : Links T
  bits : T → Nat
  count : T → Nat

/-- `Posted` (notify.rs:20). -/
inductive Posted where
  | first
  | merged
  deriving DecidableEq, Repr

def U32_MAX : Nat := 2 ^ 32 - 1

section
variable [DecidableEq T]

/-- `Slot::post` (notify.rs:84). -/
def Slots.post (m : Slots T) (s : T) (bits : Nat) : Posted × Slots T :=
  let m := { m with
    bits := update m.bits s (m.bits s ||| bits)
    count := update m.count s (min (m.count s + 1) U32_MAX) }
  (if (m.links s).queued then .merged else .first, m)

/-- `Slot::take` (notify.rs:96). -/
def Slots.take (m : Slots T) (s : T) : (Nat × Nat) × Slots T :=
  ((m.bits s, m.count s), { m with bits := update m.bits s 0, count := update m.count s 0 })

end

/-- `Post` (notify.rs:105). -/
inductive Post (T : Type) where
  | merged
  | queued
  | deliver (receiver : T)

/-- `Queue` (notify.rs:126). -/
structure Queue (T : Type) where
  items : ReadyQueue T
  receivers : Bool
  len : Nat

namespace Queue

/-- `new` (notify.rs:137). -/
def new : Queue T := ⟨ReadyQueue.new, false, 0⟩

variable [DecidableEq T]

/-- `take_head` (notify.rs:267). -/
def takeHead (q : Queue T) (m : Slots T) : Option (Option T × Queue T × Slots T) :=
  match q.items.top with
  | none => some (none, q, m)
  | some top =>
    (q.items.first top).bind fun item =>
    (q.items.remove m.links item).map fun r =>
    (some item, { q with items := r.1, len := (q.len + U32_MAX) % 2 ^ 32 }, { m with links := r.2 })

/-- `take_slot` (notify.rs:232). -/
def takeSlot (q : Queue T) (m : Slots T) : Option (Option T × Queue T × Slots T) :=
  if q.receivers then some (none, q, m) else q.takeHead m

/-- `take_waiter` (notify.rs:259). -/
def takeWaiter (q : Queue T) (m : Slots T) : Option (Option T × Queue T × Slots T) :=
  if q.receivers then q.takeHead m else some (none, q, m)

/-- `enqueue` (notify.rs:222). -/
def enqueue (q : Queue T) (m : Slots T) (item : T) : Option (Queue T × Slots T) :=
  (q.items.pushTail m.links item).map fun r =>
  (⟨r.1, false, (q.len + 1) % 2 ^ 32⟩, { m with links := r.2 })

/-- `post` (notify.rs:186). -/
def post (q : Queue T) (m : Slots T) (slot : T) (bits : Nat) : Option (Post T × Queue T × Slots T) :=
  match m.post slot bits with
  | (.merged, m) => some (.merged, q, m)
  | (.first, m) =>
    match q.takeWaiter m with
    | none => none
    | some (some r, q, m) => some (.deliver r, q, m)
    | some (none, q, m) => (q.enqueue m slot).map fun r => (.queued, r.1, r.2)

/-- `send` (notify.rs:208). -/
def send (q : Queue T) (m : Slots T) (request : T) : Option (Option T × Queue T × Slots T) :=
  match q.takeWaiter m with
  | none => none
  | some (some r, q, m) => some (some r, q, m)
  | some (none, q, m) => (q.enqueue m request).map fun r => (none, r.1, r.2)

/-- `wait` (notify.rs:245). -/
def wait (q : Queue T) (m : Slots T) (receiver : T) : Option (Queue T × Slots T) :=
  if q.receivers ∨ q.items.top = none then
    (q.items.pushTail m.links receiver).map fun r =>
    (⟨r.1, true, (q.len + 1) % 2 ^ 32⟩, { m with links := r.2 })
  else none

/-- `cancel` (notify.rs:282). -/
def cancel (q : Queue T) (m : Slots T) (item : T) : Option (Queue T × Slots T) :=
  (q.items.remove m.links item).map fun r =>
  ({ q with items := r.1, len := (q.len + U32_MAX) % 2 ^ 32 }, { m with links := r.2 })

/-- `move_to` (notify.rs:294). -/
def moveTo (q : Queue T) (m : Slots T) (item : T) (level : Nat) : Option (Queue T × Slots T) :=
  (q.items.moveTo m.links item level).map fun r => ({ q with items := r.1 }, { m with links := r.2 })

end Queue

open Queue

/-! ## Runs -/

/-- A channel's queue and the slots of the system. -/
structure State (T : Type) where
  queue : Queue T
  slots : Slots T

inductive Op (T : Type) where
  /-- The caller takes the slot of a post that a receiver got. -/
  | post (slot : T) (bits : Nat)
  | send (request : T)
  | wait (receiver : T)
  /-- The caller takes the slot; a request has nothing in it. -/
  | takeSlot
  | takeWaiter
  | cancel (item : T)
  | moveTo (item : T) (level : Nat)
  /-- An item that does not stand in this queue gets a new priority, or goes into another queue or out of it. -/
  | outside (item : T) (link : Link T)

/-- What a call answered. -/
inductive Event (T : Type) where
  | merged (slot : T) (bits : Nat)
  | queued (slot : T) (bits : Nat)
  | delivered (slot : T) (bits : Nat) (receiver : T) (got : Nat × Nat)
  | sent (request : T)
  | handed (request receiver : T)
  | waited (receiver : T)
  | took (item : T) (got : Nat × Nat)
  | nothing
  | woke (receiver : T)
  | noWaiter
  | cancelled (item : T) (receiver : Bool)
  | moved (item : T) (level : Nat)
  | outside (item : T) (level : Nat)
  deriving DecidableEq

section
variable [DecidableEq T]

def exec (st : State T) : Op T → Option (State T × Event T)
  | .post s bits =>
    match st.queue.post st.slots s bits with
    | none => none
    | some (.merged, q, m) => some (⟨q, m⟩, .merged s bits)
    | some (.queued, q, m) => some (⟨q, m⟩, .queued s bits)
    | some (.deliver r, q, m) => some (⟨q, (m.take s).2⟩, .delivered s bits r (m.take s).1)
  | .send x =>
    match st.queue.send st.slots x with
    | none => none
    | some (some r, q, m) => some (⟨q, m⟩, .handed x r)
    | some (none, q, m) => some (⟨q, m⟩, .sent x)
  | .wait r => (st.queue.wait st.slots r).map fun p => (⟨p.1, p.2⟩, .waited r)
  | .takeSlot =>
    match st.queue.takeSlot st.slots with
    | none => none
    | some (some x, q, m) => some (⟨q, (m.take x).2⟩, .took x (m.take x).1)
    | some (none, q, m) => some (⟨q, m⟩, .nothing)
  | .takeWaiter =>
    match st.queue.takeWaiter st.slots with
    | none => none
    | some (some r, q, m) => some (⟨q, m⟩, .woke r)
    | some (none, q, m) => some (⟨q, m⟩, .noWaiter)
  | .cancel x => (st.queue.cancel st.slots x).map fun p => (⟨p.1, p.2⟩, .cancelled x st.queue.receivers)
  | .moveTo x level => (st.queue.moveTo st.slots x level).map fun p => (⟨p.1, p.2⟩, .moved x level)
  | .outside t link =>
    some (⟨st.queue, { st.slots with links := update st.slots.links t link }⟩, .outside t link.level)

def run (st : State T) (tr : List (Event T)) : List (Op T) → Option (State T × List (Event T))
  | [] => some (st, tr)
  | op :: ops => (exec st op).bind fun r => run r.1 (tr ++ [r.2]) ops

/-! ## What an observer expects -/

/-- Items by level, the oldest of a level first. -/
abbrev Lists (T : Type) := Nat → List T

namespace Lists

/-- An item comes. -/
def push (ls : Lists T) (l : Nat) (x : T) : Lists T := update ls l (ls l ++ [x])

/-- An item leaves. -/
def pull (ls : Lists T) (l : Nat) (x : T) : Lists T := update ls l ((ls l).erase x)

/-- An item moves to another level: raised, it counts as the youngest there; lowered, as the oldest. -/
def shift (ls : Lists T) (l n : Nat) (x : T) : Lists T :=
  if n = l ∨ x ∉ ls l then ls
  else
    let ls := ls.pull l x
    update ls n (if l < n then ls n ++ [x] else x :: ls n)

omit [DecidableEq T] in
/-- The oldest item of the highest level that has one. -/
def Top (ls : Lists T) (x : T) : Prop := ∃ l, (ls l).head? = some x ∧ ∀ n, l < n → ls n = []

def Empty (ls : Lists T) : Prop := ∀ l, ls l = []

def size (ls : Lists T) : Nat := ∑ l ∈ Finset.range PRIORITY_LEVELS, (ls l).length

end Lists

/-- The queue as two, and the posts of every slot that no one has received yet. -/
structure View (T : Type) where
  level : T → Nat
  items : Lists T
  waiters : Lists T
  pending : T → List Nat
  /-- It was taken out of the queue with what was posted in it. -/
  withdrawn : T → Bool

def View.see (v : View T) : Event T → View T
  | .merged s bits => { v with pending := update v.pending s (v.pending s ++ [bits]) }
  | .queued s bits => { v with
      pending := update v.pending s (v.pending s ++ [bits])
      items := v.items.push (v.level s) s
      withdrawn := update v.withdrawn s false }
  | .delivered s _ r _ => { v with
      pending := update v.pending s []
      waiters := v.waiters.pull (v.level r) r }
  | .sent x => { v with items := v.items.push (v.level x) x, withdrawn := update v.withdrawn x false }
  | .handed _ r => { v with waiters := v.waiters.pull (v.level r) r }
  | .waited r => { v with waiters := v.waiters.push (v.level r) r }
  | .took x _ => { v with items := v.items.pull (v.level x) x, pending := update v.pending x [] }
  | .nothing => v
  | .woke r => { v with waiters := v.waiters.pull (v.level r) r }
  | .noWaiter => v
  | .cancelled x false => { v with
      items := v.items.pull (v.level x) x
      withdrawn := update v.withdrawn x true }
  | .cancelled x true => { v with waiters := v.waiters.pull (v.level x) x }
  | .moved x level => { v with
      items := v.items.shift (v.level x) level x
      waiters := v.waiters.shift (v.level x) level x
      level := update v.level x level }
  | .outside x level => { v with level := update v.level x level }

/-- The view at the start: nothing is queued, nothing was posted. -/
def View.start (m : Slots T) : View T := ⟨fun t => (m.links t).level, fun _ => [], fun _ => [], fun _ => [], fun _ => false⟩

/-- The view after the events of a trace. -/
def View.after (v : View T) (tr : List (Event T)) : View T := tr.foldl View.see v

/-- What `receive` gives for the posts that merged: their bits, and how many they are up to saturation. -/
def delivery (posts : List Nat) : Nat × Nat := (posts.foldl (· ||| ·) 0, min posts.length U32_MAX)

/-- The answer is what the view before the call makes one expect. -/
def Event.Right (v : View T) : Event T → Prop
  | .merged s _ => s ∈ v.items (v.level s)
  | .queued s _ => s ∉ v.items (v.level s) ∧ v.waiters.Empty
  | .delivered s bits r got =>
    s ∉ v.items (v.level s) ∧ v.waiters.Top r ∧ got = delivery (v.pending s ++ [bits])
  | .sent x => x ∉ v.items (v.level x) ∧ v.waiters.Empty
  | .handed x r => x ∉ v.items (v.level x) ∧ v.waiters.Top r
  | .waited _ => v.items.Empty
  | .took x got => v.items.Top x ∧ got = delivery (v.pending x)
  | .nothing => v.items.Empty
  | .woke r => v.waiters.Top r
  | .noWaiter => v.waiters.Empty
  | .cancelled x false => x ∈ v.items (v.level x)
  | .cancelled x true => x ∈ v.waiters (v.level x)
  | .moved x _ => x ∈ v.items (v.level x) ∨ x ∈ v.waiters (v.level x)
  | .outside x _ => x ∉ v.items (v.level x) ∧ x ∉ v.waiters (v.level x)

/-- A level that an item may have. -/
def Level (l : Nat) : Prop := 1 ≤ l ∧ l < PRIORITY_LEVELS

/-- What the callers promise: an item stands in no other queue, `wait` comes when nothing is queued, and `cancel`
and `move_to` are for items of this queue. -/
def Op.Meets (st : State T) (v : View T) : Op T → Prop
  | .post s _ => Level (v.level s) ∧ ((st.slots.links s).queued = true → s ∈ v.items (v.level s))
  | .send x => Level (v.level x) ∧ (st.slots.links x).queued = false
  | .wait r => Level (v.level r) ∧ (st.slots.links r).queued = false ∧ v.items.Empty
  | .takeSlot | .takeWaiter => True
  | .cancel x => x ∈ v.items (v.level x) ∨ x ∈ v.waiters (v.level x)
  | .moveTo x level => (x ∈ v.items (v.level x) ∨ x ∈ v.waiters (v.level x)) ∧ Level level
  | .outside x _ => ∀ l, x ∉ v.items l ∧ x ∉ v.waiters l

/-- Every call of the run meets its contract. -/
def Met (v₀ : View T) (st : State T) (tr : List (Event T)) : List (Op T) → Prop
  | [] => True
  | op :: ops => op.Meets st (v₀.after tr) ∧ ∀ r, exec st op = some r → Met v₀ r.1 (tr ++ [r.2]) ops

open View

/-! ## Lists by level -/

namespace Lists

variable {ls : Lists T} {l n : Nat} {x y : T}

omit [DecidableEq T] in
theorem size_update (ls : Lists T) (hl : l < PRIORITY_LEVELS) (k : List T) :
    size (update ls l k) + (ls l).length = size ls + k.length := by
  have hmem : l ∈ Finset.range PRIORITY_LEVELS := Finset.mem_range.2 hl
  have h1 := Finset.add_sum_erase (Finset.range PRIORITY_LEVELS) (fun l => (ls l).length) hmem
  have h2 := Finset.add_sum_erase (Finset.range PRIORITY_LEVELS)
    (fun i => (update ls l k i).length) hmem
  have h3 : ∑ i ∈ (Finset.range PRIORITY_LEVELS).erase l, (update ls l k i).length =
      ∑ i ∈ (Finset.range PRIORITY_LEVELS).erase l, (ls i).length :=
    Finset.sum_congr rfl fun i hi => by rw [update_of_ne (Finset.ne_of_mem_erase hi)]
  simp only [update_self] at h2
  unfold size
  omega

omit [DecidableEq T] in
theorem size_push (hl : l < PRIORITY_LEVELS) : (ls.push l x).size = ls.size + 1 := by
  have := size_update ls hl (ls l ++ [x])
  rw [length_append, length_singleton] at this
  unfold push
  omega

theorem size_pull (hl : l < PRIORITY_LEVELS) (hx : x ∈ ls l) : (ls.pull l x).size + 1 = ls.size := by
  have h1 := size_update ls hl ((ls l).erase x)
  have h2 := length_erase_of_mem hx
  have h3 := length_pos_of_mem hx
  unfold pull
  omega

theorem shift_of_not_mem (hx : x ∉ ls l) : ls.shift l n x = ls := by
  rw [shift, if_pos (Or.inr hx)]

theorem size_shift (hl : l < PRIORITY_LEVELS) (hn : n < PRIORITY_LEVELS) : (ls.shift l n x).size = ls.size := by
  unfold shift
  split
  · rfl
  next h =>
  rw [not_or, not_not] at h
  have h1 := size_pull hl h.2
  have h2 := size_update (ls.pull l x) hn (if l < n then ls.pull l x n ++ [x] else x :: ls.pull l x n)
  have h3 : (if l < n then ls.pull l x n ++ [x] else x :: ls.pull l x n).length = (ls.pull l x n).length + 1 := by
    split
    · exact length_append
    · rfl
  simp only
  omega

omit [DecidableEq T] in
theorem mem_push : y ∈ ls.push l x n ↔ y ∈ ls n ∨ n = l ∧ y = x := by
  unfold push
  by_cases hn : n = l
  · subst hn
    simp
  · simp [hn]

theorem mem_pull_of_ne (h : y ≠ x) : y ∈ ls.pull l x n ↔ y ∈ ls n := by
  unfold pull
  by_cases hn : n = l
  · subst hn
    rw [update_self, mem_erase_of_ne h]
  · rw [update_of_ne hn]

theorem mem_shift_of_ne (h : y ≠ x) : y ∈ ls.shift l n x k ↔ y ∈ ls k := by
  unfold shift
  split
  · rfl
  by_cases hk : k = n
  · subst hk
    rw [update_self, ← mem_pull_of_ne (l := l) h]
    split <;> simp [h]
  · rw [update_of_ne hk, mem_pull_of_ne h]

theorem mem_shift_self (h : x ∈ ls l) : x ∈ ls.shift l n x n := by
  unfold shift
  split
  · next he =>
    rcases he with he | he
    · rwa [he]
    · exact absurd h he
  · split <;> simp

theorem not_mem_pull_self (hnd : (ls l).Nodup) : x ∉ ls.pull l x l := by
  rw [pull, update_self, hnd.mem_erase_iff]
  simp

theorem shift_empty (h : ls.Empty) : ls.shift l n x = ls := shift_of_not_mem (by rw [h l]; simp)

omit [DecidableEq T] in
theorem Top.mem (h : ls.Top x) : ∃ l, x ∈ ls l := by
  obtain ⟨l, hl, -⟩ := h
  exact ⟨l, mem_of_head? hl⟩

end Lists

/-! ## The invariant -/

/-- The list of the receivers or of the others. -/
def View.standing (v : View T) (receivers : Bool) : Lists T := if receivers then v.waiters else v.items

def View.setStanding (v : View T) (receivers : Bool) (ls : Lists T) : View T :=
  if receivers then { v with waiters := ls } else { v with items := ls }

/-- The links hold the view's list of the kind that the flag says, and the list of the other kind is empty; the
slots hold what is pending. -/
structure Inv (st : State T) (v : View T) : Prop where
  holds : Holds st.queue.items st.slots.links (v.standing st.queue.receivers)
  other : (v.standing (!st.queue.receivers)).Empty
  len : st.queue.len = (v.items.size + v.waiters.size) % 2 ^ 32
  level : ∀ t, v.level t = (st.slots.links t).level
  slots : ∀ t, (st.slots.bits t, st.slots.count t) = delivery (v.pending t)

variable {st : State T} {v v' v₀ : View T} {q : Queue T} {m : Slots T} {ls : Lists T} {x s : T} {bits : Nat} {b : Bool}
  {op : Op T} {e : Event T} {tr : List (Event T)} {ops : List (Op T)}

omit [DecidableEq T] in
theorem size_standing (v : View T) (b : Bool) :
    v.items.size + v.waiters.size = (v.standing b).size + (v.standing !b).size := by
  cases b with
  | true => exact add_comm _ _
  | false => rfl

omit [DecidableEq T] in
theorem Lists.size_empty (h : ls.Empty) : ls.size = 0 := by
  exact Finset.sum_eq_zero fun l _ => by rw [h l]; rfl

namespace Inv

section
variable (h : Inv st v)
include h

omit [DecidableEq T] in
theorem items (hr : st.queue.receivers = true) : v.items.Empty := by
  have := h.other
  rwa [hr] at this

omit [DecidableEq T] in
theorem waiters (hr : st.queue.receivers = false) : v.waiters.Empty := by
  have := h.other
  rwa [hr] at this

omit [DecidableEq T] in
theorem len_standing : st.queue.len = (v.standing st.queue.receivers).size % 2 ^ 32 := by
  rw [h.len, size_standing v st.queue.receivers, Lists.size_empty h.other, add_zero]

omit [DecidableEq T] in
theorem mem_standing {l : Nat} (hx : x ∈ v.items l ∨ x ∈ v.waiters l) :
    x ∈ v.standing st.queue.receivers l := by
  cases hr : st.queue.receivers with
  | true =>
    refine hx.resolve_left ?_
    rw [h.items hr l]
    exact not_mem_nil
  | false =>
    refine hx.resolve_right ?_
    rw [h.waiters hr l]
    exact not_mem_nil

omit h in
omit [DecidableEq T] in
theorem of_standing {l : Nat} (hx : x ∈ v.standing b l) : x ∈ v.items l ∨ x ∈ v.waiters l := by
  cases b with
  | true => exact .inr hx
  | false => exact .inl hx

omit [DecidableEq T] in
theorem mem_level {l : Nat} (hx : x ∈ v.items l ∨ x ∈ v.waiters l) : l = v.level x ∧ Level l := by
  have hmem := h.mem_standing hx
  exact ⟨(h.holds.item l x hmem).1.symm.trans (h.level x).symm, h.holds.level l (ne_nil_of_mem hmem)⟩

omit [DecidableEq T] in
theorem nodup (l : Nat) : (v.items l).Nodup := by
  cases hr : st.queue.receivers with
  | true =>
    rw [h.items hr l]
    exact nodup_nil
  | false =>
    have := h.holds.nodup l
    rwa [hr] at this

omit [DecidableEq T] in
theorem not_mem (hx : (st.slots.links x).queued = false) (l : Nat) :
    x ∉ v.items l ∧ x ∉ v.waiters l :=
  ⟨fun hm => h.holds.not_mem hx l (h.mem_standing (.inl hm)), fun hm => h.holds.not_mem hx l (h.mem_standing (.inr hm))⟩

omit [DecidableEq T] in
theorem replace {links : Links T} (ls : Lists T) (hother : (v.standing !q.receivers).Empty)
    (hh : Holds q.items links ls) (hlen : q.len = ls.size % 2 ^ 32)
    (hlev : ∀ t, (links t).level = (st.slots.links t).level) :
    Inv ⟨q, { st.slots with links := links }⟩ (v.setStanding q.receivers ls) := by
  cases hr : q.receivers with
  | true =>
    rw [hr] at hother
    refine ⟨?_, ?_, ?_, fun t => (h.level t).trans (hlev t).symm, h.slots⟩
    · simp only [hr]
      exact hh
    · simp only [hr]
      exact hother
    · have hzero : v.items.size = 0 := Lists.size_empty hother
      show q.len = (v.items.size + ls.size) % 2 ^ 32
      rw [hzero, zero_add, hlen]
  | false =>
    rw [hr] at hother
    refine ⟨?_, ?_, ?_, fun t => (h.level t).trans (hlev t).symm, h.slots⟩
    · simp only [hr]
      exact hh
    · simp only [hr]
      exact hother
    · have hzero : v.waiters.size = 0 := Lists.size_empty hother
      show q.len = (ls.size + v.waiters.size) % 2 ^ 32
      rw [hzero, add_zero, hlen]

omit [DecidableEq T] in
/-- What is in the queue when the other list is empty too. -/
theorem holds_of_empty (he : (v.standing !b).Empty) :
    Holds st.queue.items st.slots.links (v.standing b) := by
  by_cases hb : st.queue.receivers = b
  · exact hb ▸ h.holds
  · have hnot : (!b) = st.queue.receivers := by cases b <;> simp_all
    have hnot' : (!st.queue.receivers) = b := by cases b <;> simp_all
    have hsame : v.standing b = v.standing st.queue.receivers := by
      funext l
      have h1 := h.other l
      have h2 := he l
      rw [hnot'] at h1
      rw [hnot] at h2
      rw [h1, h2]
    rw [hsame]
    exact h.holds

end

end Inv

/-! ## The functions of the queue -/

theorem len_pull {n : Nat} (h : n + 1 = k) : (k % 2 ^ 32 + U32_MAX) % 2 ^ 32 = n % 2 ^ 32 := by
  unfold U32_MAX
  omega

section
variable (h : Inv st v)
include h

theorem Inv.pull (hx : x ∈ v.standing st.queue.receivers (v.level x)) :
    ∃ items links, st.queue.items.remove st.slots.links x = some (items, links) ∧
      Inv ⟨{ st.queue with items := items, len := (st.queue.len + U32_MAX) % 2 ^ 32 }, { st.slots with links := links }⟩
        (v.setStanding st.queue.receivers ((v.standing st.queue.receivers).pull (v.level x) x)) := by
  obtain ⟨items, links, he, hf, -, hh⟩ := remove_spec h.holds hx
  have hsize := Lists.size_pull (h.mem_level (Inv.of_standing hx)).2.2 hx
  refine ⟨items, links, he, h.replace ((v.standing _).pull _ x) h.other hh ?_ hf.level⟩
  rw [h.len_standing]
  exact len_pull hsize

theorem Inv.push (he : (v.standing !b).Empty) (hl : Level (v.level x))
    (hx : (st.slots.links x).queued = false) :
    ∃ items links, st.queue.items.pushTail st.slots.links x = some (items, links) ∧
      Inv ⟨⟨items, b, (st.queue.len + 1) % 2 ^ 32⟩, { st.slots with links := links }⟩
        (v.setStanding b ((v.standing b).push (v.level x) x)) := by
  obtain ⟨items, links, hp, hf, -, hh⟩ := push_spec (h.holds_of_empty he) true hx (h.level x).symm hl
  refine ⟨items, links, hp, h.replace ((v.standing b).push _ x) he hh ?_ hf.level⟩
  have hempty := Lists.size_empty he
  simp only [h.len, size_standing v b, Lists.size_push hl.2]
  omega

/-- **`take_head`**: the oldest item of the highest level, if there is one. -/
theorem takeHead_spec :
    ((v.standing st.queue.receivers).Empty ∧ st.queue.takeHead st.slots = some (none, st.queue, st.slots)) ∨
    ∃ x q m, (v.standing st.queue.receivers).Top x ∧ st.queue.takeHead st.slots = some (some x, q, m) ∧
      Inv ⟨q, m⟩ (v.setStanding st.queue.receivers ((v.standing st.queue.receivers).pull (v.level x) x)) := by
  unfold takeHead
  cases ht : st.queue.items.top with
  | none => exact .inl ⟨fun l => h.holds.top_none ht l, rfl⟩
  | some top =>
    obtain ⟨hne, hmax⟩ := h.holds.top_some ht
    obtain ⟨x, rest, hl⟩ := exists_cons_of_ne_nil hne
    have hmem : x ∈ v.standing st.queue.receivers top := by rw [hl]; exact mem_cons_self
    have hlev := (h.mem_level (Inv.of_standing hmem)).1
    have hfirst : st.queue.items.first top = some x := by rw [ReadyQueue.first, h.holds.head, hl]; rfl
    obtain ⟨items, links, he, h'⟩ := h.pull (hlev ▸ hmem)
    refine .inr ⟨x, _, _, ⟨top, by rw [hl]; rfl, fun n hn => ?_⟩, ?_, h'⟩
    · by_contra hne'
      exact absurd (hmax n hne') (by omega)
    · simp [hfirst, he]

theorem takeWaiter_spec :
    (v.waiters.Empty ∧ st.queue.takeWaiter st.slots = some (none, st.queue, st.slots)) ∨
    ∃ r q m, v.waiters.Top r ∧ st.queue.takeWaiter st.slots = some (some r, q, m) ∧
      Inv ⟨q, m⟩ { v with waiters := v.waiters.pull (v.level r) r } := by
  have hhead := takeHead_spec h
  unfold takeWaiter
  cases hr : st.queue.receivers with
  | false => exact .inl ⟨h.waiters hr, rfl⟩
  | true =>
    rw [hr] at hhead
    exact hhead

theorem takeSlot_spec :
    (v.items.Empty ∧ st.queue.takeSlot st.slots = some (none, st.queue, st.slots)) ∨
    ∃ x q m, v.items.Top x ∧ st.queue.takeSlot st.slots = some (some x, q, m) ∧
      Inv ⟨q, m⟩ { v with items := v.items.pull (v.level x) x } := by
  have hhead := takeHead_spec h
  unfold takeSlot
  cases hr : st.queue.receivers with
  | true => exact .inl ⟨h.items hr, rfl⟩
  | false =>
    rw [hr] at hhead
    exact hhead

theorem enqueue_spec (hw : v.waiters.Empty) (hl : Level (v.level x))
    (hx : (st.slots.links x).queued = false) :
    ∃ q m, st.queue.enqueue st.slots x = some (q, m) ∧ Inv ⟨q, m⟩ { v with items := v.items.push (v.level x) x } := by
  obtain ⟨items, links, he, h'⟩ := h.push (b := false) hw hl hx
  exact ⟨_, _, by rw [enqueue, he]; rfl, h'⟩

theorem wait_spec (hi : v.items.Empty) (hl : Level (v.level x))
    (hx : (st.slots.links x).queued = false) :
    ∃ q m, st.queue.wait st.slots x = some (q, m) ∧
      Inv ⟨q, m⟩ { v with waiters := v.waiters.push (v.level x) x } := by
  have hassert : st.queue.receivers = true ∨ st.queue.items.top = none := by
    cases hr : st.queue.receivers with
    | true => exact .inl rfl
    | false =>
      refine .inr ?_
      cases ht : st.queue.items.top with
      | none => rfl
      | some top =>
        have hne := (h.holds.top_some ht).1
        rw [hr] at hne
        exact absurd (hi top) hne
  obtain ⟨items, links, he, h'⟩ := h.push (b := true) hi hl hx
  exact ⟨_, _, by rw [wait, if_pos hassert, he]; rfl, h'⟩

theorem cancel_spec (hx : x ∈ v.items (v.level x) ∨ x ∈ v.waiters (v.level x)) :
    ∃ q m, st.queue.cancel st.slots x = some (q, m) ∧
      Inv ⟨q, m⟩ (v.setStanding st.queue.receivers ((v.standing st.queue.receivers).pull (v.level x) x)) := by
  obtain ⟨items, links, he, h'⟩ := h.pull (h.mem_standing hx)
  exact ⟨_, _, by rw [cancel, he]; rfl, h'⟩

theorem moveTo_inv {level : Nat} (hx : x ∈ v.items (v.level x) ∨ x ∈ v.waiters (v.level x))
    (hl : Level level) : ∃ q m, st.queue.moveTo st.slots x level = some (q, m) ∧ Inv ⟨q, m⟩ (v.see (.moved x level)) := by
  have hmem := h.mem_standing hx
  have hold := (h.mem_level hx).2
  obtain ⟨items, links, he, hlev, -, hself, -, hh⟩ := moveTo_spec h.holds hmem hl
  have hshift : ∀ ls : Lists T, x ∈ ls (v.level x) → (if level = v.level x then ls else
      let ls := update ls (v.level x) ((ls (v.level x)).erase x)
      update ls level (if v.level x < level then ls level ++ [x] else x :: ls level)) =
        ls.shift (v.level x) level x := by
    intro ls hx
    unfold Lists.shift
    by_cases hn : level = v.level x
    · rw [if_pos hn, if_pos (.inl hn)]
    · rw [if_neg hn, if_neg (by simp [hn, hx])]
      rfl
  rw [hshift _ hmem] at hh
  have hsize : ∀ ls : Lists T, (ls.shift (v.level x) level x).size = ls.size := fun ls => Lists.size_shift hold.2 hl.2
  refine ⟨{ st.queue with items := items }, { st.slots with links := links }, by rw [moveTo, he]; rfl, ?_, ?_, ?_,
    fun t => ?_, h.slots⟩
  · cases hr : st.queue.receivers with
    | true =>
      rw [hr] at hh
      exact hh
    | false =>
      rw [hr] at hh
      exact hh
  · cases hr : st.queue.receivers with
    | true =>
      have := h.items hr
      exact fun l => (congrFun (Lists.shift_empty this) l).trans (this l)
    | false =>
      have := h.waiters hr
      exact fun l => (congrFun (Lists.shift_empty this) l).trans (this l)
  · show st.queue.len = ((v.items.shift _ _ _).size + (v.waiters.shift _ _ _).size) % 2 ^ 32
    rw [hsize, hsize]
    exact h.len
  · show update v.level x level t = (links t).level
    by_cases ht : t = x
    · rw [ht, update_self, hself]
    · rw [update_of_ne ht, (hlev t ht).1]
      exact h.level t

end

/-! ## Slots -/

omit [DecidableEq T] in
theorem delivery_append (posts : List Nat) (bits : Nat) :
    delivery (posts ++ [bits]) = ((delivery posts).1 ||| bits, min ((delivery posts).2 + 1) U32_MAX) := by
  unfold delivery
  rw [foldl_append, length_append, length_singleton]
  simp only [foldl_cons, foldl_nil, Prod.mk.injEq, true_and]
  omega

theorem slots_post (h : ∀ t, (m.bits t, m.count t) = delivery (v.pending t)) (t : T) :
    ((m.post s bits).2.bits t, (m.post s bits).2.count t) =
      delivery (update v.pending s (v.pending s ++ [bits]) t) := by
  have hs := h s
  rw [Prod.ext_iff] at hs
  by_cases ht : t = s
  · subst ht
    simp only [Slots.post, update_self]
    rw [delivery_append, ← hs.1, ← hs.2]
  · simp only [Slots.post, update_of_ne ht]
    exact h t

theorem slots_take (h : ∀ t, (m.bits t, m.count t) = delivery (v.pending t)) :
    (m.take s).1 = delivery (v.pending s) ∧
      ∀ t, ((m.take s).2.bits t, (m.take s).2.count t) = delivery (update v.pending s [] t) := by
  refine ⟨h s, fun t => ?_⟩
  by_cases ht : t = s
  · subst ht
    simp only [Slots.take, update_self]
    rfl
  · simp only [Slots.take, update_of_ne ht]
    exact h t

theorem Inv.post (h : Inv st v) :
    Inv ⟨st.queue, (st.slots.post s bits).2⟩
      { v with pending := update v.pending s (v.pending s ++ [bits]) } :=
  ⟨h.holds, h.other, h.len, h.level, slots_post h.slots⟩

theorem Inv.take (h : Inv ⟨q, m⟩ v) :
    (m.take s).1 = delivery (v.pending s) ∧
      Inv ⟨q, (m.take s).2⟩ { v with pending := update v.pending s [] } :=
  ⟨(slots_take h.slots).1, h.holds, h.other, h.len, h.level, (slots_take h.slots).2⟩

/-! ## One call -/

/-- The answer of a call is right, and it leaves what the view expects. -/
def Answers (st : State T) (v : View T) (op : Op T) : Prop :=
  ∃ st' e, exec st op = some (st', e) ∧ e.Right v ∧ Inv st' (v.see e)

section
variable (h : Inv st v)
include h

theorem post_answers (hl : Level (v.level s))
    (hq : (st.slots.links s).queued = true → s ∈ v.items (v.level s)) : Answers st v (.post s bits) := by
  obtain ⟨m, hm⟩ : ∃ m, m = (st.slots.post s bits).2 := ⟨_, rfl⟩
  have hlinks : m.links = st.slots.links := by rw [hm]; rfl
  have h₁ : Inv ⟨st.queue, m⟩ { v with pending := update v.pending s (v.pending s ++ [bits]) } := hm ▸ h.post
  unfold Answers
  simp only [exec, post]
  cases hqueued : (st.slots.links s).queued with
  | true =>
    have hpost : st.slots.post s bits = (.merged, m) := by
      rw [hm]
      simp [Slots.post, hqueued]
    rw [hpost]
    exact ⟨_, _, rfl, hq hqueued, h₁⟩
  | false =>
    have hpost : st.slots.post s bits = (.first, m) := by
      rw [hm]
      simp [Slots.post, hqueued]
    have hnot := (h.not_mem hqueued (v.level s)).1
    rw [hpost]
    dsimp only
    rcases takeWaiter_spec h₁ with ⟨hemp, he⟩ | ⟨r, q₂, m₂, htop, he, h₂⟩
    · -- the slot goes into the queue
      rw [he]
      obtain ⟨q₂, m₂, he₂, h₂⟩ := enqueue_spec h₁ hemp hl (by rw [hlinks]; exact hqueued)
      simp only [he₂]
      exact ⟨_, _, rfl, ⟨hnot, hemp⟩, h₂.holds, h₂.other, h₂.len, h₂.level, h₂.slots⟩
    · -- a receiver gets it
      rw [he]
      obtain ⟨hgot, h₃⟩ := h₂.take
      refine ⟨_, _, rfl, ⟨hnot, htop, ?_⟩, ?_⟩
      · rw [hgot]
        simp
      · have hpending : update (update v.pending s (v.pending s ++ [bits])) s [] =
            update v.pending s [] := update_idem ..
        simp only [hpending] at h₃
        exact h₃

theorem send_answers (hl : Level (v.level x)) (hq : (st.slots.links x).queued = false) :
    Answers st v (.send x) := by
  have hnot := (h.not_mem hq (v.level x)).1
  unfold Answers exec send
  rcases takeWaiter_spec h with ⟨hemp, he⟩ | ⟨r, q₁, m₁, htop, he, h₁⟩
  · obtain ⟨q₁, m₁, he₁, h₁⟩ := enqueue_spec h hemp hl hq
    simp only [he, he₁]
    exact ⟨_, _, rfl, ⟨hnot, hemp⟩, h₁.holds, h₁.other, h₁.len, h₁.level, h₁.slots⟩
  · simp only [he]
    exact ⟨_, _, rfl, ⟨hnot, htop⟩, h₁⟩

theorem takeSlot_answers : Answers st v .takeSlot := by
  unfold Answers exec
  rcases takeSlot_spec h with ⟨hemp, he⟩ | ⟨x, q₁, m₁, htop, he, h₁⟩
  · simp only [he]
    exact ⟨_, _, rfl, hemp, h⟩
  · simp only [he]
    obtain ⟨hgot, h₂⟩ := h₁.take
    exact ⟨_, _, rfl, ⟨htop, hgot⟩, h₂⟩

theorem takeWaiter_answers : Answers st v .takeWaiter := by
  unfold Answers exec
  rcases takeWaiter_spec h with ⟨hemp, he⟩ | ⟨r, q₁, m₁, htop, he, h₁⟩
  · simp only [he]
    exact ⟨_, _, rfl, hemp, h⟩
  · simp only [he]
    exact ⟨_, _, rfl, htop, h₁⟩

theorem cancel_answers (hx : x ∈ v.items (v.level x) ∨ x ∈ v.waiters (v.level x)) :
    Answers st v (.cancel x) := by
  obtain ⟨q₁, m₁, he, h₁⟩ := cancel_spec h hx
  have hmem := h.mem_standing hx
  refine ⟨⟨q₁, m₁⟩, .cancelled x st.queue.receivers, by simp only [exec, he, Option.map_some], ?_⟩
  cases hr : st.queue.receivers with
  | true =>
    rw [hr] at h₁ hmem
    exact ⟨hmem, h₁⟩
  | false =>
    rw [hr] at h₁ hmem
    exact ⟨hmem, h₁.holds, h₁.other, h₁.len, h₁.level, h₁.slots⟩

theorem outside_answers {link : Link T} (hx : ∀ l, x ∉ v.items l ∧ x ∉ v.waiters l) :
    Answers st v (.outside x link) := by
  refine ⟨_, _, rfl, hx (v.level x), ?_, h.other, h.len, fun t => ?_, h.slots⟩
  · refine h.holds.set_link_of_not_mem (fun l hm => ?_) link
    rcases Inv.of_standing hm with hm | hm
    · exact (hx l).1 hm
    · exact (hx l).2 hm
  · show update v.level x link.level t = (update st.slots.links x link t).level
    by_cases ht : t = x
    · rw [ht, update_self, update_self]
    · rw [update_of_ne ht, update_of_ne ht]
      exact h.level t

/-- **Step lemma**: a call that meets its contract fails no assertion and answers right. -/
theorem exec_spec (hm : op.Meets st v) : Answers st v op := by
  cases op with
  | post s bits => exact post_answers h hm.1 hm.2
  | send x => exact send_answers h hm.1 hm.2
  | wait r =>
    obtain ⟨hl, hq, hi⟩ := hm
    obtain ⟨q₁, m₁, he, h₁⟩ := wait_spec h hi hl hq
    exact ⟨⟨q₁, m₁⟩, .waited r, by simp only [exec, he, Option.map_some], hi, h₁⟩
  | takeSlot => exact takeSlot_answers h
  | takeWaiter => exact takeWaiter_answers h
  | cancel x => exact cancel_answers h hm
  | moveTo x level =>
    obtain ⟨q₁, m₁, he, h₁⟩ := moveTo_inv h hm.1 hm.2
    exact ⟨⟨q₁, m₁⟩, .moved x level, by simp only [exec, he, Option.map_some], hm.1, h₁⟩
  | outside x link => exact outside_answers h hm

end

/-! ## What follows for the view -/

/-- A slot with something posted and not received stands in the queue, or was taken out of it. -/
def View.Wakes (v : View T) : Prop := ∀ s, v.pending s ≠ [] → s ∈ v.items (v.level s) ∨ v.withdrawn s = true

omit [DecidableEq T] in
/-- The slots other than `x` stand as before. -/
theorem wakes_of_ne (hw : v.Wakes) (hx : v'.pending x ≠ [] → x ∈ v'.items (v'.level x) ∨ v'.withdrawn x = true)
    (hp : ∀ s, s ≠ x → v'.pending s = v.pending s) (hi : ∀ s, s ≠ x → s ∈ v.items (v.level s) → s ∈ v'.items (v'.level s))
    (hd : ∀ s, s ≠ x → v'.withdrawn s = v.withdrawn s) : v'.Wakes := by
  intro s hs
  by_cases hsx : s = x
  · rw [hsx] at hs ⊢
    exact hx hs
  · rw [hp s hsx] at hs
    rw [hd s hsx]
    exact (hw s hs).imp_left (hi s hsx)

theorem wakes_see (hw : v.Wakes) (he : e.Right v) : (v.see e).Wakes := by
  cases e with
  | merged s bits =>
    refine wakes_of_ne hw (fun _ => .inl he) (fun t ht => ?_) (fun _ _ hi => hi) fun _ _ => rfl
    simp [see, ht]
  | queued s bits =>
    refine wakes_of_ne (x := s) hw (fun _ => .inl ?_) (fun t ht => ?_) (fun t _ hi => ?_) fun t ht => ?_
    · exact Lists.mem_push.2 (.inr ⟨rfl, rfl⟩)
    · simp [see, ht]
    · exact Lists.mem_push.2 (.inl hi)
    · simp [see, ht]
  | delivered s bits r got =>
    refine wakes_of_ne (x := s) hw (fun hne => absurd ?_ hne) (fun t ht => ?_) (fun _ _ hi => hi) fun _ _ => rfl
    · simp [see]
    · simp [see, ht]
  | sent x =>
    refine wakes_of_ne (x := x) hw (fun _ => .inl ?_) (fun _ _ => rfl) (fun t _ hi => ?_) fun t ht => ?_
    · exact Lists.mem_push.2 (.inr ⟨rfl, rfl⟩)
    · exact Lists.mem_push.2 (.inl hi)
    · simp [see, ht]
  | handed x r => exact hw
  | waited r => exact hw
  | took x got =>
    refine wakes_of_ne (x := x) hw (fun hne => absurd ?_ hne) (fun t ht => ?_) (fun t ht hi => ?_) fun _ _ => rfl
    · simp [see]
    · simp [see, ht]
    · exact (Lists.mem_pull_of_ne ht).2 hi
  | nothing => exact hw
  | woke r => exact hw
  | noWaiter => exact hw
  | cancelled x receiver =>
    cases receiver with
    | true => exact hw
    | false =>
      refine wakes_of_ne (x := x) hw (fun _ => .inr ?_) (fun _ _ => rfl) (fun t ht hi => ?_) fun t ht => ?_
      · simp [see]
      · exact (Lists.mem_pull_of_ne ht).2 hi
      · simp [see, ht]
  | moved x level =>
    refine wakes_of_ne (x := x) hw (fun hne => ?_) (fun _ _ => rfl) (fun t ht hi => ?_) fun _ _ => rfl
    · refine (hw x hne).imp_left fun hx => ?_
      simp only [see, update_self]
      exact Lists.mem_shift_self hx
    · simp only [see, update_of_ne ht]
      exact (Lists.mem_shift_of_ne ht).2 hi
  | outside x level =>
    refine wakes_of_ne (x := x) hw (fun hne => ?_) (fun _ _ => rfl) (fun t ht hi => ?_) fun _ _ => rfl
    · exact .inr ((hw x hne).resolve_left he.1)
    · simp only [see, update_of_ne ht]
      exact hi

/-- A slot or a request comes into the queue. -/
def Event.enters (x : T) : Event T → Bool
  | .queued s _ => s = x
  | .sent y => y = x
  | _ => false

/-- It leaves: it is received, or cancelled. -/
def Event.leaves (x : T) : Event T → Bool
  | .took y _ => y = x
  | .cancelled y false => y = x
  | _ => false

def View.stands (v : View T) (x : T) : Nat := if x ∈ v.items (v.level x) then 1 else 0

theorem stands_of_mem (h : x ∈ v.items (v.level x)) : v.stands x = 1 := if_pos h

theorem stands_of_not_mem (h : x ∉ v.items (v.level x)) : v.stands x = 0 := if_neg h

theorem stands_congr (h : x ∈ v'.items (v'.level x) ↔ x ∈ v.items (v.level x)) :
    v'.stands x = v.stands x := by
  unfold stands
  by_cases hx : x ∈ v.items (v.level x)
  · rw [if_pos hx, if_pos (h.2 hx)]
  · rw [if_neg hx, if_neg fun hx' => hx (h.1 hx')]

/-- What comes in once leaves once. -/
theorem stands_see (h : Inv st v) (he : e.Right v) (x : T) :
    (v.see e).stands x + (e.leaves x).toNat = v.stands x + (e.enters x).toNat := by
  have hcome : ∀ y, y ∉ v.items (v.level y) → ∀ v' : View T, v'.items = v.items.push (v.level y) y → v'.level = v.level →
      v'.stands x = v.stands x + (decide (y = x)).toNat := by
    intro y hy v' hi hl
    by_cases hyx : y = x
    · subst hyx
      rw [stands_of_not_mem hy, stands_of_mem (by rw [hi, hl]; exact Lists.mem_push.2 (.inr ⟨rfl, rfl⟩))]
      simp
    · have hsame : v'.stands x = v.stands x := stands_congr (by rw [hi, hl, Lists.mem_push]; simp [Ne.symm hyx])
      simp [hsame, hyx]
  have hgo : ∀ y, y ∈ v.items (v.level y) → ∀ v' : View T, v'.items = v.items.pull (v.level y) y → v'.level = v.level →
      v'.stands x + (decide (y = x)).toNat = v.stands x := by
    intro y hy v' hi hl
    by_cases hyx : y = x
    · subst hyx
      rw [stands_of_mem hy, stands_of_not_mem (by rw [hi, hl]; exact Lists.not_mem_pull_self (h.nodup _))]
      simp
    · have hsame : v'.stands x = v.stands x := stands_congr (by rw [hi, hl, Lists.mem_pull_of_ne (Ne.symm hyx)])
      simp [hsame, hyx]
  cases e with
  | queued s bits => exact hcome s he.1 _ rfl rfl
  | sent y => exact hcome y he.1 _ rfl rfl
  | took y got =>
    obtain ⟨l, hl⟩ := he.1.mem
    exact hgo y ((h.mem_level (.inl hl)).1 ▸ hl) _ rfl rfl
  | cancelled y receiver =>
    cases receiver with
    | true => rfl
    | false => exact hgo y he _ rfl rfl
  | moved y level =>
    refine congrArg (· + 0) (stands_congr ?_)
    by_cases hyx : x = y
    · subst hyx
      simp only [see, update_self]
      by_cases hx : x ∈ v.items (v.level x)
      · exact iff_of_true (Lists.mem_shift_self hx) hx
      · rw [Lists.shift_of_not_mem hx]
        refine iff_of_false (fun hx' => hx ?_) hx
        rwa [← (h.mem_level (.inl hx')).1]
    · simp [see, update_of_ne hyx]
      exact Lists.mem_shift_of_ne hyx
  | outside y level =>
    refine congrArg (· + 0) (stands_congr ?_)
    by_cases hyx : x = y
    · subst hyx
      refine iff_of_false (fun hx' => he.1 ?_) he.1
      rwa [← (h.mem_level (.inl hx')).1]
    · simp [see, update_of_ne hyx]
  | merged _ _ | delivered _ _ _ _ | handed _ _ | waited _ | nothing | woke _ | noWaiter => rfl

/-! ## Runs -/

theorem View.after_append (v : View T) (tr : List (Event T)) (e : Event T) :
    v.after (tr ++ [e]) = (v.after tr).see e := by
  rw [after, foldl_append]
  rfl

/-- What holds of a state and the trace that led to it. -/
structure Traced (v₀ : View T) (st : State T) (tr : List (Event T)) : Prop where
  inv : Inv st (v₀.after tr)
  right : ∀ pre e post, tr = pre ++ e :: post → e.Right (v₀.after pre)
  wakes : (v₀.after tr).Wakes
  once : ∀ x, tr.countP (·.enters x) = tr.countP (·.leaves x) + (v₀.after tr).stands x

theorem Traced.exec (h : Traced v₀ st tr)
    (hm : op.Meets st (v₀.after tr)) :
    ∃ st' e, exec st op = some (st', e) ∧ Traced v₀ st' (tr ++ [e]) := by
  obtain ⟨st', e, he, hr, h'⟩ := exec_spec h.inv hm
  refine ⟨st', e, he, ?_, Run.places_append h.right hr, ?_, fun x => ?_⟩
  · rwa [after_append]
  · rw [after_append]
    exact wakes_see h.wakes hr
  · have hstep := stands_see h.inv hr x
    have honce := h.once x
    have hone : ∀ b : Bool, (if b = true then 1 else 0) = b.toNat := by decide
    rw [after_append, countP_append, countP_append, countP_singleton, countP_singleton, hone,
      hone]
    omega

theorem Traced.run (h : Traced v₀ st tr)
    (hm : Met v₀ st tr ops) : ∃ st' tr', run st tr ops = some (st', tr') ∧ Traced v₀ st' tr' := by
  induction ops generalizing st tr with
  | nil => exact ⟨st, tr, rfl, h⟩
  | cons op ops ih =>
    obtain ⟨st₁, e, he, h₁⟩ := h.exec hm.1
    obtain ⟨st', tr', hr, h'⟩ := ih h₁ (hm.2 _ he)
    refine ⟨st', tr', ?_, h'⟩
    rw [Notify.run, he]
    exact hr

/-- A new queue, over slots in which nothing is posted. -/
theorem traced_new (hempty : ∀ t, m.bits t = 0 ∧ m.count t = 0) :
    Traced (start m) ⟨new, m⟩ [] := by
  have hsize : Lists.size (fun _ => ([] : List T)) = 0 := Lists.size_empty fun _ => rfl
  refine ⟨⟨holds_new m.links, fun _ => rfl, ?_, fun _ => rfl, fun t => ?_⟩, fun pre e post h => ?_,
    fun s hs => absurd rfl hs, fun x => rfl⟩
  · show 0 = (Lists.size (fun _ => []) + Lists.size (fun _ => [])) % 2 ^ 32
    rw [hsize]
    rfl
  · rw [(hempty t).1, (hempty t).2]
    rfl
  · simp at h

/-- **The queue of a channel.** From a new queue on, through any calls within their contracts, no assertion fails.
The queue holds the items of the view, receivers or else slots and requests; `len` is their number, as a `u32`;
every call answers what the view before it says, so what is handed out is the oldest item of the highest level,
and a delivery has all posts since the last one, and counts them. A slot with something posted stands in the
queue, unless it was cancelled, and what comes into the queue is received once, or cancelled, or stands there. -/
theorem queue_safe {m : Slots T} (hempty : ∀ t, m.bits t = 0 ∧ m.count t = 0) {ops : List (Op T)}
    (hm : Met (start m) ⟨new, m⟩ [] ops) :
    ∃ st tr, run ⟨new, m⟩ [] ops = some (st, tr) ∧
      let v := (start m).after tr
      Holds st.queue.items st.slots.links (if st.queue.receivers then v.waiters else v.items) ∧
      (if st.queue.receivers then v.items else v.waiters).Empty ∧
      st.queue.len = (v.items.size + v.waiters.size) % 2 ^ 32 ∧
      (∀ pre e post, tr = pre ++ e :: post → e.Right ((start m).after pre)) ∧
      (∀ s, v.pending s ≠ [] → s ∈ v.items (v.level s) ∨ v.withdrawn s = true) ∧
      ∀ x, tr.countP (·.enters x) = tr.countP (·.leaves x) + if x ∈ v.items (v.level x) then 1 else 0 := by
  obtain ⟨st, tr, hr, h⟩ := (traced_new hempty).run hm
  refine ⟨st, tr, hr, h.inv.holds, ?_, h.inv.len, h.right, h.wakes, h.once⟩
  have := h.inv.other
  cases hq : st.queue.receivers with
  | true => rwa [hq] at this
  | false => rwa [hq] at this

theorem met_cons {r : State T × Event T}
    (hm : op.Meets st (v₀.after tr)) (he : exec st op = some r) (hr : Met v₀ r.1 (tr ++ [r.2]) ops) :
    Met v₀ st tr (op :: ops) := by
  refine ⟨hm, fun r' hr' => ?_⟩
  obtain rfl := Option.some.inj (he.symm.trans hr')
  exact hr

end

/-- Two posts merge in the queue. -/
theorem queue_safe_posts :
    let m : Slots Nat := ⟨fun _ => Link.new 5, fun _ => 0, fun _ => 0⟩
    let ops : List (Op Nat) := [.post 7 2, .post 7 4, .takeSlot]
    Met (View.start m) ⟨new, m⟩ [] ops ∧
      ∃ st, run ⟨new, m⟩ [] ops = some (st, [.queued 7 2, .merged 7 4, .took 7 (6, 2)]) ∧ delivery [2, 4] = (6, 2) := by
  intro m ops
  have hlevel : Level 5 := ⟨by decide, by decide⟩
  have hm : Met (View.start m) ⟨new, m⟩ [] ops := by
    refine met_cons ⟨hlevel, nofun⟩ rfl ?_
    refine met_cons ⟨hlevel, fun _ => mem_singleton_self 7⟩ rfl ?_
    exact ⟨trivial, fun _ _ => trivial⟩
  have hrun : (run ⟨new, m⟩ [] ops).map (·.2) = some [.queued 7 2, .merged 7 4, .took 7 (6, 2)] := by
    decide +kernel
  obtain ⟨st, tr, hr, -, -, -, hright, -⟩ := queue_safe (fun _ => ⟨rfl, rfl⟩) hm
  rw [hr, Option.map_some, Option.some.injEq] at hrun
  subst hrun
  exact ⟨hm, st, hr, (hright [.queued 7 2, .merged 7 4] _ [] rfl).2.symm⟩

/-! ## The count of a queue that is too long -/

/-- The slots from 0 to `k - 1` stand at level 1. -/
structure Filled (st : State Nat) (k : Nat) : Prop where
  holds : Holds st.queue.items st.slots.links fun l => if l = 1 then range k else []
  receivers : st.queue.receivers = false
  len : st.queue.len = k % 2 ^ 32
  level : ∀ t, (st.slots.links t).level = 1
  free : ∀ t, k ≤ t → (st.slots.links t).queued = false

theorem filled_post {st : State Nat} (h : Filled st k) :
    ∃ st', exec st (.post k 1) = some (st', .queued k 1) ∧ Filled st' (k + 1) := by
  have hfree := h.free k (le_refl k)
  obtain ⟨items, links, hp, hf, hq, hh⟩ := push_spec h.holds true hfree (h.level k) (by decide)
  simp only [if_true] at hp hh
  refine ⟨⟨⟨items, false, (st.queue.len + 1) % 2 ^ 32⟩, { (st.slots.post k 1).2 with links := links }⟩, ?_, ?_, rfl, ?_,
    fun t => (hf.level t).trans (h.level t), fun t ht => ?_⟩
  · have hpost : st.slots.post k 1 = (.first, (st.slots.post k 1).2) := by
      simp [Slots.post, hfree]
    have hlinks : (st.slots.post k 1).2.links = st.slots.links := rfl
    simp only [exec, post]
    rw [hpost]
    simp [takeWaiter, h.receivers, enqueue, hlinks, hp]
  · have hlist : update (fun l => if l = 1 then range k else []) 1 (range k ++ [k]) =
        fun l => if l = 1 then range (k + 1) else [] := by
      funext l
      by_cases hl : l = 1
      · subst hl
        simp [range_succ]
      · simp [hl]
    rw [hlist] at hh
    exact hh
  · simp only [h.len]
    omega
  · rw [hf.queued t (by omega)]
    exact h.free t (by omega)

/-- What the observer saw when the slots from 0 to `k - 1` were posted to. -/
def filling (k : Nat) : List (Event Nat) := (range k).map (.queued · 1)

theorem after_filling {v₀ : View Nat} (hl : ∀ t, v₀.level t = 1) (hi : v₀.items = fun _ => []) (k : Nat) :
    (∀ t, (v₀.after (filling k)).level t = 1) ∧ (v₀.after (filling k)).waiters = v₀.waiters ∧
      (v₀.after (filling k)).items = fun l => if l = 1 then range k else [] := by
  induction k with
  | zero =>
    refine ⟨hl, rfl, ?_⟩
    show v₀.items = _
    rw [hi]
    simp
  | succ k ih =>
    obtain ⟨h1, h2, h3⟩ := ih
    have hstep : filling (k + 1) = filling k ++ [.queued k 1] := by simp [filling, range_succ]
    rw [hstep, View.after_append]
    refine ⟨h1, h2, ?_⟩
    simp only [View.see, h3, h1, Lists.push]
    funext l
    by_cases hl : l = 1
    · subst hl
      simp [range_succ]
    · simp [hl]

/-- The slots from `k` to `k + n - 1` are posted to. -/
theorem filled_run {v₀ : View Nat} (hl : ∀ t, v₀.level t = 1) (hi : v₀.items = fun _ => []) {st : State Nat}
    (h : Filled st k) (n : Nat) :
    Met v₀ st (filling k) ((range' k n).map (.post · 1)) ∧
      ∃ st', run st (filling k) ((range' k n).map (.post · 1)) = some (st', filling (k + n)) ∧ Filled st' (k + n) := by
  induction n generalizing st k with
  | zero => exact ⟨trivial, st, rfl, h⟩
  | succ n ih =>
    obtain ⟨st₁, he, h₁⟩ := filled_post h
    have hstep : filling k ++ [.queued k 1] = filling (k + 1) := by simp [filling, range_succ]
    obtain ⟨hm, st', hr, h'⟩ := ih h₁
    have hadd : k + 1 + n = k + (n + 1) := by omega
    rw [hadd] at hr h'
    rw [range'_succ, map_cons]
    refine ⟨⟨⟨?_, fun hq => ?_⟩, fun r hr' => ?_⟩, st', ?_, h'⟩
    · rw [(after_filling hl hi k).1]
      exact ⟨le_refl 1, by decide⟩
    · rw [h.free k (le_refl k)] at hq
      cases hq
    · obtain rfl := Option.some.inj (he.symm.trans hr')
      simp only [hstep]
      exact hm
    · rw [run, he, Option.bind_some]
      simp only [hstep]
      exact hr

/-- **`len` wraps**: with 2^32 slots in the queue it says 0. -/
theorem queue_len_wraps :
    ∃ ops st tr, Met (View.start (T := Nat) ⟨fun _ => Link.new 1, fun _ => 0, fun _ => 0⟩)
        ⟨new, ⟨fun _ => Link.new 1, fun _ => 0, fun _ => 0⟩⟩ [] ops ∧
      run (T := Nat) ⟨new, ⟨fun _ => Link.new 1, fun _ => 0, fun _ => 0⟩⟩ [] ops = some (st, tr) ∧
      st.queue.len = 0 ∧
      ((View.start (T := Nat) ⟨fun _ => Link.new 1, fun _ => 0, fun _ => 0⟩).after tr).items.size = 2 ^ 32 := by
  obtain ⟨v₀, hv₀⟩ : ∃ v₀, v₀ = View.start (T := Nat) ⟨fun _ => Link.new 1, fun _ => 0, fun _ => 0⟩ := ⟨_, rfl⟩
  have hl : ∀ t, v₀.level t = 1 := fun t => by rw [hv₀]; rfl
  have hi : v₀.items = fun _ => [] := by rw [hv₀]; rfl
  have h₀ : Filled ⟨new, ⟨fun _ => Link.new 1, fun _ => 0, fun _ => 0⟩⟩ 0 := by
    refine ⟨?_, rfl, rfl, fun _ => rfl, fun _ _ => rfl⟩
    have hnil : (fun l => if l = 1 then range 0 else []) = fun _ : Nat => ([] : List Nat) := by
      funext l
      simp
    rw [hnil]
    exact holds_new _
  obtain ⟨hm, st, hr, h⟩ := filled_run hl hi h₀ (2 ^ 32)
  rw [← hv₀]
  refine ⟨_, st, _, hm, hr, ?_, ?_⟩
  · rw [h.len]
    rfl
  · have hitems := (after_filling hl hi (0 + 2 ^ 32)).2.2
    rw [hitems, Lists.size, Finset.sum_eq_single 1]
    · simp
    · intro l _ hl
      simp [hl]
    · intro hmem
      exact absurd (Finset.mem_range.2 (by decide)) hmem

end Notify
