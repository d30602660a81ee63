import Mathlib.Algebra.Order.Ring.Int
import Mathlib.Data.List.Induction
import Stafeto.Abi
import Stafeto.Lib.Run

/-!
# User entries (kcore/src/upcall.rs)

A thread has one entry of its own. A request, or a fault the thread asked for, leaves it pending; the
way to EL0 turns what is pending into an entry (`prepare`), which shuts the entry; the handler takes what
it interrupted (`take`) and the return opens the entry again. Deferrals, the mask and a long call hold an
entry back. The counts are 32 bits wide; what a call refuses leaves the state as it was.

The results are about whole runs: each field the calls decide by is what the trace of the calls says.
-/

namespace Upcall

open Abi Run List

def USER_END : Nat := 2 ^ 48

/-- Bit 1 of the first value of `Take`. -/
def TAKE_FAULT : Nat := 2

/-- `UpcallControl` (abi/src/lib.rs:1315). -/
inductive UpcallControl where
  | mask
  | enable
  | take
  | defer
  | resume
  | faults
  | stack
  | adopt
  | query
  deriving DecidableEq, Repr

/-- `State` (upcall.rs:72). -/
structure State where
  entry : Nat
  pc : Nat
  flags : Nat
  sp : Nat
  stackBase : Nat
  stackSize : Nat
  esr : Nat
  far : Nat
  depth : Nat
  deferred : Nat
  masked : Bool
  pending : Bool
  entering : Bool
  faults : Bool
  faulted : Bool
  deriving DecidableEq, Repr

/-- `check_start` (args.rs:344). -/
def checkStart (entry stack priority : Nat) : Except Error Unit :=
  if (entry < USER_END ∧ entry % 4 = 0) ∧ (stack ≤ USER_END ∧ stack % 16 = 0) ∧ 1 ≤ priority ∧ priority < PRIORITY_LEVELS
    then .ok () else .error .invalidArgs

namespace State

/-- `State::new` (upcall.rs:152). -/
def new : State := ⟨0, 0, 0, 0, 0, 0, 0, 0, 0, 0, true, false, false, false, false⟩

/-- `bind` (upcall.rs:175). -/
def bind (s : State) (entry : Nat) : Except Error State := do
  if s.depth ≠ 0 then throw .badState
  checkStart entry 0 1
  pure { s with entry := entry, masked := true, pending := false, faulted := false }

/-- `request` (upcall.rs:202). -/
def request (s : State) : Except Error (Bool × State) :=
  if s.entry = 0 then .error .badState else .ok (!s.masked, { s with pending := true })

/-- `take` (upcall.rs:252). -/
def take (s : State) : Except Error (List Nat × State) :=
  if s.entering = false then .error .badState
  else .ok ([s.masked.toNat ||| s.faulted.toNat * TAKE_FAULT, s.pc, s.flags, s.sp],
    { s with entering := false, faulted := false })

/-- `control_basic` (upcall.rs:223). -/
def controlBasic (s : State) (operation : UpcallControl) : Except Error (List Nat × State) :=
  let plain := [s.masked.toNat, 0, 0]
  match operation with
  | .mask => .ok (plain, { s with masked := true })
  | .enable => if s.entering = false then .ok (plain, { s with masked := false }) else .error .badState
  | .take => s.take
  | .defer => if s.deferred + 1 < 2 ^ 32 then .ok (plain, { s with deferred := s.deferred + 1 }) else .error .noMemory
  | .resume => if s.deferred = 0 then .error .badState else .ok (plain, { s with deferred := s.deferred - 1 })
  | _ => .error .invalidArgs

/-- `set_stack` (upcall.rs:303). -/
def setStack (s : State) (base size : Nat) : Except Error State :=
  if size = 0 then .ok { s with stackBase := 0, stackSize := 0 }
  else if ¬ base + size < 2 ^ 64 then .error .invalidArgs
  else if base % 16 ≠ 0 ∨ size % 16 ≠ 0 ∨ USER_END < base + size then .error .invalidArgs
  else .ok { s with stackBase := base, stackSize := size }

/-- `adopt` (upcall.rs:322). -/
def adopt (s : State) (depth deferred : Nat) : Except Error State :=
  if s.depth ≠ 0 ∨ s.entering ∨ s.entry = 0 then .error .badState
  else if ¬ (depth < 2 ^ 32 ∧ deferred < 2 ^ 32) then .error .invalidArgs
  else .ok { s with depth := depth, deferred := deferred, masked := true, faulted := false }

/-- `control_more` (upcall.rs:269). -/
def controlMore (s : State) (operation : UpcallControl) (x1 x2 : Nat) : Except Error (List Nat × State) :=
  let plain := [s.masked.toNat, 0, 0]
  match operation with
  | .faults => if x1 ≤ 1 then .ok (plain, { s with faults := x1 == 1 }) else .error .invalidArgs
  | .stack => (s.setStack x1 x2).map (plain, ·)
  | .adopt => (s.adopt x1 x2).map (plain, ·)
  | .query => .ok ([s.masked.toNat, s.esr, s.far, s.depth, s.deferred], s)
  | _ => .error .invalidArgs

/-- `control` (upcall.rs:211). -/
def control (s : State) (operation : UpcallControl) (x1 x2 : Nat) : Except Error (List Nat × State) :=
  match operation with
  | .faults | .stack | .adopt | .query => s.controlMore operation x1 x2
  | _ => s.controlBasic operation

/-- `fault` (upcall.rs:343). -/
def fault (s : State) (esr far : Nat) (longCall : Bool) : Bool × State :=
  if !s.faults || s.entry == 0 || s.masked || s.deferred != 0 || longCall then (false, s)
  else (true, { s with esr := esr, far := far, pending := true, faulted := true })

/-- `prepare` (upcall.rs:360). -/
def prepare (s : State) (pc flags sp : Nat) (longCall : Bool) : Option (Nat × State) :=
  if s.entry == 0 || s.masked || s.deferred != 0 || !s.pending || longCall then none
  else some (s.entry, { s with masked := true, pending := false, entering := true, pc := pc, flags := flags, sp := sp,
                               depth := min (s.depth + 1) (2 ^ 32 - 1) })

/-- `can_return` (upcall.rs:416). -/
def canReturn (s : State) : Bool := s.depth != 0 && s.deferred == 0 && s.masked && !s.entering

/-- `returned` (upcall.rs:419). -/
def returned (s : State) : Except Error State :=
  if s.canReturn then .ok { s with depth := s.depth - 1, masked := false } else .error .badState

end State

open State

/-! ## Runs -/

inductive Op where
  | bind (entry : Nat)
  | request
  | control (operation : UpcallControl) (x1 x2 : Nat)
  | fault (esr far : Nat) (longCall : Bool)
  | prepare (pc flags sp : Nat) (longCall : Bool)
  | returned
  deriving DecidableEq, Repr

/-- What a call came to. -/
inductive Event where
  | refused (e : Error)
  | bound
  | requested (interrupt : Bool)
  /-- `fault` returned true, or false. -/
  | faultEnters
  | faultEnds
  /-- `prepare` gave the entry, or none. -/
  | enters (entry : Nat)
  | stays
  | takes (values : List Nat)
  | adopted (depth : Nat)
  | replies (values : List Nat)
  | returns
  deriving DecidableEq, Repr

/-- The event of a call of `control` that was not refused. -/
def Event.ofControl (operation : UpcallControl) (x1 : Nat) (values : List Nat) : Event :=
  match operation with
  | .take => .takes values
  | .adopt => .adopted x1
  | _ => .replies values

def State.exec (s : State) : Op → Event × State
  | .bind entry => match s.bind entry with
    | .ok s' => (.bound, s')
    | .error e => (.refused e, s)
  | .request => match s.request with
    | .ok (b, s') => (.requested b, s')
    | .error e => (.refused e, s)
  | .control operation x1 x2 => match s.control operation x1 x2 with
    | .ok (values, s') => (.ofControl operation x1 values, s')
    | .error e => (.refused e, s)
  | .fault esr far longCall => match s.fault esr far longCall with
    | (true, s') => (.faultEnters, s')
    | (false, s') => (.faultEnds, s')
  | .prepare pc flags sp longCall => match s.prepare pc flags sp longCall with
    | some (entry, s') => (.enters entry, s')
    | none => (.stays, s)
  | .returned => match s.returned with
    | .ok s' => (.returns, s')
    | .error e => (.refused e, s)

/-- The state after the calls, and what they came to. -/
def run (ops : List Op) : State × List Event :=
  ops.foldl (fun r op => ((r.1.exec op).2, r.2 ++ [(r.1.exec op).1])) (.new, [])

namespace Event

/-- An entry is asked for. -/
def Asks (e : Event) : Prop := (∃ b, e = requested b) ∨ e = faultEnters

def Enters (e : Event) : Prop := ∃ entry, e = enters entry

def Takes (e : Event) : Prop := ∃ values, e = takes values

def Adopts (e : Event) : Prop := ∃ depth, e = adopted depth

/-- The levels an event goes in or out. -/
def levels : Event → Int
  | enters _ => 1
  | adopted depth => depth
  | returns => -1
  | _ => 0

attribute [simp] Asks Enters Takes Adopts levels

end Event

/-- The last entry prepared is the first after a fault, with no `bind` and no `adopt` between the two. -/
def FaultEntry (tr : List Event) : Prop :=
  ∃ pre e post, tr = pre ++ e :: post ∧ e.Enters ∧ (∀ x ∈ post, ¬ x.Enters) ∧
    Since (· = .faultEnters) (fun x => x = .bound ∨ x.Adopts ∨ x.Enters) pre

/-! ## What a call can do -/

inductive Moves (s : State) : Event → State → Prop where
  | bound (entry : Nat) (h : s.depth = 0) :
      Moves s .bound { s with entry := entry, masked := true, pending := false, faulted := false }
  | requested (b : Bool) : Moves s (.requested b) { s with pending := true }
  | fault (esr far : Nat) (h : s.masked = false) :
      Moves s .faultEnters { s with esr := esr, far := far, pending := true, faulted := true }
  | enters (pc flags sp : Nat) (h : s.masked = false) :
      Moves s (.enters s.entry) { s with masked := true, pending := false, entering := true, pc := pc, flags := flags,
                                         sp := sp, depth := min (s.depth + 1) (2 ^ 32 - 1) }
  | takes (values : List Nat) (h : s.entering = true) :
      Moves s (.takes values) { s with entering := false, faulted := false }
  | adopted (depth deferred : Nat) (h : s.depth = 0) (he : s.entering = false) :
      Moves s (.adopted depth) { s with depth := depth, deferred := deferred, masked := true, faulted := false }
  | returns (h : s.depth ≠ 0) (he : s.entering = false) :
      Moves s .returns { s with depth := s.depth - 1, masked := false }
  /-- Nothing that a trace shows: the mask opens only outside an entry. -/
  | quiet (e : Event) (s' : State) (hq : ¬ e.Asks ∧ e ≠ .bound ∧ ¬ e.Enters ∧ ¬ e.Takes ∧ ¬ e.Adopts ∧ e.levels = 0)
      (he : s'.entering = s.entering) (hp : s'.pending = s.pending) (hf : s'.faulted = s.faulted)
      (hd : s'.depth = s.depth) (hm : s.entering = true → s.masked = true → s'.masked = true) : Moves s e s'

theorem quiet_refused (s : State) (e : Error) : Moves s (.refused e) s :=
  .quiet _ s (by simp) rfl rfl rfl rfl fun _ h => h

variable {s s' : State}

theorem quiet_replies (values : List Nat) (he : s'.entering = s.entering) (hp : s'.pending = s.pending)
    (hf : s'.faulted = s.faulted) (hd : s'.depth = s.depth)
    (hm : s.entering = true → s.masked = true → s'.masked = true) : Moves s (.replies values) s' :=
  .quiet _ s' (by simp) he hp hf hd hm

variable {operation : UpcallControl} {values : List Nat}

theorem controlBasic_moves {x1 : Nat}
    (h : s.controlBasic operation = .ok (values, s')) : Moves s (.ofControl operation x1 values) s' := by
  cases operation with
  | mask =>
    cases h
    exact quiet_replies _ rfl rfl rfl rfl fun _ _ => rfl
  | enable =>
    simp only [State.controlBasic] at h
    split_ifs at h with he
    cases h
    exact quiet_replies _ rfl rfl rfl rfl fun h' => by simp [he] at h'
  | take =>
    simp only [State.controlBasic, State.take] at h
    split_ifs at h with he
    cases h
    exact .takes _ (by simpa using he)
  | defer | resume =>
    simp only [State.controlBasic] at h
    split_ifs at h
    cases h
    exact quiet_replies _ rfl rfl rfl rfl fun _ hm => hm
  | faults | stack | adopt | query => cases h

theorem controlMore_moves {x1 x2 : Nat}
    (h : s.controlMore operation x1 x2 = .ok (values, s')) : Moves s (.ofControl operation x1 values) s' := by
  cases operation with
  | faults =>
    simp only [controlMore] at h
    split_ifs at h
    cases h
    exact quiet_replies _ rfl rfl rfl rfl fun _ hm => hm
  | stack =>
    cases hs : s.setStack x1 x2 with
    | error e => simp [controlMore, hs, Except.map] at h
    | ok s₁ =>
      simp only [controlMore, hs] at h
      obtain ⟨-, rfl⟩ := h
      unfold setStack at hs
      split_ifs at hs
      · cases hs
        exact quiet_replies _ rfl rfl rfl rfl fun _ hm => hm
      · cases hs
        exact quiet_replies _ rfl rfl rfl rfl fun _ hm => hm
  | adopt =>
    cases hs : s.adopt x1 x2 with
    | error e => simp [controlMore, hs, Except.map] at h
    | ok s₁ =>
      simp only [controlMore, hs] at h
      obtain ⟨-, rfl⟩ := h
      unfold adopt at hs
      split_ifs at hs with hbad
      cases hs
      push Not at hbad
      exact .adopted x1 x2 hbad.1 (by simpa using hbad.2.1)
  | query =>
    cases h
    exact quiet_replies _ rfl rfl rfl rfl fun _ hm => hm
  | mask | enable | take | defer | resume => cases h

/-- **Every call is one of the moves.** -/
theorem exec_moves (s : State) (op : Op) : Moves s (s.exec op).1 (s.exec op).2 := by
  cases op with
  | bind entry =>
    simp only [exec]
    cases h : s.bind entry with
    | error e => exact quiet_refused s e
    | ok s' =>
      simp only [State.bind] at h
      split_ifs at h with hd
      · cases h
      · cases hc : checkStart entry 0 1 with
        | error e =>
          rw [hc] at h
          cases h
        | ok u =>
          rw [hc] at h
          cases h
          exact .bound entry (by simpa using hd)
  | request =>
    simp only [exec, request]
    split_ifs
    · exact quiet_refused s _
    · exact .requested _
  | control operation x1 x2 =>
    simp only [exec]
    cases h : s.control operation x1 x2 with
    | error e => exact quiet_refused s e
    | ok r =>
      unfold State.control at h
      split at h
      · exact controlMore_moves h
      · exact controlMore_moves h
      · exact controlMore_moves h
      · exact controlMore_moves h
      · exact controlBasic_moves h
  | fault esr far longCall =>
    simp only [exec, fault]
    split_ifs with h
    · exact .quiet _ s (by simp) rfl rfl rfl rfl
        fun _ hm => hm
    · simp only [Bool.or_eq_true, not_or] at h
      exact .fault esr far (by simpa using h.1.1.2)
  | prepare pc flags sp longCall =>
    simp only [exec, prepare]
    split_ifs with h
    · exact .quiet _ s (by simp) rfl rfl rfl rfl
        fun _ hm => hm
    · simp only [Bool.or_eq_true, not_or] at h
      exact .enters pc flags sp (by simpa using h.1.1.1.2)
  | returned =>
    simp only [exec, returned]
    split_ifs with h
    · simp only [canReturn, Bool.and_eq_true, bne_iff_ne, Bool.not_eq_true'] at h
      exact .returns h.1.1.1 h.2
    · exact quiet_refused s _

/-! ## The invariant -/

/-- What the trace says of the state. -/
structure Inv (s : State) (tr : List Event) : Prop where
  entering : s.entering = true ↔ Since Event.Enters Event.Takes tr
  shut : s.entering = true → 0 < s.depth ∧ s.masked = true
  pending : s.pending = true ↔ Since Event.Asks (fun x => x = .bound ∨ x.Enters) tr
  /-- Outside an entry the mark waits for the next one. -/
  marked : s.entering = false →
    (s.faulted = true ↔ Since (· = .faultEnters) (fun x => x = .bound ∨ x.Adopts ∨ x.Enters) tr)
  /-- Inside one it is that of the entry, and no fault came since. -/
  entered : s.entering = true → (s.faulted = true ↔ FaultEntry tr) ∧
    ¬ Since (· = .faultEnters) (fun x => x = .bound ∨ x.Adopts ∨ x.Enters) tr
  depth : (s.depth : Int) ≤ (tr.map Event.levels).sum

variable {tr : List Event}

theorem Inv.outside (h : Inv s tr) (hopen : s.masked = false) : s.entering = false := by
  cases he : s.entering with
  | false => rfl
  | true => simp [(h.shut he).2] at hopen

variable {e : Event}

/-- The last entry is the one just prepared, or the one before. -/
theorem faultEntry_append : FaultEntry (tr ++ [e]) ↔
    e.Enters ∧ Since (· = .faultEnters) (fun x => x = .bound ∨ x.Adopts ∨ x.Enters) tr ∨
      ¬ e.Enters ∧ FaultEntry tr := by
  have hlast : ∀ tr, FaultEntry tr ↔ ∃ pre f post, tr = pre ++ f :: post ∧ (f.Enters ∧
      Since (· = .faultEnters) (fun x => x = .bound ∨ x.Adopts ∨ x.Enters) pre) ∧ ∀ x ∈ post, ¬ x.Enters :=
    fun tr => by simp only [FaultEntry, and_assoc, and_comm]
  rw [hlast, last_append, ← hlast]

theorem inv_new : Inv new [] where
  entering := by simp [new, not_since_nil]
  shut := by simp [new]
  pending := by simp [new, not_since_nil]
  marked := by simp [new, not_since_nil]
  entered := by simp [new]
  depth := by simp [new]

theorem inv_moves (h : Inv s tr) (hm : Moves s e s') :
    Inv s' (tr ++ [e]) := by
  have hd := h.depth
  cases hm with
  | bound entry h0 =>
    have hout : s.entering = false := by
      cases he : s.entering with
      | false => rfl
      | true =>
        have := (h.shut he).1
        omega
    refine ⟨?_, ?_, ?_, fun _ => ?_, ?_, ?_⟩
    · simp [← h.entering]
    · simp [hout]
    · simp
    · simp
    · simp [hout]
    · simpa using hd
  | requested b =>
    refine ⟨?_, h.shut, ?_, fun he => ?_, fun he => ?_, ?_⟩
    · simp [← h.entering]
    · simp
    · rw [since_append, ← h.marked he]
      simp
    · simpa [faultEntry_append] using h.entered he
    · simpa using hd
  | fault esr far hopen =>
    have hout := h.outside hopen
    refine ⟨?_, h.shut, ?_, fun _ => ?_, ?_, ?_⟩
    · simp [← h.entering]
    · simp
    · simp
    · simp [hout]
    · simpa using hd
  | enters pc flags sp hopen =>
    have hout := h.outside hopen
    refine ⟨?_, fun _ => ⟨?_, rfl⟩, ?_, ?_, fun _ => ⟨?_, ?_⟩, ?_⟩
    · simp
    · simp
    · simp
    · simp
    · simpa [faultEntry_append] using h.marked hout
    · simp
    · simp only [map_append, sum_append, map_cons, map_nil, sum_cons, sum_nil, Event.levels]
      omega
  | takes values hin =>
    refine ⟨?_, ?_, ?_, fun _ => ?_, ?_, ?_⟩
    · simp
    · simp
    · rw [since_append, ← h.pending]
      simp
    · simpa using (h.entered hin).2
    · simp
    · simpa using hd
  | adopted depth deferred h0 hout =>
    refine ⟨?_, ?_, ?_, fun _ => ?_, ?_, ?_⟩
    · simp [← h.entering]
    · simp [hout]
    · rw [since_append, ← h.pending]
      simp
    · simp
    · simp [hout]
    · simp only [map_append, sum_append, map_cons, map_nil, sum_cons, sum_nil, Event.levels]
      omega
  | returns h0 hout =>
    refine ⟨?_, ?_, ?_, fun he => ?_, ?_, ?_⟩
    · simp [← h.entering]
    · simp [hout]
    · rw [since_append, ← h.pending]
      simp
    · rw [since_append, ← h.marked he]
      simp
    · simp [hout]
    · simp only [map_append, sum_append, map_cons, map_nil, sum_cons, sum_nil, Event.levels]
      omega
  | quiet e s' hq he hp hf hdep hmask =>
    obtain ⟨hask, hbound, henters, htakes, hadopts, hlev⟩ := hq
    have hmark : Since (· = .faultEnters) (fun x => x = .bound ∨ x.Adopts ∨ x.Enters) (tr ++ [e]) ↔ Since _ _ tr :=
      since_append_of_not (fun h => hask (.inr h)) (not_or.2 ⟨hbound, not_or.2 ⟨hadopts, henters⟩⟩)
    refine ⟨?_, fun hin => ?_, ?_, fun hout => ?_, fun hin => ?_, ?_⟩
    · rw [he, since_append_of_not henters htakes]
      exact h.entering
    · rw [he] at hin
      rw [hdep]
      exact ⟨(h.shut hin).1, hmask hin (h.shut hin).2⟩
    · rw [hp, since_append_of_not hask (not_or.2 ⟨hbound, henters⟩)]
      exact h.pending
    · rw [he] at hout
      rw [hf, hmark]
      exact h.marked hout
    · rw [he] at hin
      rw [faultEntry_append, hmark, hf, and_iff_right henters, or_iff_right fun hc => henters hc.1]
      exact h.entered hin
    · rw [hdep, map_append, sum_append, map_singleton, sum_singleton, hlev, add_zero]
      exact hd

theorem inv_run (ops : List Op) : Inv (run ops).1 (run ops).2 := by
  induction ops using reverseRecOn with
  | nil => exact inv_new
  | append_singleton ops op ih =>
    rw [run, foldl_append]
    exact inv_moves ih (exec_moves _ op)

/-! ## User entries -/

/-- **User entries.** Take any sequence of calls. An entry waits to be taken exactly when one was prepared and not
taken since; then the entry is shut inside a level. It is pending exactly when a request or a fault came since the
last `bind` and the last entry prepared; a bound entry refuses no request. `prepare` enters only a bound, open entry
that nothing holds back and that is pending, and shuts it. `returned` succeeds exactly inside a taken and masked
entry with no deferral, while more levels were gone into than left; it leaves one level and opens the entry. `Take`
reports a fault exactly for the first entry prepared after a fault that entered, with no `bind` or `adopt` between
them. -/
theorem entries_of_run (ops : List Op) :
    let s := (run ops).1
    let tr := (run ops).2
    (s.entering = true ↔ Since Event.Enters Event.Takes tr) ∧
    (s.entering = true → 0 < s.depth ∧ s.masked = true) ∧
    (s.pending = true ↔ Since Event.Asks (fun x => x = .bound ∨ x.Enters) tr) ∧
    (s.entry ≠ 0 → ∃ b s', s.request = .ok (b, s') ∧ s'.pending = true) ∧
    (∀ pc flags sp longCall entry s', s.prepare pc flags sp longCall = some (entry, s') →
      (entry = s.entry ∧ s.entry ≠ 0 ∧ s.masked = false ∧ s.deferred = 0 ∧ s.pending = true ∧ s.entering = false) ∧
        s'.masked = true ∧ s'.pending = false ∧ s'.entering = true) ∧
    (∀ s', s.returned = .ok s' ↔
      (0 < s.depth ∧ s.entering = false ∧ s.masked = true ∧ s.deferred = 0) ∧
        s' = { s with depth := s.depth - 1, masked := false }) ∧
    (∀ s', s.returned = .ok s' → ¬ Since Event.Enters Event.Takes tr ∧ 0 < (tr.map Event.levels).sum) ∧
    ∀ values s', s.take = .ok (values, s') → ((values.headD 0).testBit 1 = true ↔ FaultEntry tr) := by
  intro s tr
  have h : Inv s tr := inv_run ops
  have hret : ∀ s', s.returned = .ok s' ↔ (0 < s.depth ∧ s.entering = false ∧ s.masked = true ∧ s.deferred = 0) ∧
      s' = { s with depth := s.depth - 1, masked := false } := by
    intro s'
    unfold returned
    by_cases hc : s.canReturn = true
    · rw [if_pos hc]
      simp only [canReturn, Bool.and_eq_true, bne_iff_ne, beq_iff_eq, Bool.not_eq_true'] at hc
      simp only [Except.ok.injEq]
      refine ⟨fun he => ⟨⟨by omega, hc.2, hc.1.2, hc.1.1.2⟩, he.symm⟩, fun he => he.2.symm⟩
    · rw [if_neg hc]
      simp only [canReturn, Bool.and_eq_true, bne_iff_ne, beq_iff_eq, Bool.not_eq_true'] at hc
      simp only [reduceCtorEq, false_iff, not_and]
      rintro ⟨h1, h2, h3, h4⟩
      exact absurd ⟨⟨⟨by omega, h4⟩, h3⟩, h2⟩ hc
  refine ⟨h.entering, h.shut, h.pending, fun hb => ⟨_, _, if_neg hb, rfl⟩, ?_, hret, ?_, ?_⟩
  · intro pc flags sp longCall entry s' hp
    unfold prepare at hp
    split_ifs at hp with hno
    cases hp
    simp only [Bool.or_eq_true, not_or, beq_iff_eq, bne_iff_ne, not_not, Bool.not_eq_true, Bool.not_eq_true',
      Bool.not_eq_false] at hno
    obtain ⟨⟨⟨⟨h1, h2⟩, h3⟩, h4⟩, -⟩ := hno
    exact ⟨⟨rfl, h1, h2, h3, h4, h.outside h2⟩, rfl, rfl, rfl⟩
  · intro s' hr
    obtain ⟨⟨h1, h2, -⟩, -⟩ := (hret s').1 hr
    refine ⟨?_, ?_⟩
    · rw [← h.entering]
      simp [h2]
    · have := h.depth
      omega
  · intro values s' ht
    unfold State.take at ht
    split_ifs at ht with hin
    cases ht
    have hin : s.entering = true := by simpa using hin
    rw [← (h.entered hin).1, (h.shut hin).2]
    rw [headD_cons]
    cases s.faulted with
    | false => decide
    | true => decide

end Upcall
