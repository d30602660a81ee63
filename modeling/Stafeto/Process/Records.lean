import Mathlib.Algebra.GroupWithZero.Nat
import Mathlib.Data.Fintype.Basic

/-!
# The records of the process service (services/process/src/records.rs)

A table of 256 records, one for each process and each zombie. A child is linked in the list of its parent's
children and, while there is something to wait for, in the list of the ready ones. A process group and a
session are numbers, the PID of the process that made them, and what the service keeps of them stands in the
place of that PID's index.

An `expect` or an assertion that fails is `none`. Of a record only what these functions read is modelled; the
queue of newly orphaned groups is the list of its indices.
-/

namespace Process

open Function

def RECORDS : Nat := 256
def CHILDREN_MAX : Nat := 32
def GENERATION_MAX : Nat := 2 ^ 23 - 1
def GRANTS_MAX : Nat := 4
def SPAWN_SETPGROUP : Nat := 0x02
def SPAWN_SETSID : Nat := 0x80

instance : NeZero RECORDS := ⟨by decide⟩

abbrev Index := Fin RECORDS

/-- `Label` (proto/process/src/lib.rs:279). -/
structure Label where
  index : Index
  generation : Nat
  deriving DecidableEq

/-- `Label::pid`. -/
def Label.pid (l : Label) : Nat := l.index + RECORDS * l.generation

/-- `Label::next_generation`. -/
def Label.nextGeneration (generation : Nat) : Option Nat :=
  if GENERATION_MAX ≤ generation then none else some (generation + 1)

inductive End where
  | exited (code : Nat)
  | signaled (n : Nat)
  deriving DecidableEq

/-- `State` (records.rs:42). -/
inductive State where
  | loading
  | alive
  | zombie (e : End)
  deriving DecidableEq

def State.isZombie : State → Bool
  | zombie _ => true
  | _ => false

/-- `Mark` (records.rs:55). -/
structure Mark where
  grant : Nat
  depth : Nat
  holds : Bool
  deriving DecidableEq

/-- `Record` (records.rs:84). -/
structure Record where
  label : Label
  state : State
  stopped : Option Nat
  stopReport : Option Nat
  contReport : Bool
  firstReady : Option Index
  readyPrevious : Option Index
  readyNext : Option Index
  ready : Bool
  mark : Option Mark
  pgid : Nat
  sid : Nat
  parentIndex : Option Index
  linked : Bool
  execed : Bool
  children : Nat
  firstChild : Option Index
  previous : Option Index
  next : Option Index

/-- `Numbers` (records.rs:204): what a place keeps of the group and the session its PID names. -/
structure Numbers where
  members : Nat
  stopped : Nat
  links : Nat
  sessions : Nat
  session : Nat

/-- `Numbers::unused`. -/
def Numbers.unused (n : Numbers) : Bool := n.members == 0 && n.sessions == 0

/-- `Join` (records.rs:226). -/
inductive Join where
  | inherit
  | newGroup
  | group (g : Nat)
  | newSession
  deriving DecidableEq

/-- The group and the session of a child with the PID `own`, in terms of its parent's (records.rs:538). -/
def Join.numbers (own pgid sid : Nat) : Join → Nat × Nat
  | .inherit => (pgid, sid)
  | .newGroup => (own, sid)
  | .group g => (g, sid)
  | .newSession => (own, own)

/-- `GroupError`: ESRCH, EPERM, EACCES. -/
inductive GroupError where
  | noProcess
  | permission
  | access
  deriving DecidableEq

/-- `Exit` (records.rs:63). -/
inductive Exit where
  | zombie (parent : Index)
  | reaped
  deriving DecidableEq

/-- The status that a wait reports. -/
inductive WaitResult where
  | ended
  | stopped
  | continued
  deriving DecidableEq

/-- `Records` (records.rs:185); the last freed index is the first of `free`. -/
structure Records where
  records : Index → Option Record
  generations : Index → Nat
  free : List Index
  listed : Index → Bool
  numbers : Index → Numbers
  orphaned : List Index
  held : Nat → Nat

namespace Records

/-- `Records::new`. -/
def new : Records where
  records := fun _ => none
  generations := fun _ => 0
  free := List.finRange RECORDS
  listed := fun _ => true
  numbers := fun _ => ⟨0, 0, 0, 0, 0⟩
  orphaned := []
  held := fun _ => 0

def set (t : Records) (i : Index) (r : Record) : Records := { t with records := update t.records i (some r) }

/-- A change of a record that is expected to be there. -/
def modify (t : Records) (i : Index) (f : Record → Record) : Option Records := (t.records i).map fun r => t.set i (f r)

def setNumbers (t : Records) (i : Index) (f : Numbers → Numbers) : Records :=
  { t with numbers := update t.numbers i (f (t.numbers i)) }

/-- `next_label` (records.rs:479). -/
def nextLabel (t : Records) : Option Label := do
  let index ← t.free.head?
  let generation ← Label.nextGeneration (t.generations index)
  some ⟨index, generation⟩

/-- `place_of` (records.rs:643). -/
def placeOf (t : Records) (number : Nat) : Option Index :=
  let index := Fin.ofNat RECORDS number
  if number / RECORDS ≠ 0 ∧ t.generations index = number / RECORDS then some index else none

/-! ## Places of grants -/

/-- `places_held` (records.rs:428). -/
def placesHeld (t : Records) (grant : Nat) : Nat := if grant < GRANTS_MAX then t.held grant else 0

/-- `give_up_place` (records.rs:445). -/
def giveUpPlace (t : Records) (mark : Option Mark) : Records :=
  match mark with
  | some m =>
    if m.holds && decide (m.grant < GRANTS_MAX) then
      { t with held := update t.held m.grant (t.held m.grant - 1) }
    else t
  | none => t

/-- The place that a mark takes; the count is a byte and saturates. -/
def takePlace (t : Records) (mark : Option Mark) : Records :=
  match mark with
  | some m =>
    if m.holds && decide (m.grant < GRANTS_MAX) then
      { t with held := update t.held m.grant (min (t.held m.grant + 1) 255) }
    else t
  | none => t

/-- `set_mark` (records.rs:455). -/
def setMark (t : Records) (index : Index) (mark : Option Mark) : Records :=
  match t.records index with
  | none => t
  | some r =>
    let t := t.set index { r with mark := mark }
    if r.state.isZombie then t else (t.giveUpPlace r.mark).takePlace mark

/-! ## Groups and sessions -/

/-- `separates` (records.rs:635). -/
def separates (t : Records) (parent : Index) (pgid sid : Nat) : Bool :=
  (t.records parent).any fun p => p.pgid != pgid && p.sid == sid

/-- `mark_orphan` (records.rs:1059). -/
def markOrphan (t : Records) (group : Index) (removedLink : Bool) : Records :=
  let g := t.numbers group
  if removedLink ∧ g.links = 0 ∧ g.stopped ≠ 0 ∧ g.members ≠ 0 ∧ group ∉ t.orphaned then
    { t with orphaned := t.orphaned ++ [group] }
  else t

/-- `enter` (records.rs:650). -/
def enter (t : Records) (pgid sid : Nat) (linked : Bool) : Option Records := do
  let group ← t.placeOf pgid
  let session ← t.placeOf sid
  let t := t.setNumbers group fun g =>
    { g with session := if g.members = 0 then sid else g.session, members := g.members + 1, links := g.links + linked.toNat }
  some (t.setNumbers session fun g => { g with sessions := g.sessions + 1 })

/-- `settle` (records.rs:678). -/
def settle (t : Records) (index : Index) : Records :=
  if (t.records index).isNone && (t.numbers index).unused && !t.listed index then
    let t := { t with orphaned := t.orphaned.erase index }
    if (Label.nextGeneration (t.generations index)).isNone then t
    else { t with listed := update t.listed index true, free := index :: t.free }
  else t

/-- `leave` (records.rs:664). -/
def leave (t : Records) (pgid sid : Nat) (linked : Bool) : Option Records := do
  let group ← t.placeOf pgid
  let session ← t.placeOf sid
  let t := t.setNumbers group fun g => { g with members := g.members - 1, links := g.links - linked.toNat }
  let t := t.markOrphan group linked
  let t := t.setNumbers session fun g => { g with sessions := g.sessions - 1 }
  some ((t.settle group).settle session)

/-- `unlink` (records.rs:1025). -/
def unlink (t : Records) (pgid : Nat) (linked : Bool) : Option Records :=
  if linked then do
    let place ← t.placeOf pgid
    let t := t.setNumbers place fun g => { g with links := g.links - 1 }
    some (t.markOrphan place true)
  else some t

/-- `set_stopped` (records.rs:1079). -/
def setStopped (t : Records) (index : Index) (signal : Option Nat) : Option Records := do
  let r ← t.records index
  if r.stopped.isSome = signal.isSome then some t
  else
    let t := t.set index { r with stopped := signal }
    let place ← t.placeOf r.pgid
    some (t.setNumbers place fun g => { g with stopped := if signal.isSome then g.stopped + 1 else g.stopped - 1 })

/-! ## The list of ready children -/

/-- `ready_add` (records.rs:1098). -/
def readyAdd (t : Records) (index : Index) : Option Records := do
  let r ← t.records index
  if r.ready || r.state == .loading then some t
  else
    match r.parentIndex with
    | none => some t
    | some parent => do
      let p ← t.records parent
      let first := p.firstReady
      let t := t.set parent { p with firstReady := some index }
      let t ← match first with
        | some f => t.modify f fun s => { s with readyPrevious := some index }
        | none => some t
      t.modify index fun r => { r with ready := true, readyPrevious := none, readyNext := first }

/-- `ready_remove` (records.rs:1121). -/
def readyRemove (t : Records) (index : Index) : Option Records :=
  match t.records index with
  | none => some t
  | some r =>
    if r.ready then do
      let t := t.set index { r with ready := false, readyPrevious := none, readyNext := none }
      let t ← match r.readyPrevious, r.parentIndex with
        | some previous, _ => t.modify previous fun s => { s with readyNext := r.readyNext }
        | none, some parent => t.modify parent fun p => { p with firstReady := r.readyNext }
        | none, none => some t
      match r.readyNext with
      | some next => t.modify next fun s => { s with readyPrevious := r.readyPrevious }
      | none => some t
    else some t

/-- `report` (records.rs:1150). -/
def report (t : Records) (index : Index) (signal : Option Nat) : Option Records := do
  let t ← t.modify index fun r => { r with stopReport := signal, contReport := signal.isNone }
  t.readyAdd index

/-- `consume_report` (records.rs:1194). -/
def consumeReport (t : Records) (child : Index) (result : WaitResult) : Option Records := do
  let r ← t.records child
  match result with
  | .ended => some t
  | .stopped =>
    let t := t.set child { r with stopReport := none }
    if r.contReport then some t else t.readyRemove child
  | .continued =>
    let t := t.set child { r with contReport := false }
    if r.stopReport.isNone then t.readyRemove child else some t

/-! ## Births -/

/-- `may_spawn` (records.rs:498). -/
def maySpawn (t : Records) (index : Index) : Bool := (t.records index).any fun r => decide (r.children < CHILDREN_MAX)

/-- `joining` (records.rs:696). -/
def joining (t : Records) (parent : Index) (flags pgroup own : Nat) : Option Join := do
  let r ← t.records parent
  if flags &&& SPAWN_SETSID ≠ 0 then
    if flags &&& SPAWN_SETPGROUP = 0 then some .newSession else none
  else if flags &&& SPAWN_SETPGROUP = 0 then some .inherit
  else if pgroup = 0 ∨ pgroup = own then some .newGroup
  else do
    let place ← t.placeOf pgroup
    let group := t.numbers place
    if 0 < group.members ∧ group.session = r.sid then some (.group pgroup) else none

/-- The record that `insert` makes. -/
def born (label : Label) (parent : Option Index) (pgid sid : Nat) (linked : Bool) (next : Option Index) : Record where
  label := label
  state := .loading
  stopped := none
  stopReport := none
  contReport := false
  firstReady := none
  readyPrevious := none
  readyNext := none
  ready := false
  mark := none
  pgid := pgid
  sid := sid
  parentIndex := parent
  linked := linked
  execed := false
  children := 0
  firstChild := none
  previous := none
  next := next

/-- The index leaves the free ones for a record of `label`. -/
def take (t : Records) (label : Label) : Records :=
  { t with
    free := t.free.tail
    listed := update t.listed label.index false
    generations := update t.generations label.index label.generation }

/-- `insert` (records.rs:512). -/
def insert (t : Records) (label : Label) (parent : Option Index) (join : Join) : Option Records :=
  if t.nextLabel ≠ some label then none
  else
    let own := label.pid
    match parent with
    | some p =>
      if t.maySpawn p then do
        let r ← t.records p
        let first := r.firstChild
        let (pgid, sid) := join.numbers own r.pgid r.sid
        let t := t.set p { r with children := r.children + 1, firstChild := some label.index }
        let t ← match first with
          | some f => t.modify f fun s => { s with previous := some label.index }
          | none => some t
        let t := t.take label
        let linked := t.separates p pgid sid
        let t := t.set label.index (born label (some p) pgid sid linked first)
        t.enter pgid sid linked
      else none
    | none =>
      let t := t.take label
      let t := t.set label.index (born label none own own false none)
      t.enter own own false

/-- `retire_next` (records.rs:489). -/
def retireNext (t : Records) (label : Label) : Option Records :=
  if t.nextLabel ≠ some label then none
  else some { t with
    free := t.free.tail
    listed := update t.listed label.index false
    generations := update t.generations label.index GENERATION_MAX }

/-! ## Moves between groups -/

/-- `find_pid` (records.rs:913). -/
def findPid (t : Records) (pid : Nat) : Option Index :=
  let index := Fin.ofNat RECORDS pid
  if (t.records index).any fun r => decide (r.label = ⟨index, pid / RECORDS⟩) then some index else none

/-- `target` (records.rs:742). -/
def target (t : Records) (caller : Index) (pid : Nat) : Option Index :=
  if pid = 0 then some caller
  else (t.findPid pid).filter fun i => (t.records i).any fun r => r.state != .loading

/-- `members` (records.rs:713). -/
def members (t : Records) (pgid : Nat) : Nat := ((t.placeOf pgid).map fun p => (t.numbers p).members).getD 0

/-- `orphaned` (records.rs:721). -/
def isOrphaned (t : Records) (pgid : Nat) : Option Bool := do
  let p ← t.placeOf pgid
  if 0 < (t.numbers p).members then some ((t.numbers p).links == 0) else none

/-- `session_of` (records.rs:734). -/
def sessionOf (t : Records) (pgid : Nat) : Option Nat := do
  let p ← t.placeOf pgid
  if 0 < (t.numbers p).members then some (t.numbers p).session else none

/-- The link of the child `r` in `c` after a move of its parent (records.rs:853). -/
def relinkChild (t : Records) (index c : Index) (r : Record) : Option Records :=
  let now := t.separates index r.pgid r.sid && !r.state.isZombie
  if now ≠ r.linked then do
    let place ← t.placeOf r.pgid
    let t := t.setNumbers place fun g => { g with links := if now then g.links + 1 else g.links - 1 }
    let t := t.set c { r with linked := now }
    some (t.markOrphan place (r.linked && !now))
  else some t

/-- The loop of `regroup` over the children of `index` (records.rs:851). -/
def relink (index : Index) : Nat → Option Index → Records → Option Records
  | _, none, t => some t
  | 0, some _, _ => none
  | fuel + 1, some c, t => do
    let r ← t.records c
    let t ← t.relinkChild index c r
    relink index fuel r.next t

/-- A suspended record counts for its new group instead of the old one (records.rs:840). -/
def moveStopped (t : Records) (record : Record) (pgid : Nat) : Option Records :=
  if record.stopped.isSome then do
    let old ← t.placeOf record.pgid
    let new ← t.placeOf pgid
    let t := t.setNumbers old fun g => { g with stopped := g.stopped - 1 }
    some (t.setNumbers new fun g => { g with stopped := g.stopped + 1 })
  else some t

/-- `regroup` (records.rs:834). -/
def regroup (t : Records) (index : Index) (pgid sid : Nat) : Option Records := do
  let record ← t.records index
  let linked := record.parentIndex.any fun p => t.separates p pgid sid
  let t ← t.enter pgid sid linked
  let t ← t.moveStopped record pgid
  let t := t.set index { record with pgid := pgid, sid := sid, linked := linked }
  let t ← t.leave record.pgid record.sid record.linked
  relink index RECORDS record.firstChild t

/-- The record that `set_pgid` moves (records.rs:778). -/
def groupTarget (t : Records) (caller : Index) (me : Record) (pid : Nat) : Except GroupError Index :=
  if pid ≠ 0 ∧ pid ≠ me.label.pid then
    match t.target caller pid with
    | none => .error .noProcess
    | some child =>
      match t.records child with
      | none => .error .noProcess
      | some r =>
        if r.parentIndex ≠ some caller then .error .noProcess
        else if r.execed then .error .access
        else if r.sid ≠ me.sid then .error .permission
        else .ok child
  else .ok caller

/-- `set_pgid` (records.rs:775). -/
def setPgid (t : Records) (caller : Index) (pid pgid : Nat) : Option (Except GroupError Records) := do
  let me ← t.records caller
  match t.groupTarget caller me pid with
  | .error e => some (.error e)
  | .ok target =>
    let record ← t.records target
    let own := record.label.pid
    if record.sid = own then some (.error .permission)
    else
      let pgid := if pgid = 0 then own else pgid
      if pgid ≠ own ∧ t.sessionOf pgid ≠ some me.sid then some (.error .permission)
      else if record.pgid ≠ pgid then (t.regroup target pgid me.sid).map .ok
      else some (.ok t)

/-- `set_sid` (records.rs:816). -/
def setSid (t : Records) (caller : Index) : Option (Except GroupError Records) := do
  let me ← t.records caller
  let own := me.label.pid
  if 0 < t.members own then some (.error .permission) else (t.regroup caller own own).map .ok

/-! ## Ends -/

/-- `free_index` (records.rs:1035). -/
def freeIndex (t : Records) (index : Index) : Option Records := do
  let t ← t.readyRemove index
  let t ← if (t.records index).any fun r => r.stopped.isSome then t.setStopped index none else some t
  match t.records index with
  | none => some t
  | some record => do
    let t := { t with records := update t.records index none }
    let t ← t.leave record.pgid record.sid record.linked
    some (t.settle index)

/-- `reap` (records.rs:992). -/
def reap (t : Records) (index : Index) : Option Records :=
  match t.records index with
  | none => some t
  | some record =>
    if record.state.isZombie then do
      let t ← t.readyRemove index
      let t ← match record.previous, record.parentIndex with
        | some p, _ => t.modify p fun s => { s with next := record.next }
        | none, some parent => some ((t.modify parent fun r => { r with firstChild := record.next }).getD t)
        | none, none => some t
      let t ← match record.next with
        | some n => t.modify n fun s => { s with previous := record.previous }
        | none => some t
      let t := match record.parentIndex with
        | some parent => (t.modify parent fun r => { r with children := r.children - 1 }).getD t
        | none => t
      t.freeIndex index
    else some t

/-- A child of an ended record has no parent any more, and a zombie goes (records.rs:943). Its record is the one
from before. -/
def disownChild (t : Records) (c : Index) : Option (Records × Record) := do
  let t ← t.readyRemove c
  let orphan ← t.records c
  let t := t.set c { orphan with parentIndex := none, previous := none, next := none, linked := false }
  let t ← t.unlink orphan.pgid orphan.linked
  if orphan.state.isZombie then do
    let t ← t.freeIndex c
    some (t, orphan)
  else some (t, orphan)

/-- The loop of `exited` over the children (records.rs:938): the ones that live on, in their order. -/
def disown : Nat → Option Index → Records → List Index → Option (Records × List Index)
  | _, none, t, orphans => some (t, orphans)
  | 0, some _, _, _ => none
  | fuel + 1, some c, t, orphans => do
    let (t, orphan) ← t.disownChild c
    if orphan.state.isZombie then disown fuel orphan.next t orphans
    else if orphans.length < CHILDREN_MAX then disown fuel orphan.next t (orphans ++ [c])
    else none

/-- The first part of `exited` (records.rs:932): the record is not suspended and has no children any more. -/
def partWithChildren (t : Records) (index : Index) : Option (Records × List Index) := do
  let t ← t.readyRemove index
  let t ← t.setStopped index none
  let r ← t.records index
  let t := t.set index { r with firstChild := none }
  let (t, orphans) ← disown RECORDS r.firstChild t []
  let t ← t.modify index fun r => { r with children := 0 }
  some (t, orphans)

/-- The second part of `exited` (records.rs:958): the record is a zombie and there is its end to wait for. -/
def becomeZombie (t : Records) (index : Index) (e : End) (record : Record) : Option Records := do
  let t := if record.state.isZombie then t else t.giveUpPlace record.mark
  let t := t.set index { record with linked := false, state := .zombie e, stopReport := none, contReport := false }
  let t ← t.unlink record.pgid record.linked
  t.readyAdd index

/-- `exited` (records.rs:931). -/
def exited (t : Records) (index : Index) (e : End) : Option (Records × Exit × List Index) := do
  let (t, orphans) ← t.partWithChildren index
  let record ← t.records index
  let t ← t.becomeZombie index e record
  match record.parentIndex, record.state with
  | some parent, .alive | some parent, .zombie _ => some (t, .zombie parent, orphans)
  | _, _ => do
    let t ← t.reap index
    some (t, .reaped, orphans)

/-- `take_orphan` (records.rs:1071). -/
def takeOrphan (t : Records) : Option Nat × Records :=
  match t.orphaned with
  | [] => (none, t)
  | group :: rest =>
    let g := t.numbers group
    (if g.members ≠ 0 ∧ g.links = 0 ∧ g.stopped ≠ 0 then some (t.generations group * RECORDS + group) else none,
      { t with orphaned := rest })

end Records

end Process
