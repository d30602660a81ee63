import Mathlib.Algebra.BigOperators.Ring.Finset
import Stafeto.Handles
import Stafeto.Lib.Ledger
import Stafeto.Lib.Mask

/-!
# Memory quotas and shares over the tree of processes
(kcore/src/quota.rs, kcore/src/slab.rs, kernel/src/process/mod.rs, kernel/src/process/teardown.rs)

A process has a quota of bytes, which came off its parent's, and shares of thread numbers and timer places,
which came off those of its parent's payer; a process without a share of its own spends from that payer.
What is not charged goes back at the stage Quota, and the rest with the shell.

A process is a number here, one never given twice, so that a parent is always below its children. Of a
process the model has its three accounts, its place in the tree and what it holds: the pages of its page
log, single frames (tables and message buffers), bytes charged in advance (memory objects and prepaid tables)
with the frames already taken from them, thread numbers and timer places. Of the frame allocator it has the
number of free frames. An assertion or an `expect` that fails is `none`.

Every account is an account of a `Ledger`. A call charges first and says only later what it is for, and it
returns a part before the parent gets it; in between the bytes belong to the call, and the invariant carries
them (`Inv`, its argument `x`).
-/

namespace Quota

open Abi Ledger Mask Function Finset Option

def PAGE_SIZE : Nat := 4096

/-! ## Accounts (quota.rs) -/

/-- `Account` (quota.rs:15). -/
structure Account where
  limit : Nat
  used : Nat
  returned : Nat
  closed : Bool
  deriving DecidableEq, Repr

namespace Account

/-- `new` (quota.rs:25). -/
def new (limit : Nat) : Account := ⟨limit, 0, 0, false⟩

/-- `charge` (quota.rs:51). -/
def charge (a : Account) (bytes : Nat) : Except Error Account :=
  if a.used + bytes < 2 ^ 64 ∧ a.closed = false ∧ a.used + bytes ≤ a.limit - a.returned then
    .ok { a with used := a.used + bytes }
  else .error .noMemory

/-- `refund` (quota.rs:62). -/
def refund (a : Account) (bytes : Nat) : Option Account :=
  if bytes ≤ a.used then some { a with used := a.used - bytes } else none

/-- `return_free` (quota.rs:73). -/
def returnFree (a : Account) : Option (Nat × Account) :=
  if a.closed then some (0, a)
  else if a.returned + a.used ≤ a.limit then
    let free := a.limit - a.returned - a.used
    some (free, { a with returned := a.returned + free, closed := true })
  else none

/-- `return_rest` (quota.rs:85). -/
def returnRest (a : Account) : Option (Nat × Account) :=
  if a.used = 0 ∧ a.returned ≤ a.limit then
    some (a.limit - a.returned, { a with returned := a.limit, closed := true })
  else none

/-- What the parent has not got back. -/
def owed (a : Account) : Nat := a.limit - a.returned

end Account

/-- `Share` (quota.rs:105): an account that counts in 16 bits. Its refunds and returns are those of `Account`. -/
abbrev Share := Account

namespace Share

def MAX : Nat := 2 ^ 16 - 1

/-- `new` (quota.rs:117). -/
def new (limit : Nat) : Option Share := if limit ≤ MAX then some (Account.new limit) else none

/-- `charge` (quota.rs:144). -/
def charge (a : Share) (n : Nat) : Except Error Share :=
  let used := a.used + min n (MAX + 1)
  if a.closed = false ∧ used ≤ a.limit - a.returned then .ok { a with used := used % 2 ^ 16 } else .error .limitReached

end Share

/-- What an account of a process counts. -/
inductive Kind where
  | quota
  | threads
  | timers
  deriving DecidableEq, Repr

def Kind.charge : Kind → Account → Nat → Except Error Account
  | .quota => Account.charge
  | .threads | .timers => Share.charge

/-! ## Page logs (slab.rs) -/

def INLINE_PAGES : Nat := 8
def LIST_ENTRIES : Nat := 511

/-- `PageLog` (slab.rs:179), by its counts. -/
structure PageLog where
  pages : Nat
  listPages : Nat
  deriving DecidableEq, Repr

namespace PageLog

/-- `needs_list_page` (slab.rs:211). -/
def needsListPage (l : PageLog) : Bool :=
  INLINE_PAGES ≤ l.pages ∧ l.pages - INLINE_PAGES = l.listPages * LIST_ENTRIES

/-- `in_list` (slab.rs:216). -/
def inList (l : PageLog) : Nat := l.pages - INLINE_PAGES - (l.listPages - 1) * LIST_ENTRIES

/-- `pop` (slab.rs:249). -/
def pop (l : PageLog) : Option PageLog :=
  if 0 < l.listPages then
    if l.inList = 0 then some { l with listPages := l.listPages - 1 } else some { l with pages := l.pages - 1 }
  else if l.pages = 0 then none
  else some { l with pages := l.pages - 1 }

def total (l : PageLog) : Nat := l.pages + l.listPages

end PageLog

/-! ## Processes -/

/-- How far the teardown came: not begun, begun, past the stage Quota (teardown.rs:72). -/
inductive Stage where
  | whole
  | teardown
  | quota
  deriving DecidableEq, Repr

/-- `Process` (mod.rs:108). `acct` is `quota`, `thread_share` and `timer_share`; `listed` is whether
`child_siblings` is set. The last six say what it holds. -/
structure Process where
  acct : Kind → Account
  sharePayer : Option Nat
  cpus : Nat
  parent : Option Nat
  listed : Bool
  stage : Stage
  log : PageLog
  tables : Nat
  reserved : Nat
  backed : Nat
  threads : Nat
  timers : Nat

namespace Process

/-- The bytes of its quota that it holds itself. -/
def held (q : Process) : Nat := PAGE_SIZE * (q.log.total + q.tables) + q.reserved

/-- The frames that it holds. -/
def frames (q : Process) : Nat := q.log.total + q.tables + q.backed

end Process

/-- The tree of processes, the number that the next one gets, and the count of free frames. -/
structure Sys where
  live : Finset Nat
  next : Nat
  proc : Nat → Process
  frames : Nat

/-- `Grant` (mod.rs:347). -/
structure Grant where
  threads : Nat
  timers : Nat
  payer : Option Nat
  cpus : Nat

namespace Sys

def modify (s : Sys) (p : Nat) (f : Process → Process) : Sys :=
  { s with proc := update s.proc p (f (s.proc p)) }

def setAcct (s : Sys) (k : Kind) (p : Nat) (a : Account) : Sys :=
  s.modify p fun q => { q with acct := update q.acct k a }

/-- `charge` on an account of a process (mod.rs:609, 610, 707). -/
def chargeIn (s : Sys) (k : Kind) (p n : Nat) : Except Error Sys :=
  match k.charge ((s.proc p).acct k) n with
  | .ok a => .ok (s.setAcct k p a)
  | .error e => .error e

/-- `refund` on an account of a process (mod.rs:618, 619, 715). -/
def refundIn (s : Sys) (k : Kind) (p n : Nat) : Option Sys :=
  (((s.proc p).acct k).refund n).map (s.setAcct k p)

/-- `payer_of` (mod.rs:641). -/
def payerOf (s : Sys) (p : Nat) : Nat := (s.proc p).sharePayer.getD p

/-- A frame off the allocator, which must have one (slab.rs:328, aspace.rs:147). -/
def takeFrame (s : Sys) : Option Sys := if s.frames = 0 then none else some { s with frames := s.frames - 1 }

def giveFrame (s : Sys) : Sys := { s with frames := s.frames + 1 }

/-- `PaidPages::take` (slab.rs:325); the inner `none` when the quota falls short. -/
def take (s : Sys) (p : Nat) : Option (Option Sys) :=
  match s.chargeIn .quota p PAGE_SIZE with
  | .ok s => s.takeFrame.map some
  | .error _ => some none

/-- The second half of `PaidPages::alloc_page` (slab.rs:341): a page, written down. -/
def recordPage (s : Sys) (p : Nat) : Option (Bool × Sys) :=
  match s.take p with
  | none => none
  | some none => some (false, s)
  | some (some s) => some (true, s.modify p fun q => { q with log := { q.log with pages := q.log.pages + 1 } })

/-- `PaidPages::alloc_page` (slab.rs:335). A list page stays when the page after it does not fit. -/
def allocPage (s : Sys) (p : Nat) : Option (Bool × Sys) :=
  if (s.proc p).log.needsListPage then
    match s.take p with
    | none => none
    | some none => some (false, s)
    | some (some s) =>
      (s.modify p fun q => { q with log := { q.log with listPages := q.log.listPages + 1 } }).recordPage p
  else s.recordPage p

/-- `paid_slot` (mod.rs:461), or the place in ROOTS; `grow` when the pool has no free slot. -/
def paidSlot (s : Sys) (payer : Option Nat) (grow : Bool) : Option (Bool × Sys) :=
  match payer with
  | some p => if grow then s.allocPage p else some (true, s)
  | none => some (true, s)

/-- `create` (mod.rs:381). -/
def create (s : Sys) (quota handleLimit ceiling : Nat) (payer : Option Nat) (g : Grant) (grow : Bool) :
    Option (Except Error Nat × Sys) :=
  if ¬(1 ≤ ceiling ∧ ceiling < PRIORITY_LEVELS) then some (.error .invalidArgs, s)
  else if ¬(1 ≤ handleLimit ∧ handleLimit ≤ Handles.MAX_HANDLES) then some (.error .invalidArgs, s)
  else
    -- the root table of its address space
    match (Account.new quota).charge PAGE_SIZE with
    | .error _ => some (.error .noMemory, s)
    | .ok a =>
      s.takeFrame.bind fun s =>
      (Share.new g.threads).bind fun threads =>
      (Share.new g.timers).bind fun timers =>
      (s.paidSlot payer grow).bind fun r =>
      if r.1 then
        let acct : Kind → Account
          | .quota => a
          | .threads => threads
          | .timers => timers
        let process : Process := ⟨acct, g.payer, g.cpus, none, false, .whole, ⟨0, 0⟩, 1, 0, 0, 0, 0⟩
        some (.ok r.2.next, ⟨insert r.2.next r.2.live, r.2.next + 1, update r.2.proc r.2.next process,
          r.2.frames⟩)
      else
        -- `destroy_space`
        (a.refund PAGE_SIZE).map fun _ => (.error .noMemory, r.2.giveFrame)

/-- The shares that `create_child_with` took go back (mod.rs:615), and those of `give_back_shares`
(teardown.rs:717). -/
def giveBack (s : Sys) (payer threads timers : Nat) : Option Sys :=
  (s.refundIn .threads payer threads).bind fun s => s.refundIn .timers payer timers

/-- `adopt` (mod.rs:872). -/
def adopt (s : Sys) (parent child : Nat) : Option Sys :=
  if (s.proc parent).stage = .whole ∧ (s.proc child).parent = none then
    some (s.modify child fun q => { q with parent := some parent, listed := true })
  else none

/-- `create_child_with` (mod.rs:589). -/
def createChildWith (s : Sys) (parent quota handleLimit ceiling threads timers cpus : Nat) (grow : Bool) :
    Option (Except Error Nat × Sys) :=
  let cpus := if cpus = 0 then (s.proc parent).cpus else cpus
  if without cpus (s.proc parent).cpus ≠ 0 then none
  else
    let payer := s.payerOf parent
    match s.chargeIn .threads payer threads with
    | .error e => some (.error e, s)
    | .ok s =>
      match s.chargeIn .timers payer timers with
      | .error e => (s.refundIn .threads payer threads).map fun s => (.error e, s)
      | .ok s =>
        match s.chargeIn .quota parent quota with
        | .error e => (s.giveBack payer threads timers).map fun s => (.error e, s)
        | .ok s =>
          let grant : Grant := ⟨threads, timers, if threads = 0 then some payer else none, cpus⟩
          match s.create quota handleLimit ceiling (some parent) grant grow with
          | none => none
          | some (.error e, s) =>
            (s.refundIn .quota parent quota).bind fun s =>
            (s.giveBack payer threads timers).map fun s => (.error e, s)
          | some (.ok child, s) => (s.adopt parent child).map fun s => (.ok child, s)

/-- An account gives a part back: `return_free` or `return_rest`. -/
def returnIn (s : Sys) (part : Account → Option (Nat × Account)) (k : Kind) (p : Nat) : Option (Nat × Sys) :=
  (part ((s.proc p).acct k)).map fun r => (r.1, s.setAcct k p r.2)

/-- A part of each account (teardown.rs:739, 848). -/
def returnAll (s : Sys) (part : Account → Option (Nat × Account)) (p : Nat) : Option ((Kind → Nat) × Sys) :=
  (s.returnIn part .quota p).bind fun r₁ =>
  (r₁.2.returnIn part .threads p).bind fun r₂ =>
  (r₂.2.returnIn part .timers p).map fun r₃ =>
  (fun | .quota => r₁.1 | .threads => r₂.1 | .timers => r₃.1, r₃.2)

/-- The parts go to the parent and to its payer (teardown.rs:747, 865). -/
def giveParent (s : Sys) (parent : Nat) (parts : Kind → Nat) : Option Sys :=
  (s.refundIn .quota parent (parts .quota)).bind fun s =>
  s.giveBack (s.payerOf parent) (parts .threads) (parts .timers)

/-- `leave_parent` (teardown.rs:733), with the parts that went back. -/
def leaveParent (s : Sys) (p : Nat) : Option ((Kind → Nat) × Sys) :=
  (s.returnAll Account.returnFree p).bind fun r =>
  let s := r.2.modify p fun q => { q with stage := .quota }
  match (s.proc p).parent with
  | none => some (r.1, s)
  | some parent =>
    (s.giveParent parent r.1).bind fun s =>
    if (s.proc p).listed then some (r.1, s.modify p fun q => { q with listed := false }) else none

/-- `free` (teardown.rs:834), with the parts that went back. -/
def free (s : Sys) (p : Nat) : Option ((Kind → Nat) × Sys) :=
  (s.returnAll Account.returnRest p).bind fun r =>
  let s : Sys := { r.2 with live := r.2.live.erase p }
  match (s.proc p).parent with
  | none => some (r.1, s)
  | some parent => (s.giveParent parent r.1).map fun s => (r.1, s)

end Sys

/-- `THREADS` (thread.rs:230). -/
def THREADS : Nat := 1024

/-- `create_init` (mod.rs:549), after the page for its shell: a quota of all the frames that are free. -/
def createInit (frames handleLimit ceiling cpus : Nat) : Option (Except Error Nat × Sys) :=
  let none : Process := ⟨fun _ => Account.new 0, .none, 0, .none, false, .whole, ⟨0, 0⟩, 0, 0, 0, 0, 0⟩
  Sys.create ⟨∅, 0, fun _ => none, frames⟩ (frames * PAGE_SIZE) handleLimit ceiling .none
    ⟨THREADS, MAX_SYSTEM_TIMERS, .none, cpus⟩ false

/-! ## Runs -/

/-- The calls of the kernel that touch an account. -/
inductive Op where
  /-- `grow`: the parent's pool of shells has no free slot. -/
  | createChild (parent quota handleLimit ceiling threads timers cpus : Nat) (grow : Bool)
  /-- A pool of the process grows, or it gets its table of mappings. -/
  | allocPage (p : Nat)
  /-- One page of `give_back_pages` (teardown.rs:814). -/
  | popPage (p : Nat)
  /-- A table of its address space or a message buffer (aspace.rs:144, phys.rs:192). -/
  | allocTable (p : Nat)
  | freeTable (p : Nat)
  /-- The bytes of a memory object or of the tables of a mapping (mod.rs:707). -/
  | reserve (p bytes : Nat)
  | unreserve (p bytes : Nat)
  /-- A table that was paid for (aspace.rs:220). -/
  | spend (p : Nat)
  /-- Frames of a memory object, single ones or a block that the allocator found (phys.rs:192). -/
  | fill (p n : Nat)
  | drain (p n : Nat)
  | chargeThread (p : Nat)
  | refundThread (p : Nat)
  | chargeTimer (p : Nat)
  | refundTimer (p : Nat)
  /-- `end` (mod.rs:917). -/
  | finish (p : Nat)
  | leaveParent (p : Nat)
  | free (p : Nat)
  deriving DecidableEq, Repr

/-- What each process was given, and the parts that went back. -/
structure Log where
  limit : Kind → Nat → Nat
  parts : Kind → Nat → List Nat

/-- A process gives a part back. -/
def Log.gives (g : Log) (p : Nat) (parts : Kind → Nat) : Log :=
  { g with parts := fun k => update (g.parts k) p (g.parts k p ++ [parts k]) }

/-- A child is made. -/
def Log.made (g : Log) (s : Sys) (p : Nat) : Log where
  limit := fun k => update (g.limit k) p ((s.proc p).acct k).limit
  parts := fun k => update (g.parts k) p []

/-- The record at the start: what each process was given, and nothing went back. -/
def Log.start (s : Sys) : Log := ⟨fun k p => ((s.proc p).acct k).limit, fun _ _ => []⟩

/-- What the kernel promises for a call: the process exists, and it gives back only what it has. The stage
Quota comes once, after that of every child; the shell goes when the shells of its children went and nothing
is left that it holds. -/
def Op.Meets (s : Sys) : Op → Prop
  | .createChild parent _ _ _ _ _ cpus _ =>
    parent ∈ s.live ∧ (s.proc parent).stage = .whole ∧
      without (if cpus = 0 then (s.proc parent).cpus else cpus) (s.proc parent).cpus = 0
  | .allocPage p | .popPage p | .allocTable p | .reserve p _ | .chargeThread p | .chargeTimer p => p ∈ s.live
  | .freeTable p => p ∈ s.live ∧ 0 < (s.proc p).tables
  | .unreserve p bytes => p ∈ s.live ∧ PAGE_SIZE * (s.proc p).backed + bytes ≤ (s.proc p).reserved
  | .spend p => p ∈ s.live ∧ PAGE_SIZE * ((s.proc p).backed + 1) ≤ (s.proc p).reserved
  | .fill p n => p ∈ s.live ∧ PAGE_SIZE * ((s.proc p).backed + n) ≤ (s.proc p).reserved ∧ (n ≠ 1 → n ≤ s.frames)
  | .drain p n => p ∈ s.live ∧ n ≤ (s.proc p).backed
  | .refundThread p => p ∈ s.live ∧ 0 < (s.proc p).threads
  | .refundTimer p => p ∈ s.live ∧ 0 < (s.proc p).timers
  | .finish p => p ∈ s.live ∧ (s.proc p).stage = .whole
  | .leaveParent p => p ∈ s.live ∧ (s.proc p).stage = .teardown ∧
      ∀ c ∈ s.live, (s.proc c).parent = some p → (s.proc c).stage = .quota
  | .free p => p ∈ s.live ∧ (s.proc p).stage = .quota ∧ (∀ c ∈ s.live, (s.proc c).parent ≠ some p) ∧
      (s.proc p).held = 0 ∧ (s.proc p).backed = 0 ∧ (s.proc p).threads = 0 ∧ (s.proc p).timers = 0

def exec (s : Sys) (g : Log) : Op → Option (Sys × Log)
  | .createChild parent quota handleLimit ceiling threads timers cpus grow =>
    (s.createChildWith parent quota handleLimit ceiling threads timers cpus grow).map fun
      | (.ok child, s) => (s, g.made s child)
      | (.error _, s) => (s, g)
  | .allocPage p => (s.allocPage p).map fun r => (r.2, g)
  | .popPage p =>
    match (s.proc p).log.pop with
    | none => some (s, g)
    | some log => ((s.modify p fun q => { q with log := log }).giveFrame.refundIn .quota p PAGE_SIZE).map (·, g)
  | .allocTable p =>
    match s.take p with
    | none => none
    | some none => some (s, g)
    | some (some s) => some (s.modify p fun q => { q with tables := q.tables + 1 }, g)
  | .freeTable p =>
    ((s.modify p fun q => { q with tables := q.tables - 1 }).giveFrame.refundIn .quota p PAGE_SIZE).map (·, g)
  | .reserve p bytes =>
    match s.chargeIn .quota p bytes with
    | .ok s => some (s.modify p fun q => { q with reserved := q.reserved + bytes }, g)
    | .error _ => some (s, g)
  | .unreserve p bytes =>
    ((s.modify p fun q => { q with reserved := q.reserved - bytes }).refundIn .quota p bytes).map (·, g)
  | .spend p => s.takeFrame.map fun s =>
    (s.modify p fun q => { q with reserved := q.reserved - PAGE_SIZE, tables := q.tables + 1 }, g)
  | .fill p n =>
    if s.frames < n then none
    else some ({ s.modify p fun q => { q with backed := q.backed + n } with frames := s.frames - n }, g)
  | .drain p n => some ({ s.modify p fun q => { q with backed := q.backed - n } with frames := s.frames + n }, g)
  | .chargeThread p =>
    match s.chargeIn .threads (s.payerOf p) 1 with
    | .ok s => some (s.modify p fun q => { q with threads := q.threads + 1 }, g)
    | .error _ => some (s, g)
  | .refundThread p =>
    ((s.modify p fun q => { q with threads := q.threads - 1 }).refundIn .threads (s.payerOf p) 1).map (·, g)
  | .chargeTimer p =>
    match s.chargeIn .timers (s.payerOf p) 1 with
    | .ok s => some (s.modify p fun q => { q with timers := q.timers + 1 }, g)
    | .error _ => some (s, g)
  | .refundTimer p =>
    ((s.modify p fun q => { q with timers := q.timers - 1 }).refundIn .timers (s.payerOf p) 1).map (·, g)
  | .finish p => some (s.modify p fun q => { q with stage := .teardown }, g)
  | .leaveParent p => (s.leaveParent p).map fun r => (r.2, g.gives p r.1)
  | .free p => (s.free p).map fun r => (r.2, g.gives p r.1)

def run (s : Sys) (g : Log) : List Op → Option (Sys × Log)
  | [] => some (s, g)
  | op :: ops => (exec s g op).bind fun r => run r.1 r.2 ops

/-- Every call of the run meets its contract. -/
def Met (s : Sys) (g : Log) : List Op → Prop
  | [] => True
  | op :: ops => op.Meets s ∧ ∀ r, exec s g op = some r → Met r.1 r.2 ops

instance (s : Sys) : DecidablePred (Op.Meets s) := by
  intro op
  cases op <;> dsimp only [Op.Meets] <;> infer_instance

instance decidableMet (s : Sys) (g : Log) : DecidablePred (Met s g)
  | [] => isTrue trivial
  | op :: ops =>
    have (r : Sys × Log) := decidableMet r.1 r.2 ops
    inferInstanceAs (Decidable (op.Meets s ∧ ∀ r ∈ exec s g op, Met r.1 r.2 ops))

/-! ## The books -/

/-- The account that an account came off: the parent's quota, the shares of the parent's payer. -/
def Sys.source (s : Sys) : Kind → Nat → Option Nat
  | .quota, p => (s.proc p).parent
  | .threads, p | .timers, p => (s.proc p).parent.map s.payerOf

/-- What is held of an account: by the process itself, or by those that spend from its share. -/
def Sys.own (s : Sys) : Kind → Nat → Nat
  | .quota, p => (s.proc p).held
  | .threads, p => collect s.live (fun c => some (s.payerOf c)) (fun c => (s.proc c).threads) p
  | .timers, p => collect s.live (fun c => some (s.payerOf c)) (fun c => (s.proc c).timers) p

/-- The process that each account of a new process comes off. -/
def giver (parent payer : Nat) : Kind → Nat
  | .quota => parent
  | .threads | .timers => payer

/-- The process that `p` spends from. -/
def Sys.spends (s : Sys) (k : Kind) (p : Nat) : Nat := giver p (s.payerOf p) k

/-- What a process holds of what an account counts. -/
def Process.has (q : Process) : Kind → Nat
  | .quota => q.held
  | .threads => q.threads
  | .timers => q.timers

/-- Amounts that a call in progress has on its hands. -/
abbrev Hand := Kind → Nat → Nat

def Hand.empty : Hand := fun _ _ => 0

def Hand.add (x : Hand) (k : Kind) (p n : Nat) : Hand := fun j r => x j r + if j = k ∧ r = p then n else 0

/-- The tree: a parent is there and below its children, the payer of a process is its parent's, and only init
has no parent. -/
structure Family (s : Sys) : Prop where
  parent : ∀ p ∈ s.live, ∀ q, (s.proc p).parent = some q → q ∈ s.live ∧ q < p
  payer : ∀ p ∈ s.live, ∀ q, (s.proc p).sharePayer = some q → ∃ r, (s.proc p).parent = some r ∧ s.payerOf r = q
  next : ∀ p ∈ s.live, p < s.next
  root : ∀ p ∈ s.live, (s.proc p).parent = none → p = 0
  listed : ∀ p ∈ s.live, (s.proc p).parent ≠ none → (s.proc p).stage ≠ .quota → (s.proc p).listed = true

/-- An account that may stand in a book. -/
structure Account.Sound (k : Kind) (a : Account) : Prop where
  returned : a.returned ≤ a.limit
  small : k ≠ .quota → a.limit ≤ Share.MAX

/-- The books of all processes balance, with what a call has on its hands: the amounts `x` and `n` frames. -/
structure Inv (total : Nat) (s : Sys) (x : Hand) (n : Nat) : Prop where
  balanced : ∀ k, Balanced s.live (s.source k) (fun p => s.own k p + x k p) (fun p => ((s.proc p).acct k).used)
    fun p => ((s.proc p).acct k).owed
  sound : ∀ p ∈ s.live, ∀ k, ((s.proc p).acct k).Sound k
  family : Family s
  init : 0 ∈ s.live → ((s.proc 0).acct .quota).limit = total * PAGE_SIZE
  frames : s.frames + ∑ p ∈ s.live, (s.proc p).frames + n = total
  backed : ∀ p ∈ s.live, PAGE_SIZE * (s.proc p).backed ≤ (s.proc p).reserved

variable {total n m payer threads timers parent : Nat} {s s' : Sys} {x y : Hand} {k j : Kind} {p q : Nat} {a : Account}
  {part : Account → Option (Nat × Account)} {f : Process → Process}

open Sys Account Hand

/-! ## Accounts -/

theorem Kind.charge_ok {a' : Account} (ha : a.Sound k) (h : k.charge a n = .ok a') :
    a' = { a with used := a.used + n } ∧ a.used + n ≤ a.owed := by
  have hshare : k ≠ .quota → Share.charge a n = .ok a' → a' = { a with used := a.used + n } ∧ a.used + n ≤ a.owed := by
    intro hk hc
    have hsmall := ha.small hk
    simp only [Share.charge] at hc
    unfold Share.MAX at hc hsmall
    split at hc
    · next hfit =>
      cases hc
      have hn : min n (2 ^ 16 - 1 + 1) = n := by omega
      rw [hn] at hfit ⊢
      refine ⟨?_, hfit.2⟩
      rw [Nat.mod_eq_of_lt (by omega)]
    · cases hc
  cases k with
  | quota =>
    simp only [Kind.charge, Account.charge] at h
    split at h
    · next hfit =>
      cases h
      exact ⟨rfl, hfit.2.2⟩
    · cases h
  | threads => exact hshare nofun h
  | timers => exact hshare nofun h

/-- A part of an account goes back: it was not spent, and nothing is charged from then on. -/
structure Part (part : Account → Option (Nat × Account)) (a : Account) (m : Nat) : Prop where
  some : part a = some (m, { a with returned := a.returned + m, closed := true })
  room : a.used + m ≤ a.owed

theorem Part.owed (h : Part part a m) :
    a.owed = owed { a with returned := a.returned + m, closed := true } + m := by
  have := h.room
  unfold Account.owed at *
  simp only
  omega

theorem part_returnFree (ha : a.Sound k) (hroom : a.used ≤ a.owed) (hc : a.closed = false) :
    Part returnFree a (a.owed - a.used) := by
  have := ha.returned
  unfold owed at *
  refine ⟨?_, by unfold owed; omega⟩
  rw [returnFree, if_neg (by simp [hc]), if_pos (by omega)]

theorem part_returnRest (ha : a.Sound k) (h0 : a.used = 0) : Part returnRest a a.owed := by
  have := ha.returned
  refine ⟨?_, by omega⟩
  rw [returnRest, if_pos ⟨h0, this⟩]
  unfold owed
  rw [Nat.add_sub_cancel' this]

/-! ## What a call leaves as it is -/

theorem proc_modify_self : (s.modify p f).proc p = f (s.proc p) := by
  simp [Sys.modify]

theorem proc_modify_of_ne (h : q ≠ p) : (s.modify p f).proc q = s.proc q := by
  simp [Sys.modify, h]

theorem acct_setAcct :
    ((s.setAcct k p a).proc q).acct j = if j = k ∧ q = p then a else (s.proc q).acct j := by
  by_cases hq : q = p
  · subst hq
    by_cases hj : j = k
    · subst hj
      simp [setAcct, proc_modify_self]
    · simp [setAcct, proc_modify_self, hj]
  · simp [setAcct, proc_modify_of_ne hq, hq]

theorem Sys.source_eq : s.source k p = (s.proc p).parent.map (s.spends k) := by
  cases k with
  | quota =>
    show (s.proc p).parent = _
    cases (s.proc p).parent <;> rfl
  | threads | timers => rfl

theorem Sys.own_eq (hp : p ∈ s.live) :
    s.own k p = collect s.live (fun c => some (s.spends k c)) (fun c => (s.proc c).has k) p := by
  cases k with
  | quota =>
    show _ = ∑ c ∈ s.live, if some c = some p then (s.proc c).held else 0
    simp only [some.injEq]
    rw [sum_ite_eq', if_pos hp]
    rfl
  | threads | timers => rfl

/-- The tree stays. -/
structure SameTree (s s' : Sys) : Prop where
  live : s'.live = s.live
  next : s'.next = s.next
  sharePayer : ∀ p, (s'.proc p).sharePayer = (s.proc p).sharePayer
  parent : ∀ p, (s'.proc p).parent = (s.proc p).parent

namespace SameTree

theorem payerOf (h : SameTree s s') : s'.payerOf = s.payerOf := by
  funext p
  rw [Sys.payerOf, h.sharePayer]
  rfl

theorem spends (h : SameTree s s') : s'.spends = s.spends := by
  funext k p
  rw [Sys.spends, h.payerOf]
  rfl

theorem source (h : SameTree s s') : s'.source = s.source := by
  funext k p
  rw [source_eq, source_eq, h.parent, h.spends]

theorem own (h : SameTree s s') (hhas : ∀ q, (s'.proc q).has k = (s.proc q).has k) (hp : p ∈ s.live) :
    s'.own k p = s.own k p := by
  rw [own_eq (h.live ▸ hp), own_eq hp, h.live, h.spends]
  exact collect_congr (fun _ _ => rfl) fun c _ _ => hhas c

/-- The books after a change that leaves the tree as it is. -/
theorem inv (ht : SameTree s s') (h : Inv total s x n)
    (hb : ∀ k, Balanced s.live (s.source k) (fun p => s'.own k p + y k p) (fun p => ((s'.proc p).acct k).used)
      fun p => ((s'.proc p).acct k).owed) (hsound : ∀ p ∈ s.live, ∀ k, ((s'.proc p).acct k).Sound k)
    (hlimit : ((s'.proc 0).acct .quota).limit = ((s.proc 0).acct .quota).limit)
    (hframes : s'.frames + ∑ p ∈ s.live, (s'.proc p).frames + m = total)
    (hbacked : ∀ p ∈ s.live, PAGE_SIZE * (s'.proc p).backed ≤ (s'.proc p).reserved)
    (hlisted : ∀ p ∈ s.live, (s.proc p).parent ≠ none → (s'.proc p).stage ≠ .quota → (s'.proc p).listed = true) :
    Inv total s' y m := by
  refine ⟨?_, ?_, ⟨?_, ?_, ?_, ?_, ?_⟩, ?_, ?_, ?_⟩
  all_goals simp only [ht.live, ht.next, ht.source, ht.parent, ht.sharePayer, ht.payerOf, hlimit]
  · exact hb
  · exact hsound
  · exact h.family.parent
  · exact h.family.payer
  · exact h.family.next
  · exact h.family.root
  · exact hlisted
  · exact h.init
  · exact hframes
  · exact hbacked

end SameTree

/-- Only accounts differ. -/
structure Moved (s s' : Sys) : Prop where
  live : s'.live = s.live
  next : s'.next = s.next
  frames : s'.frames = s.frames
  proc : ∀ p, s'.proc p = { s.proc p with acct := (s'.proc p).acct }

theorem moved_setAcct : Moved s (s.setAcct k p a) := by
  refine ⟨rfl, rfl, rfl, fun q => ?_⟩
  by_cases hq : q = p
  · subst hq
    simp [setAcct, proc_modify_self]
  · simp [setAcct, proc_modify_of_ne hq]

namespace Moved

theorem trans {s₁ s₂ s₃ : Sys} (h₁ : Moved s₁ s₂) (h₂ : Moved s₂ s₃) : Moved s₁ s₃ where
  live := h₂.live.trans h₁.live
  next := h₂.next.trans h₁.next
  frames := h₂.frames.trans h₁.frames
  proc := fun p => by rw [h₂.proc p, h₁.proc p]

theorem tree (h : Moved s s') : SameTree s s' :=
  ⟨h.live, h.next, fun p => by rw [h.proc p], fun p => by rw [h.proc p]⟩

end Moved

theorem Inv.congrHand (h : Inv total s x n) (hx : ∀ j r, y j r = x j r) : Inv total s y n := by
  obtain rfl : y = x := funext fun j => funext (hx j)
  exact h

/-- The books after a change of accounts. -/
theorem Inv.moved (h : Inv total s x n) (hs : Moved s s')
    (hb : ∀ k, Balanced s.live (s.source k) (fun p => s.own k p + y k p) (fun p => ((s'.proc p).acct k).used)
      fun p => ((s'.proc p).acct k).owed) (hsound : ∀ p ∈ s.live, ∀ k, ((s'.proc p).acct k).Sound k)
    (hlimit : ((s'.proc 0).acct .quota).limit = ((s.proc 0).acct .quota).limit) : Inv total s' y n := by
  refine hs.tree.inv h (fun k => (hb k).congr (fun _ _ => rfl) (fun p hp => ?_) (fun _ _ => rfl) fun _ _ => rfl) hsound
    hlimit ?_ (fun p hp => ?_) fun p hp => ?_
  · rw [hs.tree.own (fun q => by rw [hs.proc q]; cases k <;> rfl) hp]
  · rw [hs.frames, ← h.frames]
    congr 2
    exact sum_congr rfl fun p _ => by rw [hs.proc p]; rfl
  · rw [hs.proc p]
    exact h.backed p hp
  · rw [hs.proc p]
    exact h.family.listed p hp

/-- Two processes at one stage and place of the tree, with accounts that differ in what they spent alone. -/
structure Like (q q' : Process) : Prop where
  stage : q'.stage = q.stage
  parent : q'.parent = q.parent
  sharePayer : q'.sharePayer = q.sharePayer
  listed : q'.listed = q.listed
  acct : ∀ k, (q'.acct k).limit = (q.acct k).limit ∧ (q'.acct k).returned = (q.acct k).returned ∧
    (q'.acct k).closed = (q.acct k).closed

theorem Like.trans {q₁ q₂ q₃ : Process} (h₁ : Like q₁ q₂) (h₂ : Like q₂ q₃) : Like q₁ q₃ := by
  refine ⟨h₂.stage.trans h₁.stage, h₂.parent.trans h₁.parent, h₂.sharePayer.trans h₁.sharePayer,
    h₂.listed.trans h₁.listed, fun k => ?_⟩
  obtain ⟨a1, a2, a3⟩ := h₁.acct k
  obtain ⟨b1, b2, b3⟩ := h₂.acct k
  exact ⟨b1.trans a1, b2.trans a2, b3.trans a3⟩

/-- A call that makes no process, ends none and returns no part. -/
structure Kept (s s' : Sys) : Prop where
  live : s'.live = s.live
  next : s'.next = s.next
  like : ∀ p, Like (s.proc p) (s'.proc p)

namespace Kept

theorem refl (s : Sys) : Kept s s := ⟨rfl, rfl, fun _ => ⟨rfl, rfl, rfl, rfl, fun _ => ⟨rfl, rfl, rfl⟩⟩⟩

theorem trans {s₁ s₂ s₃ : Sys} (h₁ : Kept s₁ s₂) (h₂ : Kept s₂ s₃) : Kept s₁ s₃ where
  live := h₂.live.trans h₁.live
  next := h₂.next.trans h₁.next
  like := fun p => (h₁.like p).trans (h₂.like p)

theorem payerOf (h : Kept s s') : s'.payerOf = s.payerOf :=
  SameTree.payerOf ⟨h.live, h.next, fun p => (h.like p).sharePayer, fun p => (h.like p).parent⟩

end Kept

/-- An account of a process spends more or less. -/
theorem kept_setAcct {u : Nat} (ha : a = { (s.proc p).acct k with used := u }) : Kept s (s.setAcct k p a) := by
  refine ⟨rfl, rfl, fun q => ?_⟩
  have hm := (moved_setAcct (s := s) (k := k) (p := p) (a := a)).proc q
  refine ⟨by rw [hm], by rw [hm], by rw [hm], by rw [hm], fun j => ?_⟩
  rw [acct_setAcct]
  split
  · next h =>
    obtain ⟨rfl, rfl⟩ := h
    rw [ha]
    exact ⟨rfl, rfl, rfl⟩
  · exact ⟨rfl, rfl, rfl⟩

/-- The books after an account spends more or less. -/
theorem Inv.spent {u : Nat} (h : Inv total s x n) (ha : a = { (s.proc p).acct k with used := u })
    (hb : ∀ j, Balanced s.live (s.source j) (fun p => s.own j p + y j p)
      (fun q => if j = k ∧ q = p then u else ((s.proc q).acct j).used) fun p => ((s.proc p).acct j).owed) :
    Inv total (s.setAcct k p a) y n := by
  have hacct : ∀ q j, ((s.setAcct k p a).proc q).acct j =
      { (s.proc q).acct j with used := if j = k ∧ q = p then u else ((s.proc q).acct j).used } := by
    intro q j
    rw [acct_setAcct]
    split
    · next he =>
      obtain ⟨rfl, rfl⟩ := he
      exact ha
    · rfl
  refine h.moved moved_setAcct (fun j => ?_) (fun q hq j => ?_) ?_
  · simp only [hacct]
    exact hb j
  · rw [hacct]
    exact ⟨(h.sound q hq j).returned, (h.sound q hq j).small⟩
  · rw [hacct]

/-! ## Charges, refunds and returns -/

theorem chargeIn_ok (h : Inv total s x n) (hp : p ∈ s.live) (hc : s.chargeIn k p m = .ok s') :
    Inv total s' (x.add k p m) n ∧ Kept s s' ∧ (k ≠ .quota → m ≤ Share.MAX) := by
  unfold chargeIn at hc
  split at hc
  · next a ha =>
    cases hc
    have hsound := h.sound p hp k
    obtain ⟨ha, hroom⟩ := Kind.charge_ok hsound ha
    refine ⟨h.spent ha fun j => ?_, kept_setAcct ha, fun hk => ?_⟩
    · simp only [add]
      by_cases hj : j = k
      · subst hj
        refine (h.balanced j).charge hroom (fun r _ => ?_) fun r _ => ?_
        · by_cases hr : r = p
          · simp [add_assoc]
          · simp [hr]
        · by_cases hr : r = p
          · simp [hr]
          · simp [hr]
      · refine (h.balanced j).congr (fun _ _ => rfl) (fun r _ => ?_) (fun r _ => ?_) fun _ _ => rfl
        · simp [hj]
        · simp [hj]
    · have := hsound.small hk
      unfold owed at hroom
      omega
  · cases hc

theorem refundIn_some (h : Inv total s y n) (hp : p ∈ s.live)
    (hy : ∀ j r, y j r = x j r + if j = k ∧ r = p then m else 0) :
    ∃ s', s.refundIn k p m = some s' ∧ Inv total s' x n ∧ Kept s s' := by
  have hle : m ≤ ((s.proc p).acct k).used := by
    have h1 := (h.balanced k).own_le hp
    have h2 := hy k p
    rw [if_pos ⟨rfl, rfl⟩] at h2
    omega
  obtain ⟨a, ha⟩ : ∃ a, a = { (s.proc p).acct k with used := ((s.proc p).acct k).used - m } := ⟨_, rfl⟩
  refine ⟨s.setAcct k p a, ?_, h.spent ha fun j => ?_, kept_setAcct ha⟩
  · rw [refundIn, refund, if_pos hle, ha]
    rfl
  · by_cases hj : j = k
    · subst hj
      refine (h.balanced j).refund (p := p) (n := m) (fun r _ => ?_) fun r _ => ?_
      · simp only [hy, true_and, add_assoc]
      · by_cases hr : r = p
        · subst hr
          simp only [and_self, if_true]
          omega
        · simp [hr]
    · refine (h.balanced j).congr (fun _ _ => rfl) (fun r _ => ?_) (fun r _ => ?_) fun _ _ => rfl
      · simp [hy, hj]
      · simp [hj]

/-- **A part of an account** is on the hands of the call, for the account that it came off. -/
theorem returnIn_some (h : Inv total s x n) (hp : p ∈ s.live)
    (hpart : Part part ((s.proc p).acct k) m) :
    ∃ s', s.returnIn part k p = some (m, s') ∧ Moved s s' ∧
      Inv total s' (fun j r => x j r + if j = k ∧ s.source k p = some r then m else 0) n ∧
      ∀ q j, (s'.proc q).acct j = if j = k ∧ q = p then
        { (s.proc p).acct k with returned := ((s.proc p).acct k).returned + m, closed := true } else (s.proc q).acct j := by
  have howed := hpart.owed
  have hroom := hpart.room
  refine ⟨_, by rw [returnIn, hpart.some]; rfl, moved_setAcct, ?_, fun q j => acct_setAcct⟩
  refine h.moved moved_setAcct (fun j => ?_) (fun q hq j => ?_) ?_
  · simp only [acct_setAcct]
    by_cases hj : j = k
    · subst hj
      refine ((h.balanced j).release hp hroom (fun r _ => ?_) fun r _ => ?_).congr (fun _ _ => rfl)
        (fun _ _ => rfl) (fun r _ => ?_) fun _ _ => rfl
      · by_cases hr : r = p
        · simp only [hr]
          exact howed
        · simp [hr]
      · simp only [true_and, add_assoc]
      · by_cases hr : r = p
        · simp [hr]
        · simp [hr]
    · refine (h.balanced j).congr (fun _ _ => rfl) (fun r _ => ?_) (fun r _ => ?_) fun r _ => ?_
      · simp [hj]
      · simp [hj]
      · simp [hj]
  · rw [acct_setAcct]
    split
    · next he =>
      obtain ⟨rfl, rfl⟩ := he
      have := h.sound q hq j
      refine ⟨?_, this.small⟩
      unfold owed at hroom
      have := this.returned
      simp only
      omega
    · exact h.sound q hq j
  · rw [acct_setAcct]
    split
    · next he => rw [← he.1, ← he.2]
    · rfl

/-! ## What a process holds -/

/-- Accounts and the tree stay. -/
structure Reshaped (s s' : Sys) : Prop where
  live : s'.live = s.live
  next : s'.next = s.next
  acct : ∀ p, (s'.proc p).acct = (s.proc p).acct
  sharePayer : ∀ p, (s'.proc p).sharePayer = (s.proc p).sharePayer
  parent : ∀ p, (s'.proc p).parent = (s.proc p).parent

theorem reshaped_modify {g : Nat} (ha : (f (s.proc p)).acct = (s.proc p).acct)
    (hs : (f (s.proc p)).sharePayer = (s.proc p).sharePayer) (hp : (f (s.proc p)).parent = (s.proc p).parent) :
    Reshaped s { s.modify p f with frames := g } := by
  refine ⟨rfl, rfl, fun q => ?_, fun q => ?_, fun q => ?_⟩
  all_goals
    by_cases hq : q = p
    · subst hq
      simp [proc_modify_self, ha, hs, hp]
    · simp [proc_modify_of_ne hq]

theorem Reshaped.tree (h : Reshaped s s') : SameTree s s' := ⟨h.live, h.next, h.sharePayer, h.parent⟩

/-- The books after a change of what is held. -/
theorem Inv.reshape (h : Inv total s x n) (hr : Reshaped s s')
    (hown : ∀ k, ∀ p ∈ s.live, s'.own k p + y k p = s.own k p + x k p)
    (hframes : s'.frames + ∑ p ∈ s.live, (s'.proc p).frames + m = total)
    (hbacked : ∀ p ∈ s.live, PAGE_SIZE * (s'.proc p).backed ≤ (s'.proc p).reserved)
    (hlisted : ∀ p ∈ s.live, (s.proc p).parent ≠ none → (s'.proc p).stage ≠ .quota → (s'.proc p).listed = true) :
    Inv total s' y m := by
  refine hr.tree.inv h (fun k => ?_) (fun p hp => ?_) (by rw [hr.acct]) hframes hbacked hlisted
  · simp only [hr.acct]
    exact (h.balanced k).congr (fun _ _ => rfl) (hown k) (fun _ _ => rfl) fun _ _ => rfl
  · rw [hr.acct]
    exact h.sound p hp

/-- The process `q'` is `q` but for what it holds. -/
def Process.Holds (q q' : Process) : Prop := q' = { q with
  log := q'.log, tables := q'.tables, reserved := q'.reserved, backed := q'.backed, threads := q'.threads,
  timers := q'.timers }

theorem kept_modify {g : Nat} (hf : (s.proc p).Holds (f (s.proc p))) : Kept s { s.modify p f with frames := g } := by
  refine ⟨rfl, rfl, fun q => ?_⟩
  by_cases hq : q = p
  · subst hq
    rw [proc_modify_self, hf]
    exact ⟨rfl, rfl, rfl, rfl, fun _ => ⟨rfl, rfl, rfl⟩⟩
  · rw [proc_modify_of_ne hq]
    exact (Kept.refl s).like q

/-- What `q` holds less of one kind than `q'` is on the hands of the call. -/
theorem has_add {q q' : Process} (hk : q'.has k = q.has k + d) (hj : ∀ j, j ≠ k → q'.has j = q.has j) :
    (if r = s.spends j p then q'.has j else 0) + x j r =
      (if r = s.spends j p then q.has j else 0) + x.add k (s.spends k p) d j r := by
  by_cases hjk : j = k
  · subst hjk
    by_cases hr : r = s.spends j p
    · simp only [add, hr, and_self, if_true]
      omega
    · simp [add, hr]
  · rw [hj j hjk]
    simp [add, hjk]

section
variable {g d : Nat} (hp : p ∈ s.live) (hf : (s.proc p).Holds (f (s.proc p)))
  (hbacked : PAGE_SIZE * (s.proc p).backed ≤ (s.proc p).reserved →
    PAGE_SIZE * (f (s.proc p)).backed ≤ (f (s.proc p)).reserved)
include hp hf hbacked

/-- The books after a change of what one process holds: what it holds more was on the hands of the call, and
what it holds less is now. -/
theorem Inv.hold (h : Inv total s x n)
    (hhas : ∀ k r, (if r = s.spends k p then (f (s.proc p)).has k else 0) + y k r =
      (if r = s.spends k p then (s.proc p).has k else 0) + x k r)
    (hframes : g + (f (s.proc p)).frames + m = s.frames + (s.proc p).frames + n) :
    Inv total { s.modify p f with frames := g } y m ∧ Kept s { s.modify p f with frames := g } := by
  have hr : Reshaped s { s.modify p f with frames := g } :=
    reshaped_modify (by rw [hf]) (by rw [hf]) (by rw [hf])
  have hother : ∀ {q}, q ≠ p → (s.modify p f).proc q = s.proc q := fun hq => proc_modify_of_ne hq
  refine ⟨h.reshape hr (fun k r hmem => ?_) ?_ (fun q hq => ?_) fun q hq => ?_, kept_modify hf⟩
  · have hsum := collect_change (fun c => some (s.spends k c)) r hp
      (fun c _ hc => by rw [hother hc] : ∀ c ∈ s.live, c ≠ p → ((s.modify p f).proc c).has k = (s.proc c).has k)
    have := hhas k r
    rw [own_eq (by exact hmem), own_eq hmem, hr.tree.spends]
    show collect s.live _ (fun c => ((s.modify p f).proc c).has k) r + _ = _
    simp only [proc_modify_self, some.injEq, @eq_comm _ _ r] at hsum
    split at this
    · next he => rw [if_pos he, if_pos he] at hsum; omega
    · next he => rw [if_neg he, if_neg he] at hsum; omega
  · have hsum := sum_change hp
      (fun c _ hc => by rw [hother hc] : ∀ c ∈ s.live, c ≠ p → ((s.modify p f).proc c).frames = (s.proc c).frames)
    rw [proc_modify_self] at hsum
    have := h.frames
    show g + ∑ c ∈ s.live, ((s.modify p f).proc c).frames + m = total
    omega
  · by_cases hqp : q = p
    · subst hqp
      rw [proc_modify_self]
      exact hbacked (h.backed q hq)
    · rw [hother hqp]
      exact h.backed q hq
  · by_cases hqp : q = p
    · subst hqp
      rw [proc_modify_self, hf]
      exact h.family.listed q hq
    · rw [hother hqp]
      exact h.family.listed q hq

variable (hj : ∀ j, j ≠ k → (f (s.proc p)).has j = (s.proc p).has j)
include hj

theorem Inv.holdMore (h : Inv total s (x.add k (s.spends k p) d) n)
    (hk : (f (s.proc p)).has k = (s.proc p).has k + d)
    (hframes : g + (f (s.proc p)).frames + m = s.frames + (s.proc p).frames + n) :
    Inv total { s.modify p f with frames := g } x m ∧ Kept s { s.modify p f with frames := g } := by
  exact h.hold hp hf hbacked (fun j r => has_add hk hj) hframes

theorem Inv.holdLess (h : Inv total s x n) (hk : (s.proc p).has k = (f (s.proc p)).has k + d)
    (hframes : g + (f (s.proc p)).frames + m = s.frames + (s.proc p).frames + n) :
    Inv total { s.modify p f with frames := g } (x.add k (s.spends k p) d) m ∧
      Kept s { s.modify p f with frames := g } := by
  exact h.hold hp hf hbacked (fun j r => (has_add hk fun j hjk => (hj j hjk).symm).symm) hframes

end

theorem Process.has_of_ne {q q' : Process} (ht : q'.threads = q.threads) (hm : q'.timers = q.timers) (hj : j ≠ .quota) :
    q'.has j = q.has j := by
  cases j with
  | quota => exact absurd rfl hj
  | threads => exact ht
  | timers => exact hm

/-! ## Frames -/

/-- All that is held and on hands is covered by init's limit. -/
theorem Inv.total_le (h : Inv total s x n) :
    PAGE_SIZE * ∑ p ∈ s.live, (s.proc p).frames + ∑ p ∈ s.live, x .quota p ≤ total * PAGE_SIZE := by
  have hcover := (h.balanced .quota).total
  have hroots : ∑ p ∈ s.live, (if s.source .quota p = none then ((s.proc p).acct .quota).owed else 0) ≤
      total * PAGE_SIZE := by
    calc ∑ p ∈ s.live, (if s.source .quota p = none then ((s.proc p).acct .quota).owed else 0)
        ≤ ∑ p ∈ s.live, if p = 0 then total * PAGE_SIZE else 0 := by
          refine sum_le_sum fun p hp => ?_
          split
          · next hroot =>
            obtain rfl := h.family.root p hp hroot
            rw [← h.init hp]
            exact Nat.sub_le _ _
          · exact Nat.zero_le _
      _ ≤ total * PAGE_SIZE := by
          rw [sum_ite_eq']
          split
          · exact le_rfl
          · exact Nat.zero_le _
  have hheld : PAGE_SIZE * ∑ p ∈ s.live, (s.proc p).frames ≤ ∑ p ∈ s.live, (s.proc p).held := by
    rw [mul_sum]
    refine sum_le_sum fun p hp => ?_
    have := h.backed p hp
    unfold Process.frames Process.held
    rw [Nat.mul_add]
    omega
  rw [sum_add_distrib] at hcover
  exact (Nat.add_le_add_right hheld _).trans (hcover.trans hroots)

theorem le_hands (hp : p ∈ s.live) : x .quota p ≤ ∑ p ∈ s.live, x .quota p :=
  single_le_sum (fun _ _ => Nat.zero_le _) hp

/-- **A charge that passed finds a frame**: the bytes on hands are more than the frames on hands. -/
theorem takeFrame_some (h : Inv total s x n) (hx : PAGE_SIZE * (n + 1) ≤ ∑ p ∈ s.live, x .quota p) :
    ∃ s', s.takeFrame = some s' ∧ Inv total s' x (n + 1) ∧ s' = { s with frames := s.frames - 1 } ∧ s.frames ≠ 0 := by
  have hle := h.total_le
  have hframes := h.frames
  have hne : s.frames ≠ 0 := by
    intro h0
    unfold PAGE_SIZE at hle hx
    omega
  refine ⟨_, by rw [takeFrame, if_neg hne], ?_, rfl, hne⟩
  refine h.reshape ⟨rfl, rfl, fun _ => rfl, fun _ => rfl, fun _ => rfl⟩ (fun k p _ => ?_) ?_ h.backed h.family.listed
  · cases k <;> rfl
  · show s.frames - 1 + ∑ p ∈ s.live, (s.proc p).frames + (n + 1) = total
    omega

theorem giveFrame_inv (h : Inv total s x (n + 1)) : Inv total s.giveFrame x n := by
  refine h.reshape ⟨rfl, rfl, fun _ => rfl, fun _ => rfl, fun _ => rfl⟩ (fun k p _ => ?_) ?_ h.backed h.family.listed
  · cases k <;> rfl
  · have := h.frames
    show s.frames + 1 + ∑ p ∈ s.live, (s.proc p).frames + n = total
    omega

theorem Inv.frames_pos (h : Inv total s (add .empty .quota p PAGE_SIZE) 0) (hp : p ∈ s.live) : s.frames ≠ 0 := by
  have hhand : PAGE_SIZE ≤ ∑ r ∈ s.live, add .empty .quota p PAGE_SIZE .quota r := by
    refine le_trans ?_ (le_hands hp)
    simp [add]
  obtain ⟨-, -, -, -, hne⟩ := takeFrame_some h (by rw [zero_add]; exact hhand)
  exact hne

/-- The page that a call has on its hands is written down. -/
theorem hold_page (h : Inv total s (x.add .quota p PAGE_SIZE) (n + 1)) (hp : p ∈ s.live)
    (hf : f (s.proc p) = { s.proc p with log := (f (s.proc p)).log, tables := (f (s.proc p)).tables })
    (hn : (f (s.proc p)).log.total + (f (s.proc p)).tables = (s.proc p).log.total + (s.proc p).tables + 1) :
    Inv total (s.modify p f) x n ∧ Kept s (s.modify p f) := by
  have hreserved : (f (s.proc p)).reserved = (s.proc p).reserved := by rw [hf]
  have hbacked : (f (s.proc p)).backed = (s.proc p).backed := by rw [hf]
  refine h.holdMore hp (by rw [Process.Holds, hf]) (by rw [hbacked, hreserved]; exact id)
    (fun j hj => Process.has_of_ne (by rw [hf]) (by rw [hf]) hj) ?_ ?_
  · show (f (s.proc p)).held = (s.proc p).held + PAGE_SIZE
    unfold Process.held
    rw [hn, mul_add PAGE_SIZE _ 1]
    omega
  · unfold Process.frames
    omega

section
variable (h : Inv total s x n) (hp : p ∈ s.live) (hx : PAGE_SIZE * n ≤ ∑ r ∈ s.live, x .quota r)
include h hp hx

/-- `PaidPages::take`: nothing happened, or a page's bytes and a frame are on hands. -/
theorem take_some :
    s.take p = some none ∨ ∃ s', s.take p = some (some s') ∧ Inv total s' (x.add .quota p PAGE_SIZE) (n + 1) ∧
      Kept s s' := by
  unfold take
  split
  · next s₁ hc =>
    obtain ⟨h₁, hk, -⟩ := chargeIn_ok h hp hc
    have hsum : ∑ r ∈ s.live, x.add .quota p PAGE_SIZE .quota r = ∑ r ∈ s.live, x .quota r + PAGE_SIZE := by
      simp only [add, true_and]
      rw [sum_add_distrib, sum_ite_eq', if_pos hp]
    obtain ⟨s₂, ht, h₂, rfl, -⟩ := takeFrame_some h₁ (by rw [hk.live, mul_add]; omega)
    refine .inr ⟨_, by rw [ht]; rfl, h₂, ?_⟩
    exact ⟨hk.live, hk.next, hk.like⟩
  · exact .inl rfl

theorem recordPage_some : ∃ b s', s.recordPage p = some (b, s') ∧ Inv total s' x n ∧ Kept s s' := by
  unfold recordPage
  rcases take_some h hp hx with ht | ⟨s₁, ht, h₁, hk⟩
  · rw [ht]
    exact ⟨false, s, rfl, h, Kept.refl s⟩
  · rw [ht]
    obtain ⟨h₂, hk₂⟩ := hold_page (f := fun q => { q with log := { q.log with pages := q.log.pages + 1 } }) h₁
      (by rwa [hk.live]) rfl (by simp only [PageLog.total]; omega)
    exact ⟨true, _, rfl, h₂, hk.trans hk₂⟩

/-- **`PaidPages::alloc_page`** finds its frames, or the quota falls short. -/
theorem allocPage_some : ∃ b s', s.allocPage p = some (b, s') ∧ Inv total s' x n ∧ Kept s s' := by
  unfold allocPage
  split
  · rcases take_some h hp hx with ht | ⟨s₁, ht, h₁, hk⟩
    · rw [ht]
      exact ⟨false, s, rfl, h, Kept.refl s⟩
    · rw [ht]
      obtain ⟨h₂, hk₂⟩ := hold_page (f := fun q => { q with log := { q.log with listPages := q.log.listPages + 1 } })
        h₁ (by rwa [hk.live]) rfl (by simp only [PageLog.total]; omega)
      have hlive := (hk.trans hk₂).live
      obtain ⟨b, s', hrec, h', hk'⟩ := recordPage_some h₂ (by rwa [hlive]) (by rwa [hlive])
      exact ⟨b, s', hrec, h', (hk.trans hk₂).trans hk'⟩
  · exact recordPage_some h hp hx

end

/-! ## Payers -/

theorem Family.payerOf_mem (h : Family s) (hp : p ∈ s.live) : s.payerOf p ∈ s.live := by
  induction p using Nat.strongRecOn with
  | ind p ih =>
    cases hs : (s.proc p).sharePayer with
    | none => simpa [payerOf, hs] using hp
    | some q =>
      obtain ⟨r, hr, hq⟩ := h.payer p hp q hs
      obtain ⟨hlive, hlt⟩ := h.parent p hp r hr
      have := ih r hlt hlive
      rw [hq] at this
      simpa [payerOf, hs] using this

/-- A process that others spend from has a child, or is the only one that does. -/
theorem Family.payerOf_ne (h : Family s) (hchild : ∀ c ∈ s.live, (s.proc c).parent ≠ some p) (hq : q ∈ s.live)
    (hne : q ≠ p) : s.payerOf q ≠ p := by
  induction q using Nat.strongRecOn with
  | ind q ih =>
    cases hs : (s.proc q).sharePayer with
    | none => simpa [payerOf, hs] using hne
    | some r =>
      obtain ⟨u, hu, hr⟩ := h.payer q hq r hs
      obtain ⟨hlive, hlt⟩ := h.parent q hq u hu
      have hup : u ≠ p := fun he => hchild q hq (he ▸ hu)
      have := ih u hlt hlive hup
      rw [hr] at this
      simpa [payerOf, hs] using this

theorem Family.spends_mem (h : Family s) (hp : p ∈ s.live) : s.spends k p ∈ s.live := by
  cases k with
  | quota => exact hp
  | threads | timers => exact h.payerOf_mem hp

theorem Family.spends_ne (h : Family s) (hchild : ∀ c ∈ s.live, (s.proc c).parent ≠ some p) (hq : q ∈ s.live)
    (hne : q ≠ p) : s.spends k q ≠ p := by
  cases k with
  | quota => exact hne
  | threads | timers => exact h.payerOf_ne hchild hq hne

theorem Family.source_ne (h : Family s) (hchild : ∀ c ∈ s.live, (s.proc c).parent ≠ some p) (hq : q ∈ s.live) :
    s.source k q ≠ some p := by
  rw [source_eq]
  intro he
  obtain ⟨u, hu, hup⟩ := map_eq_some_iff.1 he
  exact h.spends_ne hchild (h.parent q hq u hu).1 (fun hn => hchild q hq (hn ▸ hu)) hup

/-! ## Making a process -/

/-- The shares that a call took go back. -/
theorem giveBack_some (h : Inv total s y n) (hp : payer ∈ s.live)
    (hy : ∀ j r, y j r = x j r + (if j = .threads ∧ r = payer then threads else 0) +
      if j = .timers ∧ r = payer then timers else 0) :
    ∃ s', s.giveBack payer threads timers = some s' ∧ Inv total s' x n ∧ Kept s s' := by
  obtain ⟨s₁, he₁, h₁, hk₁⟩ := refundIn_some (k := .threads) (m := threads)
    (x := fun j r => x j r + if j = .timers ∧ r = payer then timers else 0) h hp fun j r => by rw [hy]; omega
  obtain ⟨s₂, he₂, h₂, hk₂⟩ := refundIn_some h₁ (by rwa [hk₁.live])
    fun _ _ => rfl
  refine ⟨s₂, ?_, h₂, hk₁.trans hk₂⟩
  rw [giveBack, he₁]
  exact he₂

/-- The process that `create` makes, before it has a parent. -/
def newProcess (quota threads timers : Nat) (payer : Option Nat) (cpus : Nat) : Process where
  acct
    | .quota => { new quota with used := PAGE_SIZE }
    | .threads => new threads
    | .timers => new timers
  sharePayer := payer
  cpus := cpus
  parent := none
  listed := false
  stage := .whole
  log := ⟨0, 0⟩
  tables := 1
  reserved := 0
  backed := 0
  threads := 0
  timers := 0

/-- **`create`** with a parent that has the quota on hands: an error that leaves only pages of the parent's
log, or the new process with a frame on hands for its root table. -/
theorem create_some (parent quota handleLimit ceiling : Nat) (g : Grant) (grow : Bool) (h : Inv total s x 0)
    (hp : parent ∈ s.live) (hx : quota ≤ x .quota parent) (ht : g.threads ≤ Share.MAX) (hm : g.timers ≤ Share.MAX) :
    ∃ r s', s.create quota handleLimit ceiling (some parent) g grow = some (r, s') ∧
      ((∃ e, r = .error e ∧ Inv total s' x 0 ∧ Kept s s') ∨
        ∃ s₁, r = .ok s₁.next ∧ Inv total s₁ x 1 ∧ Kept s s₁ ∧ PAGE_SIZE ≤ quota ∧
          s' = ⟨insert s₁.next s₁.live, s₁.next + 1,
            update s₁.proc s₁.next (newProcess quota g.threads g.timers g.payer g.cpus), s₁.frames⟩) := by
  unfold create
  split
  · exact ⟨_, s, rfl, .inl ⟨_, rfl, h, Kept.refl s⟩⟩
  split
  · exact ⟨_, s, rfl, .inl ⟨_, rfl, h, Kept.refl s⟩⟩
  split
  · exact ⟨_, s, rfl, .inl ⟨_, rfl, h, Kept.refl s⟩⟩
  · next a ha =>
    obtain ⟨rfl, hroom⟩ := Kind.charge_ok ⟨Nat.zero_le _, nofun⟩ ha
    have hpage : PAGE_SIZE ≤ quota := by
      simp only [new, owed] at hroom
      omega
    have hhand : PAGE_SIZE ≤ ∑ r ∈ s.live, x .quota r := hpage.trans (hx.trans (le_hands hp))
    obtain ⟨s₁, ht₁, h₁, hs₁, -⟩ := takeFrame_some h (by rw [Nat.mul_one]; exact hhand)
    have hk₁ : Kept s s₁ := by rw [hs₁]; exact ⟨rfl, rfl, (Kept.refl s).like⟩
    obtain ⟨b, s₂, hslot, h₂, hk₂⟩ : ∃ b s₂, s₁.paidSlot (some parent) grow = some (b, s₂) ∧ Inv total s₂ x 1 ∧
        Kept s₁ s₂ := by
      cases grow with
      | false => exact ⟨true, s₁, rfl, h₁, Kept.refl s₁⟩
      | true =>
        have hhand₁ : PAGE_SIZE * 1 ≤ ∑ r ∈ s₁.live, x .quota r := by rwa [hk₁.live]
        obtain ⟨b, s₂, he, h₂, hk₂⟩ := allocPage_some h₁ (by rwa [hk₁.live]) hhand₁
        exact ⟨b, s₂, he, h₂, hk₂⟩
    simp only [ht₁, Share.new, if_pos ht, if_pos hm, hslot, bind_some]
    cases b with
    | true =>
      refine ⟨_, _, rfl, .inr ⟨s₂, rfl, h₂, hk₁.trans hk₂, hpage, ?_⟩⟩
      rfl
    | false =>
      refine ⟨.error .noMemory, s₂.giveFrame, ?_, .inl ⟨_, rfl, giveFrame_inv h₂, ?_⟩⟩
      · simp [refund, new]
      · have hk := hk₁.trans hk₂
        exact ⟨hk.live, hk.next, hk.like⟩

/-- What a new process has on each account. -/
def given (quota threads timers : Nat) : Kind → Nat
  | .quota => quota
  | .threads => threads
  | .timers => timers

/-- A call that made the process `c`. -/
structure Born (s s' : Sys) (c : Nat) : Prop where
  fresh : c = s.next
  live : s'.live = insert c s.live
  next : s'.next = c + 1
  like : ∀ p, p ≠ c → Like (s.proc p) (s'.proc p)
  stage : (s'.proc c).stage = .whole
  acct : ∀ k, ((s'.proc c).acct k).returned = 0 ∧ ((s'.proc c).acct k).closed = false

/-- **The process that `create` made** comes into the tree, under a parent or as init: its quota and its shares go
from the hands of the call to its accounts, and the frame to its root table. -/
theorem insert_inv {quota : Nat} (g par : Option Nat) (cpus : Nat) {q : Process}
    (h : Inv total s x 1) (hp : ∀ u, par = some u → u ∈ s.live)
    (hroot : par = none → s.next = 0 ∧ quota = total * PAGE_SIZE) (hpage : PAGE_SIZE ≤ quota)
    (ht : threads ≤ Share.MAX) (hm : timers ≤ Share.MAX) (hg : ∀ r, g = some r → par.map s.payerOf = some r)
    (hx : ∀ k r, x k r = if par.map (s.spends k) = some r then given quota threads timers k else 0)
    (hq : q = { newProcess quota threads timers g cpus with parent := par, listed := par.isSome }) :
    Inv total ⟨insert s.next s.live, s.next + 1, update s.proc s.next q, s.frames⟩ empty 0 := by
  obtain ⟨c, hc⟩ : ∃ c, c = s.next := ⟨_, rfl⟩
  rw [← hc]
  obtain ⟨s', hs'⟩ : ∃ s' : Sys, s' = ⟨insert c s.live, c + 1, update s.proc c q, s.frames⟩ := ⟨_, rfl⟩
  rw [← hs']
  have hfresh : c ∉ s.live := fun hmem => absurd (h.family.next c hmem) (by omega)
  have hne : ∀ {r}, r ∈ s.live → r ≠ c := fun hr he => hfresh (he ▸ hr)
  have hself : s'.proc c = q := by simp [hs']
  have hother : ∀ {r}, r ∈ s.live → s'.proc r = s.proc r := fun hr => by simp [hs', hne hr]
  have hlive : s'.live = insert c s.live := by rw [hs']
  have hpayer : ∀ {r}, r ∈ s.live → s'.payerOf r = s.payerOf r := fun hr => by rw [payerOf, hother hr]; rfl
  -- what the new process and all the others have, all of them have
  have hall : ∀ {P : Nat → Process → Prop}, P c q → (∀ r ∈ s.live, P r (s.proc r)) → ∀ r ∈ s'.live, P r (s'.proc r) := by
    intro P hc' hP r hr
    rw [hlive] at hr
    rcases mem_insert.1 hr with rfl | hr
    · exact hself ▸ hc'
    · exact hother hr ▸ hP r hr
  have hspends : ∀ {k r}, r ∈ s.live → s'.spends k r = s.spends k r := fun hr => by rw [spends, hpayer hr]; rfl
  have hsource : ∀ k, ∀ r ∈ s.live, s'.source k r = s.source k r := by
    intro k r hr
    rw [source_eq, source_eq, hother hr]
    exact map_congr fun u hu => hspends (h.family.parent r hr u hu).1
  have hsourcec : ∀ k, s'.source k c = par.map (s.spends k) := by
    intro k
    rw [source_eq, hself, hq]
    exact map_congr fun u hu => hspends (hp u hu)
  have hgiver : ∀ k u, s'.source k c = some u → u ∈ s.live := by
    intro k u hu
    rw [hsourcec] at hu
    obtain ⟨v, hv, rfl⟩ := map_eq_some_iff.1 hu
    exact h.family.spends_mem (hp v hv)
  -- what is held of an account: by the others as before, and by the new process of its own quota alone
  have hown : ∀ k, ∀ r ∈ s'.live, s'.own k r = (if r = c then (q.acct k).used else 0) +
      collect s.live (fun u => some (s.spends k u)) (fun u => (s.proc u).has k) r := by
    intro k r hr
    rw [own_eq hr, hlive, collect_insert hfresh, hself]
    congr 1
    · rw [hq]
      cases k with
      | quota => exact if_congr (by rw [some.injEq]; exact eq_comm) rfl rfl
      | threads | timers => exact (ite_self 0).trans (ite_self 0).symm
    · exact collect_congr (fun u hu => by rw [hspends hu]) fun u hu _ => by rw [hother hu]
  have hused : ∀ k, s'.own k c = ((s'.proc c).acct k).used := by
    intro k
    have hzero : collect s.live (fun u => some (s.spends k u)) (fun u => (s.proc u).has k) c = 0 :=
      collect_eq_zero fun u hu huc => absurd (some.inj huc ▸ h.family.spends_mem hu) hfresh
    rw [hown k c (hlive ▸ mem_insert_self ..), if_pos rfl, hzero, hself]
    rfl
  refine ⟨fun k => ?_, fun r hr k => ?_, ⟨?_, ?_, ?_, ?_, ?_⟩, fun h0 => ?_, ?_, fun r hr => ?_⟩
  · rw [hlive]
    refine (h.balanced k).add (n := given quota threads timers k) hfresh (hgiver k) (hsource k)
      (fun r hr => ?_) (fun r hr => ?_) (fun r hr => ?_) ?_ ?_ ?_
    · rw [hown k r (hlive ▸ mem_insert_of_mem hr), if_neg (hne hr), ← own_eq hr, hx k r, hsourcec]
      simp [empty]
    · rw [hother hr]
    · rw [hother hr]
    · exact hused k
    · rw [hself, hq]
      cases k with
      | quota => exact hpage
      | threads => exact Nat.zero_le _
      | timers => exact Nat.zero_le _
    · rw [hself, hq]
      cases k <;> rfl
  · refine hall (P := fun _ q => (q.acct k).Sound k) ?_ (fun r hr => h.sound r hr k) r hr
    rw [hq]
    cases k with
    | quota => exact ⟨Nat.zero_le _, nofun⟩
    | threads => exact ⟨Nat.zero_le _, fun _ => ht⟩
    | timers => exact ⟨Nat.zero_le _, fun _ => hm⟩
  · refine hall (P := fun r q => ∀ u, q.parent = some u → u ∈ s'.live ∧ u < r) (fun u hu => ?_) fun r hr u hu => ?_
    · rw [hq] at hu
      have hu := hp u hu
      exact ⟨hlive ▸ mem_insert_of_mem hu, hc ▸ h.family.next u hu⟩
    · obtain ⟨h1, h2⟩ := h.family.parent r hr u hu
      exact ⟨hlive ▸ mem_insert_of_mem h1, h2⟩
  · refine hall (P := fun _ q => ∀ u, q.sharePayer = some u → ∃ v, q.parent = some v ∧ s'.payerOf v = u) (fun u hu => ?_)
      fun r hr u hu => ?_
    · rw [hq] at hu ⊢
      obtain ⟨v, hv, hvu⟩ := map_eq_some_iff.1 (hg u hu)
      exact ⟨v, hv, by rw [hpayer (hp v hv), hvu]⟩
    · obtain ⟨v, hv, hvu⟩ := h.family.payer r hr u hu
      exact ⟨v, hv, by rw [hpayer (h.family.parent r hr v hv).1, hvu]⟩
  · have hnext : s'.next = c + 1 := by rw [hs']
    exact hall (P := fun r _ => r < s'.next) (by omega) fun r hr => by
      have := h.family.next r hr
      omega
  · refine hall (P := fun r q => q.parent = none → r = 0) (fun hpar => ?_) h.family.root
    rw [hq] at hpar
    exact hc.trans (hroot hpar).1
  · refine hall (P := fun _ q => q.parent ≠ none → q.stage ≠ .quota → q.listed = true) ?_ h.family.listed
    rw [hq]
    exact fun hne _ => isSome_iff_ne_none.2 hne
  · rw [hlive] at h0
    rcases mem_insert.1 h0 with h0 | h0
    · rw [h0, hself, hq]
      cases par with
      | none => exact (hroot rfl).2
      | some u =>
        have := h.family.next u (hp u rfl)
        omega
    · rw [hother h0]
      exact h.init h0
  · have hsum : ∑ r ∈ s'.live, (s'.proc r).frames = 1 + ∑ r ∈ s.live, (s.proc r).frames := by
      rw [hlive, sum_insert hfresh, hself, sum_congr rfl fun r hr => by rw [hother hr]]
      congr 1
      rw [hq]
      rfl
    have hfr : s'.frames = s.frames := by rw [hs']
    have := h.frames
    omega
  · refine hall (P := fun _ q => PAGE_SIZE * q.backed ≤ q.reserved) ?_ h.backed r hr
    rw [hq]
    exact le_rfl

/-- **`create_child_with`**: every exit gives back what was taken, or the child has it. -/
theorem createChildWith_some {cpus : Nat} (quota handleLimit ceiling threads timers : Nat) (grow : Bool)
    (h : Inv total s .empty 0) (hp : parent ∈ s.live) (hw : (s.proc parent).stage = .whole)
    (hcpus : without (if cpus = 0 then (s.proc parent).cpus else cpus) (s.proc parent).cpus = 0) :
    ∃ r s', s.createChildWith parent quota handleLimit ceiling threads timers cpus grow = some (r, s') ∧
      Inv total s' .empty 0 ∧ ((∃ e, r = .error e ∧ Kept s s') ∨ ∃ c, r = .ok c ∧ Born s s' c) := by
  obtain ⟨payer, hpay⟩ : ∃ payer, payer = s.payerOf parent := ⟨_, rfl⟩
  have hpaymem : payer ∈ s.live := hpay ▸ h.family.payerOf_mem hp
  unfold Sys.createChildWith
  simp only [hcpus, ne_eq, not_true, if_false, ← hpay]
  split
  · exact ⟨_, s, rfl, h, .inl ⟨_, rfl, Kept.refl s⟩⟩
  next s₁ hc₁ =>
  obtain ⟨h₁, hk₁, ht⟩ := chargeIn_ok h hpaymem hc₁
  split
  · next e _ =>
    obtain ⟨s', he, h', hk'⟩ := refundIn_some h₁ (by rwa [hk₁.live]) fun _ _ => rfl
    exact ⟨_, s', by rw [he]; rfl, h', .inl ⟨e, rfl, hk₁.trans hk'⟩⟩
  next s₂ hc₂ =>
  obtain ⟨h₂, hk₂, hm⟩ := chargeIn_ok h₁ (by rwa [hk₁.live]) hc₂
  have hk₂ := hk₁.trans hk₂
  split
  · next e _ =>
    obtain ⟨s', he, h', hk'⟩ := giveBack_some h₂ (by rwa [hk₂.live]) fun _ _ => rfl
    exact ⟨_, s', by rw [he]; rfl, h', .inl ⟨e, rfl, hk₂.trans hk'⟩⟩
  next s₃ hc₃ =>
  obtain ⟨h₃, hk₃, -⟩ := chargeIn_ok h₂ (by rwa [hk₂.live]) hc₃
  have hk₃ := hk₂.trans hk₃
  have hhand : ∀ k r, Hand.add (Hand.add (Hand.add .empty .threads payer threads) .timers payer timers) .quota parent quota
      k r = if some (giver parent payer k) = some r then given quota threads timers k else 0 := by
    intro k r
    by_cases hr : giver parent payer k = r
    · rw [← hr]
      cases k <;> simp [Hand.add, Hand.empty, giver, given]
    · rw [if_neg (by simpa using hr)]
      rw [eq_comm] at hr
      cases k <;> simp_all [Hand.add, Hand.empty, giver]
  obtain ⟨r, s₄, hcreate, hres⟩ := create_some parent quota handleLimit ceiling
    ⟨threads, timers, if threads = 0 then some payer else none, if cpus = 0 then (s.proc parent).cpus else cpus⟩
    grow h₃ (by rwa [hk₃.live]) (by rw [hhand]; simp [giver, given]) (ht nofun) (hm nofun)
  rw [hcreate]
  rcases hres with ⟨e, rfl, h₄, hk₄⟩ | ⟨s₅, rfl, h₅, hk₅, hpage, rfl⟩
  · have hk₄ := hk₃.trans hk₄
    obtain ⟨s₅, he₅, h₅, hk₅⟩ := refundIn_some
      h₄ (by rwa [hk₄.live]) fun _ _ => rfl
    have hk₅ := hk₄.trans hk₅
    obtain ⟨s₆, he₆, h₆, hk₆⟩ := giveBack_some h₅ (by rwa [hk₅.live]) fun _ _ => rfl
    exact ⟨_, s₆, by simp only [he₅, bind_some, he₆, map_some], h₆, .inl ⟨e, rfl, hk₅.trans hk₆⟩⟩
  · have hk := hk₃.trans hk₅
    have hp₅ : parent ∈ s₅.live := by rwa [hk.live]
    have hne : parent ≠ s₅.next := (h₅.family.next parent hp₅).ne
    have hpay₅ : payer = s₅.payerOf parent := by rw [hk.payerOf, hpay]
    have hadopt := insert_inv (if threads = 0 then some payer else none) (some parent)
      (if cpus = 0 then (s.proc parent).cpus else cpus) h₅ (fun u hu => some.inj hu ▸ hp₅) nofun hpage
      (ht nofun) (hm nofun) (fun r hr => by split at hr <;> simp_all) (hpay₅ ▸ hhand) rfl
    refine ⟨_, _, ?_, hadopt, .inr ⟨_, rfl, ⟨hk.next, by rw [hk.live], rfl, fun p hpc => ?_, ?_, fun k => ?_⟩⟩⟩
    · have hstage : (s₅.proc parent).stage = .whole := (hk.like parent).stage.trans hw
      simp only [Sys.adopt, update_of_ne hne, update_self]
      rw [if_pos ⟨hstage, rfl⟩]
      simp [Sys.modify]
    · simp only [update_of_ne hpc]
      exact hk.like p
    · simp only [update_self]
      rfl
    · simp only [update_self]
      cases k <;> exact ⟨rfl, rfl⟩

/-! ## Parts that go back -/

theorem returnAll_some {a : Kind → Nat} (h : Inv total s x n)
    (hp : p ∈ s.live) (hpart : ∀ k, Part part ((s.proc p).acct k) (a k)) :
    ∃ s', s.returnAll part p = some (a, s') ∧ Moved s s' ∧
      Inv total s' (fun j r => x j r + if s.source j p = some r then a j else 0) n ∧
      (∀ q, q ≠ p → Like (s.proc q) (s'.proc q)) ∧ ∀ j, (s'.proc p).acct j =
        { (s.proc p).acct j with returned := ((s.proc p).acct j).returned + a j, closed := true } := by
  obtain ⟨s₁, he₁, hm₁, h₁, ha₁⟩ := returnIn_some h hp (hpart .quota)
  have hacct₁ : (s₁.proc p).acct .threads = (s.proc p).acct .threads := by rw [ha₁]; simp
  obtain ⟨s₂, he₂, hm₂, h₂, ha₂⟩ := returnIn_some h₁ (by rwa [hm₁.live])
    (by rw [hacct₁]; exact hpart .threads)
  have hacct₂ : (s₂.proc p).acct .timers = (s.proc p).acct .timers := by
    rw [ha₂, if_neg (by simp), ha₁, if_neg (by simp)]
  have hm₂ := hm₁.trans hm₂
  obtain ⟨s₃, he₃, hm₃, h₃, ha₃⟩ := returnIn_some h₂ (by rwa [hm₂.live])
    (by rw [hacct₂]; exact hpart .timers)
  refine ⟨s₃, ?_, hm₂.trans hm₃, ?_, fun q hq => ?_, fun j => ?_⟩
  · rw [returnAll, he₁, bind_some, he₂, bind_some, he₃, map_some]
    congr 2
    funext k
    cases k <;> rfl
  · refine h₃.congrHand fun j r => ?_
    rw [hm₁.tree.source, hm₂.tree.source]
    by_cases hr : s.source j p = some r
    · cases j <;> simp
    · cases j <;> simp
  · rw [(hm₂.trans hm₃).proc q]
    refine ⟨rfl, rfl, rfl, rfl, fun k => ?_⟩
    rw [ha₃, if_neg (by simp [hq]), ha₂, if_neg (by simp [hq]), ha₁, if_neg (by simp [hq])]
    exact ⟨rfl, rfl, rfl⟩
  · cases j with
    | quota => rw [ha₃, if_neg (by simp), ha₂, if_neg (by simp), ha₁, if_pos (by simp)]
    | threads => rw [ha₃, if_neg (by simp), ha₂, if_pos (by simp), hacct₁]
    | timers => rw [ha₃, if_pos (by simp), hacct₂]

/-- The parts that `p` gave back go to its parent and the parent's payer, once `p` is past its stage or gone. -/
theorem giveParent_some {a : Kind → Nat}
    (h : Inv total s' (fun j r => empty j r + if s.source j p = some r then a j else 0) 0) (hp : parent ∈ s'.live)
    (hpar : (s.proc p).parent = some parent) (hlike : Like (s.proc parent) (s'.proc parent)) :
    ∃ s'', s'.giveParent parent a = some s'' ∧ Inv total s'' .empty 0 ∧ Kept s' s'' := by
  obtain ⟨payer, hpay⟩ : ∃ payer, payer = s'.payerOf parent := ⟨_, rfl⟩
  have hpaymem : payer ∈ s'.live := hpay ▸ h.family.payerOf_mem hp
  have hsource : ∀ j, s.source j p = some (giver parent payer j) := by
    intro j
    rw [source_eq, hpar, hpay]
    unfold payerOf
    rw [hlike.sharePayer]
    rfl
  obtain ⟨s₁, he₁, h₁, hk₁⟩ := refundIn_some (k := .quota) (m := a .quota)
    (x := fun j r => empty j r + (if j = .threads ∧ r = payer then a .threads else 0) +
      if j = .timers ∧ r = payer then a .timers else 0) h hp fun j r => by
        simp only [hsource, some.injEq]
        by_cases hr : giver parent payer j = r
        · rw [← hr]
          cases j <;> simp [giver]
        · cases j <;> simp_all [giver, eq_comm]
  obtain ⟨s₂, he₂, h₂, hk₂⟩ := giveBack_some h₁ (by rwa [hk₁.live]) fun _ _ => rfl
  refine ⟨s₂, ?_, h₂, hk₁.trans hk₂⟩
  rw [giveParent, he₁, bind_some, hk₁.payerOf, ← hpay]
  exact he₂

/-- A process changes its stage or its place in its parent's list. -/
theorem Inv.mark (h : Inv total s x n) (hp : p ∈ s.live)
    (hf : f (s.proc p) = { s.proc p with stage := (f (s.proc p)).stage, listed := (f (s.proc p)).listed })
    (hlisted : (s.proc p).parent ≠ none → (f (s.proc p)).stage ≠ .quota → (f (s.proc p)).listed = true) :
    Inv total (s.modify p f) x n := by
  have hr : Reshaped s { s.modify p f with frames := s.frames } :=
    reshaped_modify (by rw [hf]) (by rw [hf]) (by rw [hf])
  have hsame : ∀ q, (s.modify p f).proc q = { s.proc q with
      stage := ((s.modify p f).proc q).stage, listed := ((s.modify p f).proc q).listed } := by
    intro q
    by_cases hq : q = p
    · subst hq
      rw [proc_modify_self]
      exact hf
    · rw [proc_modify_of_ne hq]
  refine h.reshape hr (fun k r hmem => ?_) ?_ (fun q hq => ?_) fun q hq => ?_
  · exact congrArg (· + x k r) (hr.tree.own (fun q => (congrArg (Process.has · k) (hsame q)).trans (by cases k <;> rfl)) hmem)
  · rw [← h.frames]
    congr 2
    exact sum_congr rfl fun q _ => by rw [hsame q]; rfl
  · rw [hsame q]
    exact h.backed q hq
  · by_cases hqp : q = p
    · subst hqp
      rw [proc_modify_self]
      exact hlisted
    · rw [proc_modify_of_ne hqp]
      exact h.family.listed q hq

/-- A process without children goes that holds nothing and owes nothing. -/
theorem Inv.gone (h : Inv total s x n) (hp : p ∈ s.live) (hchild : ∀ c ∈ s.live, (s.proc c).parent ≠ some p)
    (howed : ∀ k, ((s.proc p).acct k).owed = 0) (hframes : (s.proc p).frames = 0) (hhas : ∀ k, (s.proc p).has k = 0) :
    Inv total { s with live := s.live.erase p } x n := by
  have hmem : ∀ {q}, q ∈ s.live.erase p → q ∈ s.live := fun hq => mem_of_mem_erase hq
  have hown : ∀ k, ∀ r ∈ s.live.erase p, own { s with live := s.live.erase p } k r = s.own k r := by
    intro k r hr
    have := collect_erase (fun c => some (s.spends k c)) (fun c => (s.proc c).has k) r hp
    rw [hhas, ite_self, zero_add] at this
    rw [own_eq hr, own_eq (hmem hr)]
    exact this
  refine ⟨fun k => ?_, fun q hq => h.sound q (hmem hq), ⟨fun q hq r hr => ?_, fun q hq => ?_,
    fun q hq => h.family.next q (hmem hq), fun q hq => h.family.root q (hmem hq),
    fun q hq => h.family.listed q (hmem hq)⟩, fun h0 => h.init (hmem h0), ?_, fun q hq => h.backed q (hmem hq)⟩
  · refine ((h.balanced k).close hp (howed k) fun q hq => h.family.source_ne hchild hq).congr (fun q _ => ?_)
      (fun q hq => ?_) (fun _ _ => rfl) fun _ _ => rfl
    · cases k <;> rfl
    · exact congrArg (· + x k q) (hown k q hq)
  · obtain ⟨h1, h2⟩ := h.family.parent q (hmem hq) r hr
    exact ⟨mem_erase.2 ⟨fun he => hchild q (hmem hq) (he ▸ hr), h1⟩, h2⟩
  · exact h.family.payer q (hmem hq)
  · have hsum := add_sum_erase s.live (fun q => (s.proc q).frames) hp
    have := h.frames
    show s.frames + ∑ q ∈ s.live.erase p, (s.proc q).frames + n = total
    omega

/-- **The stage Quota**: what is free goes to the parent, and the process is past its stage. -/
theorem leaveParent_some (h : Inv total s .empty 0) (hp : p ∈ s.live)
    (hclosed : ∀ k, ((s.proc p).acct k).closed = false) (hst : (s.proc p).stage ≠ .quota) :
    ∃ a s', s.leaveParent p = some (a, s') ∧ Inv total s' .empty 0 ∧ s'.live = s.live ∧ s'.next = s.next ∧
      (∀ q, q ≠ p → Like (s.proc q) (s'.proc q)) ∧ (s'.proc p).stage = .quota ∧
      ∀ k, ((s'.proc p).acct k).limit = ((s.proc p).acct k).limit ∧
        ((s'.proc p).acct k).returned = ((s.proc p).acct k).returned + a k := by
  obtain ⟨a, ha⟩ : ∃ a : Kind → Nat, a = fun k => ((s.proc p).acct k).owed - ((s.proc p).acct k).used := ⟨_, rfl⟩
  have hpart : ∀ k, Part returnFree ((s.proc p).acct k) (a k) := by
    intro k
    rw [ha]
    exact part_returnFree (h.sound p hp k) ((h.balanced k).room p hp) (hclosed k)
  obtain ⟨s₁, he₁, hm₁, h₁, hlike₁, ha₁⟩ := returnAll_some h hp hpart
  have hp₁ : p ∈ s₁.live := by rwa [hm₁.live]
  obtain ⟨s₂, hs₂⟩ : ∃ s₂, s₂ = s₁.modify p fun q => { q with stage := .quota } := ⟨_, rfl⟩
  have h₂ := h₁.mark (f := fun q => { q with stage := .quota }) hp₁ rfl fun _ hne => absurd rfl hne
  rw [← hs₂] at h₂
  have hself₂ : s₂.proc p = { s.proc p with acct := (s₁.proc p).acct, stage := .quota } := by
    rw [hs₂, proc_modify_self, hm₁.proc p]
  have hlive₂ : s₂.live = s.live := by rw [hs₂]; exact hm₁.live
  have hnext₂ : s₂.next = s.next := by rw [hs₂]; exact hm₁.next
  have hlike₂ : ∀ q, q ≠ p → Like (s.proc q) (s₂.proc q) := by
    intro q hq
    rw [hs₂, proc_modify_of_ne hq]
    exact hlike₁ q hq
  have hacct₂ : ∀ k, ((s₂.proc p).acct k).limit = ((s.proc p).acct k).limit ∧
      ((s₂.proc p).acct k).returned = ((s.proc p).acct k).returned + a k := by
    intro k
    rw [hself₂]
    simp [ha₁]
  unfold leaveParent
  rw [he₁, bind_some]
  simp only [← hs₂]
  have hpar₂ : (s₂.proc p).parent = (s.proc p).parent := by rw [hself₂]
  rw [hpar₂]
  cases hpar : (s.proc p).parent with
  | none =>
    refine ⟨a, s₂, rfl, h₂.congrHand fun j r => ?_, hlive₂, hnext₂, hlike₂, by rw [hself₂], hacct₂⟩
    rw [source_eq, hpar]
    simp
  | some parent =>
    obtain ⟨hparent, hlt⟩ := h.family.parent p hp parent hpar
    obtain ⟨s₃, he₃, h₃, hk₃⟩ := giveParent_some h₂ (by rwa [hlive₂]) hpar (hlike₂ parent (by omega))
    have hlisted : (s₃.proc p).listed = true := by
      rw [(hk₃.like p).listed, hself₂]
      exact h.family.listed p hp (by simp [hpar]) hst
    have hstage : (s₃.proc p).stage = .quota := by rw [(hk₃.like p).stage, hself₂]
    have h₄ := h₃.mark (f := fun q => { q with listed := false }) (by rwa [hk₃.live, hlive₂]) rfl
      fun _ hne => absurd hstage hne
    refine ⟨a, _, by simp only [he₃, bind_some, hlisted, if_true], h₄, hk₃.live.trans hlive₂,
      hk₃.next.trans hnext₂, fun q hq => ?_, ?_, fun k => ?_⟩
    · rw [proc_modify_of_ne hq]
      exact (hlike₂ q hq).trans (hk₃.like q)
    · rw [proc_modify_self]
      exact hstage
    · rw [proc_modify_self]
      have hk := (hk₃.like p).acct k
      exact ⟨hk.1.trans (hacct₂ k).1, hk.2.1.trans (hacct₂ k).2⟩

/-- **The last portion of the stage Shell**: the rest goes to the parent, and the process is gone. -/
theorem free_some (h : Inv total s .empty 0) (hp : p ∈ s.live) (hchild : ∀ c ∈ s.live, (s.proc c).parent ≠ some p)
    (hheld : (s.proc p).held = 0) (hbacked : (s.proc p).backed = 0) (hthreads : (s.proc p).threads = 0)
    (htimers : (s.proc p).timers = 0) :
    ∃ a s', s.free p = some (a, s') ∧ Inv total s' .empty 0 ∧ s'.live = s.live.erase p ∧ s'.next = s.next ∧
      (∀ q, q ≠ p → Like (s.proc q) (s'.proc q)) ∧ ∀ k, a k = ((s.proc p).acct k).owed := by
  obtain ⟨a, ha⟩ : ∃ a : Kind → Nat, a = fun k => ((s.proc p).acct k).owed := ⟨_, rfl⟩
  have hhas : ∀ k, (s.proc p).has k = 0 := by
    intro k
    cases k with
    | quota => exact hheld
    | threads => exact hthreads
    | timers => exact htimers
  have hused : ∀ k, ((s.proc p).acct k).used = 0 := by
    intro k
    have hnone : collect s.live (s.source k) (fun q => ((s.proc q).acct k).owed) p = 0 :=
      collect_eq_zero fun c hc hcp => absurd hcp (h.family.source_ne hchild hc)
    have hown : s.own k p = 0 := by
      rw [own_eq hp]
      refine collect_eq_zero fun c hc hcp => ?_
      by_cases hcp' : c = p
      · rw [hcp', hhas]
      · exact absurd (some.inj hcp) (h.family.spends_ne hchild hc hcp')
    rw [(h.balanced k).spent p hp, hnone, hown]
    rfl
  obtain ⟨s₁, he₁, hm₁, h₁, hlike₁, ha₁⟩ := returnAll_some (a := a) h hp fun k => by
    rw [ha]
    exact part_returnRest (h.sound p hp k) (hused k)
  have hparent₁ : ∀ q, (s₁.proc q).parent = (s.proc q).parent := fun q => by rw [hm₁.proc q]
  have hchild₁ : ∀ c ∈ s₁.live, (s₁.proc c).parent ≠ some p := by
    intro c hc
    rw [hparent₁]
    exact hchild c (hm₁.live ▸ hc)
  obtain ⟨s₂, hs₂⟩ : ∃ s₂ : Sys, s₂ = { s₁ with live := s₁.live.erase p } := ⟨_, rfl⟩
  have h₂ : Inv total s₂ (fun j r => empty j r + if s.source j p = some r then a j else 0) 0 :=
    hs₂ ▸ h₁.gone (by rwa [hm₁.live]) hchild₁ (fun k => by
      rw [ha₁, ha]
      unfold owed
      simp only
      omega) (by rw [hm₁.proc p]; unfold Process.frames; unfold Process.held PAGE_SIZE at hheld; simp only; omega)
      (fun k => by rw [hm₁.proc p]; exact hhas k)
  have hlive₂ : s₂.live = s.live.erase p := by rw [hs₂, ← hm₁.live]
  have hlike₂ : ∀ q, q ≠ p → Like (s.proc q) (s₂.proc q) := hs₂ ▸ hlike₁
  unfold free
  rw [he₁, bind_some]
  simp only [← hs₂]
  rw [hparent₁ p]
  cases hpar : (s.proc p).parent with
  | none =>
    refine ⟨a, s₂, rfl, h₂.congrHand fun j r => ?_, hlive₂, by rw [hs₂]; exact hm₁.next, hlike₂, fun k => by rw [ha]⟩
    rw [source_eq, hpar]
    simp
  | some parent =>
    obtain ⟨hparent, hlt⟩ := h.family.parent p hp parent hpar
    obtain ⟨s₃, he₃, h₃, hk₃⟩ := giveParent_some h₂ (by rw [hlive₂]; exact mem_erase.2 ⟨by omega, hparent⟩) hpar
      (hlike₂ parent (by omega))
    refine ⟨a, s₃, by simp only [he₃, map_some], h₃, hk₃.live.trans hlive₂,
      hk₃.next.trans (by rw [hs₂]; exact hm₁.next), fun q hq => (hlike₂ q hq).trans (hk₃.like q), fun k => by rw [ha]⟩

/-! ## The parts that went back -/

/-- The record agrees with the accounts: nothing went back before the stage Quota, one part since, and two parts
that add up to the limit when the process is gone. -/
structure Logged (s : Sys) (g : Log) : Prop where
  limit : ∀ p ∈ s.live, ∀ k, g.limit k p = ((s.proc p).acct k).limit
  before : ∀ p ∈ s.live, (s.proc p).stage ≠ .quota → ∀ k,
    g.parts k p = [] ∧ ((s.proc p).acct k).returned = 0 ∧ ((s.proc p).acct k).closed = false
  since : ∀ p ∈ s.live, (s.proc p).stage = .quota → ∀ k, g.parts k p = [((s.proc p).acct k).returned]
  gone : ∀ p, p ∉ s.live → p < s.next → ∀ k, ∃ a b, g.parts k p = [a, b] ∧ a + b = g.limit k p

variable {g g' : Log}

/-- What the record has of a process that is there. -/
def Log.Agrees (g : Log) (q : Process) (p : Nat) : Prop :=
  ∀ k, g.limit k p = (q.acct k).limit ∧ if q.stage = .quota then g.parts k p = [(q.acct k).returned]
    else g.parts k p = [] ∧ (q.acct k).returned = 0 ∧ (q.acct k).closed = false

theorem Log.Agrees.like {q q' : Process} (h : g.Agrees q p) (hl : Like q q') : g.Agrees q' p := by
  intro k
  obtain ⟨h1, h2, h3⟩ := hl.acct k
  rw [hl.stage, h1, h2, h3]
  exact h k

theorem logged_iff : Logged s g ↔ (∀ p ∈ s.live, g.Agrees (s.proc p) p) ∧
    ∀ p, p ∉ s.live → p < s.next → ∀ k, ∃ a b, g.parts k p = [a, b] ∧ a + b = g.limit k p := by
  refine ⟨fun h => ⟨fun p hp k => ⟨h.limit p hp k, ?_⟩, h.gone⟩, fun h => ⟨fun p hp k => (h.1 p hp k).1,
    fun p hp hst k => ?_, fun p hp hst k => ?_, h.2⟩⟩
  · split
    · next hst => exact h.since p hp hst k
    · next hst => exact h.before p hp hst k
  · have := (h.1 p hp k).2
    rwa [if_neg hst] at this
  · have := (h.1 p hp k).2
    rwa [if_pos hst] at this

namespace Logged

theorem kept (h : Logged s g) (hk : Kept s s') : Logged s' g := by
  rw [logged_iff] at h ⊢
  rw [hk.live, hk.next]
  exact ⟨fun p hp => (h.1 p hp).like (hk.like p), h.2⟩

/-- A call that leaves every process but `p` as it was, and its record. -/
theorem change (h : Logged s g) (hlike : ∀ q, q ≠ p → Like (s.proc q) (s'.proc q))
    (hlive : ∀ q, q ≠ p → (q ∈ s'.live ↔ q ∈ s.live)) (hnext : ∀ q, q ≠ p → q < s'.next → q < s.next)
    (hg : ∀ q, q ≠ p → ∀ k, g'.limit k q = g.limit k q ∧ g'.parts k q = g.parts k q)
    (hself : p ∈ s'.live → g'.Agrees (s'.proc p) p)
    (hgone : p ∉ s'.live → ∀ k, ∃ a b, g'.parts k p = [a, b] ∧ a + b = g'.limit k p) : Logged s' g' := by
  rw [logged_iff] at h ⊢
  refine ⟨fun q hq => ?_, fun q hq hlt k => ?_⟩
  all_goals by_cases hqp : q = p
  · subst hqp
    exact hself hq
  · intro k
    rw [(hg q hqp k).1, (hg q hqp k).2]
    exact (h.1 q ((hlive q hqp).1 hq)).like (hlike q hqp) k
  · subst hqp
    exact hgone hq k
  · rw [(hg q hqp k).1, (hg q hqp k).2]
    exact h.2 q (fun hmem => hq ((hlive q hqp).2 hmem)) (hnext q hqp hlt) k

theorem made (h : Logged s g) {c : Nat} (hb : Born s s' c) : Logged s' (g.made s' c) := by
  refine h.change hb.like (fun q hq => ?_) (fun q hq hlt => ?_) (fun q hq k => ?_) (fun _ k => ?_) fun hc => ?_
  · rw [hb.live, mem_insert, or_iff_right hq]
  · rw [hb.next] at hlt
    rw [← hb.fresh]
    omega
  · simp [Log.made, hq]
  · rw [hb.stage]
    exact ⟨by simp [Log.made], by simp [Log.made], hb.acct k⟩
  · exact absurd (hb.live ▸ mem_insert_self ..) hc

theorem finish (h : Logged s g) (hp : p ∈ s.live) (hst : (s.proc p).stage ≠ .quota) :
    Logged (s.modify p fun q => { q with stage := .teardown }) g := by
  refine h.change (fun q hq => ?_) (fun _ _ => Iff.rfl) (fun _ _ hlt => hlt) (fun _ _ _ => ⟨rfl, rfl⟩)
    (fun _ k => ?_) fun hn => absurd hp hn
  · rw [proc_modify_of_ne hq]
    exact (Kept.refl s).like q
  · rw [proc_modify_self]
    exact ⟨h.limit p hp k, h.before p hp hst k⟩

theorem gives_self (a : Kind → Nat) : (g.gives p a).parts k p = g.parts k p ++ [a k] := by
  simp [Log.gives]

theorem gives_of_ne (a : Kind → Nat) (hq : q ≠ p) :
    (g.gives p a).limit k q = g.limit k q ∧ (g.gives p a).parts k q = g.parts k q := by
  simp [Log.gives, hq]

theorem leave {a : Kind → Nat} (h : Logged s g) (hp : p ∈ s.live) (hst : (s.proc p).stage ≠ .quota)
    (hlive : s'.live = s.live) (hnext : s'.next = s.next) (hlike : ∀ q, q ≠ p → Like (s.proc q) (s'.proc q))
    (hst' : (s'.proc p).stage = .quota) (hacct : ∀ k, ((s'.proc p).acct k).limit = ((s.proc p).acct k).limit ∧
      ((s'.proc p).acct k).returned = ((s.proc p).acct k).returned + a k) : Logged s' (g.gives p a) := by
  refine h.change hlike (fun q _ => by rw [hlive]) (fun q _ hlt => hnext ▸ hlt) (fun q hq k => gives_of_ne a hq)
    (fun _ k => ?_) fun hn => absurd (hlive ▸ hp) hn
  obtain ⟨hnil, hzero, -⟩ := h.before p hp hst k
  rw [if_pos hst', (hacct k).1, gives_self, hnil, (hacct k).2, hzero, zero_add]
  exact ⟨h.limit p hp k, rfl⟩

theorem free {a : Kind → Nat} (h : Logged s g) (hp : p ∈ s.live) (hst : (s.proc p).stage = .quota)
    (hsound : ∀ k, ((s.proc p).acct k).Sound k) (hlive : s'.live = s.live.erase p) (hnext : s'.next = s.next)
    (hlike : ∀ q, q ≠ p → Like (s.proc q) (s'.proc q)) (ha : ∀ k, a k = ((s.proc p).acct k).owed) :
    Logged s' (g.gives p a) := by
  refine h.change hlike (fun q hq => ?_) (fun q _ hlt => hnext ▸ hlt) (fun q hq k => gives_of_ne a hq)
    (fun hmem => ?_) fun _ k => ⟨((s.proc p).acct k).returned, a k, ?_, ?_⟩
  · rw [hlive, mem_erase, and_iff_right hq]
  · rw [hlive] at hmem
    exact absurd hmem (notMem_erase p _)
  · rw [gives_self, h.since p hp hst k]
    rfl
  · have := (hsound k).returned
    show _ = g.limit k p
    rw [ha, h.limit p hp k, owed]
    omega

end Logged

/-! ## The other calls, and runs -/

theorem PageLog.total_pop {l l' : PageLog} (h : l.pop = some l') : l'.total + 1 = l.total := by
  unfold PageLog.pop at h
  split at h
  · split at h
    · cases h
      unfold PageLog.total
      simp only
      omega
    · next hlist =>
      cases h
      unfold PageLog.inList at hlist
      unfold PageLog.total
      simp only
      omega
  · split at h
    · cases h
    · cases h
      unfold PageLog.total
      simp only
      omega

variable {op : Op} {ops : List Op} {bytes : Nat}

/-- A call that keeps the tree and every part, with the record as it was. -/
def Passed (total : Nat) (s : Sys) (op : Op) : Prop :=
  ∀ g, ∃ s', exec s g op = some (s', g) ∧ Inv total s' .empty 0 ∧ Kept s s'

section
variable (h : Inv total s .empty 0)
include h

section
variable (hp : p ∈ s.live)
include hp

theorem charge_hold (hc : s.chargeIn k (s.spends k p) n = .ok s')
    (hf : (s'.proc p).Holds (f (s'.proc p))) (hk : (f (s'.proc p)).has k = (s'.proc p).has k + n)
    (hj : ∀ j, j ≠ k → (f (s'.proc p)).has j = (s'.proc p).has j) (hframes : (f (s'.proc p)).frames = (s'.proc p).frames)
    (hbacked : PAGE_SIZE * (s'.proc p).backed ≤ (s'.proc p).reserved →
      PAGE_SIZE * (f (s'.proc p)).backed ≤ (f (s'.proc p)).reserved) :
    Inv total (s'.modify p f) .empty 0 ∧ Kept s (s'.modify p f) := by
  obtain ⟨h₁, hk₁, -⟩ := chargeIn_ok h (h.family.spends_mem hp) hc
  have hspends : s.spends k p = s'.spends k p := by rw [spends, spends, hk₁.payerOf]
  rw [hspends] at h₁
  obtain ⟨h₂, hk₂⟩ := h₁.holdMore (g := s'.frames) (m := 0) (by rwa [hk₁.live]) hf hbacked hj hk (by omega)
  exact ⟨h₂, hk₁.trans hk₂⟩

theorem hold_refund {g : Nat} (hf : (s.proc p).Holds (f (s.proc p)))
    (hk : (s.proc p).has k = (f (s.proc p)).has k + n) (hj : ∀ j, j ≠ k → (f (s.proc p)).has j = (s.proc p).has j)
    (hframes : g + (f (s.proc p)).frames = s.frames + (s.proc p).frames)
    (hbacked : PAGE_SIZE * (s.proc p).backed ≤ (s.proc p).reserved →
      PAGE_SIZE * (f (s.proc p)).backed ≤ (f (s.proc p)).reserved) :
    ∃ s', ({ s.modify p f with frames := g } : Sys).refundIn k (s.spends k p) n = some s' ∧ Inv total s' .empty 0 ∧
      Kept s s' := by
  obtain ⟨h₁, hk₁⟩ := h.holdLess (m := 0) hp hf hbacked hj hk (by omega)
  obtain ⟨s', he, h', hk'⟩ := refundIn_some h₁ (by rw [hk₁.live]; exact h.family.spends_mem hp)
    fun _ _ => rfl
  exact ⟨s', he, h', hk₁.trans hk'⟩

/-- Bytes that were charged in advance cover a frame more, so the allocator has one. -/
theorem frames_ne_zero (hr : PAGE_SIZE * ((s.proc p).backed + 1) ≤ (s.proc p).reserved) : s.frames ≠ 0 := by
  rw [mul_add] at hr
  obtain ⟨h₁, -⟩ := h.holdLess (d := PAGE_SIZE) (g := s.frames) (m := 0)
    (f := fun q => { q with reserved := q.reserved - PAGE_SIZE }) hp rfl (fun _ => by simp only; omega)
    (fun j => Process.has_of_ne rfl rfl) (by simp only [Process.has, Process.held]; omega)
    (by simp only [Process.frames])
  exact h₁.frames_pos hp

/-- Frames come off the allocator or go back, for bytes that were charged in advance. -/
theorem hold_frames {g : Nat} (hf : f (s.proc p) = { s.proc p with
      reserved := (f (s.proc p)).reserved, tables := (f (s.proc p)).tables, backed := (f (s.proc p)).backed })
    (hheld : (f (s.proc p)).held = (s.proc p).held) (hframes : g + (f (s.proc p)).frames = s.frames + (s.proc p).frames)
    (hbacked : PAGE_SIZE * (f (s.proc p)).backed ≤ (f (s.proc p)).reserved) :
    Inv total { s.modify p f with frames := g } .empty 0 ∧ Kept s { s.modify p f with frames := g } := by
  refine h.hold hp (by rw [Process.Holds, hf]) (fun _ => hbacked) (fun k r => ?_) (by omega)
  cases k with
  | quota => rw [show (f (s.proc p)).has .quota = _ from hheld]; rfl
  | threads | timers => rw [hf]; rfl

theorem popPage_passed : Passed total s (.popPage p) := by
  intro g
  unfold exec
  dsimp only
  split
  · exact ⟨s, rfl, h, Kept.refl s⟩
  · next log hlog =>
    have htotal := PageLog.total_pop hlog
    obtain ⟨s', he, h', hk⟩ := hold_refund (n := PAGE_SIZE) (g := s.frames + 1)
      (f := fun q => { q with log := log }) h hp rfl (by simp only [Process.has, Process.held, PAGE_SIZE]; omega)
      (fun j => Process.has_of_ne rfl rfl) (by simp only [Process.frames]; omega) id
    exact ⟨s', congrArg (Option.map (·, g)) he, h', hk⟩

theorem allocTable_passed : Passed total s (.allocTable p) := by
  intro g
  unfold exec
  dsimp only
  rcases take_some h hp (Nat.zero_le _) with ht | ⟨s₁, ht, h₁, hk₁⟩
  · rw [ht]
    exact ⟨s, rfl, h, Kept.refl s⟩
  · rw [ht]
    obtain ⟨h₂, hk₂⟩ := hold_page (f := fun q => { q with tables := q.tables + 1 }) h₁ (by rwa [hk₁.live]) rfl
      (by simp only; omega)
    exact ⟨_, rfl, h₂, hk₁.trans hk₂⟩

theorem reserve_passed :
    Passed total s (.reserve p bytes) := by
  intro g
  unfold exec
  dsimp only
  split
  · next s₁ hc =>
    obtain ⟨h', hk⟩ := charge_hold (f := fun q => { q with reserved := q.reserved + bytes }) h hp hc rfl
      (add_assoc ..).symm (fun j => Process.has_of_ne rfl rfl) rfl fun hb => hb.trans (Nat.le_add_right _ _)
    exact ⟨_, rfl, h', hk⟩
  · exact ⟨s, rfl, h, Kept.refl s⟩

theorem unreserve_passed
    (hle : PAGE_SIZE * (s.proc p).backed + bytes ≤ (s.proc p).reserved) : Passed total s (.unreserve p bytes) := by
  intro g
  obtain ⟨s', he, h', hk⟩ := hold_refund (n := bytes)
    (f := fun q => { q with reserved := q.reserved - bytes }) h hp rfl (by simp only [Process.has, Process.held]; omega)
    (fun j => Process.has_of_ne rfl rfl) rfl fun _ => by simp only; omega
  exact ⟨s', congrArg (Option.map (·, g)) he, h', hk⟩

theorem spend_passed
    (hle : PAGE_SIZE * ((s.proc p).backed + 1) ≤ (s.proc p).reserved) : Passed total s (.spend p) := by
  intro g
  have hne := frames_ne_zero h hp hle
  rw [mul_add] at hle
  obtain ⟨h', hk⟩ := hold_frames (g := s.frames - 1)
    (f := fun q => { q with reserved := q.reserved - PAGE_SIZE, tables := q.tables + 1 }) h hp rfl
    (by simp only [Process.held, mul_add]; omega) (by simp only [Process.frames]; omega)
    (by simp only; omega)
  refine ⟨_, ?_, h', hk⟩
  unfold exec
  rw [takeFrame, if_neg hne]
  rfl

theorem fill_passed
    (hle : PAGE_SIZE * ((s.proc p).backed + n) ≤ (s.proc p).reserved) (hfree : n ≠ 1 → n ≤ s.frames) :
    Passed total s (.fill p n) := by
  intro g
  have hn : n ≤ s.frames := by
    by_cases h1 : n = 1
    · subst h1
      exact pos_of_ne_zero (frames_ne_zero h hp hle)
    · exact hfree h1
  obtain ⟨h', hk⟩ := hold_frames (g := s.frames - n) (f := fun q => { q with backed := q.backed + n }) h hp rfl rfl
    (by simp only [Process.frames]; omega) hle
  refine ⟨_, ?_, h', hk⟩
  unfold exec
  dsimp only
  rw [if_neg (Nat.not_lt.2 hn)]

theorem drain_passed (hle : n ≤ (s.proc p).backed) :
    Passed total s (.drain p n) := by
  intro g
  obtain ⟨h', hk⟩ := hold_frames (g := s.frames + n) (f := fun q => { q with backed := q.backed - n }) h hp rfl rfl
    (by simp only [Process.frames]; omega)
    ((Nat.mul_le_mul_left _ (Nat.sub_le _ _)).trans (h.backed p hp))
  exact ⟨_, rfl, h', hk⟩

theorem chargeThread_passed : Passed total s (.chargeThread p) := by
  intro g
  unfold exec
  dsimp only
  split
  · next s₁ hc =>
    obtain ⟨h', hk⟩ := charge_hold (f := fun q => { q with threads := q.threads + 1 }) h hp hc rfl rfl
      (fun j hj => by cases j <;> first | rfl | exact absurd rfl hj) rfl id
    exact ⟨_, rfl, h', hk⟩
  · exact ⟨s, rfl, h, Kept.refl s⟩

theorem chargeTimer_passed : Passed total s (.chargeTimer p) := by
  intro g
  unfold exec
  dsimp only
  split
  · next s₁ hc =>
    obtain ⟨h', hk⟩ := charge_hold (f := fun q => { q with timers := q.timers + 1 }) h hp hc rfl rfl
      (fun j hj => by cases j <;> first | rfl | exact absurd rfl hj) rfl id
    exact ⟨_, rfl, h', hk⟩
  · exact ⟨s, rfl, h, Kept.refl s⟩

end

omit h in
theorem Passed.logged (h : Passed total s op) (hg : Logged s g) :
    ∃ s' g', exec s g op = some (s', g') ∧ Inv total s' .empty 0 ∧ Logged s' g' := by
  obtain ⟨s', he, h', hk⟩ := h g
  exact ⟨s', g, he, h', hg.kept hk⟩

/-- **Step lemma**: a call that meets its contract fails no assertion, and the books balance after it. -/
theorem inv_exec (hg : Logged s g) (hm : op.Meets s) :
    ∃ s' g', exec s g op = some (s', g') ∧ Inv total s' .empty 0 ∧ Logged s' g' := by
  cases op with
  | createChild parent quota handleLimit ceiling threads timers cpus grow =>
    obtain ⟨hp, hw, hcpus⟩ := hm
    obtain ⟨r, s', he, h', hr⟩ := createChildWith_some quota handleLimit ceiling threads timers grow h hp hw hcpus
    unfold exec
    dsimp only
    rw [he]
    rcases hr with ⟨e, rfl, hk⟩ | ⟨c, rfl, hb⟩
    · exact ⟨s', g, rfl, h', hg.kept hk⟩
    · exact ⟨s', g.made s' c, rfl, h', hg.made hb⟩
  | allocPage p =>
    obtain ⟨b, s', he, h', hk⟩ := allocPage_some h hm (Nat.zero_le _)
    exact ⟨s', g, by unfold exec; dsimp only; rw [he]; rfl, h', hg.kept hk⟩
  | popPage p => exact (popPage_passed h hm).logged hg
  | allocTable p => exact (allocTable_passed h hm).logged hg
  | freeTable p =>
    obtain ⟨hp, hpos⟩ := hm
    obtain ⟨s', he, h', hk⟩ := hold_refund (n := PAGE_SIZE) (g := s.frames + 1)
      (f := fun q => { q with tables := q.tables - 1 }) h hp rfl (by simp only [Process.has, Process.held, PAGE_SIZE]; omega)
      (fun j => Process.has_of_ne rfl rfl) (by simp only [Process.frames]; omega) id
    exact ⟨s', g, congrArg (Option.map (·, g)) he, h', hg.kept hk⟩
  | reserve p bytes => exact (reserve_passed h hm).logged hg
  | unreserve p bytes => exact (unreserve_passed h hm.1 hm.2).logged hg
  | spend p => exact (spend_passed h hm.1 hm.2).logged hg
  | fill p n => exact (fill_passed h hm.1 hm.2.1 hm.2.2).logged hg
  | drain p n => exact (drain_passed h hm.1 hm.2).logged hg
  | chargeThread p => exact (chargeThread_passed h hm).logged hg
  | refundThread p =>
    obtain ⟨s', he, h', hk⟩ := hold_refund (k := .threads)
      (f := fun q => { q with threads := q.threads - 1 }) h hm.1 rfl (Nat.sub_add_cancel hm.2).symm
      (fun j hj => by cases j <;> first | rfl | exact absurd rfl hj) rfl id
    exact ⟨s', g, congrArg (Option.map (·, g)) he, h', hg.kept hk⟩
  | chargeTimer p => exact (chargeTimer_passed h hm).logged hg
  | refundTimer p =>
    obtain ⟨s', he, h', hk⟩ := hold_refund (k := .timers) (g := s.frames)
      (f := fun q => { q with timers := q.timers - 1 }) h hm.1 rfl (Nat.sub_add_cancel hm.2).symm
      (fun j hj => by cases j <;> first | rfl | exact absurd rfl hj) rfl id
    exact ⟨s', g, congrArg (Option.map (·, g)) he, h', hg.kept hk⟩
  | finish p =>
    obtain ⟨hp, hw⟩ := hm
    have hst : (s.proc p).stage ≠ .quota := by simp [hw]
    refine ⟨_, g, rfl, h.mark hp rfl fun hpar _ => ?_, hg.finish hp hst⟩
    exact h.family.listed p hp hpar hst
  | leaveParent p =>
    obtain ⟨hp, ht, -⟩ := hm
    have hst : (s.proc p).stage ≠ .quota := by simp [ht]
    obtain ⟨a, s', he, h', hlive, hnext, hlike, hst', hacct⟩ :=
      leaveParent_some h hp (fun k => (hg.before p hp hst k).2.2) hst
    exact ⟨s', g.gives p a, by unfold exec; dsimp only; rw [he]; rfl, h',
      hg.leave hp hst hlive hnext hlike hst' hacct⟩
  | free p =>
    obtain ⟨hp, hst, hchild, hheld, hbacked, hthreads, htimers⟩ := hm
    obtain ⟨a, s', he, h', hlive, hnext, hlike, ha⟩ := free_some h hp hchild hheld hbacked hthreads htimers
    exact ⟨s', g.gives p a, by unfold exec; dsimp only; rw [he]; rfl, h',
      hg.free hp hst (h.sound p hp) hlive hnext hlike ha⟩

theorem inv_run (hg : Logged s g) (hm : Met s g ops) :
    ∃ s' g', run s g ops = some (s', g') ∧ Inv total s' .empty 0 ∧ Logged s' g' := by
  induction ops generalizing s g with
  | nil => exact ⟨s, g, rfl, h, hg⟩
  | cons op ops ih =>
    obtain ⟨s₁, g₁, he, h₁, hg₁⟩ := inv_exec h hg hm.1
    obtain ⟨s', g', hr, h', hg'⟩ := ih h₁ hg₁ (hm.2 _ he)
    refine ⟨s', g', ?_, h', hg'⟩
    rw [run, he]
    exact hr

omit h in
/-- **The start**: init holds the quota of all frames, and one of them for its root table. -/
theorem createInit_inv {frames handleLimit ceiling cpus p₀ : Nat} {s₀ : Sys}
    (h : createInit frames handleLimit ceiling cpus = some (.ok p₀, s₀)) :
    Inv frames s₀ .empty 0 ∧ Logged s₀ (Log.start s₀) := by
  simp only [createInit, create] at h
  split at h
  · cases h
  split at h
  · cases h
  split at h
  · cases h
  next a ha =>
  obtain ⟨rfl, hroom⟩ := Kind.charge_ok (k := .quota) ⟨Nat.zero_le _, nofun⟩ ha
  have hpage : PAGE_SIZE ≤ frames * PAGE_SIZE := by
    simp only [new, owed] at hroom
    omega
  have hpos : frames ≠ 0 := by
    rintro rfl
    unfold PAGE_SIZE at hpage
    omega
  simp only [takeFrame, if_neg hpos, bind_some, paidSlot, if_true] at h
  have ht : Share.new THREADS = some (new THREADS) := rfl
  have hm : Share.new MAX_SYSTEM_TIMERS = some (new MAX_SYSTEM_TIMERS) := rfl
  simp only [ht, hm, bind_some, some.injEq, Prod.mk.injEq] at h
  obtain ⟨-, hs⟩ := h
  -- before init there is no process
  have hempty : ∀ proc, Inv frames ⟨∅, 0, proc, frames - 1⟩ .empty 1 := fun proc =>
    ⟨fun k => ⟨nofun, nofun, nofun⟩, nofun, ⟨nofun, nofun, nofun, nofun, nofun⟩, nofun, Nat.sub_add_cancel (by omega), nofun⟩
  subst hs
  refine ⟨insert_inv none none cpus (hempty _) nofun (fun _ => ⟨rfl, rfl⟩) hpage (by decide : THREADS ≤ Share.MAX)
    (by decide : MAX_SYSTEM_TIMERS ≤ Share.MAX) nofun (fun _ _ => rfl) rfl, ?_⟩
  have hone : ∀ {p}, p ∈ insert 0 (∅ : Finset Nat) → p = 0 := fun hp => by simpa using hp
  refine ⟨fun p hp k => rfl, fun p hp _ k => ?_, fun p hp hst => ?_, fun p hp hlt => ?_⟩
  · obtain rfl := hone hp
    cases k <;> exact ⟨rfl, rfl, rfl⟩
  · obtain rfl := hone hp
    cases hst
  · simp at hp hlt
    omega

/-- What an account was charged, as a sum over those that came off it. -/
theorem Inv.used_eq (hp : p ∈ s.live) :
    ((s.proc p).acct k).used = s.own k p + ∑ c ∈ s.live with s.source k c = some p, ((s.proc c).acct k).owed := by
  rw [(h.balanced k).spent p hp, sum_filter]
  rfl

end

/-- What is held of a share. -/
theorem sum_spenders (v : Process → Nat) :
    collect s.live (fun c => some (s.payerOf c)) (fun c => v (s.proc c)) p =
      ∑ c ∈ s.live with s.payerOf c = p, v (s.proc c) := by
  rw [sum_filter]
  simp [collect]

/-- **Quotas are conserved over the tree of processes.** From `create_init` on, through any calls within their
contracts, no refund underflows and no frame is missing (`run` gives a state). Then each quota has charged what
its process holds and what its children have not returned, each share what those hold that spend from it and
what the processes below have not returned; the two parts that a process gave back add up to its limit; the
frames that are held fit in init's limit; and a page that a quota lets through finds a frame. -/
theorem quota_safe {frames handleLimit ceiling cpus p₀ : Nat} {s₀ : Sys} {ops : List Op}
    (hinit : createInit frames handleLimit ceiling cpus = some (.ok p₀, s₀)) (hm : Met s₀ (Log.start s₀) ops) :
    ∃ s g, run s₀ (Log.start s₀) ops = some (s, g) ∧
      (∀ p ∈ s.live, ((s.proc p).acct .quota).used = (s.proc p).held +
        ∑ c ∈ s.live with (s.proc c).parent = some p,
          (((s.proc c).acct .quota).limit - ((s.proc c).acct .quota).returned)) ∧
      (∀ p ∈ s.live, ((s.proc p).acct .threads).used = (∑ c ∈ s.live with s.payerOf c = p, (s.proc c).threads) +
        ∑ c ∈ s.live with (s.proc c).parent.map s.payerOf = some p,
          (((s.proc c).acct .threads).limit - ((s.proc c).acct .threads).returned)) ∧
      (∀ p ∈ s.live, ((s.proc p).acct .timers).used = (∑ c ∈ s.live with s.payerOf c = p, (s.proc c).timers) +
        ∑ c ∈ s.live with (s.proc c).parent.map s.payerOf = some p,
          (((s.proc c).acct .timers).limit - ((s.proc c).acct .timers).returned)) ∧
      (∀ p, p ∉ s.live → p < s.next → ∀ k, ∃ a b, g.parts k p = [a, b] ∧ a + b = g.limit k p) ∧
      (∀ p ∈ s.live, ∀ k, g.limit k p = ((s.proc p).acct k).limit) ∧
      PAGE_SIZE * ∑ p ∈ s.live, (s.proc p).frames ≤ frames * PAGE_SIZE ∧
      ∀ p ∈ s.live, ∀ s', s.chargeIn .quota p PAGE_SIZE = .ok s' → s'.takeFrame ≠ none := by
  obtain ⟨h₀, hg₀⟩ := createInit_inv hinit
  obtain ⟨s, g, hrun, h, hg⟩ := inv_run h₀ hg₀ hm
  refine ⟨s, g, hrun, fun p hp => h.used_eq hp, fun p hp => ?_, fun p hp => ?_, hg.gone, hg.limit,
    (Nat.le_add_right _ _).trans h.total_le, fun p hp s' hc => ?_⟩
  · rw [← sum_spenders (·.threads)]
    exact h.used_eq hp
  · rw [← sum_spenders (·.timers)]
    exact h.used_eq hp
  · obtain ⟨h', hk, -⟩ := chargeIn_ok h hp hc
    simp [takeFrame, h'.frames_pos (by rwa [hk.live])]

/-- Init of ten frames and calls within their contracts. -/
theorem met_of_init (ops : List Op)
    (h : ((createInit 10 16 31 1).map fun r => (r.1.toOption, decide (Met r.2 (Log.start r.2) ops))) =
      some (some 0, true)) : ∃ s₀, createInit 10 16 31 1 = some (.ok 0, s₀) ∧ Met s₀ (Log.start s₀) ops := by
  obtain ⟨⟨r, s₀⟩, hinit, hr⟩ := map_eq_some_iff.1 h
  simp only [Prod.mk.injEq, decide_eq_true_eq] at hr
  cases r with
  | error e => cases hr.1
  | ok p =>
    cases hr.1
    exact ⟨s₀, hinit, hr.2⟩

/-- Init gives a child two of its ten pages. -/
theorem quota_safe_child :
    ∃ s₀ s g, createInit 10 16 31 1 = some (.ok 0, s₀) ∧
      run s₀ (Log.start s₀) [.createChild 0 8192 16 1 2 3 0 false] = some (s, g) ∧ s.live = {0, 1} ∧
      ((s.proc 0).acct .quota).used = (s.proc 0).held +
        ∑ c ∈ s.live with (s.proc c).parent = some 0,
          (((s.proc c).acct .quota).limit - ((s.proc c).acct .quota).returned) := by
  obtain ⟨s₀, hinit, hm⟩ := met_of_init [.createChild 0 8192 16 1 2 3 0 false] (by decide +kernel)
  have hend : ((createInit 10 16 31 1).bind fun r =>
      (run r.2 (Log.start r.2) [.createChild 0 8192 16 1 2 3 0 false]).map (·.1.live)) = some {0, 1} := by
    decide +kernel
  obtain ⟨s, g, hrun, hused, -⟩ := quota_safe hinit hm
  simp only [hinit, hrun, bind_some, map_some, some.injEq] at hend
  exact ⟨s₀, s, g, hinit, hrun, hend, hused 0 (by simp [hend])⟩

/-- **No frame is lost or held twice**, and each process has charged its quota for every frame it holds. -/
theorem frames_conserved {frames handleLimit ceiling cpus p₀ : Nat} {s₀ : Sys} {ops : List Op}
    (hinit : createInit frames handleLimit ceiling cpus = some (.ok p₀, s₀)) (hm : Met s₀ (Log.start s₀) ops) :
    ∃ s g, run s₀ (Log.start s₀) ops = some (s, g) ∧ s.frames + ∑ p ∈ s.live, (s.proc p).frames = frames ∧
      ∀ p ∈ s.live, PAGE_SIZE * (s.proc p).frames ≤ ((s.proc p).acct .quota).used ∧
        ((s.proc p).acct .quota).used + ((s.proc p).acct .quota).returned ≤ ((s.proc p).acct .quota).limit := by
  obtain ⟨h₀, hg₀⟩ := createInit_inv hinit
  obtain ⟨s, g, hrun, h, -⟩ := inv_run h₀ hg₀ hm
  refine ⟨s, g, hrun, h.frames, fun p hp => ⟨?_, ?_⟩⟩
  · rw [h.used_eq hp, Process.frames, Nat.mul_add]
    exact (Nat.add_le_add_left (h.backed p hp) _).trans (Nat.le_add_right _ _)
  · have hroom := (h.balanced .quota).room p hp
    have hret := (h.sound p hp .quota).returned
    unfold owed at hroom
    omega

/-- A child of three pages has two tables more and is refused the next; init fills two pages, drains one and the
child frees a table. -/
theorem frames_conserved_child :
    let ops : List Op := [.createChild 0 12288 16 1 2 3 0 false, .allocTable 1, .allocTable 1, .allocTable 1,
      .reserve 0 8192, .fill 0 2, .drain 0 1, .freeTable 1]
    ∃ s₀ s g, createInit 10 16 31 1 = some (.ok 0, s₀) ∧ run s₀ (Log.start s₀) ops = some (s, g) ∧
      s.live = {0, 1} ∧ s.frames = 6 ∧ s.frames + ∑ p ∈ s.live, (s.proc p).frames = 10 := by
  intro ops
  obtain ⟨s₀, hinit, hm⟩ := met_of_init ops (by decide +kernel)
  have hend : ((createInit 10 16 31 1).bind fun r =>
      (run r.2 (Log.start r.2) ops).map fun r => (r.1.live, r.1.frames)) = some ({0, 1}, 6) := by
    decide +kernel
  obtain ⟨s, g, hrun, hsum, -⟩ := frames_conserved hinit hm
  rw [hinit, bind_some, hrun, map_some, some.injEq, Prod.mk.injEq] at hend
  exact ⟨s₀, s, g, hinit, hrun, hend.1, hend.2, hsum⟩

end Quota
