import Mathlib.Data.Finset.Card
import Stafeto.Lib.Bytes
import Stafeto.Lib.Program
import Stafeto.Lib.Run

/-!
# Datagram sockets (services/pipe/src/sockets.rs, lib.rs)

A socket that shuts its writing or goes tells its peer. Two streams are each other's peers; a datagram socket has
as its peer the socket it is connected to, which need not be connected to it and is told all the same
(`dgram_disturbed`). `dgram_undisturbed` says exactly when an operation leaves the sockets alone that do not name the
one it is on, and what the end of the data then means in a run.

Of a call that streams have as well only the part for datagrams is here. The operations that wait and their wakes,
the pipes and the handles of passes are left out, and the buffer of a socket is the list of its datagrams.
-/

namespace Sockets

open Function List ByteStr Program Program.Prog

def SOCKETS : Nat := 40
def HELD_MAX : Nat := 32
def SOCK_CREATED_MAX : Nat := 20
def ROOT_SOCKS : Nat := 28
def ANC_MAX : Nat := 4
def INFLIGHT_MAX : Nat := 64
def PORT_FIRST : Nat := 49152
def PORT_COUNT : Nat := 16384
def RING : Nat := 4096
def SEND_MAX : Nat := 800
/-- `DGRAM_RCVBUF` (sockets.rs:53). -/
def DGRAM_RCVBUF : Nat := 2 * (4 + (20 + 108) + SEND_MAX)

inductive Domain where
  | unix
  | inet
deriving DecidableEq

inductive Kind where
  | stream
  | dgram
  /-- An open message queue, `MQ_KIND`. -/
  | mq
deriving DecidableEq

inductive Err where
  | badFd | notSocket | nfile | mfile | invalid | notSupported | noFamily | inUse | badType | refused
  | notConnected | noDestination | broken | again | tooBig | tooManyRefs | noBuffers
deriving DecidableEq

/-- `Addr` (proto/pipe/src/sock.rs:149); no kind is `ADDR_NONE`. -/
structure Addr where
  kind : Option Domain
  port : Nat
  node : Nat
  path : Bytes
deriving DecidableEq

def Addr.NONE : Addr := ⟨none, 0, 0, []⟩

def Addr.inet (port : Nat) : Addr := { Addr.NONE with kind := some .inet, port }

/-- A description, by the bits of its number. -/
inductive Desc where
  | pipe (id : Nat)
  | named (slot : Nat)
  | sock (slot : Nat)
  | pass (slot : Nat)
deriving DecidableEq

def Desc.isPass : Desc → Bool
  | pass _ => true
  | _ => false

/-- `Anc` (sockets.rs:58). -/
structure Anc where
  pos : Nat
  ids : List Desc
deriving DecidableEq

/-- A record of a receive buffer, as `dgram_send` puts it (sockets.rs:1125). -/
structure Datagram where
  source : Addr
  bytes : Bytes

def Datagram.size (d : Datagram) : Nat := 4 + (20 + d.source.path.length) + d.bytes.length

/-- `Sock` (sockets.rs:73). -/
structure Sock where
  live : Bool
  era : Nat
  refs : Nat
  nonblock : Bool
  domain : Domain
  kind : Kind
  rcvbuf : Nat
  creator : Nat
  root : Nat
  bound : Bool
  addr : Addr
  peerAddr : Addr
  peer : Option (Nat × Nat)
  connected : Bool
  rxEof : Bool
  txBroken : Bool
  rdShut : Bool
  wrShut : Bool
  buf : List Datagram
  rxTotal : Nat
  txTotal : Nat
  anc : List Anc
  flying : Nat

/-- `Sock::FREE` (sockets.rs:123). -/
def Sock.FREE : Sock := ⟨false, 0, 0, false, .unix, .stream, RING, 0, 0, false, .NONE, .NONE, none, false, false,
  false, false, false, [], 0, 0, [], 0⟩

/-- `Sockets` (sockets.rs:165); `limbo` has its last entry first. -/
structure Sys where
  sock : Nat → Sock
  dropping : Nat → Nat
  dirty : Nat → Bool
  limbo : List Desc
  inflight : Nat
  port : Nat

namespace Sys

def new : Sys := ⟨fun _ => .FREE, fun _ => 0, fun _ => false, [], 0, 0⟩

/-- One socket changes. -/
def put (s : Sys) (i : Nat) (f : Sock → Sock) : Sys := { s with sock := update s.sock i (f (s.sock i)) }

/-- Each socket among the descriptions changes. -/
def putEach (f : Sock → Sock) (s : Sys) (ids : List Desc) : Sys :=
  ids.foldl (fun s id => match id with
    | .sock i => s.put i f
    | _ => s) s

/-- `peer_of` (sockets.rs:234). -/
def peerOf (s : Sys) (i : Nat) : Option Nat :=
  (s.sock i).peer.bind fun p => if (s.sock p.1).live ∧ (s.sock p.1).era = p.2 then some p.1 else none

/-- `room` (sockets.rs:241). -/
def room (s : Sys) (i : Nat) : Nat := min (s.sock i).rcvbuf RING - ((s.sock i).buf.map Datagram.size).sum

/-- `live_socks` (sockets.rs:410). -/
def liveSocks (s : Sys) (f : Sock → Bool) : Nat := (range SOCKETS).countP fun j => (s.sock j).live && f (s.sock j)

/-- `port_used` (sockets.rs:544). -/
def portUsed (s : Sys) (kind : Kind) (port : Nat) : Bool :=
  (range SOCKETS).any fun j =>
    let o := s.sock j
    o.live ∧ o.domain = .inet ∧ o.kind = kind ∧ o.bound ∧ o.addr.port = port

/-- `lookup` (sockets.rs:634). -/
def lookup (s : Sys) (i : Nat) (addr : Addr) : Option Nat :=
  (range SOCKETS).find? fun j =>
    let o := s.sock j
    o.live ∧ o.bound ∧ o.domain = (s.sock i).domain ∧ o.kind = (s.sock i).kind ∧
      if (s.sock i).domain = .inet then o.addr.port = addr.port else o.addr.node = addr.node

/-- `unfly` (sockets.rs:272). -/
def unfly (s : Sys) (a : Anc) : Sys := s.putEach (fun o => { o with flying := o.flying - 1 }) a.ids

/-- `limbo_push` (sockets.rs:290). -/
def limboPush (s : Sys) (id : Desc) : Sys :=
  if s.limbo.length < INFLIGHT_MAX then { s with limbo := id :: s.limbo } else s

/-- `sock_unref` (sockets.rs:1418), without the work of an open message queue and of a listening stream. -/
def unref (s : Sys) (i count : Nat) : Sys :=
  let o := s.sock i
  let refs := o.refs - count
  if refs ≠ 0 ∨ o.live = false then s.put i fun o => { o with refs }
  else if o.kind = .mq then s.put i fun o => { o with refs, live := false, peer := none }
  else
    let left := { s with
      sock := fun j =>
        if j = i then { o with refs, live := false, anc := [], peer := none }
        else if s.peerOf i = some j then { s.sock j with peer := none, rxEof := true, txBroken := true }
        else s.sock j }
    o.anc.foldl (fun s a => a.ids.foldl limboPush (s.unfly a)) left

/-- What `sock_shutdown` changes (sockets.rs:806): `how` is 0 for reading, 1 for writing, 2 for both. -/
def shut (s : Sys) (i how : Nat) : Sys := { s with
  sock := fun j =>
    let o := s.sock j
    { o with
      wrShut := o.wrShut || decide (how ≠ 0 ∧ j = i)
      rxEof := o.rxEof || decide (how ≠ 0 ∧ s.peerOf i = some j)
      rdShut := o.rdShut || decide (how ≠ 1 ∧ j = i)
      txBroken := o.txBroken || decide (how ≠ 1 ∧ s.peerOf i = some j) } }

/-- `gone` (lib.rs:648). -/
def gone (s : Sys) (held : Finset Desc) : Sys := { s with
  dropping := fun q => if .sock q ∈ held then s.dropping q + 1 else s.dropping q
  dirty := fun q => s.dirty q || decide (.sock q ∈ held) }

/-- `sock_step` (sockets.rs:1471), where it wakes nobody. -/
def step (s : Sys) : Sys :=
  match (range SOCKETS).find? s.dirty with
  | some i => { s with dirty := update s.dirty i false, dropping := update s.dropping i 0 }.unref i (s.dropping i)
  | none =>
    match s.limbo with
    | [] => s
    | .sock i :: limbo => { s with limbo, inflight := s.inflight - 1 }.unref i 1
    | _ :: limbo => { s with limbo, inflight := s.inflight - 1 }

/-- The socket whose references the next step takes back, and how many. -/
def due (s : Sys) : Option (Nat × Nat) :=
  (((range SOCKETS).find? s.dirty).map fun i => (i, s.dropping i)).or (s.limbo.head?.bind fun
    | .sock i => some (i, 1)
    | _ => none)

end Sys

/-! ## Calls -/

/-- A call that fails keeps what it changed before. -/
abbrev M := Prog Sys Err

variable {α β : Type}

def failIf (c : Prop) [Decidable c] (e : Err) : M Unit := if c then stop e else pure ()

def get : M Sys := fun s => (.ok s, s)

def modify (f : Sys → Sys) : M Unit := fun s => (.ok (), f s)

def put (i : Nat) (f : Sock → Sock) : M Unit := modify (·.put i f)

/-- `sock_slot` (sockets.rs:343). -/
def sockSlot (held : Finset Desc) (i : Nat) : M Unit := do
  let s ← get
  failIf (.sock i ∉ held ∨ (s.sock i).live = false) .badFd
  failIf ((s.sock i).kind = .mq) .notSocket

/-- `sock_alloc` (sockets.rs:414). -/
def sockAlloc (creator root : Nat) (domain : Domain) (kind : Kind) (nonblock : Bool) : M Nat := do
  failIf (kind = .mq) .invalid
  let s ← get
  failIf (ROOT_SOCKS ≤ s.liveSocks fun o => o.root = root) .nfile
  match (range SOCKETS).find? fun j => !(s.sock j).live with
  | none => stop .nfile
  | some i => do
    let rcvbuf := if domain = .unix ∧ kind = .dgram then DGRAM_RCVBUF else RING
    put i fun o => { Sock.FREE with
      live := true, era := (o.era + 1) % 2 ^ 32, refs := 1, nonblock, domain, kind, creator, root, rcvbuf }
    modify fun s => { s with dropping := update s.dropping i 0 }
    pure i

/-- `sock_create` (sockets.rs:459). -/
def sockCreate (held : Finset Desc) (creator root : Nat) (domain : Domain) (kind : Kind) (nonblock : Bool) :
    M (Finset Desc) := do
  let s ← get
  failIf (HELD_MAX < held.card + 1 ∨ SOCK_CREATED_MAX ≤ s.liveSocks fun o => o.creator = creator && o.refs ≠ 0) .mfile
  let i ← sockAlloc creator root domain kind nonblock
  pure (insert (.sock i) held)

/-- `free_port` (sockets.rs:533). -/
def freePort (kind : Kind) : Nat → M (Option Nat)
  | 0 => pure none
  | tries + 1 => do
    let s ← get
    let port := PORT_FIRST + s.port % PORT_COUNT
    modify fun s => { s with port := (s.port + 1) % 2 ^ 32 }
    if s.portUsed kind port then freePort kind tries else pure (some port)

/-- `autobind` (sockets.rs:550). -/
def autobind (i : Nat) : M Unit := do
  let s ← get
  if (s.sock i).bound ∨ (s.sock i).domain ≠ .inet then pure ()
  else
    match ← freePort (s.sock i).kind 4 with
    | none => stop .inUse
    | some port => put i fun o => { o with addr := .inet port, bound := true }

/-- `sock_bind` (sockets.rs:570). -/
def sockBind (held : Finset Desc) (i : Nat) (addr : Addr) : M Unit := do
  sockSlot held i
  let s ← get
  failIf (s.sock i).bound .invalid
  failIf (addr.kind ≠ some (s.sock i).domain) .noFamily
  if addr.kind = some .inet ∧ addr.port = 0 then autobind i
  else do
    if addr.kind = some .inet then failIf (s.portUsed (s.sock i).kind addr.port) .inUse
    else do
      failIf (addr.node = 0) .invalid
      -- a node that a socket of the past still names was made anew
      modify fun s => { s with sock := fun j =>
        let o := s.sock j
        if j < SOCKETS ∧ j ≠ i ∧ o.live ∧ o.domain = .unix ∧ o.bound ∧ o.addr.node = addr.node then
          { o with bound := false, addr := .NONE }
        else o }
    put i fun o => { o with addr, bound := true }

/-- `find` (sockets.rs:652). -/
def find (i : Nat) (addr : Addr) : M Nat := do
  let s ← get
  match s.lookup i addr with
  | some t => pure t
  | none =>
    let named := (range SOCKETS).any fun j =>
      let o := s.sock j
      o.live ∧ o.bound ∧ o.domain = .unix ∧ o.addr.node = addr.node
    stop (if (s.sock i).domain = .unix ∧ named then .badType else .refused)

/-- `sock_connect` of a datagram socket, which is `dgram_connect` (sockets.rs:726); `link` is in its last line. -/
def sockConnect (held : Finset Desc) (i : Nat) (addr : Addr) : M Unit := do
  sockSlot held i
  let s ← get
  if addr.kind = none then put i fun o => { o with peer := none, connected := false, peerAddr := .NONE }
  else do
    failIf (addr.kind ≠ some (s.sock i).domain) .noFamily
    let t ← find i addr
    autobind i
    modify fun s => s.put i fun o =>
      { o with peer := some (t, (s.sock t).era), connected := true, peerAddr := (s.sock t).addr }

/-- `sock_shutdown` (sockets.rs:792). -/
def sockShutdown (held : Finset Desc) (i how : Nat) : M Unit := do
  sockSlot held i
  failIf (2 < how) .invalid
  let s ← get
  failIf ((s.sock i).connected = false) .notConnected
  modify (·.shut i how)

/-- `travelers` (sockets.rs:882). -/
def travelers (held : Finset Desc) : List Desc → M Unit
  | [] => pure ()
  | .pass _ :: ids => travelers held ids
  | .named _ :: _ => stop .notSupported
  | id :: ids => if id ∈ held then travelers held ids else stop .badFd

/-- `enqueue_fds` (sockets.rs:1024). -/
def enqueueFds (p : Nat) (fds : List Desc) : M Unit := do
  let s ← get
  failIf (fds.any fun
    | .sock i => i = p ∨ (s.sock i).anc ≠ [] ∨ (s.sock p).flying ≠ 0
    | _ => false) .tooManyRefs
  failIf (ANC_MAX ≤ (s.sock p).anc.length) .again
  failIf (INFLIGHT_MAX < s.inflight + fds.length) .noBuffers
  modify (·.putEach (fun o => { o with refs := (o.refs + 1) % 2 ^ 16, flying := (o.flying + 1) % 2 ^ 16 }) fds)
  modify fun s => { s with inflight := s.inflight + fds.length }
  put p fun o => { o with anc := o.anc ++ [⟨o.txTotal, fds⟩] }

/-- `dgram_send` (sockets.rs:1061): the bytes sent, none to wait. -/
def dgramSend (i : Nat) (nonblock : Bool) (fds : List Desc) (dest : Addr) (bytes : Bytes) : M (Option Nat) := do
  let s ← get
  let lost : M (Option Nat) := if (s.sock i).domain = .inet then pure (some bytes.length) else stop .refused
  failIf (dest.kind ≠ none ∧ dest.kind ≠ some (s.sock i).domain) .noFamily
  failIf (dest.kind = none ∧ (s.sock i).connected = false) .noDestination
  match if dest.kind = none then s.peerOf i else s.lookup i dest with
  | none => if dest.kind = none then stop .refused else lost
  | some t => do
    failIf (s.sock i).wrShut .broken
    -- a socket with a destination of its own takes datagrams of that one only
    if (s.sock t).connected ∧ s.peerOf t ≠ some i then lost
    else do
      autobind i
      let s ← get
      let d : Datagram := ⟨(s.sock i).addr, bytes⟩
      if (s.sock t).rdShut then pure (some bytes.length)
      else if s.room t < d.size then
        if (s.sock i).domain = .inet then pure (some bytes.length)
        else if nonblock then stop .again
        else pure none
      else
        onStop (do
            (if fds = [] then pure () else enqueueFds t fds : M Unit)
            put t fun o => { o with buf := o.buf ++ [d], txTotal := (o.txTotal + 1) % 2 ^ 32 }
            pure (some bytes.length))
          fun e => if e = .again ∧ nonblock = false then pure none else stop e

/-- `sock_send` (sockets.rs:925) of a datagram socket. -/
def sockSend (held : Finset Desc) (i : Nat) (dontwait oob : Bool) (fds : List Desc) (dest : Addr) (bytes : Bytes) :
    M (Option Nat) := do
  sockSlot held i
  let s ← get
  failIf (SEND_MAX < bytes.length) .tooBig
  failIf (fds ≠ [] ∧ (s.sock i).domain ≠ .unix) .notSupported
  failIf (fds ≠ [] ∧ bytes = []) .invalid
  travelers held fds
  failIf (oob ∧ (fds ≠ [] ∨ bytes = [])) .invalid
  failIf oob .notSupported
  dgramSend i ((s.sock i).nonblock || dontwait) fds dest bytes

/-- `RecvOut` (sockets.rs:307). -/
structure RecvOut where
  bytes : Bytes
  trunc : Bool
  ctrunc : Bool
  fds : List Desc
  source : Addr

def RecvOut.none : RecvOut := ⟨[], false, false, [], .NONE⟩

/-- The descriptions of a message go to the session, `most` of them (sockets.rs:1254): what it holds then, what
it is told, and whether some were left out. -/
def deliver : Nat → List Desc → Finset Desc → M (Finset Desc × List Desc × Bool)
  | _, [], held => pure (held, [], false)
  | most, id :: ids, held => do
    if most = 0 ∨ id.isPass = false ∧ id ∈ held then
      modify fun s => { s.limboPush id with inflight := s.inflight + 1 }
    let (held, fds, cut) ← deliver (most - 1) ids (if most = 0 ∨ id.isPass then held else insert id held)
    pure (held, if most = 0 then fds else id :: fds, cut || decide (most = 0))

/-- `sock_recv` (sockets.rs:1152) of a datagram socket into `len` bytes: none to wait. -/
def sockRecv (held : Finset Desc) (i : Nat) (dontwait peek oob : Bool) (len most : Nat) :
    M (Finset Desc × Option RecvOut) := do
  sockSlot held i
  let s ← get
  failIf oob .invalid
  if (s.sock i).rdShut then pure (held, some .none)
  else
    match (s.sock i).buf with
    | [] =>
      if (s.sock i).rxEof then pure (held, some .none)
      else do
        failIf ((s.sock i).nonblock || dontwait) .again
        pure (held, none)
    | d :: buf =>
      let out := { RecvOut.none with bytes := d.bytes.take len, trunc := len < d.bytes.length, source := d.source }
      if peek then pure (held, some out)
      else
        match (s.sock i).anc.head?.filter (·.pos = (s.sock i).rxTotal) with
        | none => do
          put i fun o => { o with buf, rxTotal := (o.rxTotal + 1) % 2 ^ 32 }
          pure (held, some out)
        | some a => do
          let fresh := (a.ids.take most).countP fun id => id.isPass = false ∧ id ∉ held
          failIf (HELD_MAX < held.card + fresh) .mfile
          put i fun o => { o with buf, rxTotal := (o.rxTotal + 1) % 2 ^ 32, anc := o.anc.tail }
          modify fun s => { s.unfly a with inflight := s.inflight - a.ids.length }
          let (held, fds, ctrunc) ← deliver most a.ids held
          pure (held, some { out with ctrunc, fds })

/-- `sock_close` (sockets.rs:1405). -/
def sockClose (held : Finset Desc) (i : Nat) : M (Finset Desc) := do
  let s ← get
  failIf (.sock i ∉ held ∨ (s.sock i).live = false) .badFd
  modify (·.unref i 1)
  pure (held.erase (.sock i))

/-- What a session does to its socket `c`, or the service after the session went. -/
inductive Call where
  | bind (addr : Addr)
  | connect (addr : Addr)
  | send (dontwait oob : Bool) (fds : List Desc) (dest : Addr) (bytes : Bytes)
  | recv (dontwait peek oob : Bool) (len most : Nat)
  | shutdown (how : Nat)
  | close
  | gone
  | step

def Call.run (held : Finset Desc) (c : Nat) : Call → M Unit
  | bind addr => sockBind held c addr
  | connect addr => sockConnect held c addr
  | send dontwait oob fds dest bytes => do let _ ← sockSend held c dontwait oob fds dest bytes
  | recv dontwait peek oob len most => do let _ ← sockRecv held c dontwait peek oob len most
  | shutdown how => sockShutdown held c how
  | close => do let _ ← sockClose held c
  | gone => modify (·.gone held)
  | step => modify Sys.step

/-- What the peer of a socket is told: the socket shut a side, or went. -/
inductive News where
  | shut (how : Nat)
  | gone
deriving DecidableEq

def News.tell (o : Sock) : News → Sock
  | shut how => { o with rxEof := o.rxEof || decide (how ≠ 0), txBroken := o.txBroken || decide (how ≠ 1) }
  | gone => { o with peer := none, rxEof := true, txBroken := true }

/-- The news of a call on `c`: of a shutdown that is not refused, and of the last reference. -/
def Call.news (s : Sys) (held : Finset Desc) (c : Nat) : Call → Option News
  | shutdown how =>
    if .sock c ∈ held ∧ (s.sock c).live ∧ how ≤ 2 ∧ (s.sock c).connected then some (.shut how) else none
  | close => if .sock c ∈ held ∧ (s.sock c).live ∧ (s.sock c).refs ≤ 1 then some .gone else none
  | step => s.due.bind fun d => if (s.sock c).live ∧ (s.sock c).refs ≤ d.2 then some .gone else none
  | _ => none

/-- The socket `r` once the peer of `c` was told; a socket that goes does not tell itself. -/
def Sys.told (s : Sys) (c r : Nat) : Option News → Sock
  | none => s.sock r
  | some news => if s.peerOf c = some r ∧ (news = .gone → r ≠ c) then news.tell (s.sock r) else s.sock r

/-! ## What a call leaves alone -/

/-- What the others may not change: of the socket that is operated on (`own`) the end of its data alone. -/
def Sock.view (own : Bool) (o : Sock) : Bool × Option (Bool × Option (Nat × Nat) × Bool) :=
  (o.rxEof, if own then none else some (o.txBroken, o.peer, o.connected))

def Sys.view (own : Bool) (r : Nat) (s : Sys) := (s.sock r).view own

/-- The call leaves `v` of the state as it is. -/
def Keeps {γ : Type} (v : Sys → γ) (m : M α) : Prop := ∀ x, Triple (v · = x) m (fun _ s => v s = x) fun _ s => v s = x

section
variable {γ : Type} {v : Sys → γ} {own : Bool} {c i r n how : Nat} {s : Sys} {m : M α} {k : α → M β} {e : Err}
  {f : Sock → Sock} {g : Sys → Sys} {p : Prop} [Decidable p] {held : Finset Desc} {ids fds : List Desc}
  {addr dest : Addr} {bytes : Bytes} {a : α}

theorem Keeps.bind (hm : Keeps v m) (hk : ∀ a, Keeps v (k a)) : Keeps v (m >>= k) :=
  fun x => (hm x).bind fun a => hk a x

theorem keeps_pure : Keeps v (pure a : M α) := fun _ => Triple.pure fun _ h => h

theorem keeps_stop : Keeps v (stop e : M α) := fun _ => Triple.stop fun _ h => h

theorem keeps_get : Keeps v get := fun _ _ h => h

theorem keeps_ite {m' : M α} (hm : Keeps v m) (hm' : Keeps v m') : Keeps v (if p then m else m') := by
  split
  · exact hm
  · exact hm'

theorem keeps_failIf : Keeps v (failIf p e) := keeps_ite keeps_stop keeps_pure

theorem keeps_sockSlot : Keeps v (sockSlot held i) :=
  keeps_get.bind fun _ => keeps_failIf.bind fun _ => keeps_failIf

theorem keeps_modify (h : ∀ s, v (g s) = v s) : Keeps v (modify g) := fun _ s hs => (h s).trans hs

@[simp] theorem Sys.sock_put : (s.put i f).sock r = if r = i then f (s.sock r) else s.sock r := by
  by_cases h : r = i
  · subst h
    simp [Sys.put]
  · simp [Sys.put, h]

theorem keeps_put (h : ∀ o, (f o).view own = o.view own) : Keeps (·.view own r) (put i f) := by
  refine keeps_modify fun s => ?_
  unfold Sys.view
  rw [Sys.sock_put]
  split
  · exact h _
  · rfl

/-- A change of the socket itself that leaves the end of its data. -/
theorem Sys.view_put (hown : r = c → own = true) (hf : ∀ o, (f o).rxEof = o.rxEof) :
    (s.put c f).view own r = s.view own r := by
  unfold view
  rw [sock_put]
  split
  · simp [Sock.view, hown ‹_›, hf]
  · rfl

/-- A change of every socket of a list that a part of each does not see. -/
theorem Sys.sock_putEach {v : Sock → β} (h : ∀ o, v (f o) = v o) : v ((s.putEach f ids).sock r) = v (s.sock r) := by
  unfold putEach
  induction ids generalizing s with
  | nil => rfl
  | cons id ids ih =>
    rw [foldl_cons, ih]
    cases id with
    | sock i =>
      simp only [sock_put]
      split
      · exact h _
      · rfl
    | pipe | named | pass => rfl

theorem keeps_freePort {kind : Kind} : Keeps (·.view own r) (freePort kind n) := by
  induction n with
  | zero => exact keeps_pure
  | succ n ih =>
    exact keeps_get.bind fun s => (keeps_modify fun _ => by rfl).bind fun _ => keeps_ite ih keeps_pure

theorem keeps_autobind : Keeps (·.view own r) (autobind i) := by
  refine keeps_get.bind fun s => keeps_ite keeps_pure (keeps_freePort.bind fun port => ?_)
  cases port with
  | none => exact keeps_stop
  | some port => exact keeps_put fun _ => rfl

theorem keeps_sockConnect (hown : r = c → own = true) : Keeps (·.view own r) (sockConnect held c addr) := by
  refine keeps_sockSlot.bind fun _ => keeps_get.bind fun s => keeps_ite (keeps_modify fun s => ?_) ?_
  · exact Sys.view_put hown fun _ => rfl
  · refine keeps_failIf.bind fun _ => Keeps.bind (keeps_get.bind fun s => ?_) fun t => keeps_autobind.bind fun _ =>
      keeps_modify fun s => Sys.view_put hown fun _ => rfl
    split
    · exact keeps_pure
    · exact keeps_stop

theorem keeps_travelers : Keeps (·.view own r) (travelers held ids) := by
  fun_induction travelers held ids with
  | case1 => exact keeps_pure
  | case2 _ _ ih | case4 _ _ _ _ _ ih => exact ih
  | case3 | case5 => exact keeps_stop

theorem keeps_enqueueFds : Keeps (·.view own r) (enqueueFds i fds) := by
  refine keeps_get.bind fun s => keeps_failIf.bind fun _ => keeps_failIf.bind fun _ => keeps_failIf.bind fun _ => ?_
  refine Keeps.bind (keeps_modify fun _ => Sys.sock_putEach fun _ => by rfl) fun _ => ?_
  exact (keeps_modify fun _ => by rfl).bind fun _ => keeps_put fun _ => rfl

theorem keeps_dgramSend {nonblock : Bool} : Keeps (·.view own r) (dgramSend i nonblock fds dest bytes) := by
  refine keeps_get.bind fun s => keeps_failIf.bind fun _ => keeps_failIf.bind fun _ => ?_
  split
  · exact keeps_ite keeps_stop (keeps_ite keeps_pure keeps_stop)
  · refine keeps_failIf.bind fun _ => keeps_ite (keeps_ite keeps_pure keeps_stop) ?_
    refine keeps_autobind.bind fun _ => keeps_get.bind fun s => keeps_ite keeps_pure (keeps_ite ?_ fun x => ?_)
    · exact keeps_ite keeps_pure (keeps_ite keeps_stop keeps_pure)
    · refine Triple.onStop ?_ fun e => keeps_ite keeps_pure keeps_stop x
      refine (keeps_ite keeps_pure keeps_enqueueFds).bind (fun _ => ?_) x
      exact (keeps_put fun _ => by rfl).bind fun _ => keeps_pure

theorem keeps_sockSend {dontwait oob : Bool} : Keeps (·.view own r) (sockSend held i dontwait oob fds dest bytes) :=
  keeps_sockSlot.bind fun _ => keeps_get.bind fun _ => keeps_failIf.bind fun _ => keeps_failIf.bind fun _ =>
    keeps_failIf.bind fun _ => keeps_travelers.bind fun _ => keeps_failIf.bind fun _ => keeps_failIf.bind fun _ =>
      keeps_dgramSend

theorem keeps_sockBind : Keeps (·.view own r) (sockBind held i addr) := by
  have hbound : Keeps (·.view own r) (put i fun o => { o with addr, bound := true }) := keeps_put fun _ => rfl
  refine keeps_sockSlot.bind fun _ => keeps_get.bind fun s => keeps_failIf.bind fun _ => keeps_failIf.bind fun _ =>
    keeps_ite keeps_autobind (keeps_ite (keeps_failIf.bind fun _ => hbound)
      (keeps_failIf.bind fun _ => Keeps.bind (keeps_modify fun s => ?_) fun _ => hbound))
  unfold Sys.view
  dsimp only
  split <;> rfl

theorem keeps_deliver {most : Nat} : Keeps (·.view own r) (deliver most ids held) := by
  induction ids generalizing most held with
  | nil => exact keeps_pure
  | cons id ids ih =>
    refine keeps_ite (Keeps.bind (keeps_modify fun s => ?_) fun _ => ih.bind fun _ => keeps_pure)
      (ih.bind fun _ => keeps_pure)
    unfold Sys.view Sys.limboPush
    split <;> rfl

theorem keeps_sockRecv {dontwait peek oob : Bool} {len most : Nat} :
    Keeps (·.view own r) (sockRecv held i dontwait peek oob len most) := by
  refine keeps_sockSlot.bind fun _ => keeps_get.bind fun s => keeps_failIf.bind fun _ => keeps_ite keeps_pure ?_
  split
  · exact keeps_ite keeps_pure (keeps_failIf.bind fun _ => keeps_pure)
  · refine keeps_ite keeps_pure ?_
    split
    · exact (keeps_put fun _ => by rfl).bind fun _ => keeps_pure
    · refine keeps_failIf.bind fun _ => (keeps_put fun _ => by rfl).bind fun _ => Keeps.bind (keeps_modify fun _ => ?_)
        fun _ => keeps_deliver.bind fun _ => keeps_pure
      exact Sys.sock_putEach fun _ => rfl

theorem Keeps.snd (h : Keeps v m) (s : Sys) : v (m s).2 = v s := by
  have h' := h (v s) s rfl
  rcases hm : m s with ⟨e | a, s'⟩ <;> rw [hm] at h' <;> exact h'

/-- A check before the rest of a call. -/
theorem Keeps.check {Q : β → Sys → Prop} {E : Err → Sys → Prop} (h : Keeps (·) m) (hE : ∀ e, E e s)
    (hk : ∀ a, Triple (· = s) (k a) Q E) : Triple (· = s) (m >>= k) Q E := by
  refine Triple.bind ((h s).conseq (fun _ h => h) (fun _ _ h => h) ?_) hk
  rintro e _ rfl
  exact hE e

/-! ## What a peer is told -/

theorem sock_limbo {v : Sock → β} (hv : ∀ o n, v { o with flying := n } = v o) (ancs : List Anc) :
    v ((ancs.foldl (fun s a => a.ids.foldl Sys.limboPush (s.unfly a)) s).sock r) = v (s.sock r) := by
  have hpush : ∀ (ids : List Desc) (s : Sys), (ids.foldl Sys.limboPush s).sock = s.sock := by
    intro ids
    induction ids with
    | nil => exact fun _ => rfl
    | cons id ids ih =>
      intro s
      rw [foldl_cons, ih]
      unfold Sys.limboPush
      split <;> rfl
  induction ancs generalizing s with
  | nil => rfl
  | cons a ancs ih =>
    rw [foldl_cons, ih, hpush]
    exact Sys.sock_putEach fun o => hv o _

theorem snd_failIf : ((failIf p e >>= fun _ => m) s).2 = if p then s else (m s).2 := by
  unfold failIf
  split <;> rfl

section
variable (hkind : (s.sock c).kind = .dgram) (hown : r = c → own = true)
include hkind

theorem snd_sockSlot : ((sockSlot held c >>= fun _ => m) s).2 =
    if .sock c ∈ held ∧ (s.sock c).live then (m s).2 else s := by
  by_cases h : .sock c ∉ held ∨ (s.sock c).live = false
  · have hslot : sockSlot held c s = (.error .badFd, s) := by
      simp only [sockSlot, get, failIf, Bind.bind, if_pos h]
      rfl
    rw [bind_error hslot, if_neg fun hc => h.elim (· hc.1) fun h0 => by simp [h0] at hc]
  · have hslot : sockSlot held c s = (.ok (), s) := by
      simp only [sockSlot, get, failIf, Bind.bind, if_neg h, hkind]
      rfl
    rw [bind_ok hslot, if_pos (by simpa using h)]

include hown

theorem view_unref : (s.unref c n).view own r =
    (s.told c r (if (s.sock c).live ∧ (s.sock c).refs ≤ n then some .gone else none)).view own := by
  unfold Sys.unref
  dsimp only
  by_cases hstay : (s.sock c).refs - n ≠ 0 ∨ (s.sock c).live = false
  · rw [if_pos hstay, if_neg fun h => hstay.elim (fun h0 => h0 (Nat.sub_eq_zero_of_le h.2)) fun h0 => by simp [h0] at h]
    exact Sys.view_put hown fun _ => rfl
  · rw [if_neg hstay, if_neg (by simp [hkind])]
    rw [not_or, not_not, Bool.not_eq_false] at hstay
    rw [if_pos ⟨hstay.2, Nat.le_of_sub_eq_zero hstay.1⟩]
    unfold Sys.view
    rw [sock_limbo (v := Sock.view own) fun _ _ => rfl]
    by_cases hr : r = c
    · simp [Sock.view, Sys.told, hr, hown hr]
    · by_cases hpeer : s.peerOf c = some r <;> simp [Sock.view, Sys.told, News.tell, hr, hpeer]

/-- What a call on `c` does to another socket, and to the data of `c`. -/
theorem view_run (call : Call) (hdue : call = .step → ∀ d ∈ s.due, d.1 = c) :
    (call.run held c s).2.view own r = (s.told c r (call.news s held c)).view own := by
  cases call with
  | bind addr => exact keeps_sockBind.snd s
  | connect addr => exact (keeps_sockConnect hown).snd s
  | send => exact (keeps_sockSend.bind fun _ => keeps_pure).snd s
  | recv => exact (keeps_sockRecv.bind fun _ => keeps_pure).snd s
  | gone => rfl
  | shutdown how =>
    show Sys.view own r (sockShutdown held c how s).2 = _
    unfold sockShutdown
    rw [snd_sockSlot hkind, snd_failIf]
    show Sys.view own r (if _ then if _ then s else ((failIf _ _ >>= fun _ => modify (·.shut c how)) s).2 else s) = _
    rw [snd_failIf]
    by_cases h : .sock c ∈ held ∧ (s.sock c).live ∧ how ≤ 2 ∧ (s.sock c).connected
    · by_cases hpeer : s.peerOf c = some r <;>
        simp [Call.news, h, Nat.not_lt.2 h.2.2.1, modify, Sys.view, Sys.shut, Sock.view, Sys.told, News.tell, hpeer]
    · rw [show (Call.shutdown how).news s held c = none from if_neg h]
      split_ifs with h₁ h₂ h₃
      · rfl
      · rfl
      · exact absurd ⟨h₁.1, h₁.2, Nat.not_lt.1 h₂, by simpa using h₃⟩ h
      · rfl
  | close =>
    by_cases h : .sock c ∈ held ∧ (s.sock c).live
    · have hrun : (Call.close.run held c s).2 = s.unref c 1 := by
        simp [Call.run, sockClose, get, failIf, Bind.bind, modify, h, Pure.pure]
      rw [hrun, view_unref hkind hown]
      simp [Call.news, h]
    · have hrun : (Call.close.run held c s).2 = s := by
        have h : .sock c ∉ held ∨ (s.sock c).live = false := by simpa [imp_iff_not_or] using h
        simp [Call.run, sockClose, get, failIf, Bind.bind, stop, h]
      rw [hrun, show Call.close.news s held c = none from if_neg fun hc => h ⟨hc.1, hc.2.1⟩]
      rfl
  | step =>
    show Sys.view own r (Sys.step s) = _
    have hdue := hdue rfl
    unfold Sys.due at hdue
    unfold Sys.step Call.news Sys.due
    split
    · next i hi =>
      rw [hi] at hdue ⊢
      obtain rfl : i = c := hdue _ rfl
      exact view_unref hkind hown
    · next hi =>
      rw [hi] at hdue ⊢
      split
      · next hl => simp only [hl]; rfl
      · next hl =>
        rw [hl] at hdue ⊢
        obtain rfl := hdue _ rfl
        exact view_unref hkind hown
      · next id limbo hno hl =>
        rw [hl]
        cases id with
        | sock i => exact absurd rfl (hno i)
        | _ => rfl

end

theorem triple_any {P : Sys → Prop} : Triple P m (fun _ _ => True) fun _ _ => True := by
  intro s _
  rcases m s with ⟨e | a, s'⟩ <;> trivial

/-- Why a receive gives nothing: an empty datagram is first, the reading is shut or the data ended. -/
theorem sockRecv_empty {dontwait peek oob : Bool} {len most : Nat} (hlen : 0 < len) :
    Triple (· = s) (sockRecv held r dontwait peek oob len most) (fun res _ => ∀ out, res.2 = some out → out.bytes = [] →
      (∃ d buf, (s.sock r).buf = d :: buf ∧ d.bytes = []) ∨ (s.sock r).rdShut = true ∨ (s.sock r).rxEof = true)
      fun _ _ => True := by
  refine keeps_sockSlot.check (fun _ => trivial) fun _ => ?_
  rintro s rfl
  refine (keeps_failIf.check (fun _ => trivial) fun _ => ?_ : Triple (· = s) _ _ _) s rfl
  split
  · exact Triple.pure fun _ _ _ _ _ => .inr (.inl ‹_›)
  · split
    · split
      · exact Triple.pure fun _ _ _ _ _ => .inr (.inr ‹_›)
      · exact keeps_failIf.check (fun _ => trivial) fun _ => Triple.pure fun _ _ _ h => nomatch h
    · next d buf hbuf =>
      have hd : d.bytes.take len = [] → ∃ d buf, (s.sock r).buf = d :: buf ∧ d.bytes = [] := fun h =>
        ⟨d, buf, hbuf, (take_eq_nil_iff.1 h).resolve_left hlen.ne'⟩
      split
      · exact Triple.pure fun _ _ _ h he => .inl (hd (by cases h; exact he))
      · split
        · exact triple_any.bind fun _ => Triple.pure fun _ _ _ h he => .inl (hd (by cases h; exact he))
        · exact triple_any.bind fun _ => triple_any.bind fun _ => triple_any.bind fun _ => triple_any.bind fun _ =>
            Triple.pure fun _ _ _ h he => .inl (hd (by cases h; exact he))

end

/-! ## Runs -/

/-- What happens in a run: a socket is made, or in a state there is a call. -/
inductive Event where
  | made (i : Nat)
  | called (s : Sys) (held : Finset Desc) (c : Nat) (call : Call)

/-- A run of datagram sockets. -/
inductive Reach : List Event → Sys → Prop
  | new : Reach [] .new
  | made {tr s s' i creator root domain nonblock} (h : Reach tr s)
      (hmade : sockAlloc creator root domain .dgram nonblock s = (.ok i, s')) : Reach (tr ++ [.made i]) s'
  | called {tr s} (held c call) (h : Reach tr s) (hkind : (s.sock c).kind = .dgram)
      (hdue : call = .step → ∀ d ∈ s.due, d.1 = c) : Reach (tr ++ [.called s held c call]) (call.run held c s).2

/-- What a socket has that others may disturb. -/
def Sock.Same (o o' : Sock) : Prop :=
  o'.rxEof = o.rxEof ∧ o'.txBroken = o.txBroken ∧ o'.peer = o.peer ∧ o'.connected = o.connected

/-- The socket is as one that was told this. -/
def News.Heard (o : Sock) : News → Prop
  | shut how => (how = 0 ∨ o.rxEof = true) ∧ (how = 1 ∨ o.txBroken = true)
  | gone => o.rxEof = true ∧ o.txBroken = true ∧ o.peer = none

namespace Event

/-- The call on `c` leaves the others alone that do not have `c` as their peer. -/
def Undisturbed : Event → Prop
  | made _ => True
  | called s held c call => ∀ r, r ≠ c → s.peerOf r ≠ some c → (s.sock r).Same ((call.run held c s).2.sock r)

/-- The peer of `c` has `c` as its peer, or is told nothing that it has not heard. -/
def Spares : Event → Prop
  | made _ => True
  | called s held c call => ∀ r, r ≠ c → s.peerOf c = some r → s.peerOf r ≠ some c →
      ∀ news ∈ call.news s held c, news.Heard (s.sock r)

/-- The peer of `r` shuts its writing or goes. -/
def Ends (r : Nat) : Event → Prop
  | made _ => False
  | called s held c call => s.peerOf r = some c ∧ ∃ news ∈ call.news s held c, news ≠ .shut 0

end Event

section
variable {s : Sys} {held : Finset Desc} {c r : Nat} {call : Call} {o : Sock} {news : News} {tr : List Event}

theorem News.same_tell : o.Same (news.tell o) ↔ news.Heard o := by
  cases news with
  | shut how => simp [Sock.Same, tell, Heard, imp_iff_or_not, or_comm]
  | gone => simp [Sock.Same, tell, Heard, @eq_comm _ none, @eq_comm _ true]

theorem same_iff_view {o' : Sock} : o.Same o' ↔ o'.view false = o.view false := by
  simp [Sock.Same, Sock.view]

section
variable (hkind : (s.sock c).kind = .dgram) (hdue : call = .step → ∀ d ∈ s.due, d.1 = c)
include hkind hdue

/-- A call leaves the others alone exactly if it spares them. -/
theorem Event.undisturbed_iff : (Event.called s held c call).Undisturbed ↔ (Event.called s held c call).Spares := by
  have hview : ∀ r, r ≠ c → ((s.sock r).Same ((call.run held c s).2.sock r) ↔
      (s.sock r).Same (s.told c r (call.news s held c))) := by
    intro r hr
    rw [same_iff_view, same_iff_view]
    exact iff_of_eq (congrArg (· = _) (view_run hkind (fun h => absurd h hr) call hdue))
  refine forall_congr' fun r => forall_congr' fun hr => ?_
  rw [hview r hr]
  rcases call.news s held c with _ | news
  · simp [Sys.told, Sock.Same]
  · by_cases hpeer : s.peerOf c = some r
    · simp [Sys.told, hpeer, hr, News.same_tell]
    · simp [Sys.told, hpeer, Sock.Same]

/-- The data of a socket ends by its own peer, in a call that spares the others. -/
theorem rxEof_run (hspares : (Event.called s held c call).Spares) (hend : ((call.run held c s).2.sock r).rxEof = true) :
    (s.sock r).rxEof = true ∨ (Event.called s held c call).Ends r := by
  have hview : (call.run held c s).2.view true r = (s.told c r (call.news s held c)).view true :=
    view_run hkind (fun _ => rfl) call hdue
  have heof : ((call.run held c s).2.sock r).rxEof = (s.told c r (call.news s held c)).rxEof := congrArg Prod.fst hview
  rw [heof] at hend
  rcases hnews : call.news s held c with _ | news
  · rw [hnews] at hend
    exact .inl hend
  · rw [hnews, Sys.told] at hend
    split at hend
    · next hpeer =>
      by_contra! hno
      have hother : s.peerOf r ≠ some c := by
        intro hr
        have hshut : news = .shut 0 := by
          by_contra hne
          exact hno.2 ⟨hr, news, hnews, hne⟩
        subst hshut
        simp [News.tell] at hend
        exact hno.1 hend
      have hr : r ≠ c := fun h => hother (by rw [h, hpeer.1, h])
      have hheard := News.same_tell.2 (hspares r hr hpeer.1 hother news hnews)
      exact hno.1 (hheard.1.symm.trans hend)
    · exact .inl hend

end

theorem rxEof_sockAlloc {creator root : Nat} {domain : Domain} {kind : Kind} {nonblock : Bool} :
    Triple (· = s) (sockAlloc creator root domain kind nonblock)
      (fun i s' => ∀ r, (s'.sock r).rxEof = if r = i then false else (s.sock r).rxEof) fun _ _ => True := by
  refine keeps_failIf.check (fun _ => trivial) fun _ => ?_
  rintro s rfl
  refine (keeps_failIf.check (fun _ => trivial) fun _ => ?_ : Triple (· = s) _ _ _) s rfl
  split
  · exact Triple.stop fun _ _ => trivial
  · rintro s rfl r
    simp only [Sys.sock_put]
    split <;> rfl

theorem rxEof_of_reach (h : Reach tr s) (hspares : ∀ e ∈ tr, e.Spares) (hend : (s.sock r).rxEof = true) :
    Run.Since (Event.Ends r) (· = .made r) tr := by
  induction h with
  | new => exact absurd hend (by simp [Sys.new, Sock.FREE])
  | @made tr s s' i creator root domain nonblock h hmade ih =>
    have hnew := (rxEof_sockAlloc : Triple _ (sockAlloc creator root domain .dgram nonblock) _ _) s rfl
    rw [hmade] at hnew
    have hnew : _ = if r = i then false else _ := hnew r
    rw [forall_mem_append] at hspares
    split at hnew
    · simp [hend] at hnew
    · next hr => exact Run.since_append.2 (.inr ⟨fun h => hr (Event.made.inj h).symm, ih hspares.1 (hnew ▸ hend)⟩)
  | called held c call h hkind hdue ih =>
    rw [Run.since_append]
    rw [forall_mem_append] at hspares
    rcases rxEof_run hkind hdue (hspares.2 _ (mem_singleton_self _)) hend with hold | hends
    · exact .inr ⟨nofun, ih hspares.1 hold⟩
    · exact .inl hends

end

/-- **A datagram socket is left alone** in a run exactly if each call on a socket `c` tells the peer of `c` nothing, or
has `c` as the peer of that one too: then the flags, the peer and the connection of another socket change only where
that one has `c` as its peer, and a receive gives nothing only for an empty datagram, for its own reading shut or after
its own peer shut its writing or went. -/
theorem dgram_undisturbed (tr : List Event) (s : Sys) (hreach : Reach tr s) :
    ((∀ e ∈ tr, e.Undisturbed) ∧ ∀ r held dontwait peek oob len most held' out s', 0 < len →
      sockRecv held r dontwait peek oob len most s = (.ok (held', some out), s') → out.bytes = [] →
        (∃ d buf, (s.sock r).buf = d :: buf ∧ d.bytes = []) ∨ (s.sock r).rdShut = true ∨
          Run.Since (Event.Ends r) (· = .made r) tr) ↔ ∀ e ∈ tr, e.Spares := by
  have hcalls : (∀ e ∈ tr, e.Undisturbed) ↔ ∀ e ∈ tr, e.Spares := by
    induction hreach with
    | new => simp
    | made h hmade ih =>
      simp only [forall_mem_append, forall_mem_singleton, ih]
      exact Iff.rfl
    | called held c call h hkind hdue ih =>
      simp only [forall_mem_append, forall_mem_singleton, ih, Event.undisturbed_iff hkind hdue]
  refine ⟨fun h => hcalls.1 h.1, fun hspares => ⟨hcalls.2 hspares, ?_⟩⟩
  intro r held dontwait peek oob len most held' out s' hlen hrecv hout
  have h := (sockRecv_empty hlen : Triple _ (sockRecv held r dontwait peek oob len most) _ _) s rfl
  rw [hrecv] at h
  exact (h out rfl hout).imp_right (.imp_right (rxEof_of_reach hreach hspares))

/-- The sockets of two sessions, the second one bound. -/
def meet : M (Finset Desc × Finset Desc) := do
  let mine ← sockCreate ∅ 1 1 .inet .dgram false
  let other ← sockCreate ∅ 2 2 .inet .dgram false
  sockBind other 1 (.inet 0)
  pure (mine, other)

/-- Two sockets connected to each other: the second one shuts its writing, and the first one is told. -/
theorem dgram_undisturbed_pair : ∃ tr s, Reach tr s ∧ (∀ e ∈ tr, e.Spares ∧ e.Undisturbed) ∧ s.peerOf 0 = some 1 ∧
    s.peerOf 1 = some 0 ∧ (sockRecv {.sock 0} 0 false false false 1 0 s).1 = .ok ({.sock 0}, some .none) ∧
    Run.Since (Event.Ends 0) (· = .made 0) tr := by
  have hmade := (Reach.new.made (rfl : sockAlloc 1 1 .inet .dgram false .new = (.ok 0, _))).made
    (rfl : sockAlloc 2 2 .inet .dgram false _ = (.ok 1, _))
  have hbound := hmade.called {.sock 0} 0 (.bind (.inet 0)) rfl nofun
  have hone := hbound.called {.sock 1} 1 (.connect (.inet PORT_FIRST)) rfl nofun
  have hboth := hone.called {.sock 0} 0 (.connect (.inet (PORT_FIRST + 1))) rfl nofun
  have hshut := hboth.called {.sock 1} 1 (.shutdown 1) rfl nofun
  have h := (dgram_undisturbed _ _ hshut).2 ?_
  · refine ⟨_, _, hshut, fun e he => ⟨(dgram_undisturbed _ _ hshut).1 h e he, h.1 e he⟩, rfl, rfl, rfl, ?_⟩
    have hempty := h.2 0 {.sock 0} false false false 1 0 {.sock 0} .none _ Nat.one_pos rfl rfl
    exact (hempty.resolve_left nofun).resolve_left nofun
  · simp only [forall_mem_append, forall_mem_singleton]
    refine ⟨⟨⟨⟨⟨⟨nofun, trivial⟩, trivial⟩, nofun⟩, nofun⟩, nofun⟩, fun r _ hr hno => ?_⟩
    obtain rfl : 0 = r := Option.some.inj hr
    exact absurd rfl hno

/-- A socket that is connected to nobody, told by one that is connected to it: its receive gives nothing. -/
theorem dgram_disturbed : ∃ mine other s s₁ s₂, meet .new = (.ok (mine, other), s) ∧
    sockConnect mine 0 (.inet PORT_FIRST) s = (.ok (), s₁) ∧ s₁.peerOf 1 = none ∧ (s₁.sock 1).rxEof = false ∧
    sockShutdown mine 0 1 s₁ = (.ok (), s₂) ∧ (s₂.sock 1).rxEof = true ∧
    (sockRecv other 1 false false false 1 0 s₂).1 = .ok (other, some .none) :=
  ⟨_, _, _, _, _, rfl, rfl, rfl, rfl, rfl, rfl, rfl⟩

end Sockets
