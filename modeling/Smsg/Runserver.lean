/-
`server.c`: the loop of `runserver`.

The loop is given twice.  `Server` is what it is about: the clients, the store and
the commands that arrive for them, already decoded.  `Loop` is the loop as it runs:
it has the receive buffers and the descriptor set as well, and what arrives are
bytes.  `Proofs/Runserver.lean` shows that every step of the second is a step of the
first or changes nothing that the first can see.

A select round is an accept, if there is one, and then one receive for each slot
that is ready.  The events here are these single actions, in any order.  What the
system is trusted with is that `accept` returns a descriptor that is not open:
those up to the one of the listening socket always are.
-/
import Smsg.Lib.Machine
import Smsg.Server

namespace Smsg

open Machines

/-- What the listening loop works on. -/
structure Server where
  servfd : Int
  numClients : Nat
  clients : Slot → Client
  udata : Udata
  beleet : Bool

/-- Whether requests for memory in `udata.c` may fail. -/
inductive Memory
  | enough
  | any
deriving DecidableEq

def Memory.allows : Memory → Alloc → Bool
  | .enough, a => a.full
  | .any, _ => true

namespace Server

/-- The slot holds a connection. -/
def live (s : Server) (i : Slot) : Prop := i.val < s.numClients ∧ (s.clients i).fd ≠ -1

instance (s : Server) (i : Slot) : Decidable (s.live i) :=
  inferInstanceAs (Decidable (_ ∧ _))

/-- Static storage is zero. -/
def initial (servfd : Int) : Server := ⟨servfd, 0, fun _ => ⟨0, ⟨0, 0, 0, 0⟩⟩, .empty, false⟩

/-- Writing to one slot. -/
def setClient (s : Server) (i : Slot) (c : Client) : Server :=
  { s with clients := fun j => if j = i then c else s.clients j }

/-- `clients[i].fd = -1`. -/
def closeSlot (s : Server) (i : Slot) : Server :=
  s.setClient i { s.clients i with fd := -1 }

/-- The descriptor is not open yet. -/
def fresh (s : Server) (newfd : Int) : Prop :=
  s.servfd < newfd ∧ ∀ i, s.live i → (s.clients i).fd ≠ newfd

instance (s : Server) (newfd : Int) : Decidable (s.fresh newfd) :=
  inferInstanceAs (Decidable (_ ∧ _))

/-- The slot that an accepted connection is put into. -/
def acceptSlot (s : Server) : Option Slot :=
  if h : s.numClients < maxClients then
    some (((List.finRange maxClients).find? fun i =>
      decide (i.val < s.numClients) && (s.clients i).fd == -1).getD ⟨s.numClients, h⟩)
  else none

/-- A connection arrives. -/
def accept (s : Server) (newfd : Int) (peer : InAddr) : Server × List Effect :=
  match s.acceptSlot with
  | none => (s, [.close newfd])
  | some i =>
      let s := if i.val = s.numClients then { s with numClients := s.numClients + 1 } else s
      (s.setClient i ⟨newfd, peer⟩, [])

/-- `recv` returned 0 for slot `i`. -/
def peerClosed (s : Server) (i : Slot) (alloc : Alloc) : Server × List Effect :=
  let fd := (s.clients i).fd
  match s.udata.udataGetByFd fd with
  | none => (s.closeSlot i, [.close fd])
  | some tuent =>
      if tuent.has udcFlagPresent then
        let msg := (doorMsg 0 tuent.nick).add errorChatPeerclose
        let s' := { s with udata := removeFromChat alloc s.udata tuent.user }
        (s'.closeSlot i, distribute 1 s.clients s.udata msg (some i) ++ [.close fd])
      else (s.closeSlot i, [.close fd])

/-- The slot that a return value of `ls_handle_netcmd` tells to kick out. -/
def kicked (retval : Int) : Option Slot :=
  if h : 0 ≤ retval ∧ retval < maxClients then
    some ⟨retval.toNat, by have := h.2; omega⟩
  else none

/-- The call that handles the command `c` of slot `i`. -/
def call (s : Server) (i : Slot) (c : NetCmd) (env : Env) : Call :=
  ⟨env, s.clients, i, s.udata, s.beleet, c⟩

/-- Kicking out the slot that the return value tells, if it tells one. -/
def kick (s : Server) (retval : Int) : Server :=
  match kicked retval with
  | none => s
  | some r => s.closeSlot r

/-- The descriptor that is closed by it. -/
def kickEffects (s : Server) (retval : Int) : List Effect :=
  match kicked retval with
  | none => []
  | some r => [.close (s.clients r).fd]

/-- What the loop does with the outcome of a call. -/
def settle (s : Server) (o : Outcome) : Server × List Effect :=
  ({ s.kick o.retval with udata := o.udata, beleet := o.beleet },
    o.effects ++ s.kickEffects o.retval)

/-- A command of slot `i` is handled. -/
def handle (s : Server) (i : Slot) (c : NetCmd) (env : Env) : Option (Server × List Effect) :=
  match lsHandleNetcmd (s.call i c env) with
  | .error _ => none
  | .ok o => some (s.settle o)

end Server

/-! ### The server over decoded commands -/

/-- What can happen to the server. -/
inductive Event
  | accept (newfd : Int) (peer : InAddr)
  | recvError (i : Slot)
  | closed (i : Slot) (alloc : Alloc)
  | netcmd (i : Slot) (c : NetCmd) (env : Env)

/-- One event. -/
def Server.step (mem : Memory) (s : Server) : Event → Option (Server × List Effect)
  | .accept newfd peer => if s.fresh newfd then some (s.accept newfd peer) else none
  | .recvError i => if s.live i then some (s, []) else none
  | .closed i alloc =>
      if s.live i ∧ mem.allows alloc then some (s.peerClosed i alloc) else none
  | .netcmd i c env =>
      if s.live i ∧ mem.allows env.alloc then s.handle i c env else none

/-- The server. -/
def server (mem : Memory) : Machine Server Event (List Effect) where
  init s := ∃ servfd, 0 ≤ servfd ∧ s = .initial servfd
  step := Server.step mem

/-! ### The loop over bytes -/

/-- The variables of `runserver`, with the buffers of `clients[]`. -/
structure Loop where
  server : Server
  bufs : Slot → Bytes
  master : Finset Int
  maxfd : Int

/-- What a select round finds. -/
inductive LoopEvent
  | accept (newfd : Int) (peer : InAddr)
  | recvError (i : Slot)
  | closed (i : Slot) (alloc : Alloc)
  | recv (i : Slot) (rbuf : Bytes) (env : Env)

/-- What the loop did: its effects, and the bytes it took for a command and on which slot. -/
structure LoopOut where
  effects : List Effect
  handled : Option (Slot × Bytes)

/--
The command that the reading functions see at the front of a buffer.  There is none when a
length in it is from 2^31 on, which `ncmd_iscomplete` takes for a negative one: no call of
`ncmd_getarg` gets such an argument, and the handlers that this loop calls get all of them.  So
in the runs of the loop what is taken for a command is one.
-/
def decode (buf : Bytes) : Option NetCmd := do
  let args ← (List.range (ncmdGetnumargs buf)).mapM fun k =>
    (ncmdGetarg buf .null k false).map fun r => r.2.bytes
  some ⟨ncmdGet buf, args⟩

namespace Loop

def initial (servfd : Int) : Loop := ⟨.initial servfd, fun _ => [], {servfd}, servfd⟩

/-- Writing to one buffer. -/
def setBuf (l : Loop) (i : Slot) (buf : Bytes) : Loop :=
  { l with bufs := fun j => if j = i then buf else l.bufs j }

/-- The buffer and the descriptor of a slot that is closed. -/
def clear (l : Loop) (i : Slot) : Loop :=
  { l.setBuf i [] with master := l.master.erase (l.server.clients i).fd }

/-- A connection arrives. -/
def accept (l : Loop) (newfd : Int) (peer : InAddr) : Loop :=
  match l.server.acceptSlot with
  | none => l
  | some i =>
      { l.setBuf i [] with
        server := (l.server.accept newfd peer).1
        master := insert newfd l.master
        maxfd := if l.maxfd < newfd then newfd else l.maxfd }

/-- Kicking out the slot that the return value tells, if it tells one. -/
def kick (l : Loop) (retval : Int) : Loop :=
  match Server.kicked retval with
  | none => l
  | some r => l.clear r

/-- A command has been handled with outcome `o`: kick, and remove it from the buffer. -/
def settle (l : Loop) (i : Slot) (o : Outcome) : Option (Loop × List Effect) := do
  let (server, effects) := l.server.settle o
  let l := l.kick o.retval
  let (_, buf) ← ncmdRemove (l.bufs i)
  some ({ l.setBuf i buf with server := server }, effects)

/-- `recv` returned the bytes `rbuf` for slot `i`. -/
def receive (l : Loop) (i : Slot) (rbuf : Bytes) (env : Env) : Option (Loop × LoopOut) := do
  let l := l.setBuf i (recvbuf (l.bufs i) rbuf)
  let k ← ncmdIscomplete (l.bufs i)
  if k = 0 then some (l, ⟨[], none⟩)
  else
    let c ← decode (l.bufs i)
    match lsHandleNetcmd (l.server.call i c env) with
    | .error _ => none
    | .ok o =>
        let (l', effects) ← l.settle i o
        some (l', ⟨effects, some (i, (l.bufs i).take k.toNat)⟩)

/-- `LNCMD_BUF_SIZE - 1`: what one `recv` returns at most. -/
def rlen : Nat := 1023

/-- One event. -/
def step (mem : Memory) (l : Loop) : LoopEvent → Option (Loop × LoopOut)
  | .accept newfd peer =>
      if l.server.fresh newfd then
        some (l.accept newfd peer, ⟨(l.server.accept newfd peer).2, none⟩)
      else none
  | .recvError i => if l.server.live i then some (l, ⟨[], none⟩) else none
  | .closed i alloc =>
      if l.server.live i ∧ mem.allows alloc then
        let (server, effects) := l.server.peerClosed i alloc
        some ({ l.clear i with server := server }, ⟨effects, none⟩)
      else none
  | .recv i rbuf env =>
      if l.server.live i ∧ mem.allows env.alloc ∧ 0 < rbuf.length ∧ rbuf.length ≤ rlen then
        l.receive i rbuf env
      else none

end Loop

/-- The loop of `runserver`. -/
def runserver (mem : Memory) : Machine Loop LoopEvent LoopOut where
  init l := ∃ servfd, 0 ≤ servfd ∧ l = .initial servfd
  step := Loop.step mem

end Smsg
