/-
`server.c`: the whole loop of `runserver`, with the handlers of the source.

`Select.lean` goes round by round and takes any handler, `Runserver.lean` has the handlers
and takes one action at a time.  Here a round is what it is in the source: an accept, if the
listening socket is ready, and then the slots in order, each of them that is ready with what
`recvbuf` gets on it.  What is ready was found out by `select` before the round, however the
table changes in it.

The handlers see the table as a `Server`.  What the system may answer is restricted in three
ways: `accept` returns a descriptor that is not open, `recv` as much as fits its buffer, and
the listening socket has got the lowest descriptor there was.
-/
import Smsg.Select

namespace Smsg

open Machines

/-- The variables of the program. -/
structure Daemon where
  table : Table
  address : Slot → InAddr
  udata : Udata
  beleet : Bool

/-- What `recvbuf` does on a connection, and what the program meets after it; `grown` and
`shrunk` say whether memory was there to append the bytes, and to take a command from the
front, and `leaves` are descriptors that the handler leaves open. -/
inductive RecvResult
  | error
  | closed (alloc : Alloc)
  | bytes (rbuf : Bytes) (grown shrunk : Bool) (env : Env) (leaves : Finset Int)

/-- What a round meets. -/
structure DaemonRound where
  /-- `read_fds` behind `select`. -/
  ready : Finset Int
  /-- What `accept` returns if it is called, `none` being an error. -/
  accepted : Option (Int × InAddr)
  recv : Slot → RecvResult

namespace Daemon

/-- What the handlers see. -/
def server (d : Daemon) : Server :=
  ⟨d.table.servfd, d.table.numClients, fun i => ⟨(d.table.clients i).fd, d.address i⟩, d.udata,
    d.beleet⟩

/-- Static storage is zero. -/
def initial (servfd : Int) (opened : Finset Int) : Daemon :=
  ⟨.initial servfd opened, fun _ => ⟨0, 0, 0, 0⟩, .empty, false⟩

/-- The listening socket is ready. -/
def accept (d : Daemon) (accepted : Option (Int × InAddr)) : Option (Daemon × List Effect) :=
  match d.table.acceptSlot, accepted with
  | _, none => some (d, [])
  -- `close(accept(servfd, NULL, NULL))`
  | none, some (newfd, _) => some (d, [.close newfd])
  | some i, some (newfd, peer) =>
      if fdSetsize ≤ newfd then none
      else
        some ({ d with
          table := d.table.seat i newfd
          address := Function.update d.address i peer }, [])

/-- The slot `i` is ready. -/
def serve (d : Daemon) (i : Slot) : RecvResult → Option (Daemon × List Effect)
  | .error => some (d, [])
  | .closed alloc =>
      let (s, effects) := d.server.peerClosed i alloc
      some ({ d with table := d.table.release i, udata := s.udata }, effects)
  | .bytes rbuf grown shrunk env leaves =>
      -- without memory the bytes are lost, and `recvbuf` returns an error
      if !grown then some (d, [])
      else do
        let t := d.table.setClient i ((d.table.clients i).recvbuf rbuf)
        let k ← ncmdIscomplete (t.clients i).bytes
        if k = 0 then some ({ d with table := t }, [])
        else
          let c ← decode (t.clients i).bytes
          match lsHandleNetcmd (d.server.call i c env) with
          | .error _ => none
          | .ok o =>
              let (s, effects) := d.server.settle o
              let t := t.kick (Server.kicked o.retval)
              let t := { t with opened := t.opened ∪ leaves }
              let client ← (t.clients i).ncmdRemove shrunk
              some ({ d with
                table := t.setClient i client
                udata := s.udata
                beleet := s.beleet }, effects)

/-- The loop over the slots. -/
def serveAll (r : DaemonRound) : List Slot → Daemon → Option (Daemon × List Effect)
  | [], d => some (d, [])
  | i :: is, d =>
      if d.table.live i ∧ (d.table.clients i).fd ∈ r.ready then do
        let (d, out) ← d.serve i (r.recv i)
        let (d, out') ← serveAll r is d
        some (d, out ++ out')
      else serveAll r is d

/-- The accept of a round. -/
def welcome (d : Daemon) (r : DaemonRound) : Option (Daemon × List Effect) :=
  if d.table.servfd ∈ r.ready then d.accept r.accepted else some (d, [])

/-- One round. -/
def round (d : Daemon) (r : DaemonRound) : Option (Daemon × List Effect) := do
  let (d, out) ← d.welcome r
  let (d, out') ← serveAll r (List.finRange maxClients) d
  some (d, out ++ out')

end Daemon

/-- `recv` returns one byte at least, and as many as fit its buffer at most. -/
def RecvResult.fits (mem : Memory) : RecvResult → Bool
  | .error => true
  | .closed alloc => mem.allows alloc
  | .bytes rbuf _ _ env _ =>
      mem.allows env.alloc && decide (0 < rbuf.length ∧ rbuf.length ≤ Loop.rlen)

/-- The system can answer so: `select` tells of descriptors in the set, and `accept` returns
one that is not open. -/
def Daemon.Enabled (mem : Memory) (d : Daemon) (r : DaemonRound) : Prop :=
  r.ready ⊆ d.table.master ∧ (∀ p ∈ r.accepted, 0 ≤ p.1 ∧ p.1 ∉ d.table.opened) ∧
    ∀ i, (r.recv i).fits mem

instance (mem : Memory) (d : Daemon) (r : DaemonRound) : Decidable (d.Enabled mem r) :=
  inferInstanceAs (Decidable (_ ∧ _ ∧ _))

/-- `runserver`, round by round; a round without defined behaviour is no step. -/
def daemon (mem : Memory) : Machine Daemon DaemonRound (List Effect) where
  init d := ∃ (servfd : Int) (opened : Finset Int), 0 ≤ servfd ∧
    (∀ fd, 0 ≤ fd → fd ≤ servfd → fd ∈ opened) ∧ d = .initial servfd opened
  step d r := if d.Enabled mem r then d.round r else none

abbrev DaemonStep := Step Daemon DaemonRound (List Effect)

end Smsg
