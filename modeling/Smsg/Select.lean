/-
`server.c`: the client table under the select loop.

`Runserver.lean` takes the actions of the loop one at a time and trusts memory.  Here
the loop goes round by round, as it does in the source: what `select` found ready, an
accept, and then the slots in order, each with what `recvbuf` got on it.  A handler is
whatever it is.  It may tell any connection to be kicked out, its own included, and
may leave descriptors open.

Memory and the descriptor set have their limits: each of the two requests for memory
that a receive makes may be refused, and `FD_SET` has no defined behaviour from
`FD_SETSIZE` on.

The log says what was done, newest first.  From it alone follow the bytes that ought
to be in a buffer and how many connections there have been at once.
-/
import Smsg.Lib.Machine
import Smsg.Runserver
import Mathlib.Data.Finset.Card
import Mathlib.Data.Finset.Union

namespace Smsg

open Machines

/-! ### The table -/

/-- `struct sclient`; nothing here looks at the address. -/
structure Sclient where
  fd : Int
  buf : Ptr
  buflen : Nat
deriving DecidableEq

namespace Sclient

/-- The first `buflen` bytes of the buffer. -/
def bytes (c : Sclient) : Bytes := c.buf.bytes.take c.buflen

/-- A slot whose connection has been closed. -/
def empty : Sclient := ⟨-1, .null, 0⟩

/-- `recvbuf` when memory is there for what `recv` returned. -/
def recvbuf (c : Sclient) (rbuf : Bytes) : Sclient :=
  { c with buf := .blk (c.bytes ++ rbuf), buflen := c.buflen + rbuf.length }

/-- `ncmd_remove`; `shrunk` says whether `realloc` has made the block smaller. -/
def ncmdRemove (c : Sclient) (shrunk : Bool) : Option Sclient := do
  let cl ← ncmdIscomplete c.bytes
  if cl = 0 then some c
  else if cl < 0 then none
  else
    let rest := c.bytes.drop cl.toNat
    -- a block of size zero is freed, and `errno` stays 0
    if rest = [] then some { c with buf := .null, buflen := c.buflen - cl.toNat }
    else if shrunk then some { c with buf := .blk rest, buflen := c.buflen - cl.toNat }
    -- the bytes have been moved to the front already
    else some { c with buf := .blk (rest ++ c.bytes.drop rest.length) }

end Sclient

/-- The variables of `runserver`, and the descriptors that the process has open. -/
structure Table where
  servfd : Int
  numClients : Nat
  clients : Slot → Sclient
  master : Finset Int
  maxfd : Int
  opened : Finset Int

/-- `FD_SETSIZE`. -/
def fdSetsize : Int := 1024

/-- What the loop does. -/
inductive Action
  | accepted (i : Slot) (newfd : Int)
  | refused
  | received (i : Slot) (rbuf : Bytes)
  | handled (i : Slot) (cmd : Bytes)
  | closed (i : Slot)
deriving DecidableEq

namespace Table

/-- The slot holds a connection. -/
def live (t : Table) (i : Slot) : Prop := i.val < t.numClients ∧ (t.clients i).fd ≠ -1

instance (t : Table) (i : Slot) : Decidable (t.live i) :=
  inferInstanceAs (Decidable (_ ∧ _))

/-- Static storage is zero. -/
def initial (servfd : Int) (opened : Finset Int) : Table :=
  ⟨servfd, 0, fun _ => ⟨0, .null, 0⟩, {servfd}, servfd, opened⟩

/-- Writing to one slot. -/
def setClient (t : Table) (i : Slot) (c : Sclient) : Table :=
  { t with clients := fun j => if j = i then c else t.clients j }

/-- The slot that an accepted connection is put into. -/
def acceptSlot (t : Table) : Option Slot :=
  if h : t.numClients < maxClients then
    some (((List.finRange maxClients).find? fun i =>
      decide (i.val < t.numClients) && (t.clients i).fd == -1).getD ⟨t.numClients, h⟩)
  else none

/-- The accepted connection `newfd` is put into slot `i`. -/
def seat (t : Table) (i : Slot) (newfd : Int) : Table where
  servfd := t.servfd
  numClients := if i.val = t.numClients then t.numClients + 1 else t.numClients
  clients := fun j => if j = i then ⟨newfd, .null, 0⟩ else t.clients j
  master := insert newfd t.master
  maxfd := if t.maxfd < newfd then newfd else t.maxfd
  opened := insert newfd t.opened

/-- A connection is there to be accepted; `none` is a failed `accept`. -/
def accept (t : Table) (newfd : Option Int) : Option (Table × List Action) :=
  match t.acceptSlot with
  | none => some (t, [.refused])
  | some i =>
      match newfd with
      | none => some (t, [])
      | some newfd =>
          if fdSetsize ≤ newfd then none else some (t.seat i newfd, [.accepted i newfd])

/-- Closing a connection: `FD_CLR`, `close`, `free`, and the slot is empty. -/
def release (t : Table) (i : Slot) : Table :=
  { t.setClient i .empty with
    master := t.master.erase (t.clients i).fd
    opened := t.opened.erase (t.clients i).fd }

/-- Kicking out the slot that a handler told, if it told one. -/
def kick (t : Table) : Option Slot → Table
  | none => t
  | some r => t.release r

end Table

/-! ### A round of the loop -/

/-- A call of `ls_handle_netcmd`: the connection it tells to kick out, which it has looked
up in the table, and the descriptors it leaves open. -/
structure Handler where
  kick : (t : Table) → Option {r : Slot // t.live r}
  leaves : Finset Int

/-- The slot that is kicked out. -/
def Handler.slot (call : Handler) (t : Table) : Option Slot := (call.kick t).map (·.1)

/-- The table behind a call and the kick that it tells. -/
def Table.called (t : Table) (call : Handler) : Table :=
  { t.kick (call.slot t) with opened := (t.kick (call.slot t)).opened ∪ call.leaves }

/-- What `recvbuf` gets on a connection; `grown` and `shrunk` say whether memory was there
to append the bytes, and to take a command from the front. -/
inductive Receipt
  | error
  | closed
  | bytes (rbuf : Bytes) (grown : Bool) (call : Handler) (shrunk : Bool)

/-- `recv` returns one byte at least, and as many as fit its buffer at most. -/
def Receipt.fits : Receipt → Bool
  | .bytes rbuf _ _ _ => decide (0 < rbuf.length ∧ rbuf.length ≤ Loop.rlen)
  | _ => true

/-- What a round meets. -/
structure Round where
  /-- What `select` leaves of `master`. -/
  ready : Finset Int
  /-- What `accept` returns if it is called, `none` being an error. -/
  accepted : Option Int
  recv : Slot → Receipt

namespace Table

/-- The slot `i` is ready. -/
def serve (t : Table) (i : Slot) : Receipt → Option (Table × List Action)
  | .error => some (t, [])
  | .closed => some (t.release i, [.closed i])
  | .bytes rbuf grown call shrunk =>
      if grown then do
        let t := t.setClient i ((t.clients i).recvbuf rbuf)
        let k ← ncmdIscomplete (t.clients i).bytes
        if k = 0 then some (t, [.received i rbuf])
        else
          let cmd := (t.clients i).bytes.take k.toNat
          let kicks := ((call.slot t).map Action.closed).toList
          let t := t.called call
          let c ← (t.clients i).ncmdRemove shrunk
          some (t.setClient i c, .handled i cmd :: (kicks ++ [.received i rbuf]))
      else some (t, [.received i rbuf])

/-- The loop over the slots. -/
def serveAll (r : Round) : List Slot → Table → Option (Table × List Action)
  | [], t => some (t, [])
  | i :: is, t =>
      if t.live i ∧ (t.clients i).fd ∈ r.ready then do
        let (t, log) ← t.serve i (r.recv i)
        let (t, log') ← serveAll r is t
        some (t, log' ++ log)
      else serveAll r is t

/-- An accept, if the listening socket is ready. -/
def welcome (t : Table) (r : Round) : Option (Table × List Action) :=
  if t.servfd ∈ r.ready then t.accept r.accepted else some (t, [])

/-- One round. -/
def round (t : Table) (r : Round) : Option (Table × List Action) := do
  let (t, log) ← t.welcome r
  let (t, log') ← serveAll r (List.finRange maxClients) t
  some (t, log' ++ log)

/-- The system can answer so: `select` tells of descriptors in the set, and `accept` returns
one that is not open. -/
def Enabled (t : Table) (r : Round) : Prop :=
  r.ready ⊆ t.master ∧ (∀ newfd ∈ r.accepted, 0 ≤ newfd ∧ newfd ∉ t.opened) ∧
    ∀ i, (r.recv i).fits

instance (t : Table) (r : Round) : Decidable (t.Enabled r) :=
  inferInstanceAs (Decidable (_ ∧ _ ∧ _))

end Table

/-- The select loop; a round without defined behaviour is no step. -/
def selectLoop : Machine Table Round (List Action) where
  init t := ∃ (servfd : Int) (opened : Finset Int),
    0 ≤ servfd ∧ servfd ∈ opened ∧ t = .initial servfd opened
  step t r := if t.Enabled r then t.round r else none

/-- What was done in the rounds so far, newest first. -/
def actions (hist : List (Step Table Round (List Action))) : List Action := hist.flatMap (·.out)

/-! ### What the log tells -/

/-- What the entries of a log give one after the other, since the last one that starts anew. -/
def since {α β : Type*} (starts : α → Bool) (gives : α → List β) : List α → List β
  | [] => []
  | a :: log => if starts a then [] else since starts gives log ++ gives a

namespace Action

/-- A connection is put into slot `i`. -/
def seats (i : Slot) : Action → Bool
  | .accepted j _ => j == i
  | _ => false

/-- The bytes received on slot `i`. -/
def got (i : Slot) : Action → Bytes
  | .received j rbuf => if j = i then rbuf else []
  | _ => []

/-- The bytes of a command handled on slot `i`. -/
def took (i : Slot) : Action → Bytes
  | .handled j cmd => if j = i then cmd else []
  | _ => []

end Action

/-- The bytes received on the connection in slot `i`. -/
def receivedOn (i : Slot) (log : List Action) : Bytes := since (Action.seats i) (Action.got i) log

/-- The bytes of the commands handled on the connection in slot `i`. -/
def handledSince (i : Slot) (log : List Action) : Bytes := since (Action.seats i) (Action.took i) log

/-- How many connections there are. -/
def connections : List Action → Nat
  | [] => 0
  | .accepted _ _ :: log => connections log + 1
  | .closed _ :: log => connections log - 1
  | _ :: log => connections log

/-- How many connections there have been at once. -/
def peak : List Action → Nat
  | [] => 0
  | a :: log => max (connections (a :: log)) (peak log)

/-! ### What the table ought to be -/

/-- The slots with a connection. -/
def Table.liveSlots (t : Table) : Finset Slot := Finset.univ.filter t.live

/-- The table agrees with the descriptors and with what was received. -/
structure SlotTable (log : List Action) (t : Table) : Prop where
  count : t.numClients ≤ maxClients
  distinct : ∀ i j, t.live i → t.live j → (t.clients i).fd = (t.clients j).fd → i = j
  opened : ∀ i, t.live i → (t.clients i).fd ∈ t.opened
  master : ∀ fd, fd ∈ t.master ↔ fd = t.servfd ∨ ∃ i, t.live i ∧ (t.clients i).fd = fd
  maxfd : ∀ fd ∈ t.master, fd ≤ t.maxfd
  dead : ∀ i, i.val < t.numClients → (t.clients i).fd = -1 →
    (t.clients i).buf = .null ∧ (t.clients i).buflen = 0
  block : ∀ i, t.live i → (t.clients i).buf.bytes.length = (t.clients i).buflen
  stream : ∀ i, t.live i → receivedOn i log = handledSince i log ++ (t.clients i).buf.bytes

/-- A receive for a buffer that holds `buf` has memory, and `ncmd_iscomplete` stays in the
buffer and returns no negative number. -/
def Receipt.Tame (buf : Bytes) : Receipt → Prop
  | .bytes rbuf grown _ shrunk => grown = true ∧ ∃ k : Nat,
      ncmdIscomplete (buf ++ rbuf) = some k ∧ (0 < k → k < (buf ++ rbuf).length → shrunk = true)
  | _ => True

/-- Nothing goes wrong in the round. -/
structure Round.Tame (t : Table) (r : Round) : Prop where
  fits : t.servfd ∈ r.ready → t.numClients < maxClients → ∀ newfd ∈ r.accepted, newfd < fdSetsize
  bytes : ∀ i, t.live i → (t.clients i).fd ∈ r.ready → (r.recv i).Tame (t.clients i).bytes

/-- What becomes of a connection that arrives as `newfd`: it is turned away only if every
slot is live, and put into a free slot if there are fewer. -/
structure Reclaimed (t : Table) (newfd : Int) : Prop where
  refused : t.accept (some newfd) = some (t, [.refused]) → t.liveSlots.card = maxClients
  accepted : t.liveSlots.card < maxClients → ∃ i t', ¬ t.live i ∧
    t.accept (some newfd) = some (t', [.accepted i newfd]) ∧
    t'.live i ∧ (t'.clients i).fd = newfd

end Smsg
