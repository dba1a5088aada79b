/-
`clchat.c` and `client.c`: the chat client, and clients and server together.

`Identity` is the part of `chatter_func` that says who its user is: the nick and the
flags, which change with some of the commands that come from the server.  A run of
`chatter` joins on a connection of its own, once, reads the answer, and then is
inside `chatter_func` until that returns.

`System` is a server with such a client at the other end of each connection.  What
the server sends to a connection waits in its channel until the client reads it, one
whole command after the other.  Nothing is said about the other direction but that a
client sends one join, first: whatever else it may have sent can arrive at any time,
before or after `chatter_func` has returned.
-/
import Smsg.Runserver

namespace Smsg

open Machines

/-! ### Who the user is -/

/-- `nick` and `flags` of `chatter_func`. -/
structure Identity where
  nick : CString
  flags : Flags
deriving DecidableEq

/--
The commands that `chatter_func` tells from others because of their effect on `nick`
and `flags`.  An argument that is not there is `NULL` here, and following that has no
outcome.
-/
def Identity.handle (d : Identity) (rbuf : NetCmd) : Option Identity :=
  let targ0 := rbuf.fetch .null 0
  let targ1 := rbuf.fetch .null 1
  let na := rbuf.getnumargs
  match rbuf.get with
  | .cAway => do
      let state ← targ0.ap.bytes.head?
      let who ← targ1.str
      some (if who = d.nick then
        { d with flags := if state = 0 then d.flags &&& ~~~udcFlagAway
                          else d.flags ||| udcFlagAway }
        else d)
  | .cOper =>
      if 0 < na then do
        let who ← targ0.str
        some (if who = d.nick then { d with flags := d.flags ||| udcFlagOperator } else d)
      else some d
  | .cNick =>
      if na = 1 then do
        let new ← targ0.str
        some { d with nick := new }
      else if na = 2 then do
        let new ← targ0.str
        let who ← targ1.str
        some (if who = d.nick then { d with nick := new } else d)
      else some d
  | .cDeop =>
      if na ≤ 1 then some d
      else do
        let who ← targ0.str
        some (if who = d.nick then { d with flags := d.flags &&& ~~~udcFlagOperator } else d)
  | .cOp =>
      if na ≤ 1 then some d
      else do
        let who ← targ0.str
        some (if who = d.nick then { d with flags := d.flags ||| udcFlagOperator } else d)
  | _ => some d

/-- The commands of a channel, in order. -/
def Identity.handleAll (channel : List NetCmd) (d : Identity) : Option Identity :=
  channel.foldlM Identity.handle d

/-! ### A run of `chatter` -/

/-- Where a run of `chatter` is. -/
inductive Chatter
  /-- It has connected and sent its join. -/
  | joining (user nick : CString)
  /-- The server has answered. -/
  | waiting (user nick : CString)
  /-- It is inside `chatter_func`. -/
  | inside (user : CString) (d : Identity)
  /-- It has left `chatter_func`, or never got there. -/
  | finished
deriving DecidableEq

/-- The join that `chatter` sends. -/
def chatterJoin (user nick : CString) : NetCmd :=
  ((NetCmd.set .chatdoor).add user.chars).add nick.chars

/-- Reading a command; an answer that is not `NAK` lets `chatter` go on to `chatter_func`. -/
def Chatter.read (p : Chatter) (rbuf : NetCmd) : Option Chatter :=
  match p with
  | waiting user nick =>
      match rbuf.get with
      | .nak => some finished
      | _ => some (inside user ⟨nick, 0⟩)
  | inside user d => do
      let d ← d.handle rbuf
      some (inside user d)
  | _ => none

/-! ### Clients and server -/

/-- A server, the client of each slot, and what is on its way to it. -/
structure System where
  server : Server
  chatter : Slot → Chatter
  channel : Slot → List NetCmd

/-- What can happen to them. -/
inductive SystemEvent
  | connect (newfd : Int) (peer : InAddr) (user nick : CString)
  | recvError (i : Slot)
  | closed (i : Slot) (alloc : Alloc)
  | join (i : Slot) (env : Env)
  | netcmd (i : Slot) (c : NetCmd) (env : Env)
  | read (i : Slot)
  | quit (i : Slot)

namespace System

def initial (servfd : Int) : System := ⟨.initial servfd, fun _ => .finished, fun _ => []⟩

/-- The server does something, and what it sends is on its way. -/
def serve (y : System) (ev : Event) : Option System := do
  let (server, effects) ← y.server.step .any ev
  some { y with
    server := server
    channel := fun j => y.channel j ++ sentTo (y.server.clients j).fd effects }

/-- The client of slot `i` goes on. -/
def setChatter (y : System) (i : Slot) (p : Chatter) : System :=
  { y with chatter := fun j => if j = i then p else y.chatter j }

def setChannel (y : System) (i : Slot) (channel : List NetCmd) : System :=
  { y with channel := fun j => if j = i then channel else y.channel j }

/-- One event. -/
def step (y : System) : SystemEvent → Option System
  | .connect newfd peer user nick => do
      let y' ← y.serve (.accept newfd peer)
      match y.server.acceptSlot with
      | none => some y'
      | some i => some ((y'.setChatter i (.joining user nick)).setChannel i [])
  | .recvError i => y.serve (.recvError i)
  | .closed i alloc => do
      let y' ← y.serve (.closed i alloc)
      some (y'.setChatter i .finished)
  | .join i env =>
      match y.chatter i with
      | .joining user nick => do
          let y' ← y.serve (.netcmd i (chatterJoin user nick) env)
          some (y'.setChatter i (.waiting user nick))
      | _ => none
  | .netcmd i c env =>
      match y.chatter i with
      | .inside _ _ | .finished =>
          if c.get = .chatdoor ∧ c.leaves = false then none else y.serve (.netcmd i c env)
      | _ => none
  | .read i =>
      match y.channel i with
      | [] => none
      | rbuf :: channel => do
          let p ← (y.chatter i).read rbuf
          some ((y.setChatter i p).setChannel i channel)
  | .quit i =>
      match y.chatter i with
      | .inside _ _ => some (y.setChatter i .finished)
      | _ => none

end System

/-- Clients and server. -/
def system : Machine System SystemEvent Unit where
  init y := ∃ servfd, 0 ≤ servfd ∧ y = .initial servfd
  step y ev := (y.step ev).map fun y' => (y', ())

end Smsg
