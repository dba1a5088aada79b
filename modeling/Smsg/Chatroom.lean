/-
The chat as a whole: a server, and at the other end of each connection whoever is there.

`Chatroom` has both directions of every connection.  What is sent to the server and has
not been handled is in `up`, also while it waits in a receive buffer, and what the server
has sent and has not been read is in `down`.  A `chatter` sends its join, and everything
else that a client says is there because of a line that its user has entered, or because
`chatter_func` asks for the list of the sidebar again.

Whoever is no `chatter` may send any command but `CHATDOOR`, so that those in chat are
there with this client.  Memory is always there, and a user has a nick to join with.  A
line that makes no whole command, for having more in it than the fields of a command
have room for, is left out.
-/
import Smsg.Lib.Refetch
import Smsg.Cmdline
import Smsg.Who

namespace Smsg

open Machines

/-! ### Those at the other end -/

/-- Who is at the other end of a connection. -/
inductive Member
  /-- Something else than `chatter`. -/
  | visitor
  /-- A `chatter` that has sent its join and waits for the answer. -/
  | joining (user nick : CString) (eraseKey : Int)
  /-- A `chatter` inside `chatter_func`. -/
  | inside (user : CString) (v : ChatterVars) (l : LineVars)
  /-- A `chatter` that is done, but for what it has sent. -/
  | finished

/-- One of them, with the commands to the server and the messages from it, oldest first. -/
structure Peer where
  member : Member
  up : List NetCmd
  down : List NetCmd

/-- The leave that `chatter` sends when `chatter_func` has returned. -/
def chatterLeave (user : CString) (reason : Option Bytes) : NetCmd :=
  let msg := (NetCmd.set .chatdoor).add user.chars
  match reason with
  | none => msg
  | some reason => (msg.add []).add reason

/-- What `chatter_func` sends. -/
def chatterSends (acts : List ChatterAct) : List NetCmd :=
  acts.filterMap fun
    | .send msg => some msg
    | _ => none

/-- The command that the bytes are, if they are one and nothing else. -/
def wholeCmd (sbuf : Bytes) : Option NetCmd :=
  (decode sbuf).filter fun c => decide (c.encode = sbuf)

/-- A line has been entered inside `chatter_func`. -/
def Peer.line (p : Peer) (line : InputLine) : Option Peer :=
  match p.member with
  | .inside user v l =>
      if l.exitloop then none
      else
        match chatterLine l line with
        | (l, none) => some { p with member := .inside user v l }
        | (l, some sbuf) => do
            let c ← wholeCmd sbuf
            some { p with member := .inside user v l, up := p.up ++ [c] }
  | _ => none

/--
The one `recv` for the answer to the join.  Behind the answer it may have taken `more`
messages, which nobody looks at.  `chatter_func` begins with asking for the sidebar.
-/
def Peer.answered (p : Peer) (more : Nat) : Option Peer :=
  match p.member, p.down with
  | .joining user nick eraseKey, rbuf :: down =>
      match rbuf.get with
      | .nak => some ⟨.finished, p.up, []⟩
      | _ => some ⟨.inside user ⟨⟨nick, 0⟩, 0, []⟩ ⟨eraseKey, none, false⟩,
          p.up ++ [.set .cWho], down.drop more⟩
  | _, _ => none

/-- One round of the loop of `chatter_func` over what has been received. -/
def Peer.read (p : Peer) : Option (Peer × NetCmd) :=
  match p.member, p.down with
  | .inside user v l, rbuf :: down => do
      let (v, acts) ← chatterFunc v rbuf
      some (⟨.inside user v l, p.up ++ chatterSends acts, down⟩, rbuf)
  | _, _ => none

/-- `chatter_func` returns because of `exitloop`. -/
def Peer.quit (p : Peer) : Option Peer :=
  match p.member with
  | .inside user _ l =>
      if l.exitloop then some ⟨.finished, p.up ++ [chatterLeave user l.reason], p.down⟩ else none
  | _ => none

/-! ### The chat -/

/-- A server and everybody who is connected to it. -/
structure Chatroom where
  server : Server
  peer : Slot → Peer

/-- What can happen in it. -/
inductive ChatroomEvent
  | visit (newfd : Int) (peer : InAddr)
  | chatter (newfd : Int) (peer : InAddr) (user nick : CString) (eraseKey : Int)
  | recvError (i : Slot)
  | closed (i : Slot) (alloc : Alloc)
  | serve (i : Slot) (env : Env)
  | request (i : Slot) (c : NetCmd)
  | line (i : Slot) (line : InputLine)
  | answered (i : Slot) (more : Nat)
  | read (i : Slot)
  | quit (i : Slot)
  | hangup (i : Slot)

namespace Chatroom

def initial (servfd : Int) : Chatroom := ⟨.initial servfd, fun _ => ⟨.finished, [], []⟩⟩

def setPeer (y : Chatroom) (i : Slot) (p : Peer) : Chatroom :=
  { y with peer := fun j => if j = i then p else y.peer j }

/-- The server does something, and what it sends is on its way. -/
def tell (y : Chatroom) (ev : Event) : Option Chatroom := do
  let (server, effects) ← y.server.step .enough ev
  some ⟨server, fun j =>
    { y.peer j with down := (y.peer j).down ++ sentTo (y.server.clients j).fd effects }⟩

/-- A connection arrives, and with it whoever is at the other end. -/
def arrive (y : Chatroom) (newfd : Int) (peer : InAddr) (p : Peer) : Option Chatroom := do
  let y' ← y.tell (.accept newfd peer)
  match y.server.acceptSlot with
  | none => some y'
  | some i => some (y'.setPeer i p)

/-- One event, and the message that a client has taken with it. -/
def step (y : Chatroom) (e : ChatroomEvent) : Option (Chatroom × Option (Slot × NetCmd)) :=
  let silent (y : Option Chatroom) := y.map fun y => (y, none)
  match e with
  | .visit newfd peer => silent (y.arrive newfd peer ⟨.visitor, [], []⟩)
  | .chatter newfd peer user nick eraseKey =>
      if nick.chars = [] then none
      else silent (y.arrive newfd peer
        ⟨.joining user nick eraseKey, [chatterJoin user nick], []⟩)
  | .recvError i => silent (y.tell (.recvError i))
  | .closed i alloc =>
      silent ((y.tell (.closed i alloc)).map fun y => y.setPeer i ⟨.finished, [], []⟩)
  | .serve i env =>
      match (y.peer i).up with
      | [] => none
      | c :: up => silent ((y.setPeer i { y.peer i with up := up }).tell (.netcmd i c env))
  | .request i c =>
      match (y.peer i).member with
      | .visitor =>
          if c.op = .chatdoor then none
          else some (y.setPeer i { y.peer i with up := (y.peer i).up ++ [c] }, none)
      | _ => none
  | .line i line => silent (((y.peer i).line line).map (y.setPeer i))
  | .answered i more => silent (((y.peer i).answered more).map (y.setPeer i))
  | .read i => (y.peer i).read.map fun r => (y.setPeer i r.1, some (i, r.2))
  | .quit i => silent ((y.peer i).quit.map (y.setPeer i))
  | .hangup i =>
      match (y.peer i).member, (y.peer i).down with
      | .inside _ _ _, [] =>
          if y.server.live i then none else some (y.setPeer i ⟨.finished, [], []⟩, none)
      | _, _ => none

end Chatroom

/-- The chat. -/
def chatroom : Machine Chatroom ChatroomEvent (Option (Slot × NetCmd)) where
  init y := ∃ servfd, 0 ≤ servfd ∧ y = .initial servfd
  step := Chatroom.step

abbrev ChatroomStep := Step Chatroom ChatroomEvent (Option (Slot × NetCmd))

/-! ### The sidebar -/

/-- The names of those in chat, as they are listed. -/
def Udata.sayNames (u : Udata) : Multiset Bytes := Multiset.ofList (u.chatting.map (·.sayName))

/-- The names in the sidebar. -/
def ChatterVars.sidebar (v : ChatterVars) : Multiset Bytes :=
  Multiset.ofList (v.culist.map (·.chars))

/-- The command asks for the list that the sidebar is filled with. -/
def NetCmd.AsksChat (c : NetCmd) : Prop := c.op = .cWho ∧ (c.args = [] ∨ c.args = [[0]])

/-- What a message from the server is to the sidebar. -/
def sidebarKind (m : NetCmd) : Refetch.Kind (Multiset Bytes) :=
  if reqWho m.op then .stale
  else if m.op = .cWho ∧ whoItype m = 0 then
    .fresh (Multiset.ofList ((whoNames (m.args.drop (whoFirst m))).map (·.chars)))
  else .other

/-- A list for the sidebar of the client in slot `i` has been asked for and not yet been made. -/
def Chatroom.Asked (y : Chatroom) (i : Slot) : Prop := ∃ c ∈ (y.peer i).up, c.AsksChat

end Smsg
