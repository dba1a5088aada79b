/-
`client.c`: what a client makes of the answer to a request.

`getmessage`, `getlist`, `sendprefs` and `chatter` send one request and call `recvbuf` once.
What they do with the bytes that it got is here; bytes of the answer that come later are
not looked at.  In `chatter` the rest of the connection is the business of
`chatter_func`, which has a receive buffer of its own.

`say` and `error` are kept as they are called, with a format and what its conversions
print.  Printing a string stops at its NUL, so a block without one has no outcome.
-/
import Smsg.Runserver

namespace Smsg

/-! ### Strings behind a pointer -/

/-- What a conversion prints. -/
inductive Printed
  | str (s : CString)
  | int (i : Int)
  /-- The name that `ncmd_getname` has for a command. -/
  | cmd (op : NCMDOp)
deriving DecidableEq

/-- A call of `say` or of `error`. -/
inductive Line
  | say (format : Bytes) (args : List Printed)
  | error (format : Bytes) (args : List Printed)
deriving DecidableEq

/-- The string in a block, if its NUL is in it. -/
def Arg.terminated (t : Arg) : Option CString :=
  match t.ap with
  | .blk b => if 0 ∈ b then some (cstr b) else none
  | _ => none

/-- What `%s` prints. -/
def Arg.printed (t : Arg) : Option Printed :=
  match t.ap with
  | .null => some (.str ⟨text "(null)", by decide⟩)
  | _ => t.terminated.map .str

def isdigit (c : UInt8) : Bool := 48 ≤ c && c ≤ 57

/-- The number that the digits at the front of a string are. -/
def digits (s : Bytes) : Nat :=
  (s.takeWhile isdigit).foldl (fun n c => n * 10 + (c.toNat - 48)) 0

/-- `strtol` with base 10. -/
def strtol (s : Bytes) : Int :=
  let s := s.dropWhile isspace
  if s.head? = some 45 then max (-(digits s.tail : Int)) (-2 ^ 63)
  else if s.head? = some 43 then min (digits s.tail) (2 ^ 63 - 1)
  else min (digits s) (2 ^ 63 - 1)

/-- `atoi`. -/
def atoi (s : CString) : Int := toCInt (strtol s.chars)

/-- `ncmd_getarg` without its return value. -/
def getarg (buf : Bytes) (t : Arg) (argnum : Nat) (addzero : Bool) : Option Arg :=
  (ncmdGetarg buf t argnum addzero).map (·.2)

/-! ### `getmessage` -/

/-- The number of messages left. -/
def sayLeft (n : Int) : Line :=
  if n = 0 then .say (text "There are no messages left on the queue.\n") []
  else .say (text "There are %i messages left on the queue.\n") [.int n]

/-- A `QMSG` in `getmessage`. -/
def getmessageQmsg (rbuf : Bytes) : Option (List Line) := do
  let targ ← getarg rbuf .null 0 true
  let left ← targ.terminated
  if 1 < ncmdGetnumargs rbuf then
    let targ ← getarg rbuf targ 2 true
    let who ← targ.printed
    let targ ← getarg rbuf targ 3 true
    let place ← targ.printed
    let targ ← getarg rbuf targ 1 true
    let time ← targ.printed
    let targ ← getarg rbuf targ 4 true
    let msg ← targ.printed
    some [sayLeft (atoi left), .say (text "Queued message from %s") [who],
      .say (text "@%s sent on") [place], .say (text " %s:\n") [time], .say (text "%s\n") [msg]]
  else some [sayLeft (atoi left), .say (text "There are no queued messages.\n") []]

/-- `getmessage`, when `recvbuf` got the bytes `rbuf`. -/
def getmessage (rbuf : Bytes) : Option (List Line) := do
  let k ← ncmdIscomplete rbuf
  if k = 0 then some []
  else
    match ncmdGet rbuf with
    | .qmsg => getmessageQmsg rbuf
    | .nak => do
        let targ ← getarg rbuf .null 0 true
        let reason ← targ.printed
        some [.say (text ("error getting queued message " ++
          "(which does -not- mean there are none) (%s)\n")) [reason]]
    | op => some [.error (text "received unexpected command %s (expected QMSG or NAK)\n") [.cmd op]]

/-! ### `getlist` -/

/-- One line of the list of users. -/
def sayUser (mesg : UInt8) (name : Printed) : Line :=
  if mesg = 255 then .say (text "  ?  %s\n") [name]
  else if mesg = 0 then .say (text "  n  %s\n") [name]
  else if mesg = 1 then .say (text "  y  %s\n") [name]
  else .say (text " huh %s\n") [name]

/-- The loop over the users from argument `i` on; `fuel` bounds the number of rounds. -/
def getlistUsers (rbuf : Bytes) (t : Nat) : Nat → Nat → Arg → Arg → Option (List Line)
  | 0, _, _, _ => none
  | fuel + 1, i, targ0, targ1 =>
      if i < t then do
        let targ0 ← getarg rbuf targ0 i false
        let targ1 ← getarg rbuf targ1 (i + 1) false
        let mesg ← targ1.ap.bytes.head?
        let name ← targ0.printed
        let rest ← getlistUsers rbuf t fuel (i + 2) targ0 targ1
        some (sayUser mesg name :: rest)
      else some []

/-- The part of a `LIST` behind version and system. -/
def getlistRest (rbuf : Bytes) (targ0 targ1 : Arg) : Option (List Line) :=
  let t := ncmdGetnumargs rbuf
  if t = 2 then some [.say (text "no users logged in\n") []]
  else getlistUsers rbuf t (t + 1) 2 targ0 targ1

/-- A `LIST` in `getlist`. -/
def getlistList (peer : CString) (rbuf : Bytes) : Option (List Line) := do
  let targ0 ← getarg rbuf .null 0 true
  let targ1 ← getarg rbuf .null 1 true
  let version ← targ0.printed
  let os ← targ1.printed
  let users ← getlistRest rbuf targ0 targ1
  some (.say (text "server v%s running on %s at %s\n") [version, os, .str peer] ::
    .say (text "mesg user\n") [] :: users)

/-- `getlist`, when `recvbuf` got the bytes `rbuf` from the server at `peer`. -/
def getlist (peer : CString) (rbuf : Bytes) : Option (List Line) := do
  let k ← ncmdIscomplete rbuf
  if k = 0 then some [.say (text "got %i bytes\n") [.int rbuf.length]]
  else
    match ncmdGet rbuf with
    | .list => getlistList peer rbuf
    | .nak => do
        let targ0 ← getarg rbuf .null 0 true
        let reason ← targ0.printed
        some [.say (text "error getting user listing (%s)\n") [reason]]
    | op => some [.error (text "received unexpected command %s (expected LIST or NAK)\n") [.cmd op]]

/-! ### `sendprefs` -/

/-- The request of `sendprefs`; a tty that is `NULL` becomes an empty one. -/
def sendprefsAsks (pwName : CString) (tty : Option CString) (beep mode : Int8) : NetCmd :=
  ((((NetCmd.set .setpref).add pwName.chars).add (xstr tty)).add [beep.toUInt8]).add [mode.toUInt8]

/-- `sendprefs`, when `recvbuf` got the bytes `rbuf`. -/
def sendprefs (rbuf : Bytes) : Option (List Line) := do
  let k ← ncmdIscomplete rbuf
  if k = 0 then some []
  else
    match ncmdGet rbuf with
    | .ack => some [.say (text "preferences set\n") []]
    | .nak => do
        let targ ← getarg rbuf .null 0 true
        let reason ← targ.printed
        some [.say (text "error setting preferences (%s)\n") [reason]]
    | op => some [.error (text "received unexpected command %s (expected ACK or NAK)\n") [.cmd op]]

/-! ### `chatter` -/

/-- What `chatter` takes the first bytes from the server for. -/
inductive JoinAnswer
  | ack
  | nak (reason : Printed)
  | unexpected (op : NCMDOp)
  | incomplete (bytes : Nat)
deriving DecidableEq

/-- The answer to the join, when `recvbuf` got the bytes `rbuf`. -/
def chatterAnswer (rbuf : Bytes) : Option JoinAnswer := do
  let k ← ncmdIscomplete rbuf
  if k = 0 then some (.incomplete rbuf.length)
  else
    match ncmdGet rbuf with
    | .ack => some .ack
    | .nak => do
        let targ0 ← getarg rbuf .null 0 true
        let reason ← targ0.printed
        some (.nak reason)
    | op => some (.unexpected op)

/-- `chatter`: the answer is read from the first bytes, and `chatter_func` reads commands
from those that come later. -/
def chatter : List Bytes → Option (JoinAnswer × List Read × Bytes)
  | [] => none
  | c :: cs => do
      let answer ← chatterAnswer c
      match answer with
      | .nak _ => some (answer, [], [])
      | _ => do
          let _ ← ncmdRemove c
          let (log, rbuf) ← receiveAll cs []
          some (answer, log, rbuf)

/-! ### What they ought to say -/

/-- What `mq_get` sets for the message `q` with `n` left. -/
def Queued.vars (q : Queued) (n : Nat) : MqVars :=
  ⟨some q.msg, some q.sendtime, some q.sender, some q.sourceIp, n⟩

/-- The answer to `GETQMSG` when `mq_get` returns the message `q` with `n` left. -/
def Queued.answer (q : Queued) (n : Nat) : NetCmd :=
  let msg := (NetCmd.set .qmsg).add (storeNs (BitVec.ofNat 16 n))
  (((msg.add q.msg.chars).add q.sendtime.chars).add q.sender.chars).add q.sourceIp.chars

/-- The answer to `GETQMSG` is `m` whenever `mq_get` returns the message `q` with `n` left. -/
def AnswersWith (q : Queued) (n : Nat) (m : NetCmd) : Prop :=
  ∀ (x : Call) (user : CString) (num : Nat) (r : Int) (u : Udata),
    islocal (x.clients x.cl).address = true → (x.cmd.fetch .null 0).str = some user →
    x.env.getpwnam user = true → mqGetnum x.udata user = .ok (num + 1) →
    mqGet x.env x.udata user = .ok (r, q.vars n, u) → r ≠ -1 →
    handleGetqmsg x = .ok (x.done u [x.reply m])

/-- The message `q` and the number `n` of those left, as they are. -/
def TellsMessage (q : Queued) (n : Nat) (lines : Option (List Line)) : Prop :=
  lines = some [sayLeft n, .say (text "Queued message from %s") [.str q.sender],
    .say (text "@%s sent on") [.str q.sourceIp], .say (text " %s:\n") [.str q.sendtime],
    .say (text "%s\n") [.str q.msg]]

/-- The line says something about a user. -/
def Line.isUser : Line → Bool
  | .say format _ =>
      format ∈ [text "  ?  %s\n", text "  n  %s\n", text "  y  %s\n", text " huh %s\n"]
  | .error _ _ => false

/-- The users that the server lists: those in front of the entry with count 0. -/
def listed (ul : List UserlistEnt) : List UserlistEnt := ul.takeWhile fun l => l.count != 0

/-- Version, system and users, each user with name and mesg state. -/
def TellsList (env : Env) (ul : List UserlistEnt) (lines : Option (List Line)) : Prop :=
  ∃ peer out, lines = some out ∧
    out.head? = some (.say (text "server v%s running on %s at %s\n")
      [.str env.version, .str env.os, .str peer]) ∧
    out.filter Line.isUser = (listed ul).map fun l =>
      sayUser (if iswritabletty env l.tty then 1 else 0) (.str l.name)

end Smsg
