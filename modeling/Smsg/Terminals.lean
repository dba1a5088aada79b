/-
The terminals of a user, and what a `MSG` owes to them.

`MSG` looks for a terminal in two places.  A preference counts if the user is on that
terminal by the utmp file; otherwise it is the first terminal that the file has for the
user.  `Call.terminal` says this without the detours of the handler, and `Call.Delivers`
is what must go well for a message to get there.

`MsgDisciplined`, `MsgFaithful` and `OpensOwn` are what a `MSG` owes: to whoever sent it,
to whoever it is for, and to everybody else.
-/
import Smsg.Prefs
import Smsg.Uses

namespace Smsg

/-! ### Where a message goes -/

/-- An argument as a string, if it is there. -/
def NetCmd.strArg (c : NetCmd) (k : Nat) : Option CString :=
  c.args[k]?.map fun a => cstr (a ++ [0])

/-- Whom a `MSG` is taken to be for: the second argument, or the first one if it is alone. -/
def NetCmd.addressee (c : NetCmd) : Option CString := (c.strArg 1).or (c.strArg 0)

/-- The name is one of a user that is logged in. -/
structure Call.Known (x : Call) (user : CString) : Prop where
  given : user.chars ≠ []
  passwd : x.env.getpwnam user = true
  loggedin : isloggedin x.env user = true

/-- The terminal that the user has asked for, if the user is on it. -/
def Call.preferred (x : Call) (user : CString) : Option CString :=
  ((x.udata.udataGet (some user)).filter fun e =>
    isontty x.env user e.tty && e.tty != ttysetUnset).map (·.tty)

/-- The first terminal of the user by the utmp file. -/
def Call.firstTty (x : Call) (user : CString) : Option CString :=
  (getUserlist x.env.userlist (some user)).map fun l => (l.head?.map (·.tty)).getD .empty

/-- The terminal for messages to the user. -/
def Call.terminal (x : Call) (user : CString) : Option CString :=
  match x.preferred user with
  | some tty => some tty
  | none => x.firstTty user

/-- The handler gets as far as opening a terminal. -/
structure Call.Opens (x : Call) (user tty : CString) : Prop where
  known : x.Known user
  terminal : x.terminal user = some tty
  dup : x.env.dupTty = true
  writable : iswritabletty x.env tty = true

/-- It can write to it. -/
structure Call.Delivers (x : Call) (user tty : CString) : Prop extends x.Opens user tty where
  opened : x.env.openTty tty = true
  isatty : x.env.isatty = true
  fdopen : x.env.fdopen = true

/-! ### What comes out of it -/

/-- What was written to terminals, in order. -/
def prints (effects : List Effect) : List (CString × Bytes) :=
  effects.filterMap fun
    | .print path b => some (path, b)
    | _ => none

/-- The paths that were passed to `open`, in order. -/
def opens (effects : List Effect) : List CString :=
  effects.filterMap fun
    | .openTty path => some path
    | _ => none

/-- What the terminal shows of a message. -/
def Call.letter (x : Call) (sender msg : CString) : Bytes :=
  text "\nmessage from " ++ sender.chars ++ text "@" ++ inetNtoa (x.clients x.cl).address ++
    text ":\n" ++ msg.chars ++ text "\n"

/-- A `NAK`. -/
def NetCmd.IsNak (m : NetCmd) : Prop := ∃ reason, m = (NetCmd.set .nak).add reason

/-- The law of replies for a `MSG` to `user` that did `out` and was answered with `m`. -/
structure MsgDisciplined (x : Call) (sender user msg : CString) (out : List Effect)
    (m : NetCmd) : Prop where
  reply : ∀ fd, sentTo fd out = if fd = x.fd then [m] else []
  answer : m = .set .ack ∨ m.IsNak
  ack : m = .set .ack ↔ ∃ path, (path, x.letter sender msg) ∈ prints out
  one : ∀ p ∈ prints out, ∀ q ∈ prints out, p.1 = q.1
  writable : ∀ p ∈ prints out, ∃ mode, x.env.stat p.1 = some mode ∧ mode &&& 0o20 ≠ 0
  nak : m ≠ .set .ack → prints out = []
  bell : (∃ path, (path, [7]) ∈ prints out) ↔
    m = .set .ack ∧ ((x.udata.pref user).beep = 1 ∨ (x.udata.pref user).beep = -1)

/-! ### What `MSG` gets hold of -/

namespace Call

variable (x : Call) (m : Grants)

/-- An argument as a string, if the call of `ncmd_getarg` at the place `k` copies it. -/
def gotStr (k argnum : Nat) : Option CString := (x.got m k argnum).map fun a => cstr (a ++ [0])

/-- Whom `MSG` takes the message to be for. -/
def heldUser : Option CString := (x.gotStr m 2 1).or (x.gotStr m 0 0)

/-- Whom it takes it to be from. -/
def heldSender : Option CString := (x.gotStr m 3 0).or (x.heldUser m)

/-- What it takes the message to be. -/
def heldText : Option CString := (x.gotStr m 4 2).or (x.gotStr m 1 1)

/-- What is written for a sender and a message that may be missing. -/
def lineOf (sender msg : Option CString) : Bytes :=
  text "\nmessage from " ++ printStr sender ++ text "@" ++
    inetNtoa (x.clients x.cl).address ++ text ":\n" ++ printStr msg ++ text "\n"

end Call

/-- The user and the message are the arguments for them, and a `MSG` without them is refused. -/
structure MsgFaithful (x : Call) (m : Grants) (out : List Effect) : Prop where
  full : ∀ user msg, x.cmd.strArg 1 = some user → x.cmd.strArg 2 = some msg →
    ∀ path b, (path, b) ∈ prints out →
      x.terminal user = some path ∧ (b = x.lineOf (x.heldSender m) (some msg) ∨ b = [7])
  short : x.cmd.getnumargs < 3 → prints out = [] ∧
    ∃ reply : NetCmd, reply.IsNak ∧ sentTo x.fd out = [reply]

/-- The arguments are there, and what `MSG` has got hold of comes to the same. -/
structure MsgHeld (x : Call) (m : Grants) : Prop where
  count : 3 ≤ x.cmd.getnumargs
  user : (x.heldUser m).bind x.terminal = (x.cmd.strArg 1).bind x.terminal
  text : printStr (x.heldText m) = printStr (x.cmd.strArg 2)

/-! ### The utmp file -/

/-- The user of a record. -/
def Utmp.user (r : Utmp) : CString := cstr (r.utUser.take utxUsersize ++ [0])

/-- The line of a record. -/
def Utmp.line (r : Utmp) : CString := cstr (r.utLine.take utxLinesize ++ [0])

/-- The utmp file has the records `recs` while the command is handled; `getutxline` returns
one of those whose line is the one asked for. -/
structure Env.Steady (env : Env) (recs : List Utmp) : Prop where
  loggedin : env.loggedin.recs = recs
  userlist : env.userlist.recs = recs
  getutxline : ∀ line user, env.getutxline line = some user →
    ∃ r ∈ recs, strncmpEq r.utLine line utxLinesize = true ∧ r.utUser = user

/-- Only terminals that the user is on are opened. -/
def OpensOwn (recs : List Utmp) (user : CString) (out : List Effect) : Prop :=
  ∀ path ∈ opens out, ∃ r ∈ recs, r.user = user ∧ path.chars = text "/dev/" ++ r.line.chars

/-- The path may be the one of a line of the utmp file. -/
def CString.isDevice (path : CString) : Prop :=
  text "/dev/" <+: path.chars ∧ path.chars.length ≤ 5 + utxLinesize

end Smsg
