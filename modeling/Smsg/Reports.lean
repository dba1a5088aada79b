/-
What the commands of a chat client come to, on both ends.

A `Report` is an outcome of a command, in the terms of the room: it is what somebody in
chat is to be told.  `Report.CodedAs` is the code of `CHATCMD.protocol`, in which one
operation code has up to three meanings.  `Happened` says of a report that it is what
became of a command at the server, and that the connection is one it is for;
`Report.update` and `Report.acts` are what a client does that gets it.
-/
import Smsg.Clchat
import Smsg.Proofs.Deeds

namespace Smsg

/-- A command of an operator. -/
abbrev ModeOp := { op : NCMDOp // op ∈ modeOps }

/-- What can become of a command. -/
inductive Report
  | nickInUse
  | ownNick (nick : CString)
  | renamed (new old : CString)
  | away (on : Bool) (nick : CString) (reason : Option CString)
  | beeped
  | notBeeped (nick : CString)
  | opered (nick : CString)
  | wrongPassword
  | told (sender msg : CString)
  | echoed (sender nick msg : CString)
  | notTold (nick : CString)
  | mode (op : ModeOp) (nick oper : CString)
  | modeAbsent (op : ModeOp) (nick : CString)
  | notOperator (op : ModeOp)
deriving DecidableEq

namespace Report

/-! ### The code -/

/-- The operation code. -/
def op : Report → NCMDOp
  | nickInUse | ownNick _ | renamed _ _ => .cNick
  | away _ _ _ => .cAway
  | beeped | notBeeped _ => .cBeep
  | opered _ | wrongPassword => .cOper
  | told _ _ | echoed _ _ _ | notTold _ => .cPsay
  | mode op _ _ | modeAbsent op _ | notOperator op => op.val

/-- The byte of a flag, as the string that starts with it. -/
def flag (on : Bool) : CString := if on then ⟨[1], by decide⟩ else .empty

/-- The arguments. -/
def args : Report → List CString
  | nickInUse | beeped | wrongPassword | notOperator _ => []
  | ownNick nick | notBeeped nick | opered nick | notTold nick | modeAbsent _ nick => [nick]
  | renamed new old => [new, old]
  | away on nick reason => flag on :: nick :: reason.toList
  | told sender msg => [sender, msg]
  | echoed sender nick msg => [sender, nick, msg]
  | mode _ nick oper => [nick, oper]

end Report

/-- The arguments of a command, fetched with their NUL. -/
def NetCmd.strings (m : NetCmd) : List CString := m.args.map fun a => cstr (a ++ [0])

/-- The command stands for the report. -/
structure Report.CodedAs (r : Report) (m : NetCmd) : Prop where
  op : m.op = r.op
  args : m.strings = r.args

/-! ### What happened -/

/-- The second argument of a command as a string. -/
def NetCmd.str1 (c : NetCmd) : Option CString := (c.fetch .null 1).str

/-- A nick as it is shown; one that is missing shows as nothing. -/
def shown (nick : Option CString) : CString := nick.getD .empty

/-- Somebody is in chat on the connection. -/
def Udata.HasOn (u : Udata) (fd : Int) : Prop := ∃ user, u.room.Sits user fd

/--
The report is what became of the call, which leaves the store `u`, and `fd` is a
connection that it is for: one in chat if there is news for everybody, else that of the
client itself or of the user it has named.
-/
inductive Happened (x : Call) (u : Udata) (fd : Int) : Report → Prop
  | nickInUse {nick : CString} (hop : x.cmd.op = .cNick) (hasked : x.cmd.str0 = some nick)
      (hused : ¬ x.udata.room.FreeNick nick) (hsame : u = x.udata) (hfd : fd = x.fd) :
      Happened x u fd .nickInUse
  | ownNick {e : UdataEnt} (hop : x.cmd.op = .cNick) (hasked : x.cmd.str0 = none)
      (hs : x.Sender e) (hsame : u = x.udata) (hfd : fd = x.fd) :
      Happened x u fd (.ownNick (shown e.nick))
  | renamed {e : UdataEnt} {nick new old : CString} (hop : x.cmd.op = .cNick)
      (hasked : x.cmd.str0 = some nick) (hfree : x.udata.room.FreeNick nick) (hs : x.Sender e)
      (hold : e.nick = some old)
      (hnew : new = if x.env.alloc .updateNick then nick else old)
      (hroom : u.room = (Act.rename e.user new).apply x.fd x.udata.room) (hfd : u.HasOn fd) :
      Happened x u fd (.renamed new old)
  | away {e : UdataEnt} (hop : x.cmd.op = .cAway) (hs : x.Sender e)
      (hroom : u.room = (Act.away e.user).apply x.fd x.udata.room) (hfd : u.HasOn fd) :
      Happened x u fd (.away (!e.has udcFlagAway) (shown e.nick) x.cmd.str0)
  | beepedAll {i : Slot} (hop : x.cmd.op = .cBeep) (hasked : x.cmd.str0 = none)
      (hother : i ≠ x.cl) (hsame : u = x.udata) (hfd : fd = (x.clients i).fd ∧ u.HasOn fd) :
      Happened x u fd .beeped
  | beeped {t : UdataEnt} (hop : x.cmd.op = .cBeep) (ht : x.Target t) (hsame : u = x.udata)
      (hfd : fd = t.fd) : Happened x u fd .beeped
  | notBeeped {nick : CString} (hop : x.cmd.op = .cBeep) (hasked : x.cmd.str0 = some nick)
      (habsent : x.udata.room.FreeNick nick) (hsame : u = x.udata) (hfd : fd = x.fd) :
      Happened x u fd (.notBeeped nick)
  | opered {e : UdataEnt} (hop : x.cmd.op = .cOper) (hpw : x.cmd.str0 = some lcsOperPassword)
      (hs : x.Sender e) (hroom : u.room = (Act.oper e.user).apply x.fd x.udata.room)
      (hfd : u.HasOn fd) : Happened x u fd (.opered (shown e.nick))
  | wrongPassword (hop : x.cmd.op = .cOper) (hpw : x.cmd.str0 ≠ some lcsOperPassword)
      (hsame : u = x.udata) (hfd : fd = x.fd) : Happened x u fd .wrongPassword
  | told {e t : UdataEnt} {msg : CString} (hop : x.cmd.op = .cPsay) (hs : x.Sender e)
      (ht : x.Target t) (hmsg : x.cmd.str1 = some msg) (hsame : u = x.udata) (hfd : fd = t.fd) :
      Happened x u fd (.told (shown e.nick) msg)
  | echoed {e t : UdataEnt} {msg : CString} (hop : x.cmd.op = .cPsay) (hs : x.Sender e)
      (ht : x.Target t) (hmsg : x.cmd.str1 = some msg) (hsame : u = x.udata) (hfd : fd = x.fd) :
      Happened x u fd (.echoed (shown e.nick) (shown t.nick) msg)
  | notTold {nick : CString} (hop : x.cmd.op = .cPsay) (hasked : x.cmd.str0 = some nick)
      (habsent : x.udata.room.FreeNick nick) (hsame : u = x.udata) (hfd : fd = x.fd) :
      Happened x u fd (.notTold nick)
  | mode {op : ModeOp} {e t : UdataEnt} {act : Act CString CString} (hop : x.cmd.op = op.val)
      (hs : x.Sender e) (hoper : e.has udcFlagOperator = true) (ht : x.Target t)
      (hact : modeAct op.val t.user = some act) (hroom : u.room = act.apply x.fd x.udata.room)
      (hfd : u.HasOn fd) : Happened x u fd (.mode op (shown t.nick) (shown e.nick))
  | modeAbsent {op : ModeOp} {e : UdataEnt} {nick : CString} (hop : x.cmd.op = op.val)
      (hs : x.Sender e) (hoper : e.has udcFlagOperator = true) (hasked : x.cmd.str0 = some nick)
      (habsent : x.udata.room.FreeNick nick) (hsame : u = x.udata) (hfd : fd = x.fd) :
      Happened x u fd (.modeAbsent op nick)
  | notOperator {op : ModeOp} {e : UdataEnt} (hop : x.cmd.op = op.val) (hs : x.Sender e)
      (hoper : e.has udcFlagOperator = false) (hsame : u = x.udata) (hfd : fd = x.fd) :
      Happened x u fd (.notOperator op)

/-! ### What a client makes of it -/

namespace Report

/-- What is written for a command of an operator. -/
def modeTexts (op : NCMDOp) : ModeTexts :=
  match op with
  | .cBan => banTexts
  | .cDeop => deopTexts
  | .cKick => kickTexts
  | .cOp => opTexts
  | _ => unbanTexts

/-- What the user gets to read. -/
def tells : Report → List ChatterAct
  | nickInUse => [.asay 2 (text "the nick you want is already in use\n") []]
  | ownNick nick => [.asay 2 (text "you're known as %s here\n") [.str nick]]
  | renamed new old => [.asay 2 (text "%s is now called %s\n") [.str old, .str new]]
  | away on nick reason =>
      [.asay 2 (if on then text "%s is now away" else text "%s is not away anymore") [.str nick],
        match reason with
        | none => .asay 0 (text "\n") []
        | some reason => .asay 0 (text " (%s)\n") [.str reason]]
  | beeped => [.asay 2 (text "someone needs attention...\n") [], .beep]
  | notBeeped nick =>
      [.asay 2 (text "you can't beep the terminal of %s because he/she is not present\n")
        [.str nick]]
  | opered nick => [.asay 2 (text "mode +op %s\n") [.str nick]]
  | wrongPassword => [.asay 2 (text "you did not supply the correct operator password\n") []]
  | told sender msg =>
      [.asay 0 (text "<") [], .asay 0 (text "(p)%s") [.str sender], .asay 0 (text ">") [],
        .asay 0 (text " %s\n") [.str msg]]
  | echoed sender nick msg =>
      [.asay 0 (text "<") [], .asay 0 (text "(p)%s->%s") [.str sender, .str nick],
        .asay 0 (text ">") [], .asay 0 (text " %s\n") [.str msg]]
  | notTold nick =>
      [.asay 2 (text "you tried to sent a private message to %s who is not present\n")
        [.str nick]]
  | mode op nick oper => [.asay 2 (modeTexts op.val).done [.str nick, .str oper]]
  | modeAbsent op nick => [.asay 2 (modeTexts op.val).absent [.str nick]]
  | notOperator op => [.asay 2 (modeTexts op.val).refused []]

/-- What a client does: it writes, and asks for a new list when the names may have changed. -/
def acts (r : Report) : List ChatterAct :=
  r.tells ++ if reqWho r.op then [.send (.set .cWho)] else []

/-- What a client keeps in mind: only what is about its own user. -/
def update (r : Report) (v : ChatterVars) : ChatterVars :=
  let d := v.identity
  match r with
  | ownNick nick => { v with identity := { d with nick := nick } }
  | renamed new old => if old = d.nick then { v with identity := { d with nick := new } } else v
  | away on nick _ =>
      if nick = d.nick then
        { v with identity := { d with
            flags := if on then d.flags ||| udcFlagAway else d.flags &&& ~~~udcFlagAway } }
      else v
  | opered nick =>
      if nick = d.nick then
        { v with identity := { d with flags := d.flags ||| udcFlagOperator } }
      else v
  | mode op nick _ =>
      if nick = d.nick then
        match op.val with
        | .cBan => { v with kicked := 2 }
        | .cKick => { v with kicked := 1 }
        | .cUnban => { v with kicked := 0 }
        | .cOp => { v with identity := { d with flags := d.flags ||| udcFlagOperator } }
        | _ => { v with identity := { d with flags := d.flags &&& ~~~udcFlagOperator } }
      else v
  | _ => v

end Report

/-! ### The commands -/

/-- The commands that are reported on. -/
def reportOps : List NCMDOp := [.cNick, .cAway, .cBeep, .cOper, .cPsay] ++ modeOps

/-- `chatter_func` sends the commands of operators with a nick, `C_OPER` with a password, and
`C_PSAY` with a nick and a message. -/
structure NetCmd.FromChatter (c : NetCmd) : Prop where
  one : c.get = .cOper ∨ c.get ∈ modeOps → 0 < c.getnumargs
  two : c.get = .cPsay → c.getnumargs = 2

end Smsg
