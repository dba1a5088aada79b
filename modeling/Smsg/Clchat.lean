/-
`clchat.c`: what `chatter_func` does with the commands that the server sends.

Each case of the switch is a definition of its own, which says what is written to the
window.  The number of arguments and the first byte of a flag tell apart what one
operation code can mean.  What a command does to `nick` and `flags` is
`Identity.handle`; `kicked` and the list of the sidebar are here.

An argument that is not there is `NULL`, and memory is always there.  What only draws,
as `stupd` and `lcc_sidebar_repaint` do, is left out.
-/
import Smsg.Chatter
import Smsg.Client

namespace Smsg

/-- What `chatter_func` does for the user, and towards the server. -/
inductive ChatterAct
  /-- A call of `lcc_asay`: the number of a prefix, a format, and what it prints. -/
  | asay (pfx : Nat) (format : Bytes) (args : List Printed)
  | beep
  | send (msg : NetCmd)
deriving DecidableEq

/-- The variables of `chatter_func` that a command can change, and `culist`. -/
structure ChatterVars where
  identity : Identity
  kicked : Nat
  culist : List CString
deriving DecidableEq

/-! ### What is said -/

/-- `C_DOOR`; the first argument is fetched without a NUL. -/
def clDoor (rbuf : NetCmd) : Option (List ChatterAct) := do
  let (_, targ0) ← rbuf.getarg .null 0 false
  let direction ← targ0.ap.bytes.head?
  let who ← (rbuf.fetch .null 1).printed
  if direction = 1 then some [.asay 2 (text "%s entered chat\n") [who]]
  else if 2 < rbuf.getnumargs then do
    let reason ← (rbuf.fetch targ0 2).printed
    some [.asay 2 (text "%s left chat (%s)\n") [who, reason]]
  else some [.asay 2 (text "%s left chat\n") [who]]

/-- `C_AWAY`. -/
def clAway (rbuf : NetCmd) : Option (List ChatterAct) := do
  let targ0 := rbuf.fetch .null 0
  let state ← targ0.ap.bytes.head?
  let who ← (rbuf.fetch .null 1).printed
  let said := if state = 0 then ChatterAct.asay 2 (text "%s is not away anymore") [who]
    else .asay 2 (text "%s is now away") [who]
  if rbuf.getnumargs = 3 then do
    let reason ← (rbuf.fetch targ0 2).printed
    some [said, .asay 0 (text " (%s)\n") [reason]]
  else some [said, .asay 0 (text "\n") []]

/-- `C_ME`. -/
def clMe (rbuf : NetCmd) : Option (List ChatterAct) := do
  let who ← (rbuf.fetch .null 0).printed
  let msg ← (rbuf.fetch .null 1).printed
  some [.asay 0 (text " --") [], .asay 0 (text "%s %s") [who, msg], .asay 0 (text "\n") []]

/-- `C_OPER`. -/
def clOper (rbuf : NetCmd) : Option (List ChatterAct) :=
  if 0 < rbuf.getnumargs then do
    let who ← (rbuf.fetch .null 0).printed
    some [.asay 2 (text "mode +op %s\n") [who]]
  else some [.asay 2 (text "you did not supply the correct operator password\n") []]

/-- `C_PSAY`. -/
def clPsay (rbuf : NetCmd) : Option (List ChatterAct) := do
  let targ0 := rbuf.fetch .null 0
  let targ1 := rbuf.fetch .null 1
  match rbuf.getnumargs with
  | 1 =>
      let who ← targ0.printed
      some [.asay 2 (text "you tried to sent a private message to %s who is not present\n") [who]]
  | 2 =>
      let who ← targ0.printed
      let msg ← targ1.printed
      some [.asay 0 (text "<") [], .asay 0 (text "(p)%s") [who], .asay 0 (text ">") [],
        .asay 0 (text " %s\n") [msg]]
  | 3 =>
      let who ← targ0.printed
      let whom ← targ1.printed
      let msg ← (rbuf.fetch targ0 2).printed
      some [.asay 0 (text "<") [], .asay 0 (text "(p)%s->%s") [who, whom], .asay 0 (text ">") [],
        .asay 0 (text " %s\n") [msg]]
  | _ => some [.asay 2 (text "server sent a psay command with wrong number of args\n") []]

/-- `C_NICK`. -/
def clNick (rbuf : NetCmd) : Option (List ChatterAct) := do
  let targ0 := rbuf.fetch .null 0
  let na := rbuf.getnumargs
  if na = 0 then some [.asay 2 (text "the nick you want is already in use\n") []]
  else if na = 1 then do
    let nick ← targ0.printed
    some [.asay 2 (text "you're known as %s here\n") [nick]]
  else if na = 2 then do
    let new ← targ0.printed
    let old ← (rbuf.fetch .null 1).printed
    some [.asay 2 (text "%s is now called %s\n") [old, new]]
  else some [.asay 2 (text "server sent an nick command with wrong number of args\n") []]

/-- `C_SAY`. -/
def clSay (rbuf : NetCmd) : Option (List ChatterAct) := do
  let who ← (rbuf.fetch .null 0).printed
  let msg ← (rbuf.fetch .null 1).printed
  some [.asay 0 (text "[") [], .asay 0 (text "%s") [who], .asay 0 (text "]") [],
    .asay 0 (text " %s\n") [msg]]

/-- `C_BEEP`. -/
def clBeep (rbuf : NetCmd) : Option (List ChatterAct) :=
  if rbuf.getnumargs = 0 then some [.asay 2 (text "someone needs attention...\n") [], .beep]
  else do
    let who ← (rbuf.fetch .null 0).printed
    some [.asay 2
      (text "you can't beep the terminal of %s because he/she is not present\n") [who]]

/-- The three things that a command of an operator can come back as. -/
structure ModeTexts where
  refused : Bytes
  absent : Bytes
  done : Bytes

/-- `C_BAN`, `C_DEOP`, `C_KICK`, `C_OP` and `C_UNBAN`, which differ in their texts. -/
def clMode (t : ModeTexts) (rbuf : NetCmd) : Option (List ChatterAct) := do
  let targ0 := rbuf.fetch .null 0
  let na := rbuf.getnumargs
  if na = 0 then some [.asay 2 t.refused []]
  else if na = 1 then do
    let who ← targ0.printed
    some [.asay 2 t.absent [who]]
  else do
    let who ← targ0.printed
    let oper ← (rbuf.fetch .null 1).printed
    some [.asay 2 t.done [who, oper]]

def banTexts : ModeTexts where
  refused := text "you can't ban anyone because you're not an operator (or wrong # of args)\n"
  absent := text "%s can't be banned because he/she is not present\n"
  done := text "%s is banned by %s\n"

def deopTexts : ModeTexts where
  refused := text "you can't deop anyone because you're not an operator (or wrong # of args)\n"
  absent := text "%s can't be de-opped because he/she is not present\n"
  done := text "mode -op %s by %s\n"

def kickTexts : ModeTexts where
  refused := text "you can't kick anyone because you're not an operator (or wrong # of args)\n"
  absent := text "%s can't be kicked because he/she is not present\n"
  done := text "%s is kicked by %s\n"

def opTexts : ModeTexts where
  refused := text "you can't op anyone because you're not an operator (or wrong # of args)\n"
  absent := text "%s can't be opped because he/she is not present\n"
  done := text "mode +op %s by %s\n"

def unbanTexts : ModeTexts where
  refused := text "you can't unban anyone because you're not an operator (or wrong # of args)\n"
  absent := text "%s can't be unbanned because he/she is not present\n"
  done := text "%s is unbanned by %s\n"

def clBan := clMode banTexts
def clDeop := clMode deopTexts
def clKick := clMode kickTexts
def clOp := clMode opTexts
def clUnban := clMode unbanTexts

/-! ### `C_WHO` -/

/-- The number of the argument that the listing starts at: an odd one has the type first. -/
def whoFirst (rbuf : NetCmd) : Nat := rbuf.getnumargs % 2

/-- `itype`, read as a signed `char`. -/
def whoItype (rbuf : NetCmd) : Int :=
  if whoFirst rbuf = 0 then 0
  else
    match (rbuf.fetch .null 0).ap.bytes.head? with
    | none => 0
    | some b => if b.toInt8 < 3 then b.toInt8.toInt else 0

/-- The names that the loop puts into the sidebar: every other argument. -/
def whoNames : List Bytes → List CString
  | [] => []
  | [name] => [cstr (name ++ [0])]
  | name :: _ :: rest => cstr (name ++ [0]) :: whoNames rest

/-- The lines that it writes otherwise; it goes over an even number of arguments. -/
def whoLines : List Bytes → List ChatterAct
  | name :: info :: rest =>
      .asay 2 (text "%-20s %s\n") [.str (cstr (name ++ [0])), .str (cstr (info ++ [0]))] ::
        whoLines rest
  | _ => []

/-- `C_WHO`: what is written; `itype` 0 fills the sidebar and writes nothing. -/
def clWho (rbuf : NetCmd) : List ChatterAct :=
  let itype := whoItype rbuf
  let head := if itype = 1 then [.asay 2 (text "Persons logged on to system\n") []]
    else if itype = 2 then [.asay 2 (text "Persons in chat and on system\n") []] else []
  if itype = 0 then head else head ++ whoLines (rbuf.args.drop (whoFirst rbuf))

/-- The sidebar after a `C_WHO`. -/
def clCulist (rbuf : NetCmd) (culist : List CString) : List CString :=
  if whoItype rbuf = 0 then whoNames (rbuf.args.drop (whoFirst rbuf)) else culist

/-! ### The switch -/

/-- What is written for a command. -/
def chatterSays (rbuf : NetCmd) : Option (List ChatterAct) :=
  match rbuf.get with
  | .cDoor => clDoor rbuf
  | .cAway => clAway rbuf
  | .cMe => clMe rbuf
  | .cOper => clOper rbuf
  | .cPsay => clPsay rbuf
  | .cNick => clNick rbuf
  | .cSay => clSay rbuf
  | .cBan => clBan rbuf
  | .cBeep => clBeep rbuf
  | .cDeop => clDeop rbuf
  | .cKick => clKick rbuf
  | .cOp => clOp rbuf
  | .cUnban => clUnban rbuf
  | .cWho => some (clWho rbuf)
  | op => some [.asay 2 (text "Received netcommand %s from server, ignoring.\n") [.cmd op]]

/-- The notice is about the user of this client. -/
def aboutSelf (nick : CString) (rbuf : NetCmd) : Bool :=
  decide (1 < rbuf.getnumargs) && (rbuf.fetch .null 0).str == some nick

/-- `kicked` after a command. -/
def chatterKicked (v : ChatterVars) (rbuf : NetCmd) : Nat :=
  if aboutSelf v.identity.nick rbuf then
    match rbuf.get with
    | .cBan => 2
    | .cKick => 1
    | .cUnban => 0
    | _ => v.kicked
  else v.kicked

/-- `culist` after a command. -/
def chatterCulist (v : ChatterVars) (rbuf : NetCmd) : List CString :=
  match rbuf.get with
  | .cWho => clCulist rbuf v.culist
  | _ => v.culist

/-- The commands that set `req_who`. -/
def reqWho (op : NCMDOp) : Bool :=
  op ∈ [.cDoor, .cAway, .cOper, .cNick, .cDeop, .cKick, .cOp]

/-- One round of the loop over the commands in `rbuf`. -/
def chatterFunc (v : ChatterVars) (rbuf : NetCmd) : Option (ChatterVars × List ChatterAct) := do
  let said ← chatterSays rbuf
  let identity ← v.identity.handle rbuf
  let asked := if reqWho rbuf.get then [ChatterAct.send (.set .cWho)] else []
  some (⟨identity, chatterKicked v rbuf, chatterCulist v rbuf⟩, said ++ asked)

end Smsg
