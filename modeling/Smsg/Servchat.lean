/-
`servchat.c`: the commands of clients that are in chat.

Each case of `handle_chatcmd` is a definition of its own.  A case that follows the
pointer returned by `udata_get_by_fd` without looking at it has no outcome when
there is no entry; `ls_handle_netcmd` only calls `handle_chatcmd` for a client with
an entry, or for a `C_WHO` that carries the magic word.
-/
import Smsg.Servmisc

namespace Smsg

def lcsOperPassword : CString := ⟨text "0pm3n0w", by decide⟩
def lcsLeetPassword : CString := ⟨text "Elitairderder", by decide⟩

/-- The nick of a user as it stands in the store. -/
def Udata.nickOf (u : Udata) (user : CString) : Option CString :=
  (u.udataGet (some user)).bind (·.nick)

/-- `lcs_compose_name` for the client on connection `fd`. -/
def lcsComposeName (u : Udata) (fd : Int) : Except Fault Bytes :=
  match u.udataGetByFd fd with
  | none => .error .nullPointer
  | some tud =>
      match tud.nick with
      | none => .error .nullString
      | some nick =>
          .ok ((if tud.has udcFlagAway then text "&" else []) ++
            (if tud.has udcFlagOperator then text "@" else []) ++ nick.chars)

/-- The loop of `lcs_msg_translate` on one byte. -/
def translateByte (b : UInt8) : UInt8 :=
  let isUpper := 65 ≤ b && b ≤ 90
  let isLower := 97 ≤ b && b ≤ 122
  let b := if isUpper || isLower then b ||| 0x20 else b
  if 97 ≤ b && b ≤ 122 then (text "4BCD3FGHiJK1MN0PQR$7uVWXyZ").getD (b.toNat - 97) b else b

/-- `lcs_msg_translate` with mode 1. -/
def lcsMsgTranslate (t : Arg) : Arg :=
  match t.ap with
  | .blk b => ⟨.blk (b.map translateByte), t.aplen⟩
  | _ => t

/-- A message for one connection, if it belongs to somebody in chat. -/
def sendPresent (clients : Slot → Client) (u : Udata) (msg : NetCmd) (i : Slot) : Option Effect :=
  match u.udataGetByFd (clients i).fd with
  | some tud => if tud.has udcFlagPresent then some (.send (clients i).fd msg) else none
  | none => none

/--
The loop that hands a message to everybody in chat, over the slots with a
descriptor of at least `low` and leaving out one of them.
-/
def distribute (low : Int) (clients : Slot → Client) (u : Udata) (msg : NetCmd)
    (excl : Option Slot) : List Effect :=
  (List.finRange maxClients).filterMap fun i =>
    if low ≤ (clients i).fd ∧ some i ≠ excl then sendPresent clients u msg i else none

/-- `lcs_dist_ncmd`. -/
def lcsDistNcmd (clients : Slot → Client) (u : Udata) (msg : NetCmd) (excl : Option Slot) :
    List Effect :=
  distribute 0 clients u msg excl

/-- The user of the entry `tud`, whose nick is `ts`, takes another one. -/
def chatRename (x : Call) (tud : UdataEnt) (ts : CString) (nick : Option CString) : Outcome :=
  let tupdud := { udataDefEntry with user := some tud.user, nick := nick }
  let u := (x.udata.udataUpdate x.env.alloc tupdud).2
  let msg := ((NetCmd.set .cNick).add (xstr (u.nickOf tud.user))).add ts.chars
  x.done u (lcsDistNcmd x.clients u msg none)

/-- `C_NICK`. -/
def chatNick (x : Call) : Except Fault Outcome :=
  if 0 < x.cmd.getnumargs then
    let targ0 := x.cmd.fetch .null 0
    match x.udata.udataGetByNick targ0.str with
    | none =>
        match x.udata.udataGetByFd x.fd with
        | none => .error .nullPointer
        | some tud =>
            match tud.nick with
            | none => .error .nullString
            | some ts => .ok (chatRename x tud ts targ0.str)
    | some _ => .ok (x.done x.udata [x.reply (.set .cNick)])
  else
    match x.udata.udataGetByFd x.fd with
    | none => .error .nullPointer
    | some tud => .ok (x.done x.udata [x.reply ((NetCmd.set .cNick).add (xstr tud.nick))])

/-- `C_AWAY`. -/
def chatAway (x : Call) : Outcome :=
  match x.udata.udataGetByFd x.fd with
  | none => x.done x.udata []
  | some tud =>
      let targ0 := if 0 < x.cmd.getnumargs then x.cmd.fetch .null 0 else .null
      let u := if tud.has udcFlagAway then x.udata.udataFlagunset tud.user udcFlagAway
        else x.udata.udataFlagset tud.user udcFlagAway
      let msg := (NetCmd.set .cAway).add (if tud.has udcFlagAway then [0] else [1])
      let msg := msg.add (xstr tud.nick)
      let msg := if targ0.ap ≠ .null then msg.add targ0.bytes else msg
      x.done u (lcsDistNcmd x.clients u msg none)

/-- `C_BEEP`. -/
def chatBeep (x : Call) : Outcome :=
  if x.cmd.getnumargs = 0 then
    x.done x.udata (lcsDistNcmd x.clients x.udata (.set .cBeep) (some x.cl))
  else
    let targ0 := x.cmd.fetch .null 0
    match x.udata.udataGetByNick targ0.str with
    | some tud => x.done x.udata [.send tud.fd (.set .cBeep)]
    | none => x.done x.udata [x.reply ((NetCmd.set .cBeep).add (xstr targ0.str))]

/-- `C_OPER`. -/
def chatOper (x : Call) : Outcome :=
  if 0 < x.cmd.getnumargs then
    let targ0 := x.cmd.fetch .null 0
    match x.udata.udataGetByFd x.fd with
    | none => x.done x.udata []
    | some tud =>
        let beleet := if targ0.str = some lcsLeetPassword then !x.beleet else x.beleet
        if targ0.str = some lcsOperPassword then
          let u := x.udata.udataFlagset tud.user udcFlagOperator
          let msg := (NetCmd.set .cOper).add (xstr tud.nick)
          ⟨u, beleet, lcsDistNcmd x.clients u msg none, -5⟩
        else ⟨x.udata, beleet, [x.reply (.set .cOper)], -5⟩
  else x.done x.udata []

/-- `C_PSAY`. -/
def chatPsay (x : Call) : Outcome :=
  let targ0 := x.cmd.fetch .null 0
  let targ1 := x.cmd.fetch .null 1
  match x.udata.udataGetByFd x.fd, x.udata.udataGetByNick targ0.str with
  | some tudSender, some tud =>
      let msg := ((NetCmd.set .cPsay).add (xstr tudSender.nick)).add targ1.bytes
      let echo := ((NetCmd.set .cPsay).add (xstr tudSender.nick)).add (xstr tud.nick)
      x.done x.udata [.send tud.fd msg, x.reply (echo.add targ1.bytes)]
  | _, _ => x.done x.udata [x.reply ((NetCmd.set .cPsay).add targ0.bytes)]

/-- `C_SAY` and `C_ME`. -/
def chatSay (x : Call) : Except Fault Outcome :=
  let targ0 := x.cmd.fetch .null 0
  match lcsComposeName x.udata x.fd with
  | .error f => .error f
  | .ok ts =>
      let targ0 := if x.beleet then lcsMsgTranslate targ0 else targ0
      let msg := ((NetCmd.set x.cmd.get).add ts).add targ0.bytes
      .ok (x.done x.udata (lcsDistNcmd x.clients x.udata msg none))

/-! ### `C_WHO` -/

/-- The byte that the type of listing is read from, when an argument is there. -/
def whoByte (x : Call) : Option UInt8 :=
  x.cmd.args[0]?.map fun a => (a ++ x.env.beyond).headD 0

/-- `infotype`, read as a signed `char`. -/
def whoType (x : Call) : Int :=
  match whoByte x with
  | none => 0
  | some b => if b.toInt8 < 3 then b.toInt8.toInt else 0

/-- The two arguments for one client in chat. -/
def whoChat (x : Call) (infotype : Int) (msg : NetCmd) (i : Slot) : Except Fault NetCmd :=
  match x.udata.udataGetByFd (x.clients i).fd with
  | none => .ok msg
  | some tud =>
      if 0 < (x.clients i).fd && tud.has udcFlagPresent then
        match lcsComposeName x.udata (x.clients i).fd with
        | .error f => .error f
        | .ok tp =>
            let ts := (if infotype = 2 then text "[c]" else []) ++ tp
            .ok ((msg.add ts).add
              (tud.user.chars ++ text "@" ++ inetNtoa (x.clients i).address))
      else .ok msg

/-- A number with two digits, the first one filled up with `pad`. -/
def twoDigits (pad : Bytes) (n : Nat) : Bytes :=
  (if n < 10 then pad else []) ++ text (toString n)

/-- The two arguments for one user of the system. -/
def whoSys (x : Call) (infotype : Int) (msg : NetCmd) (l : UserlistEnt) : NetCmd :=
  let count := if l.count ≤ 1 then [] else if l.count < 1000 then text "*" ++ text (toString l.count)
    else text "*wow"
  let (hour, min, sec) := x.env.localtime l.login
  let time := text " [" ++ twoDigits (text " ") hour ++ text ":" ++ twoDigits (text "0") min ++
    text ":" ++ twoDigits (text "0") sec ++ text "]"
  (msg.add ((if infotype = 2 then text "[s]" else []) ++ l.name.chars ++ count)).add
    (l.tty.chars ++ time)

/-- The listings that `infotype` asks for, behind what is in `msg`, and the answer. -/
def whoLists (x : Call) (infotype : Int) (msg : NetCmd) (past : List Effect) :
    Except Fault Outcome :=
  let chat := if infotype = 0 ∨ infotype = 2 then
      (List.finRange maxClients).foldlM (whoChat x infotype) msg
    else .ok msg
  match chat with
  | .error f => .error f
  | .ok msg =>
      let msg := if infotype = 1 ∨ infotype = 2 then
          match getUserlist x.env.userlist none with
          | none => msg
          | some ul => (ul.takeWhile fun l => l.count != 0).foldl (whoSys x infotype) msg
        else msg
      .ok (x.done x.udata (past ++ [x.reply msg]))

/-- `C_WHO`. -/
def chatWho (x : Call) : Except Fault Outcome :=
  let infotype := whoType x
  let msg := NetCmd.set .cWho
  let msg := match whoByte x with
    | none => msg
    | some b => msg.add [b]
  let past := if x.cmd.args[0]? = some [] then [Effect.overread] else []
  whoLists x infotype msg past

/-! ### Commands of operators -/

/-- The flags that `C_BAN`, `C_DEOP`, `C_OP` and `C_UNBAN` change. -/
def modeFlags (tncmd : NCMDOp) (u : Udata) (user : CString) : Udata :=
  match tncmd with
  | .cBan => u.udataFlagset user udcFlagBanned
  | .cDeop => u.udataFlagunset user udcFlagOperator
  | .cOp => u.udataFlagset user udcFlagOperator
  | .cUnban => u.udataFlagunset user udcFlagBanned
  | _ => u

/-- Taking a user out of the chat: the update sets nothing, for a negative `fd` is left alone. -/
def removeFromChat (alloc : Alloc) (u : Udata) (user : CString) : Udata :=
  let u := (u.udataUpdate alloc { udataDefEntry with user := some user, fd := -1 }).2
  u.udataFlagunset user sessionFlags

/-- The return value for a kick: the first slot with the descriptor. -/
def kickSlot (clients : Slot → Client) (fd : Int) : Int :=
  match (List.finRange maxClients).find? fun i => (clients i).fd == fd with
  | some i => i.val
  | none => -5

/-- What an operator with the nick `tnick` does to the user that is named. -/
def modeOn (x : Call) (tnick : CString) (name : Option CString) : Outcome :=
  let tncmd := x.cmd.get
  match x.udata.udataGetByNick name with
  | none => x.done x.udata [x.reply ((NetCmd.set tncmd).add (xstr name))]
  | some tud =>
      let u := modeFlags tncmd x.udata tud.user
      let msg := ((NetCmd.set tncmd).add (xstr tud.nick)).add tnick.chars
      if tncmd = .cBan ∨ tncmd = .cKick then
        let u := removeFromChat x.env.alloc u tud.user
        ⟨u, x.beleet, lcsDistNcmd x.clients u msg none, kickSlot x.clients tud.fd⟩
      else x.done u (lcsDistNcmd x.clients u msg none)

/-- `C_BAN`, `C_DEOP`, `C_KICK`, `C_OP` and `C_UNBAN`. -/
def chatMode (x : Call) : Except Fault Outcome :=
  let tncmd := x.cmd.get
  let refused : Outcome := x.done x.udata [x.reply (.set tncmd)]
  match x.udata.udataGetByFd x.fd with
  | none => .ok refused
  | some op =>
      if 0 < x.cmd.getnumargs && op.has udcFlagOperator then
        match op.nick with
        | none => .error .nullString
        | some tnick => .ok (modeOn x tnick (x.cmd.fetch .null 0).str)
      else .ok refused

/-- `handle_chatcmd`. -/
def handleChatcmd (x : Call) : Except Fault Outcome :=
  match x.cmd.get with
  | .cNick => chatNick x
  | .cAway => .ok (chatAway x)
  | .cBeep => .ok (chatBeep x)
  | .cOper => .ok (chatOper x)
  | .cPsay => .ok (chatPsay x)
  | .cSay | .cMe => chatSay x
  | .cWho => chatWho x
  | .cBan | .cDeop | .cKick | .cOp | .cUnban => chatMode x
  | _ => .ok (x.done x.udata [])

end Smsg
