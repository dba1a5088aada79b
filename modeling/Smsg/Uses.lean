/-
What the handlers do with the arguments of a command.

The handlers of `Server.lean` and `Servchat.lean` are given an argument as an `Option`, and
every call of `ncmd_getarg` for an argument that is there finds its memory.  Here they are
written once more over the pointers: a call may be refused, its return value is looked at
where the source does that, and a use of a pointer is an `ArgUse`, written down before it is
made.  The parts that no argument comes near are those of the other handlers.

The calls of `ncmd_getarg` are told apart by their places in the handler of a command.  The
two in front of the writing of `MSG` are made here also when nothing is written.
-/
import Smsg.Lib.Watched
import Smsg.Server

namespace Smsg

open Watching

/-- A use of an argument that has been fetched. -/
inductive ArgUse
  /-- It is passed to `getpwnam`, to `strcmp`, or to a function that goes on to. -/
  | string (t : Arg)
  /-- It is passed to a function that does nothing for `NULL`, and otherwise reads a string. -/
  | lookup (t : Arg)
  /-- The byte that it points to is read. -/
  | byte (t : Arg)
  /-- As many bytes are read as the variable for its length says. -/
  | bytes (t : Arg)

/-- There is a NUL inside the length that is stored for it. -/
def Arg.IsString (t : Arg) : Prop := ∃ b, t.ap = .blk b ∧ 0 ∈ b.take t.aplen

/-- No `NULL` is followed, and nothing is read at or behind the length that is stored. -/
def ArgUse.Fine : ArgUse → Prop
  | string t => t.IsString
  | lookup t => t.ap = .null ∨ t.IsString
  | byte t => ∃ b, t.ap = .blk b ∧ b.length = t.aplen ∧ 0 < t.aplen
  | bytes t => t.aplen ≤ t.ap.bytes.length

/-- A handler that is watched. -/
abbrev Handling := Watched ArgUse Fault

/-- Which calls of `ncmd_getarg` find memory, by their places and the lengths of the arguments. -/
abbrev Grants := Nat → Nat → Bool

namespace Call

variable (x : Call) (m : Grants)

/-! ### Fetching -/

/--
What the call at the place `k` copies of the argument `argnum`.  A length from 2^31 on is
a negative one for `read_nl`, and no `realloc` has as much memory as that.
-/
def got (k argnum : Nat) : Option Bytes :=
  x.cmd.args[argnum]?.filter fun a => m k a.length && decide (a.length < 2 ^ 31)

/-- `ncmd_getarg` with `addzero`, for a target that is `NULL` or live. -/
def getarg (k : Nat) (t : Arg) (argnum : Nat) : Int × Arg :=
  match x.got m k argnum with
  | none => (-1, t)
  | some a => (0, .blk (a ++ [0]))

/-- `ncmd_getarg` without it, where `realloc` frees a live block for an empty argument. -/
def getargRaw (k : Nat) (t : Arg) (argnum : Nat) : Int × Arg :=
  match t.ap, x.cmd.args[argnum]? with
  | .blk _, some [] => (-1, ⟨.freed, t.aplen⟩)
  | _, _ =>
      match x.got m k argnum with
      | none => (-1, t)
      | some a => (0, .blk a)

/-! ### Using -/

/-- The string that a pointer leads to, over what lies behind the block. -/
def string (t : Arg) : Except Fault CString :=
  match t.ap with
  | .null => .error .nullString
  | .freed => .error .freedPointer
  | .blk b => .ok (cstr (b ++ x.env.beyond))

def useString (t : Arg) : Handling CString := Watched.act (.string t) (x.string t)

def useLookup (t : Arg) : Handling (Option CString) :=
  Watched.act (.lookup t) (if t.ap = .null then .ok none else some <$> x.string t)

/-- What is printed to the log, where a `NULL` is `(null)`. -/
def logs (t : Arg) : Handling Unit :=
  Watched.act (.lookup t) ((fun _ => ()) <$> (x.useLookup t).result)

def useByte (t : Arg) : Handling UInt8 :=
  Watched.act (.byte t) (match t.ap with
    | .null => .error .nullPointer
    | .freed => .error .freedPointer
    | .blk b => .ok ((b ++ x.env.beyond).headD 0))

def useBytes (t : Arg) : Handling Bytes :=
  Watched.act (.bytes t) (match t.ap with
    | .null => .ok []
    | .freed => .error .freedPointer
    | .blk b => .ok ((b ++ x.env.beyond).take t.aplen))

end Call

/-! ### `ls_handle_netcmd` -/

/-- `MSG`. -/
def handleMsgPtr (m : Grants) (x : Call) : Handling Outcome := do
  let targ0 := (x.getarg m 0 .null 0).2
  let targ1 := (x.getarg m 1 .null 1).2
  x.logs targ0
  x.logs targ1
  let targ0 := (x.getarg m 2 targ0 1).2
  let given ← x.useLookup targ0
  if xstr given = [] then return x.nak x.udata errorNoUserGiven
  else
    -- `getpwnam`, and `isloggedin`, `udata_get`, `isontty` and `get_userlist` behind it
    let user ← x.useString targ0
    let targ0 := (x.getarg m 3 targ0 0).2
    let targ1 := (x.getarg m 4 targ1 2).2
    let sender ← x.useLookup targ0
    let msg ← x.useLookup targ1
    return msgFor x user sender msg

/-- `GETQMSG`. -/
def handleGetqmsgPtr (m : Grants) (x : Call) : Handling Outcome := do
  let targ0 := (x.getarg m 0 .null 0).2
  if !islocal (x.clients x.cl).address then
    x.logs targ0
    return x.nak x.udata errorNotLocal
  else
    let user ← x.useString targ0
    x.logs targ0
    if !x.env.getpwnam user then return x.nak x.udata errorNoSuchUser
    else
      let targ0 := (x.getarg m 1 targ0 0).2
      let user ← x.useString targ0
      Watched.lift (getqmsg x user)

/-- `SETPREF`, for a local user that is logged in. -/
def setprefPtr (m : Grants) (x : Call) (targ0 : Arg) : Handling Outcome := do
  let targ0 := (x.getargRaw m 1 targ0 2).2
  let targ1 := (x.getarg m 2 .null 3).2
  let tbeep ← x.useByte targ0
  let tmode ← x.useByte targ1
  let targ0 := (x.getarg m 3 targ0 0).2
  let targ1 := (x.getarg m 4 targ1 1).2
  let tty ← x.useLookup targ1
  let user ← x.useLookup targ0
  return setprefStore x user tty tbeep tmode

/-- `SETPREF`. -/
def handleSetprefPtr (m : Grants) (x : Call) : Handling Outcome := do
  let targ0 := (x.getarg m 0 .null 0).2
  if !islocal (x.clients x.cl).address then
    x.logs targ0
    return x.nak x.udata errorNotLocal
  else
    let user ← x.useString targ0
    if !x.env.getpwnam user then
      x.logs targ0
      return x.nak x.udata errorNoSuchUser
    else
      let user ← x.useString targ0
      x.logs targ0
      if !isloggedin x.env user then return x.nak x.udata errorUserNotLoggedIn
      else
        setprefPtr m x targ0

/-- `GETPREF`. -/
def handleGetprefPtr (m : Grants) (x : Call) : Handling Outcome := do
  let targ0 := (x.getarg m 0 .null 0).2
  if !islocal (x.clients x.cl).address then
    x.logs targ0
    return x.nak x.udata errorNotLocal
  else
    let user ← x.useString targ0
    x.logs targ0
    if !x.env.getpwnam user then return x.nak x.udata errorNoSuchUser
    else
      let targ0 := (x.getarg m 1 targ0 0).2
      let user ← x.useLookup targ0
      return getpref x user

/-- `CHATDOOR`, for the entry `tuent` that it names. -/
def chatdoorPtr (m : Grants) (x : Call) (u : Udata) (tuent : UdataEnt) : Handling Outcome := do
  let numargs := x.cmd.getnumargs
  let second := if 1 < numargs then x.getarg m 1 .null 1 else (-1, .null)
  let targ1 := second.2
  if numargs = 1 ∨ (1 < numargs ∧ second.1 ≠ -1 ∧ targ1.aplen = 1) then
    if !tuent.has udcFlagPresent then return x.nak u errorChatNotpresent
    else
      let targ1 := if numargs = 3 then (x.getarg m 2 targ1 2).2 else targ1
      x.logs targ1
      let msg := doorMsg 0 tuent.nick
      if targ1.ap = .null then return chatdoorExit x u tuent msg
      else
        let reason ← x.useBytes targ1
        return chatdoorExit x u tuent (msg.add reason)
  else
    let targ1 := (x.getarg m 3 targ1 1).2
    if tuent.has udcFlagBanned then return x.nak u errorChatBanned
    else if tuent.has udcFlagPresent then return x.nak u errorChatIspresent
    else
      let nick ← x.useLookup targ1
      x.logs targ1
      if (u.udataGetByNick nick).isSome then return x.nak u errorChatNickinuse
      else return chatdoorEnter x u tuent nick

/-- `CHATDOOR`. -/
def handleChatdoorPtr (m : Grants) (x : Call) : Handling Outcome := do
  let targ0 := (x.getarg m 0 .null 0).2
  let user ← x.useLookup targ0
  let u := enrol x.env.alloc x.udata user
  match u.udataGet user with
  | none => return x.nak u errorInternal
  | some tuent => chatdoorPtr m x u tuent

/-! ### `handle_chatcmd` -/

/-- `C_NICK`, which is `chatNick` when there is no argument. -/
def chatNickPtr (m : Grants) (x : Call) : Handling Outcome := do
  if 0 < x.cmd.getnumargs then
    let targ0 := (x.getarg m 0 .null 0).2
    let nick ← x.useLookup targ0
    x.logs targ0
    match x.udata.udataGetByNick nick with
    | none =>
        match x.udata.udataGetByFd x.fd with
        | none => Watched.lift (.error .nullPointer)
        | some tud =>
            match tud.nick with
            | none => Watched.lift (.error .nullString)
            | some ts => return chatRename x tud ts nick
    | some _ => return x.done x.udata [x.reply (.set .cNick)]
  else Watched.lift (chatNick x)

/-- `C_AWAY`. -/
def chatAwayPtr (m : Grants) (x : Call) : Handling Outcome := do
  match x.udata.udataGetByFd x.fd with
  | none => return x.done x.udata []
  | some tud =>
      let targ0 := if 0 < x.cmd.getnumargs then (x.getarg m 0 .null 0).2 else .null
      let u := if tud.has udcFlagAway then x.udata.udataFlagunset tud.user udcFlagAway
        else x.udata.udataFlagset tud.user udcFlagAway
      let msg := (NetCmd.set .cAway).add (if tud.has udcFlagAway then [0] else [1])
      let msg := msg.add (xstr tud.nick)
      x.logs targ0
      if targ0.ap = .null then return x.done u (lcsDistNcmd x.clients u msg none)
      else
        let reason ← x.useBytes targ0
        return x.done u (lcsDistNcmd x.clients u (msg.add reason) none)

/-- `C_BEEP`, which is `chatBeep` when there is no argument. -/
def chatBeepPtr (m : Grants) (x : Call) : Handling Outcome := do
  if x.cmd.getnumargs = 0 then return chatBeep x
  else
    let targ0 := (x.getarg m 0 .null 0).2
    let name ← x.useLookup targ0
    match x.udata.udataGetByNick name with
    | some tud => return x.done x.udata [.send tud.fd (.set .cBeep)]
    | none => return x.done x.udata [x.reply ((NetCmd.set .cBeep).add (xstr name))]

/-- `C_OPER`, whose argument is compared with both passwords. -/
def chatOperPtr (m : Grants) (x : Call) : Handling Outcome := do
  if 0 < x.cmd.getnumargs then
    let targ0 := (x.getarg m 0 .null 0).2
    match x.udata.udataGetByFd x.fd with
    | none => return x.done x.udata []
    | some tud =>
        let leet ← x.useString targ0
        let beleet := if leet = lcsLeetPassword then !x.beleet else x.beleet
        let oper ← x.useString targ0
        if oper = lcsOperPassword then
          let u := x.udata.udataFlagset tud.user udcFlagOperator
          let msg := (NetCmd.set .cOper).add (xstr tud.nick)
          return ⟨u, beleet, lcsDistNcmd x.clients u msg none, -5⟩
        else return ⟨x.udata, beleet, [x.reply (.set .cOper)], -5⟩
  else return x.done x.udata []

/-- `C_PSAY`. -/
def chatPsayPtr (m : Grants) (x : Call) : Handling Outcome := do
  let targ0 := (x.getarg m 0 .null 0).2
  let targ1 := (x.getarg m 1 .null 1).2
  let name ← x.useLookup targ0
  match x.udata.udataGetByFd x.fd, x.udata.udataGetByNick name with
  | some tudSender, some tud =>
      let said ← x.useBytes targ1
      let msg := ((NetCmd.set .cPsay).add (xstr tudSender.nick)).add said
      let echo := ((NetCmd.set .cPsay).add (xstr tudSender.nick)).add (xstr tud.nick)
      return x.done x.udata [.send tud.fd msg, x.reply (echo.add said)]
  | _, _ =>
      let named ← x.useBytes targ0
      return x.done x.udata [x.reply ((NetCmd.set .cPsay).add named)]

/-- `C_SAY` and `C_ME`. -/
def chatSayPtr (m : Grants) (x : Call) : Handling Outcome := do
  let targ0 := (x.getarg m 0 .null 0).2
  let ts ← Watched.lift (lcsComposeName x.udata x.fd)
  let said ← x.useBytes targ0
  let said := if x.beleet then said.map translateByte else said
  let msg := ((NetCmd.set x.cmd.get).add ts).add said
  return x.done x.udata (lcsDistNcmd x.clients x.udata msg none)

/-- `C_WHO`, whose argument has been fetched without a NUL. -/
def chatWhoPtr (m : Grants) (x : Call) : Handling Outcome := do
  let msg := NetCmd.set .cWho
  if 0 < x.cmd.getnumargs then
    let targ0 := (x.getargRaw m 1 .null 0).2
    -- `ncmd_add` adds an empty argument for `NULL`
    if targ0.ap = .null then Watched.lift (whoLists x 0 (msg.add []) [])
    else
      let b ← x.useByte targ0
      let infotype := if b.toInt8 < 3 then b.toInt8.toInt else 0
      let past := if targ0.aplen = 0 then [Effect.overread] else []
      Watched.lift (whoLists x infotype (msg.add [b]) past)
  else Watched.lift (whoLists x 0 msg [])

/-- `C_BAN`, `C_DEOP`, `C_KICK`, `C_OP` and `C_UNBAN`. -/
def chatModePtr (m : Grants) (x : Call) : Handling Outcome := do
  let refused : Outcome := x.done x.udata [x.reply (.set x.cmd.get)]
  match x.udata.udataGetByFd x.fd with
  | none => return refused
  | some op =>
      if 0 < x.cmd.getnumargs && op.has udcFlagOperator then
        match op.nick with
        | none => Watched.lift (.error .nullString)
        | some tnick =>
            let targ0 := (x.getarg m 0 .null 0).2
            let name ← x.useLookup targ0
            return modeOn x tnick name
      else return refused

/-- `handle_chatcmd`. -/
def handleChatcmdPtr (m : Grants) (x : Call) : Handling Outcome :=
  match x.cmd.get with
  | .cNick => chatNickPtr m x
  | .cAway => chatAwayPtr m x
  | .cBeep => chatBeepPtr m x
  | .cOper => chatOperPtr m x
  | .cPsay => chatPsayPtr m x
  | .cSay | .cMe => chatSayPtr m x
  | .cWho => chatWhoPtr m x
  | .cBan | .cDeop | .cKick | .cOp | .cUnban => chatModePtr m x
  | _ => pure (x.done x.udata [])

/-! ### The switch -/

/-- The test for a magic `C_WHO`. -/
def magicWhoPtr (m : Grants) (x : Call) : Handling Bool := do
  if x.cmd.get = .cWho ∧ x.cmd.getnumargs = 1 then
    let tb := (x.getarg m 0 .null 0).2
    let word ← x.useString tb
    return word == magicWhoArg
  else return false

/-- `ls_handle_netcmd`. -/
def lsHandleNetcmdPtr (m : Grants) (x : Call) : Handling Outcome :=
  match x.cmd.get with
  | .msg => handleMsgPtr m x
  | .getqmsg => handleGetqmsgPtr m x
  | .getlist => pure (handleGetlist x)
  | .setpref => handleSetprefPtr m x
  | .getpref => handleGetprefPtr m x
  | .chatdoor => handleChatdoorPtr m x
  | op =>
      if op.isChatcmd then do
        let magic ← magicWhoPtr m x
        if magic || x.inChat then handleChatcmdPtr m x else return x.done x.udata []
      else pure { x.done x.udata [] with retval := -1 }

/-! ### What they ought to be -/

namespace Call

variable (x : Call) (m : Grants)

/-- Every call of `ncmd_getarg` for an argument that is there succeeds. -/
def Granted : Prop := ∀ k, ∀ a ∈ x.cmd.args, m k a.length = true ∧ a.length < 2 ^ 31

/-- The handlers get along with the arguments of the command. -/
def Tolerates : Prop := (lsHandleNetcmdPtr m x).Every ArgUse.Fine

/-- The name in the first argument is fetched, and is one of a user that is logged in. -/
def NamesUser : Prop :=
  ∃ a, x.got m 0 0 = some a ∧ x.env.getpwnam (cstr (a ++ [0])) = true ∧
    isloggedin x.env (cstr (a ++ [0])) = true

/-- The handlers do not have an argument that they use without asking for it. -/
inductive Lacks : Prop
  | user (hop : x.cmd.get ∈ [.getqmsg, .setpref, .getpref])
      (hlocal : islocal (x.clients x.cl).address = true) (hgot : x.got m 0 0 = none)
  | mode (hop : x.cmd.get = .setpref) (hlocal : islocal (x.clients x.cl).address = true)
      (huser : x.NamesUser m) (hgot : x.got m 2 3 = none)
  | beep (hop : x.cmd.get = .setpref) (hlocal : islocal (x.clients x.cl).address = true)
      (huser : x.NamesUser m) (hargs : x.cmd.args[2]? = some [])
  | again (hop : x.cmd.get = .setpref) (hlocal : islocal (x.clients x.cl).address = true)
      (huser : x.NamesUser m) (hgot : x.got m 3 0 = none) (b : Bytes) (hbeep : x.got m 1 2 = some b)
      (hnul : 0 ∉ b)
  | password (hop : x.cmd.get = .cOper) (hchat : x.inChat = true) (hargs : x.cmd.args ≠ [])
      (hgot : x.got m 0 0 = none)
  | magic (hop : x.cmd.get = .cWho) (hargs : x.cmd.getnumargs = 1) (hgot : x.got m 0 0 = none)
  | infotype (hop : x.cmd.get = .cWho) (hchat : x.inChat = true) (hgot : x.got m 1 0 = some [])

end Call

end Smsg
