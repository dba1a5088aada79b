/-
`server.c`: `ls_handle_netcmd`.

One definition for each case of the switch.  The two halves of `CHATDOOR` are told
apart by the number of arguments and the length of the second one, which is what
`leaves` says.  A chat command gets through to `handle_chatcmd` only from a client
with an entry in chat.
-/
import Smsg.Servchat

namespace Smsg

/-! ### Messages of the server -/

def errorWeirdSettty : Bytes := text "unable to set tty preference...this shouldn't happen"
def errorNotLocal : Bytes := text "command only for local usage (make sure to use localhost)"
def errorListGet : Bytes := text "unable to get userlist (probably no utmp access)"
def errorStringDup : Bytes := text "error duplicating string (probably a lack of available memory)"
def errorInternal : Bytes := text "internal error"
def errorNoUserGiven : Bytes := text "explicit username required"
def errorNoSuchUser : Bytes := text "user does not exist"
def errorUserNotLoggedIn : Bytes := text "user seems not to be logged in"
def errorTtyOpen : Bytes := text "unable to open user's terminal"
def errorMesgNo : Bytes := text "user is denying messages...sorry"
def errorQueueGet : Bytes := text "error getting message from queue"
def errorChatBanned : Bytes := text "you're banned, get lost"
def errorChatNotpresent : Bytes :=
  text "you're not present in chat so you can't leave either...(now that's logic :)"
def errorChatIspresent : Bytes := text "you're already present in chat"
def errorChatNickinuse : Bytes := text "nickname is already in use"
def errorChatPeerclose : Bytes := text "connection closed by peer"

def magicWhoArg : CString := ⟨text "&!KRySTaLBaLL!&", by decide⟩

/-! ### `MSG` -/

/-- `%s` of a string that may be `NULL`. -/
def printStr (s : Option CString) : Bytes :=
  match s with
  | none => text "(null)"
  | some s => s.chars

/-- The last part of `MSG`: write to the terminal `tty`. -/
def msgWrite (x : Call) (u : Udata) (past : List Effect) (tbeep : Int8) (tty : CString)
    (sender msg : Option CString) : Outcome :=
  let nak (effects : List Effect) (reason : Bytes) :=
    x.done u (past ++ effects ++ [x.reply ((NetCmd.set .nak).add reason)])
  if !iswritabletty x.env tty then nak [] errorMesgNo
  else if !x.env.openTty tty then nak [.openTty tty] errorTtyOpen
  else if !x.env.isatty then nak [.openTty tty] errorTtyOpen
  else if !x.env.fdopen then nak [.openTty tty] errorTtyOpen
  else
    let line := text "\nmessage from " ++ printStr sender ++ text "@" ++
      inetNtoa (x.clients x.cl).address ++ text ":\n" ++ printStr msg ++ text "\n"
    let beep := if (if tbeep = -1 then 1 else tbeep) = 1 then [Effect.print tty [7]] else []
    x.done u (past ++ [.openTty tty, .print tty line] ++ beep ++ [x.reply (.set .ack)])

/-- Comparing the terminal of an entry may read behind its end. -/
def ttyOverread (entry : Option UdataEnt) : List Effect :=
  match entry with
  | none => []
  | some e => if skipsNul e.tty then [.overread] else []

/-- The middle part: find the terminal of `user`. -/
def msgTty (x : Call) (user : CString) (sender msg : Option CString) : Outcome :=
  let entry := x.udata.udataGet (some user)
  let tbeep := match entry with
    | none => -1
    | some e => e.beep
  -- a preference for a terminal that the user is not on is reset
  let temp := entry.filter fun e => isontty x.env user e.tty
  let u := if entry.isSome && temp.isNone then
      (x.udata.udataUpdate x.env.alloc
        { udataDefEntry with user := some user, tty := some ttysetUnset }).2
    else x.udata
  let past := ttyOverread entry
  let nak (reason : Bytes) := x.done u (past ++ [x.reply ((NetCmd.set .nak).add reason)])
  match temp.filter fun e => e.tty != ttysetUnset with
  | some e => if x.env.dupTty then msgWrite x u past tbeep e.tty sender msg else nak errorStringDup
  | none =>
      match getUserlist x.env.userlist (some user) with
      | none => nak errorListGet
      | some l =>
          if x.env.dupTty then
            msgWrite x u past tbeep ((l.head?.map (·.tty)).getD .empty) sender msg
          else nak errorStringDup

/-- `MSG` to `targ0`, with what is printed of the sender and of the message in the end. -/
def msgFor (x : Call) (targ0 sender msg : Option CString) : Outcome :=
  match targ0 with
  | none => x.nak x.udata errorNoUserGiven
  | some user =>
      if user.chars = [] then x.nak x.udata errorNoUserGiven
      else if !x.env.getpwnam user then x.nak x.udata errorNoSuchUser
      else if !isloggedin x.env user then x.nak x.udata errorUserNotLoggedIn
      else msgTty x user sender msg

/-- `MSG`; the two fetches in front of the writing are done here as well. -/
def handleMsg (x : Call) : Outcome :=
  let targ0 := x.cmd.fetch .null 0
  let targ1 := x.cmd.fetch .null 1
  let targ0 := x.cmd.fetch targ0 1
  msgFor x targ0.str (x.cmd.fetch targ0 0).str (x.cmd.fetch targ1 2).str

/-! ### Messages from the queue, and the list of users -/

/-- `GETQMSG`, for a user that there is. -/
def getqmsg (x : Call) (user : CString) : Except Fault Outcome :=
  match mqGetnum x.udata user with
  | .error f => .error f
  | .ok 0 => .ok (x.done x.udata [x.reply ((NetCmd.set .qmsg).add [0, 0])])
  | .ok _ =>
      match mqGet x.env x.udata user with
      | .error f => .error f
      | .ok (-1, _, u) =>
          -- the text of one message with the length of another one
          let reason := (errorNoSuchUser ++ 0 :: x.env.beyond).take errorQueueGet.length
          .ok (x.done u [.overread, x.reply ((NetCmd.set .nak).add reason)])
      | .ok (_, v, u) =>
          let msg := (NetCmd.set .qmsg).add (storeNs (BitVec.ofNat 16 v.numleft))
          let msg := ((msg.add (xstr v.msg)).add (xstr v.sendtime)).add (xstr v.sender)
          .ok (x.done u [x.reply (msg.add (xstr v.sourceIp))])

/-- `GETQMSG`. -/
def handleGetqmsg (x : Call) : Except Fault Outcome :=
  let targ0 := x.cmd.fetch .null 0
  if !islocal (x.clients x.cl).address then .ok (x.nak x.udata errorNotLocal)
  else
    match targ0.str with
    | none => .error .nullString
    | some user =>
        if !x.env.getpwnam user then .ok (x.nak x.udata errorNoSuchUser) else getqmsg x user

/-- `GETLIST`. -/
def handleGetlist (x : Call) : Outcome :=
  match getUserlist x.env.userlist none with
  | none => x.nak x.udata errorListGet
  | some ul =>
      let msg := ((NetCmd.set .list).add x.env.version.chars).add x.env.os.chars
      let user (msg : NetCmd) (l : UserlistEnt) :=
        (msg.add l.name.chars).add (if iswritabletty x.env l.tty then [1] else [0])
      x.done x.udata [x.reply ((ul.takeWhile fun l => l.count != 0).foldl user msg)]

/-! ### Preferences -/

/-- `p[0]`. -/
def firstChar (t : Arg) : Except Fault UInt8 :=
  match t.ap with
  | .null => .error .nullPointer
  | .freed => .error .freedPointer
  | .blk b => .ok (b.headD 0)

/-- The last part of `SETPREF`: store what has been fetched. -/
def setprefStore (x : Call) (user tty : Option CString) (tbeep tmode : UInt8) : Outcome :=
  let tue : UdataArg :=
    { udataDefEntry with
      user := user
      tty := if xstr tty = [] then none else tty
      beep := tbeep.toInt8
      mode := tmode.toInt8 }
  let (r, u) := x.udata.udataUpdate x.env.alloc tue
  if r = -1 then
    match x.env.strerror with
    | some s => x.nak u s.chars
    | none => x.nak u errorWeirdSettty
  else x.done u [x.reply (.set .ack)]

/-- `SETPREF`, for a local user that is logged in. -/
def setpref (x : Call) (targ0 : Arg) : Except Fault Outcome := do
  let targ0 ← match x.cmd.getarg targ0 2 false with
    | some r => .ok r.2
    | none => .error .freedPointer
  let targ1 := x.cmd.fetch .null 3
  let tbeep ← firstChar targ0
  let tmode ← firstChar targ1
  let targ0 := x.cmd.fetch targ0 0
  let targ1 := x.cmd.fetch targ1 1
  .ok (setprefStore x targ0.str targ1.str tbeep tmode)

/-- `SETPREF`. -/
def handleSetpref (x : Call) : Except Fault Outcome :=
  let targ0 := x.cmd.fetch .null 0
  if !islocal (x.clients x.cl).address then .ok (x.nak x.udata errorNotLocal)
  else
    match targ0.str with
    | none => .error .nullString
    | some user =>
        if !x.env.getpwnam user then .ok (x.nak x.udata errorNoSuchUser)
        else if !isloggedin x.env user then .ok (x.nak x.udata errorUserNotLoggedIn)
        else setpref x targ0

/-- `GETPREF`, for a user that there is. -/
def getpref (x : Call) (user : Option CString) : Outcome :=
  let pref (tty : CString) (beep mode : Int8) :=
    (((NetCmd.set .pref).add tty.chars).add [beep.toUInt8]).add [mode.toUInt8]
  match x.udata.udataGet user with
  | some e => x.done x.udata [x.reply (pref e.tty e.beep e.mode)]
  | none => x.done x.udata [x.reply (pref ttysetUnset (-1) (-1))]

/-- `GETPREF`. -/
def handleGetpref (x : Call) : Except Fault Outcome :=
  let targ0 := x.cmd.fetch .null 0
  if !islocal (x.clients x.cl).address then .ok (x.nak x.udata errorNotLocal)
  else
    match targ0.str with
    | none => .error .nullString
    | some user =>
        if !x.env.getpwnam user then .ok (x.nak x.udata errorNoSuchUser)
        else .ok (getpref x (some user))

/-! ### `CHATDOOR` -/

/-- The command asks to leave: it has one argument, or the second one is empty. -/
def NetCmd.leaves (c : NetCmd) : Bool :=
  c.getnumargs == 1 || (decide (1 < c.getnumargs) && (c.fetch .null 1).aplen == 1)

/-- Somebody is told about in chat, except on the connection `cl`. -/
def doorMsg (dir : UInt8) (nick : Option CString) : NetCmd :=
  ((NetCmd.set .cDoor).add [dir]).add (xstr nick)

/-- The entry `tuent` leaves the chat, and the others are sent `msg`. -/
def chatdoorExit (x : Call) (u : Udata) (tuent : UdataEnt) (msg : NetCmd) : Outcome :=
  x.done (removeFromChat x.env.alloc u tuent.user)
    (distribute 1 x.clients u msg (some x.cl) ++ [x.reply (.set .ack)])

/-- Leaving, for the entry `tuent` that the command names. -/
def chatdoorLeave (x : Call) (u : Udata) (tuent : UdataEnt) : Outcome :=
  if !tuent.has udcFlagPresent then x.nak u errorChatNotpresent
  else
    -- the second argument is there only when there are more than one
    let targ1 := if x.cmd.getnumargs = 1 then .null else x.cmd.fetch .null 1
    let targ1 := if x.cmd.getnumargs = 3 then x.cmd.fetch targ1 2 else targ1
    let msg := doorMsg 0 tuent.nick
    let msg := if targ1.ap ≠ .null then msg.add targ1.bytes else msg
    chatdoorExit x u tuent msg

/-- The entry `tuent` joins the chat, and the others are told. -/
def chatdoorEnter (x : Call) (u : Udata) (tuent : UdataEnt) (nick : Option CString) : Outcome :=
  let nue := { udataDefEntry with user := some tuent.user, nick := nick, fd := x.fd }
  let u := (u.udataUpdate x.env.alloc nue).2
  let u := u.udataFlagunset tuent.user (~~~0)
  let u := u.udataFlagset tuent.user udcFlagPresent
  x.done u (distribute 1 x.clients u (doorMsg 1 (u.nickOf tuent.user)) (some x.cl) ++
    [x.reply (.set .ack)])

/-- Joining, for the entry `tuent` that the command names. -/
def chatdoorJoin (x : Call) (u : Udata) (tuent : UdataEnt) : Outcome :=
  let targ1 := x.cmd.fetch .null 1
  if tuent.has udcFlagBanned then x.nak u errorChatBanned
  else if tuent.has udcFlagPresent then x.nak u errorChatIspresent
  else if (u.udataGetByNick targ1.str).isSome then x.nak u errorChatNickinuse
  else chatdoorEnter x u tuent targ1.str

/-- The user a `CHATDOOR` names. -/
def NetCmd.doorUser (c : NetCmd) : Option CString := (c.fetch .null 0).str

/-- An entry for the user is made when there is none. -/
def enrol (alloc : Alloc) (u : Udata) (user : Option CString) : Udata :=
  match u.udataGet user with
  | some _ => u
  | none => (u.udataAdd alloc { udataDefEntry with user := user }).2

/-- `CHATDOOR`. -/
def handleChatdoor (x : Call) : Outcome :=
  let u := enrol x.env.alloc x.udata x.cmd.doorUser
  match u.udataGet x.cmd.doorUser with
  | none => x.nak u errorInternal
  | some tuent => if x.cmd.leaves then chatdoorLeave x u tuent else chatdoorJoin x u tuent

/-! ### The switch -/

/-- The commands that `handle_chatcmd` is called for. -/
def NCMDOp.isChatcmd (op : NCMDOp) : Bool :=
  op ∈ [.cWho, .cDoor, .cNick, .cAway, .cBan, .cBeep, .cDeop, .cKick, .cMe, .cOp, .cOper,
    .cPsay, .cSay, .cUnban]

/-- A `C_WHO` that needs no entry. -/
def NetCmd.isMagicWho (c : NetCmd) : Bool :=
  c.get == .cWho && c.getnumargs == 1 && (c.fetch .null 0).str == some magicWhoArg

/-- The client has an entry in chat. -/
def Call.inChat (x : Call) : Bool :=
  match x.udata.udataGetByFd x.fd with
  | some e => e.has udcFlagPresent
  | none => false

/-- `ls_handle_netcmd`. -/
def lsHandleNetcmd (x : Call) : Except Fault Outcome :=
  match x.cmd.get with
  | .msg => .ok (handleMsg x)
  | .getqmsg => handleGetqmsg x
  | .getlist => .ok (handleGetlist x)
  | .setpref => handleSetpref x
  | .getpref => handleGetpref x
  | .chatdoor => .ok (handleChatdoor x)
  | op =>
      if op.isChatcmd then
        if x.cmd.isMagicWho || x.inChat then handleChatcmd x else .ok (x.done x.udata [])
      else .ok { x.done x.udata [] with retval := -1 }

end Smsg
