/-
`serv.h` and `servmisc.c`: what the handlers of the server stand on.

A handler is called with a decoded command (`Call`) and gives back the store, the
bytes it sent and wrote, and its return value (`Outcome`).  Where the source would
follow a `NULL` or a freed pointer, or move bytes outside of a block, there is no
outcome but a `Fault`.  Reading a byte behind the end of a block is no fault: the byte
comes from `Env.beyond`, and `Effect.overread` records it.

Everything a handler asks the system for is in `Env`: the passwd and utmp files,
the terminals, the clock, and which requests for memory are met.  Fetching the arguments of
a command, and building and sending one, is taken to find its memory (`Uses.lean` has the
handlers without this for what they fetch), and what is only logged is left out.
-/
import Smsg.Lib.Block
import Smsg.Ncmd
import Smsg.Udata

namespace Smsg

open Blocks

/-! ### Clients -/

def maxClients : Nat := 111

instance : NeZero maxClients := ⟨by decide⟩

/-- An index into `clients[]`. -/
abbrev Slot := Fin maxClients

/-- `struct in_addr`, in network byte order. -/
structure InAddr where
  b0 : UInt8
  b1 : UInt8
  b2 : UInt8
  b3 : UInt8
deriving DecidableEq

/-- `struct sclient` without the receive buffer, which is the business of the loop. -/
structure Client where
  fd : Int
  address : InAddr
deriving DecidableEq

/-- `inet_ntoa`. -/
def inetNtoa (a : InAddr) : Bytes :=
  let part (b : UInt8) := text (toString b.toNat)
  part a.b0 ++ text "." ++ part a.b1 ++ text "." ++ part a.b2 ++ text "." ++ part a.b3

/-- `islocal`. -/
def islocal (a : InAddr) : Bool := a == ⟨127, 0, 0, 1⟩

/-! ### The system -/

/-- A record of the utmp file. -/
structure Utmp where
  userProcess : Bool
  utUser : Bytes
  utLine : Bytes
  sec : Int

/-- One pass over the utmp file, and for which list sizes there is memory. -/
structure UtmpPass where
  recs : List Utmp
  room : Nat → Bool

/-- What the system answers while a command is handled. -/
structure Env where
  alloc : Alloc
  /-- `strdup` of a tty name. -/
  dupTty : Bool
  /-- The requests for memory of `mq_get`, in order. -/
  dupQueue : Nat → Bool
  getpwnam : CString → Bool
  loggedin : UtmpPass
  userlist : UtmpPass
  /-- `getutxline`: the user field of the record of a line. -/
  getutxline : Bytes → Option Bytes
  /-- The mode of a file that `stat` finds. -/
  stat : CString → Option Nat
  openTty : CString → Bool
  isatty : Bool
  fdopen : Bool
  /-- Hour, minute and second of `localtime`. -/
  localtime : Int → Nat × Nat × Nat
  /-- `strerror(errno)` when `errno` was set. -/
  strerror : Option CString
  /-- The bytes behind the end of a block. -/
  beyond : Bytes
  /-- `VERSION` and `OS` of the build. -/
  version : CString
  os : CString

/-- Every request is met. -/
def Alloc.full (a : Alloc) : Bool :=
  a .addEnt && a .addUser && a .addTty && a .addNick && a .updateTty && a .updateNick

/-- A system with memory, but without users, files or terminals. -/
def Env.bare : Env where
  alloc := fun _ => true
  dupTty := true
  dupQueue := fun _ => true
  getpwnam := fun _ => false
  loggedin := ⟨[], fun _ => true⟩
  userlist := ⟨[], fun _ => true⟩
  getutxline := fun _ => none
  stat := fun _ => none
  openTty := fun _ => false
  isatty := false
  fdopen := false
  localtime := fun _ => (0, 0, 0)
  strerror := none
  beyond := []
  version := .empty
  os := .empty

/-- What a handler does to the world. -/
inductive Effect
  | send (fd : Int) (msg : NetCmd)
  | close (fd : Int)
  | openTty (path : CString)
  | print (path : CString) (b : Bytes)
  | overread
deriving DecidableEq

/-- What was sent to a connection, in order. -/
def sentTo (fd : Int) (effects : List Effect) : List NetCmd :=
  effects.filterMap fun
    | .send fd' msg => if fd' = fd then some msg else none
    | _ => none

/-- Why a handler does not return. -/
inductive Fault
  | nullString
  | nullPointer
  | freedPointer
  | outsideBlock
deriving DecidableEq

/-- What a handler is called with. -/
structure Call where
  env : Env
  clients : Slot → Client
  cl : Slot
  udata : Udata
  beleet : Bool
  cmd : NetCmd

/-- What it gives back. -/
structure Outcome where
  udata : Udata
  beleet : Bool
  effects : List Effect
  retval : Int

namespace Call

/-- `clients[cl].fd`. -/
def fd (x : Call) : Int := (x.clients x.cl).fd

/-- Sending to the client the command came from. -/
def reply (x : Call) (msg : NetCmd) : Effect := .send x.fd msg

/-- The normal return. -/
def done (x : Call) (u : Udata) (effects : List Effect) : Outcome := ⟨u, x.beleet, effects, -5⟩

/-- `NAK` with a reason. -/
def nak (x : Call) (u : Udata) (reason : Bytes) : Outcome :=
  x.done u [x.reply ((NetCmd.set .nak).add reason)]

end Call

/-! ### Terminals -/

/-- `strncmp(a, b, n) == 0`. -/
def strncmpEq (a b : Bytes) (n : Nat) : Bool :=
  (a.take n).takeWhile (· != 0) == (b.take n).takeWhile (· != 0)

/-- `iswritabletty`. -/
def iswritabletty (env : Env) (ttypath : CString) : Bool :=
  match env.stat ttypath with
  | none => false
  | some mode => mode &&& 0o20 != 0

/-- `UTX_LINESIZE` and `UTX_USERSIZE`. -/
def utxLinesize : Nat := 32
def utxUsersize : Nat := 32

/-- `isontty`; `tty + 5` may be behind the end of `tty`. -/
def isontty (env : Env) (user tty : CString) : Bool :=
  let line := ((cstr ((tty.chars ++ 0 :: env.beyond).drop 5)).chars).take utxLinesize
  match env.getutxline line with
  | none => false
  | some utUser => strncmpEq utUser user.chars utxLinesize

/-- `tty + 5` skips the NUL of `tty`. -/
def skipsNul (tty : CString) : Bool := tty.chars.length < 5

/-! ### The users that are logged in -/

/-- `struct userlist_ent`. -/
structure UserlistEnt where
  name : CString
  tty : CString
  count : Nat
  login : Int

/-- One record in the loop of `get_userlist`. -/
def userlistRec (room : Nat → Bool) (user : Option CString) (list : List UserlistEnt) (r : Utmp) :
    Option (List UserlistEnt) :=
  let name := cstr (r.utUser.take utxUsersize ++ [0])
  if !r.userProcess || name.chars == [] then some list
  else if user.isSome && user != some name then some list
  else if list.any (fun e => e.name == name) then
    some (list.map fun e => if e.name = name then { e with count := e.count + 1 } else e)
  else if room (list.length + 1) then
    some (list ++ [⟨name, cstr (text "/dev/" ++ (r.utLine.take utxLinesize ++ [0])), 1, r.sec⟩])
  else none

/-- `get_userlist`; the last entry has count 0. -/
def getUserlist (pass : UtmpPass) (user : Option CString) : Option (List UserlistEnt) := do
  let list ← pass.recs.foldlM (userlistRec pass.room user) []
  if pass.room (list.length + 1) then some (list ++ [⟨.empty, .empty, 0, 0⟩]) else none

/-- `isloggedin`. -/
def isloggedin (env : Env) (user : CString) : Bool :=
  match getUserlist env.loggedin (some user) with
  | some (l :: _) => l.count != 0
  | _ => false

/-! ### The message queue

A queue starts with a doubleword for its size and a word for the number of
messages; each message is a doubleword for its length and four strings.
-/

/-- `mq_getnum`. -/
def mqGetnum (u : Udata) (user : CString) : Except Fault Nat :=
  match u.udataGet (some user) with
  | none => .ok 0
  | some tent =>
      match tent.queue with
      | .null => .error .nullPointer
      | .freed => .error .freedPointer
      | .blk qp => .ok (readNs (qp.drop 4)).toNat

/-- What `mq_add` is given to queue, and what each message of a queue consists of. -/
structure Queued where
  sendtime : CString
  sender : CString
  sourceIp : CString
  msg : CString
deriving DecidableEq

/-- What `malloc` and `realloc` do for `mq_add`. -/
structure QueueMem where
  /-- For which sizes there is memory. -/
  met : Nat → Bool
  /-- `realloc` returns another block and frees the old one. -/
  moves : Bool
  /-- The bytes of new memory. -/
  junk : Nat → UInt8

/-- A block of `n` bytes that starts like `old`. -/
def QueueMem.block (mem : QueueMem) (old : Bytes) (n : Nat) : Bytes :=
  (List.range n).map fun k => old.getD k (mem.junk k)

/-- `l` of `mq_add`, for strings that are shorter than an `int` can tell. -/
def Queued.len (m : Queued) : Nat :=
  m.msg.chars.length + m.sendtime.chars.length + m.sender.chars.length +
    m.sourceIp.chars.length + 4

/-- The last part of `mq_add`: the message goes to offset `t` of the block. -/
def mqStore (qp : Written UInt8) (t : Nat) (m : Queued) : Written UInt8 :=
  qp.writeAll t [storeNl (BitVec.ofNat 64 (m.len + 4)), m.sendtime.chars ++ [0],
    m.sender.chars ++ [0], m.sourceIp.chars ++ [0], m.msg.chars ++ [0]]

/-- The branch of `mq_add` for the first message: the block with it. -/
def mqFirst (mem : QueueMem) (m : Queued) : Written UInt8 :=
  let qp := Written.clean (mem.block [] (m.len + 10))
  let qp := (qp.write 0 (storeNl (BitVec.ofNat 64 (m.len + 10)))).write 4 (storeNs 1)
  mqStore qp 6 m

/-- The branch of `mq_add` for another message behind those in the block `qp`. -/
def mqNext (mem : QueueMem) (qp : Bytes) (m : Queued) : Written UInt8 :=
  let size := readNl qp + BitVec.ofNat 64 m.len
  let new := Written.clean (mem.block qp size.toNat)
  let t := (readNl new.block).toNat
  let new := new.write 0 (storeNl (readNl new.block + BitVec.ofNat 64 m.len))
  let new := new.write 4 (storeNs (readNs (new.block.drop 4) + 1))
  mqStore new t m

/--
`mq_add` with four strings that are there: the return value, the store, and the block
that was written.  The entry is given the block as it is in the end.  The branch for
another message gives it the pointer that went into `realloc`, which is the block only
if `realloc` has not moved it.
-/
def mqAppend (alloc : Alloc) (mem : QueueMem) (u : Udata) (user : CString) (m : Queued) :
    Except Fault (Int × Udata × Option (Written UInt8)) :=
  let first :=
    match u.udataGetQp (some user) with
    | .null => u.udataAdd alloc { udataDefEntry with user := some user }
    | _ => (0, u)
  if first.1 ≠ 0 then .ok (-1, first.2, none)
  else
    let u := first.2
    match u.udataGetQp (some user) with
    | .freed => .error .freedPointer
    | .null =>
        if mem.met (m.len + 10) then
          let qp := mqFirst mem m
          .ok (0, (u.udataSetQp alloc user (.blk qp.block)).2, some qp)
        else .ok (-1, u, none)
    | .blk qp =>
        if mem.met (readNl qp + BitVec.ofNat 64 m.len).toNat then
          let new := mqNext mem qp m
          let queue := if mem.moves then .freed else .blk new.block
          .ok (0, (u.udataSetQp alloc user queue).2, some new)
        else .ok (-1, u, none)

/-- `mq_add`. -/
def mqAdd (alloc : Alloc) (mem : QueueMem) (u : Udata) (user : CString)
    (msg sendtime sender sourceIp : Option CString) :
    Except Fault (Int × Udata × Option (Written UInt8)) :=
  match msg, sendtime, sender, sourceIp with
  | some msg, some sendtime, some sender, some sourceIp =>
      mqAppend alloc mem u user ⟨sendtime, sender, sourceIp, msg⟩
  | _, _, _, _ => .ok (-1, u, none)

/-- The variables that `mq_get` sets. -/
structure MqVars where
  msg : Option CString
  sendtime : Option CString
  sender : Option CString
  sourceIp : Option CString
  numleft : Nat
deriving DecidableEq

/-- The two fields at the front of a queue, set for one message less. -/
def mqHeader (qp : Bytes) : Bytes :=
  storeNl (readNl qp - readNl (qp.drop 6)) ++ (storeNs (readNs (qp.drop 4) - 1) ++ qp.drop 6)

/-- `mq_get` moves what is behind the first message to the front. -/
def mqShift (qp : Bytes) : Option Bytes :=
  let qp := mqHeader qp
  move qp 6 (6 + (readNs (qp.drop 6)).toNat) (readNl qp - 6).toNat

/-- `mq_get`. -/
def mqGet (env : Env) (u : Udata) (user : CString) : Except Fault (Int × MqVars × Udata) :=
  match u.udataGetQp (some user) with
  | .freed => .error .freedPointer
  | .null => .ok (0, ⟨none, none, none, none, 0⟩, u)
  | .blk qp =>
      let mem := qp ++ env.beyond
      let sendtime := cstr (mem.drop 10)
      let t := 10 + sendtime.chars.length + 1
      let sender := cstr (mem.drop t)
      let t := t + sender.chars.length + 1
      let sourceIp := cstr (mem.drop t)
      let t := t + sourceIp.chars.length + 1
      let msg := cstr (mem.drop t)
      let vars : MqVars := ⟨some msg, some sendtime, some sender, some sourceIp, (readNs qp).toNat⟩
      if (List.range 4).any fun k => !env.dupQueue k then .ok (-1, vars, u)
      else if readNs (qp.drop 4) = 1 then
        .ok (0, vars, (u.udataSetQp env.alloc user .null).2)
      else
        match mqShift qp with
        | none => .error .outsideBlock
        | some qp =>
            if env.dupQueue 4 then
              .ok (0, vars, (u.udataSetQp env.alloc user (.blk (qp.take (readNl qp).toNat))).2)
            else .ok (-1, vars, (u.udataSetQp env.alloc user (.blk qp)).2)

end Smsg
