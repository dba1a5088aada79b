/-
`smsgwho.c`: the program from its command line to what it prints.

It asks one server with one command and receives until it has a whole command; `Received`
is what its calls of `recvbuf` come to, one after the other.  What it does with what it has
received then are the calls of `ncmd_getarg` on the buffer (`whoPrints`); `smsgwho` says the
same of a command that has been taken apart.

`connect_to_server` is given, with what it complains about.  `port` is an `int`, and is cut
to a `short int` when it is passed on.
-/
import Smsg.Lib.Settings
import Smsg.Client
import Smsg.Who

namespace Smsg

open Settings

/-! ### Part one: the command line -/

/-- The variables that arguments are for. -/
structure WhoOpts where
  ofs : UInt8
  ors : UInt8
  countOnly : Bool
  host : CString
  port : Int
deriving DecidableEq

/-- `DFL_OFS`, `DFL_ORS`, `DFL_HOST` and `PORT_DEFAULT`. -/
def WhoOpts.default : WhoOpts := ⟨32, 10, false, cstr (text "localhost"), 16354⟩

/-- `strstr` finds an option at the start of the argument. -/
def isWhoOption (name : String) (arg : CString) : Bool := (text name).isPrefixOf arg.chars

/-- The place of the last colon, which `rindex` finds. -/
def lastColon (arg : CString) : Option Nat :=
  (arg.chars.reverse.idxOf? 58).map fun k => arg.chars.length - 1 - k

/-- What is in front of the last colon. -/
def whoHost (arg : CString) : CString :=
  match lastColon arg with
  | none => arg
  | some k => ⟨arg.chars.take k, fun h => arg.nulFree (List.mem_of_mem_take h)⟩

/-- The number behind the last colon, if it is one that is taken. -/
def whoPort (arg : CString) : Option Int :=
  (lastColon arg).bind fun k =>
    let port := atoi ⟨arg.chars.drop (k + 1), fun h => arg.nulFree (List.mem_of_mem_drop h)⟩
    if 0 < port then some port else none

/-- One argument. -/
def whoArg (o : WhoOpts) (arg : CString) : WhoOpts :=
  if isWhoOption "-f" arg then
    match arg.chars[2]? with
    | some c => { o with ofs := c }
    | none => o
  else if isWhoOption "-r" arg then
    match arg.chars[2]? with
    | some c => { o with ors := c }
    | none => o
  else if isWhoOption "-c" arg then { o with countOnly := true }
  else
    let o := match whoPort arg with
      | some port => { o with port := port }
      | none => o
    if (whoHost arg).chars = [] then o else { o with host := whoHost arg }

/-! ### Part two: the command -/

/-- What a call of `recvbuf` comes to. -/
inductive Received
  | bytes (b : Bytes)
  | closed
  | error
deriving DecidableEq

/-- How the program ends, with what it has printed, or that it waits for more. -/
inductive WhoOutcome
  | waiting
  | exits (status : Nat) (out err : Bytes)
deriving DecidableEq

/-- `while(!ncmd_iscomplete(..))`: the whole buffer, or how it ends without one. -/
def whoReceive (rbuf : Bytes) : List Received → Option (WhoOutcome ⊕ Bytes)
  | [] => do
      let k ← ncmdIscomplete rbuf
      some (if k = 0 then .inl .waiting else .inr rbuf)
  | r :: received => do
      let k ← ncmdIscomplete rbuf
      if k ≠ 0 then some (.inr rbuf)
      else
        match r with
        | .error => some (.inl (.exits 3 [] (text "error receiving data\n")))
        | .closed => some (.inl (.exits 3 [] (text "connection closed by peer\n")))
        | .bytes b => whoReceive (recvbuf rbuf b) received

/-! ### Part three: what is printed -/

/-- `printf` of one record. -/
def whoPrintsRecord (ofs ors : UInt8) (tnick tinfo : Arg) : Bytes :=
  ors :: printStr tnick.str ++ ofs :: printStr tinfo.str

/-- The loop over the arguments from `ti` on; `fuel` bounds the number of rounds. -/
def whoPrintsLoop (rbuf : Bytes) (ofs ors : UInt8) : Nat → Nat → Arg → Arg → Option Bytes
  | 0, _, _, _ => none
  | fuel + 1, ti, tnick, tinfo =>
      if ti < ncmdGetnumargs rbuf then do
        let tnick ← getarg rbuf tnick ti true
        let tinfo ← getarg rbuf tinfo (ti + 1) true
        let rest ← whoPrintsLoop rbuf ofs ors fuel (ti + 2) tnick tinfo
        some (whoPrintsRecord ofs ors tnick tinfo ++ rest)
      else some []

/-- What is printed from the buffer. -/
def whoPrints (ofs ors : UInt8) (countOnly : Bool) (rbuf : Bytes) : Option Bytes :=
  if countOnly then some (text (toString (ncmdGetnumargs rbuf / 2)) ++ text "\n")
  else whoPrintsLoop rbuf ofs ors (ncmdGetnumargs rbuf + 1) 1 .null .null

/-! ### The program -/

/-- What `smsgwho` finds. -/
structure WhoEnv where
  connectToServer : CString → Int16 → Except Bytes Unit
  /-- `strerror(errno)`, when the command cannot be sent. -/
  sendError : Option CString
  received : List Received

/-- `main` of `smsgwho`. -/
def smsgwhoMain (args : List CString) (env : WhoEnv) : Option WhoOutcome :=
  let o := args.foldl whoArg .default
  match env.connectToServer o.host (.ofInt o.port) with
  | .error err => some (.exits 1 [] err)
  | .ok _ =>
      match env.sendError with
      | some why =>
          some (.exits 2 [] (text "error sending message (" ++ why.chars ++ text ")\n"))
      | none => do
          match ← whoReceive [] env.received with
          | .inl outcome => some outcome
          | .inr rbuf => do
              let out ← whoPrints o.ofs o.ors o.countOnly rbuf
              some (.exits 0 out [])

/-! ### What the arguments come to -/

/-- An argument that is no option. -/
def isWhoHost (arg : CString) : Bool :=
  !isWhoOption "-f" arg && !isWhoOption "-r" arg && !isWhoOption "-c" arg

/-- The settings, each as the last argument has it that is about it. -/
def whoSettings (args : List CString) : WhoOpts where
  ofs := lastOr (fun a => if isWhoOption "-f" a then a.chars[2]? else none) args 32
  ors := lastOr (fun a => if isWhoOption "-r" a then a.chars[2]? else none) args 10
  countOnly := args.any (isWhoOption "-c")
  host := lastOr (fun a => if isWhoHost a ∧ (whoHost a).chars ≠ [] then some (whoHost a) else none)
    args (cstr (text "localhost"))
  port := lastOr (fun a => if isWhoHost a then whoPort a else none) args 16354

/-- A connection to the server, on which the request has gone out. -/
def WhoEnv.Asks (wenv : WhoEnv) (args : List CString) : Prop :=
  wenv.connectToServer (whoSettings args).host (.ofInt (whoSettings args).port) = .ok () ∧
    wenv.sendError = none

/-- A record for everybody in `l`, or how many they are. -/
def WhoOpts.lists (o : WhoOpts) (clients : Slot → Client) (l : List (UdataEnt × Slot)) : Bytes :=
  if o.countOnly then text (toString l.length) ++ text "\n"
  else l.flatMap fun p => o.ors :: p.1.sayName ++ o.ofs :: whoInfo clients p

end Smsg
