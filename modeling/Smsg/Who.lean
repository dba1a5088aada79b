/-
`smsgwho.c`, and what a listing of the chat ought to tell.

`smsgwho` asks with the magic word, from a connection that nobody is in chat on, and
waits for one whole command.  What it makes of that is `smsgwho`: a count, or one record
for each pair of arguments behind the first one.  `rchat` goes by the count.
-/
import Smsg.Clchat
import Smsg.Proofs.Delivery

namespace Smsg

/-! ### `smsgwho` -/

/-- The request that is sent. -/
def smsgwhoAsks : NetCmd := (NetCmd.set .cWho).add magicWhoArg.chars

/-- One record: the separator, the nick and what is known of the user. -/
def smsgwhoRecord (ofs ors : UInt8) (tnick : Bytes) (tinfo : Arg) : Bytes :=
  ors :: (cstr (tnick ++ [0])).chars ++ ofs :: printStr tinfo.str

/-- The loop over the arguments; an argument that is missing leaves `tinfo` as it was. -/
def smsgwhoLoop (ofs ors : UInt8) (tinfo : Arg) : List Bytes → Bytes
  | [] => []
  | [tnick] => smsgwhoRecord ofs ors tnick tinfo
  | tnick :: info :: rest =>
      smsgwhoRecord ofs ors tnick (.blk (info ++ [0])) ++
        smsgwhoLoop ofs ors (.blk (info ++ [0])) rest

/-- What is printed for the command in `rbuf`. -/
def smsgwho (ofs ors : UInt8) (countOnly : Bool) (rbuf : NetCmd) : Bytes :=
  if countOnly then text (toString (rbuf.getnumargs / 2)) ++ text "\n"
  else smsgwhoLoop ofs ors .null (rbuf.args.drop 1)

/-! ### Listings -/

/-- Those who are in chat. -/
def Udata.chatting (u : Udata) : List UdataEnt := u.ents.filter fun e => e.has udcFlagPresent

/-- A request for a list of the chat: the magic word from anywhere, or from somebody in chat
no argument or a 0. -/
structure Server.AsksWho (s : Server) (i : Slot) (c : NetCmd) : Prop where
  op : c.get = .cWho
  form : c.isMagicWho = true ∨
    (s.udata.udataGetByFd (s.clients i).fd ≠ none ∧ (c.args = [] ∨ c.args = [[0]]))

/-- User and address of somebody on the connection in the slot. -/
def whoInfo (clients : Slot → Client) (p : UdataEnt × Slot) : Bytes :=
  p.1.user.chars ++ text "@" ++ inetNtoa (clients p.2).address

/-- The pair of arguments that tells of somebody. -/
def whoPair (clients : Slot → Client) (p : UdataEnt × Slot) : List Bytes :=
  [p.1.sayName, whoInfo clients p]

/-- `l` goes over those in chat, each of them once and with the connection that it is on. -/
structure Server.Goes (s : Server) (l : List (UdataEnt × Slot)) : Prop where
  once : (l.map (·.1)).Perm s.udata.chatting
  conn : ∀ p ∈ l, s.live p.2 ∧ (s.clients p.2).fd = p.1.fd

/-- The sidebar of a client that gets the command, and nothing else, becomes the names. -/
def FillsSidebar (m : NetCmd) (names : List Bytes) : Prop :=
  ∃ culist : List CString, (culist.map (·.chars)).Perm names ∧
    ∀ v, chatterFunc v m = some ({ v with culist := culist }, [])

/--
The answer to the request `c` has a pair of arguments for everybody in chat, once, and an
odd number of arguments if something was asked for; a client fills its sidebar with all of
the names, and `smsgwho` prints them, or how many they are.
-/
def Server.ListsChat (mem : Memory) (s : Server) (i : Slot) (c : NetCmd) (env : Env) : Prop :=
  ∃ m l, (server mem).step s (.netcmd i c env) = some (s, [.send (s.clients i).fd m]) ∧
    s.Goes l ∧ m.op = .cWho ∧
    m.args.drop (m.args.length % 2) = l.flatMap (whoPair s.clients) ∧
    (m.args.length % 2 = 1 ↔ c.args ≠ []) ∧
    FillsSidebar m (s.udata.chatting.map (·.sayName)) ∧
    (c.isMagicWho = true → ∀ ofs ors,
      smsgwho ofs ors false m
        = (l.flatMap fun p => ors :: p.1.sayName ++ ofs :: whoInfo s.clients p) ∧
      smsgwho ofs ors true m = text (toString s.udata.chatting.length) ++ text "\n")

/-- Everybody in chat has a nick. -/
def Server.AllNamed (s : Server) : Prop :=
  ∀ e ∈ s.udata.ents, e.has udcFlagPresent → e.nick ≠ none

end Smsg
