/-
The queue of a user as it is documented.

A queue is one block of memory: a doubleword with the size of the block, a word with
the number of messages, and the messages one behind the other.  A message is a
doubleword with its own length, which counts the doubleword, and four strings with
their NULs.  `mq_add` is to add a message at the end (`QueuesRight`), `mq_get` is to take
the first one (`GetsFirst`), so that messages come out as they went in (`Fifo`), and
`mq_getnum` is to tell how many there are (`CountsRight`).
-/
import Smsg.Runserver

namespace Smsg

/-! ### The format -/

/-- The strings of a message, in the order they are stored in. -/
def Queued.strings (m : Queued) : Bytes :=
  m.sendtime.chars ++ 0 :: (m.sender.chars ++ 0 :: (m.sourceIp.chars ++ 0 :: (m.msg.chars ++ [0])))

/-- A message with the doubleword in front of it. -/
def Queued.record (m : Queued) : Bytes := be32 (m.strings.length + 4) ++ m.strings

/-- Messages one behind the other. -/
def queueRecords (ms : List Queued) : Bytes := ms.flatMap Queued.record

/-- How large the block is. -/
def queueSize (ms : List Queued) : Nat := 6 + (queueRecords ms).length

/-- The block. -/
def queueLayout (ms : List Queued) : Bytes :=
  be32 (queueSize ms) ++ (be16 ms.length ++ queueRecords ms)

/-! ### Adding -/

/-- A call of `mq_add`: the message, and what happens to the requests for memory. -/
structure QueueCall where
  msg : Queued
  alloc : Alloc
  mem : QueueMem

/-- Every request for memory is met. -/
structure QueueCall.Met (c : QueueCall) : Prop where
  alloc : c.alloc.full = true
  mem : ∀ n, c.mem.met n = true

/--
After each of the calls, the entry points to the block that was written, nothing was
written behind its end, and it has the documented format for the messages `past` and
those of the calls so far.
-/
def QueuesRight (user : CString) : Udata → List Queued → List QueueCall → Prop
  | _, _, [] => True
  | u, past, c :: calls => ∃ u' qp,
      mqAdd c.alloc c.mem u user (some c.msg.msg) (some c.msg.sendtime) (some c.msg.sender)
        (some c.msg.sourceIp) = .ok (0, u', some qp) ∧
      qp.spill = [] ∧ qp.block = queueLayout (past ++ [c.msg]) ∧
      u'.udataGetQp (some user) = .blk qp.block ∧
      QueuesRight user u' (past ++ [c.msg]) calls

/-! ### Taking -/

/-- Every request for memory of `mq_get` is met. -/
def Env.QueueMet (env : Env) : Prop := ∀ k, env.dupQueue k = true

/-- `mq_get` returns the message `m`, says how many are left, and leaves those. -/
def GetsFirst (env : Env) (u : Udata) (user : CString) (m : Queued) (rest : List Queued)
    (u' : Udata) : Prop :=
  mqGet env u user = .ok (0, ⟨some m.msg, some m.sendtime, some m.sender, some m.sourceIp,
    rest.length⟩, u') ∧
    u'.udataGetQp (some user) = if rest = [] then .null else .blk (queueLayout rest)

/-- As many calls as there are messages return them in order, each exactly once. -/
def Fifo (user : CString) : Udata → List Queued → Prop
  | u, [] => u.udataGetQp (some user) = .null
  | u, m :: rest => ∀ env : Env, env.QueueMet →
      ∃ u', GetsFirst env u user m rest u' ∧ Fifo user u' rest

/--
What `mq_get` makes of the queue is right by its lengths: the upper word of the size is
the number of the messages left, and what it moves to the front are these messages,
though it looks for them by the upper word of the length of the first one.
-/
def GetFits : List Queued → Prop
  | [] => True
  | m :: rest => queueSize (m :: rest) / 2 ^ 16 = rest.length ∧
      (rest = [] ∨ queueSize rest < 2 ^ 31 ∧
        ((queueRecords (m :: rest)).drop (m.record.length / 2 ^ 16)).take (queueRecords rest).length
          = queueRecords rest)

/-! ### Counting -/

/-- The messages that a queue pointer stands for. -/
inductive QueueHolds : Ptr → List Queued → Prop
  | null : QueueHolds .null []
  | blk (ms : List Queued) : QueueHolds (.blk (queueLayout ms)) ms

/-- `mq_getnum` returns the number of the messages that are queued for the user. -/
def CountsRight (u : Udata) (user : CString) : Prop :=
  ∃ ms, QueueHolds (u.udataGetQp (some user)) ms ∧ mqGetnum u user = .ok ms.length

/-- `GETQMSG` for a user of the system. -/
structure AsksQueue (mem : Memory) (s : Server) (i : Slot) (c : NetCmd) (env : Env)
    (user : CString) : Prop where
  live : s.live i
  mem : mem.allows env.alloc = true
  op : c.get = .getqmsg
  named : (c.fetch .null 0).str = some user
  isLocal : islocal (s.clients i).address = true
  passwd : env.getpwnam user = true

/-- Every such `GETQMSG` is answered with one `QMSG` or `NAK`. -/
def AnswersQueue (mem : Memory) (s : Server) (user : CString) : Prop :=
  ∀ i c env, AsksQueue mem s i c env user → ∃ s' m,
    s.step mem (.netcmd i c env) = some (s', [.send (s.clients i).fd m]) ∧
      (m.op = .qmsg ∨ m.op = .nak)

end Smsg
