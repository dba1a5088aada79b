/-
`get_userlist` with its array.

In `getUserlist` an entry of the list is a record with two strings and a number.  Here the
list is an array of elements of fixed size, as `struct userlist_ent` has it: `name` and
`tty` are bytes that are written to, `count` has 32 bits, and so has `n`, the number of
elements.  `j` is `unsigned` as well, and -1 says that the search has found nothing.

`realloc` to no bytes at all, which is what `n+1` comes to when it wraps, frees the array
and returns `NULL`, and the array is then freed again.
-/
import Smsg.Terminals
import Smsg.Lib.Groups

namespace Smsg

open Blocks

/-! ### The array -/

/-- `NMAX` and `LMAX`. -/
def nmax : Nat := utxUsersize + 1
def lmax : Nat := utxLinesize + 6

/-- `struct userlist_ent` in the array. -/
structure UserlistCell where
  name : Written UInt8
  tty : Written UInt8
  count : BitVec 32
  login : Int

/-- What is in memory that was not written to. -/
structure NewMem where
  byte : Nat → Nat → UInt8
  count : Nat → BitVec 32
  login : Nat → Int

/-- The element `k` of new memory. -/
def NewMem.cell (mem : NewMem) (k : Nat) : UserlistCell where
  name := .clean ((List.range nmax).map (mem.byte k))
  tty := .clean ((List.range lmax).map fun i => mem.byte k (nmax + i))
  count := mem.count k
  login := mem.login k

/-- A field of a record, `n` bytes without a terminating NUL of its own. -/
def utField (n : Nat) (b : Bytes) : Bytes := (b ++ List.replicate n 0).take n

/-- Why the function ends early: it returns `NULL`, or it does not return. -/
inductive UserlistStop
  | null
  | fault (f : Fault)

/-- `list` and `n`. -/
structure UserlistVars where
  list : List UserlistCell
  n : BitVec 32

namespace Cells

/-! ### `get_userlist` -/

/-- The search for `namebuf`. -/
def find (v : UserlistVars) (namebuf : Bytes) : BitVec 32 :=
  match (v.list.take v.n.toNat).findIdx? fun c => cstr c.name.block == cstr namebuf with
  | some i => BitVec.ofNat 32 i
  | none => -1

/-- `realloc` to `n+1` elements. -/
def grow (room : Nat → Bool) (mem : NewMem) (v : UserlistVars) :
    Except UserlistStop (List UserlistCell) :=
  let n := v.n + 1
  if n = 0 then .error (.fault .freedPointer)
  else if room n.toNat then .ok ((List.range n.toNat).map fun k => (v.list[k]?).getD (mem.cell k))
  else .error .null

/-- A new element, for a record of the user in `namebuf`. -/
def fill (namebuf : Bytes) (r : Utmp) (c : UserlistCell) : UserlistCell where
  name := c.name.write 0 ((cstr namebuf).chars ++ [0])
  tty := ((c.tty.write (lmax - 1) [0]).write 0 (text "/dev/" ++ [0])).write 5
    (utField utxLinesize r.utLine)
  login := r.sec
  count := 1

/-- One record in the loop. -/
def step (room : Nat → Bool) (mem : NewMem) (user : Option CString) (v : UserlistVars) (r : Utmp) :
    Except UserlistStop UserlistVars :=
  let utUser := utField utxUsersize r.utUser
  if !r.userProcess then .ok v
  else if utUser.head? = some 0 then .ok v
  else
    let namebuf := utUser ++ [0]
    if user.isSome && user != some (cstr namebuf) then .ok v
    else
      let j := find v namebuf
      if j ≠ -1 then
        .ok { v with list := v.list.modify j.toNat fun c => { c with count := c.count + 1 } }
      else do
        let list ← grow room mem v
        .ok ⟨list.modify v.n.toNat (fill namebuf r), v.n + 1⟩

/-- The termination entry. -/
def terminator (c : UserlistCell) : UserlistCell :=
  { c with name := c.name.write 0 [0], tty := c.tty.write 0 [0], count := 0 }

/-- `get_userlist`. -/
def getUserlist (pass : UtmpPass) (mem : NewMem) (user : Option CString) :
    Except UserlistStop (List UserlistCell) := do
  let v ← pass.recs.foldlM (step pass.room mem user) ⟨[], 0⟩
  let list ← grow pass.room mem v
  .ok (list.modify v.n.toNat terminator)

/-- `isloggedin`. -/
def isloggedin (pass : UtmpPass) (mem : NewMem) (user : CString) : Except UserlistStop Bool :=
  match getUserlist pass mem (some user) with
  | .error .null => .ok false
  | .error (.fault f) => .error (.fault f)
  | .ok l => .ok (l.head?.any fun c => c.count != 0)

end Cells

/-! ### What the list ought to be -/

/-- The record is counted when the list of `user`, or of everybody, is made. -/
def Utmp.counted (user : Option CString) (r : Utmp) : Bool :=
  r.userProcess && r.user.chars != [] && (user.isNone || user == some r.user)

/-- The users with a record that is counted, in the order in which they first appear. -/
def usersOf (recs : List Utmp) : List CString :=
  Groups.firstKeys Utmp.user (recs.filter (Utmp.counted none))

/-- The records of a user that are counted. -/
def recordsOf (recs : List Utmp) (user : CString) : List Utmp :=
  recs.filter (Utmp.counted (some user))

/-- The entries: terminal and login time are those of the first record. -/
def userlistOf (recs : List Utmp) : List UserlistEnt :=
  (usersOf recs).filterMap fun user => (recordsOf recs user).head?.map fun r =>
    ⟨user, cstr (text "/dev/" ++ r.line.chars ++ [0]), (recordsOf recs user).length, r.sec⟩

/-- The element as it is read. -/
def UserlistCell.ent (c : UserlistCell) : UserlistEnt :=
  ⟨cstr c.name.block, cstr c.tty.block, c.count.toNat, c.login⟩

/-- Both strings end inside of their arrays, and nothing was written behind these. -/
structure UserlistCell.Terminated (c : UserlistCell) : Prop where
  nameSize : c.name.block.length = nmax
  nameEnd : (0 : UInt8) ∈ c.name.block
  nameSpill : c.name.spill = []
  ttySize : c.tty.block.length = lmax
  ttyEnd : (0 : UInt8) ∈ c.tty.block
  ttySpill : c.tty.spill = []

/-- What is returned are the entries, and one more with a count of 0. -/
def Cells.Answers (res : Except UserlistStop (List UserlistCell)) (list : List UserlistEnt) : Prop :=
  ∃ cells last, res = .ok (cells ++ [last]) ∧ cells.map (·.ent) = list ∧
    (∀ e ∈ list, e.count ≠ 0) ∧ last.ent.name = .empty ∧ last.ent.tty = .empty ∧ last.count = 0 ∧
    ∀ c ∈ cells ++ [last], c.Terminated

/-- All of this for a pass over the records that there is memory for. -/
structure Cells.Right (recs : List Utmp) (mem : NewMem) : Prop where
  all : Answers (getUserlist ⟨recs, fun _ => true⟩ mem none) (userlistOf recs)
  one : ∀ user, Answers (getUserlist ⟨recs, fun _ => true⟩ mem (some user))
    ((userlistOf recs).filter fun e => e.name = user)
  loggedin : ∀ user, isloggedin ⟨recs, fun _ => true⟩ mem user
    = .ok (decide (∃ r ∈ recs, r.counted (some user)))

/-- No number gets too large for 32 bits: the records of one user, and the elements. -/
structure Fits (recs : List Utmp) : Prop where
  records : ∀ user, (recordsOf recs user).length < 2 ^ 32
  users : (usersOf recs).length + 1 < 2 ^ 32

end Smsg
