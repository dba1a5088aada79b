/-
Net commands, as `doc/NETCMD.protocol` describes them.

A net command is an identification word, a word with the number of arguments, and
the arguments, each a doubleword with its length followed by that many bytes.
`encode` writes this down and `IsNetCmd` says that some bytes are exactly one
command.  Nothing here looks at how `ncmd.c` builds or reads a command; that is
`Ncmd.lean`.

A command that has been taken apart is a `NetCmd`: an opcode and a list of
arguments.  The server's handlers are written over it, and `getarg`, `set` and
`add` are what `ncmd_getarg`, `ncmd_set` and `ncmd_add` do at that level.
-/
import Smsg.Bytes

namespace Smsg

/-- `NCMDOp`; a word that names no command of the table is kept as it is. -/
inductive NCMDOp
  | unknown | msg | getqmsg | qmsg | getlist | list | setpref | getpref | pref | chatdoor
  | ack | nak
  | cDoor | cAway | cBan | cBeep | cBs | cClear | cDeop | cHelp | cKick | cLog | cMe | cNick
  | cOp | cOper | cPriv | cPsay | cQuit | cSay | cUnban | cWho
  | other (code : BitVec 16) (h : 31 < code.toNat)
deriving DecidableEq

namespace NCMDOp

/-- The word that stands for a command on the wire. -/
def code : NCMDOp → BitVec 16
  | unknown => 0 | msg => 1 | getqmsg => 2 | qmsg => 3 | getlist => 4 | list => 5
  | setpref => 6 | getpref => 7 | pref => 8 | chatdoor => 9 | ack => 10 | nak => 11
  | cDoor => 12 | cAway => 13 | cBan => 14 | cBeep => 15 | cBs => 16 | cClear => 17
  | cDeop => 18 | cHelp => 19 | cKick => 20 | cLog => 21 | cMe => 22 | cNick => 23
  | cOp => 24 | cOper => 25 | cPriv => 26 | cPsay => 27 | cQuit => 28 | cSay => 29
  | cUnban => 30 | cWho => 31
  | other c _ => c

/-- The commands of the table, in order. -/
def table : List NCMDOp :=
  [unknown, msg, getqmsg, qmsg, getlist, list, setpref, getpref, pref, chatdoor, ack, nak,
    cDoor, cAway, cBan, cBeep, cBs, cClear, cDeop, cHelp, cKick, cLog, cMe, cNick, cOp, cOper,
    cPriv, cPsay, cQuit, cSay, cUnban, cWho]

/-- The command a word on the wire stands for. -/
def ofCode (c : BitVec 16) : NCMDOp :=
  if h : 31 < c.toNat then other c h else table.getD c.toNat unknown

@[simp] theorem ofCode_code (op : NCMDOp) : ofCode op.code = op := by
  cases op with
  | other c h => simp [ofCode, code, h]
  | _ => rfl

@[simp] theorem code_ofCode (c : BitVec 16) : (ofCode c).code = c := by
  unfold ofCode
  split
  · rfl
  · rename_i h
    have key : ∀ n : Fin 32, (table.getD n.val unknown).code.toNat = n.val := by decide
    exact BitVec.eq_of_toNat_eq (key ⟨c.toNat, by omega⟩)

end NCMDOp

/-- A net command that has been taken apart. -/
structure NetCmd where
  op : NCMDOp
  args : List Bytes
deriving DecidableEq

/-- A word in network byte order. -/
def be16 (n : Nat) : Bytes := [UInt8.ofNat (n / 2 ^ 8), UInt8.ofNat n]

/-- A doubleword in network byte order. -/
def be32 (n : Nat) : Bytes :=
  [UInt8.ofNat (n / 2 ^ 24), UInt8.ofNat (n / 2 ^ 16), UInt8.ofNat (n / 2 ^ 8), UInt8.ofNat n]

/-- The number written in network byte order. -/
def beNat (b : Bytes) : Nat := b.foldl (fun acc x => acc * 256 + x.toNat) 0

@[simp] theorem length_be16 (n : Nat) : (be16 n).length = 2 := rfl
@[simp] theorem length_be32 (n : Nat) : (be32 n).length = 4 := rfl

theorem beNat_be16 {n : Nat} (h : n < 2 ^ 16) : beNat (be16 n) = n := by
  simp only [beNat, be16, List.foldl_cons, List.foldl_nil, UInt8.toNat_ofNat']
  omega

theorem beNat_be32 {n : Nat} (h : n < 2 ^ 32) : beNat (be32 n) = n := by
  simp only [beNat, be32, List.foldl_cons, List.foldl_nil, UInt8.toNat_ofNat']
  omega

/-- The arguments one behind the other, each with its length. -/
def encodeArgs (args : List Bytes) : Bytes := args.flatMap fun a => be32 a.length ++ a

@[simp] theorem encodeArgs_nil : encodeArgs [] = [] := rfl

@[simp] theorem encodeArgs_cons (a : Bytes) (args : List Bytes) :
    encodeArgs (a :: args) = be32 a.length ++ (a ++ encodeArgs args) := by
  simp [encodeArgs]

namespace NetCmd

/-- The bytes of a command. -/
def encode (c : NetCmd) : Bytes :=
  be16 c.op.code.toNat ++ (be16 c.args.length ++ encodeArgs c.args)

/-- The counts fit the fields that hold them. -/
structure Fits (c : NetCmd) : Prop where
  count : c.args.length < 2 ^ 16
  lengths : ∀ a ∈ c.args, a.length < 2 ^ 32

theorem length_encode (c : NetCmd) : c.encode.length = 4 + (encodeArgs c.args).length := by
  simp only [encode, List.length_append, length_be16]
  omega

theorem four_le_length (c : NetCmd) : 4 ≤ c.encode.length := by
  rw [length_encode]; omega

/-! ### Building and reading a command that has been taken apart -/

/-- `ncmd_set`. -/
def set (op : NCMDOp) : NetCmd := ⟨op, []⟩

/-- `ncmd_add`. -/
def add (c : NetCmd) (s : Bytes) : NetCmd := { c with args := c.args ++ [s] }

/-- `ncmd_get`. -/
def get (c : NetCmd) : NCMDOp := c.op

/-- `ncmd_getnumargs`. -/
def getnumargs (c : NetCmd) : Nat := c.args.length

/--
`ncmd_getarg` where there is memory: the return value, and the new target with its
length.  `realloc` of a live block to size zero frees it and returns `NULL`; of a block
that is already freed it has no defined behaviour.
-/
def getarg (c : NetCmd) (t : Arg) (argnum : Nat) (addzero : Bool) : Option (Int × Arg) :=
  match c.args[argnum]? with
  | none => some (-1, t)
  | some a =>
      let b := a ++ (if addzero then [0] else [])
      match t.ap with
      | .null => some (0, .blk b)
      | .blk _ => if b = [] then some (-1, ⟨.freed, t.aplen⟩) else some (0, .blk b)
      | .freed => none

/--
What `ncmd_getarg` with `addzero` leaves in a target that is `NULL` or live, for
the many callers that do not look at the return value.  There is memory for it; the
handlers whose calls may be refused are those of `Uses.lean`.
-/
def fetch (c : NetCmd) (t : Arg) (argnum : Nat) : Arg :=
  match c.args[argnum]? with
  | none => t
  | some a => .blk (a ++ [0])

@[simp] theorem set_op (op : NCMDOp) : (set op).op = op := rfl
@[simp] theorem set_args (op : NCMDOp) : (set op).args = [] := rfl
@[simp] theorem add_op (c : NetCmd) (s : Bytes) : (c.add s).op = c.op := rfl
@[simp] theorem add_args (c : NetCmd) (s : Bytes) : (c.add s).args = c.args ++ [s] := rfl

/-- Fetching an argument that is not there leaves the target alone. -/
theorem getarg_none {c : NetCmd} {t : Arg} {k : Nat} {z : Bool} (h : c.args[k]? = none) :
    c.getarg t k z = some (-1, t) := by
  rw [getarg, h]

theorem fetch_none {c : NetCmd} {t : Arg} {k : Nat} (h : c.args[k]? = none) :
    c.fetch t k = t := by
  rw [fetch, h]

theorem fetch_some {c : NetCmd} {t : Arg} {k : Nat} {a : Bytes} (h : c.args[k]? = some a) :
    c.fetch t k = .blk (a ++ [0]) := by
  rw [fetch, h]

/-- `fetch` is `ncmd_getarg` without its return value. -/
theorem getarg_fetch {c : NetCmd} {t : Arg} {k : Nat} (ht : t.ap ≠ .freed) :
    (c.getarg t k true).map (·.2) = some (c.fetch t k) := by
  rw [getarg, fetch]
  cases c.args[k]? with
  | none => rfl
  | some a =>
      cases hap : t.ap with
      | null => rfl
      | blk b => simp
      | freed => exact absurd hap ht

end NetCmd

/-- The bytes are exactly one complete net command. -/
def IsNetCmd (b : Bytes) : Prop := ∃ c : NetCmd, c.Fits ∧ c.encode = b

end Smsg
