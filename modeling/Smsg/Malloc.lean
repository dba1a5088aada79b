/-
`ncmd.c` when memory may be missing.

`Ncmd.lean` has `ncmd_add` and `ncmd_getarg` for the many callers that do not look at what
they return, with memory that is always there.  Here every request is answered by a
`Malloc`, which says what sizes it grants.  No object is larger than `PTRDIFF_MAX` bytes,
and more is never granted.

Sizes are `unsigned long`.  The one that `ncmd_getarg` asks for is a length that `read_nl`
may have filled with ones, and with the byte for the NUL it can wrap to zero.
-/
import Smsg.Ncmd

namespace Smsg

/-- Which requests for memory are met, by their number of bytes. -/
structure Malloc where
  grants : Nat → Bool
  bounded : ∀ n, grants n = true → n < 2 ^ 63

namespace Malloc

/--
`realloc`: whether it returns a block, and what the old pointer points to then.  A live
block is freed by a size of zero, and `NULL` is returned; `realloc` of `NULL` is `malloc`,
which may or may not return a block of no bytes.
-/
def realloc (m : Malloc) : Ptr → Nat → Option (Bool × Ptr)
  | .null, n => some (m.grants n, .null)
  | .blk b, n =>
      if n = 0 then some (false, .freed)
      else if m.grants n then some (true, .freed)
      else some (false, .blk b)
  | .freed, _ => none

/-- `ncmd_add`: the return value, and the buffer. -/
def ncmdAdd (m : Malloc) (buf : Bytes) (s : Option Bytes) : Int × Bytes :=
  if m.grants (buf.length + 4 + (s.getD []).length) then (0, Smsg.ncmdAdd buf s) else (-1, buf)

/-- The size that `ncmd_getarg` asks for when it has come to the argument at offset `i`. -/
def argSize (buf : Bytes) (i : Nat) (addzero : Bool) : Nat :=
  ((readNl (buf.drop i)).toNat + addzero.toNat) % 2 ^ 64

/-- `ncmd_getarg` at the argument at offset `i`. -/
def getargAt (m : Malloc) (buf : Bytes) (t : Arg) (i : Nat) (addzero : Bool) : Option (Int × Arg) :=
  let l := (readNl (buf.drop i)).toNat
  match m.realloc t.ap (argSize buf i addzero) with
  | none => none
  | some (false, old) => some (-1, { t with ap := old })
  | some (true, _) =>
      -- the argument is copied, and must lie in the buffer and fit into the block
      if i + 4 + l ≤ buf.length ∧ l ≤ argSize buf i addzero then
        some (0, .blk ((buf.drop (i + 4)).take l ++ (if addzero then [0] else [])))
      else none

/-- `ncmd_getarg`. -/
def ncmdGetarg (m : Malloc) (buf : Bytes) (t : Arg) (argnum : Nat) (addzero : Bool) :
    Option (Int × Arg) :=
  if ncmdGetnumargs buf ≤ argnum then some (-1, t)
  else (skipArgs buf argnum 4).bind fun i => m.getargAt buf t i addzero

end Malloc

/-! ### What a reader makes of a buffer -/

/--
The arguments that the length fields tell apart, `n` of them and nothing behind; `len` is
how a field is read.
-/
def decodeArgs (len : Bytes → Nat) : Nat → Bytes → Option (List Bytes)
  | 0, b => if b = [] then some [] else none
  | n + 1, b =>
      if b.length < 4 then none
      else if b.length < 4 + len b then none
      else (decodeArgs len n (b.drop (4 + len b))).map ((b.drop 4).take (len b) :: ·)

/-- The arguments of the command in a buffer, as many as `ncmd_getnumargs` says. -/
def decodeCmd (len : Bytes → Nat) (buf : Bytes) : Option (List Bytes) :=
  if buf.length < 4 then none else decodeArgs len (ncmdGetnumargs buf) (buf.drop 4)

/-- A length field as the receiver reads it. -/
def fieldNl (b : Bytes) : Nat := (readNl b).toNat

/-- A length field as the protocol has it: an unsigned doubleword. -/
def fieldDoc (b : Bytes) : Nat := beNat (b.take 4)

end Smsg
