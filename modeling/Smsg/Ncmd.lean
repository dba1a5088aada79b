/-
`ncmd.c`: building net commands in a buffer and cutting them out of one.

`unsigned long` is 64 bits wide and `int` 32 bits.  `readNl` is therefore kept as
the source has it: every byte is shifted as an `int` and widened afterwards, so a
first byte with its top bit set fills the upper half of the result with ones.

`ncmd_iscomplete` moves a pointer through the buffer.  `iscompleteAt` follows that
pointer as a 64-bit address, with every addition wrapping, and records the places
it visits.  `ncmdIscomplete` is the same walk with offsets from the start of the
buffer, where a pointer in front of the buffer has no defined behaviour.  The
second is what the rest of the development runs; `Proofs/Iscomplete.lean` shows
that it says what the first computes wherever the buffer may lie.
-/
import Smsg.NetCmd

namespace Smsg

abbrev Addr := BitVec 64

/-! ### Words and doublewords -/

/-- The byte at `p[k]`, promoted to `int` and masked with `0xFF`. -/
def intByte (p : Bytes) (k : Nat) : BitVec 32 := (p.getD k 0).toBitVec.setWidth 32

/-- `store_nl`: the four bytes it writes. -/
def storeNl (val : BitVec 64) : Bytes :=
  [(val &&& 0xFF000000#64) >>> 24, (val &&& 0xFF0000#64) >>> 16, (val &&& 0xFF00#64) >>> 8,
    val &&& 0xFF#64].map fun x => UInt8.ofBitVec (x.setWidth 8)

/-- `read_nl`. -/
def readNl (p : Bytes) : BitVec 64 :=
  let r := (intByte p 0 <<< 24).signExtend 64
  let r := r + (intByte p 1 <<< 16).signExtend 64
  let r := r + (intByte p 2 <<< 8).signExtend 64
  r + (intByte p 3).signExtend 64

/-- `store_ns`: the two bytes it writes. -/
def storeNs (val : BitVec 16) : Bytes :=
  [(val &&& 0xFF00#16) >>> 8, val &&& 0xFF#16].map fun x => UInt8.ofBitVec (x.setWidth 8)

/-- `read_ns`. -/
def readNs (p : Bytes) : BitVec 16 :=
  let r := (intByte p 0 <<< 8).setWidth 16
  r + (intByte p 1).setWidth 16

/-! ### Reading a buffer -/

/-- What a walk of `ncmd_iscomplete` returns (`none`: it read outside the buffer) and where
its pointer has been. -/
structure Scan where
  ret : Option Int
  cursors : List Addr

/-- The four bytes at address `i`, if they lie in the buffer at `buf`. -/
def peek (buf : Addr) (mem : Bytes) (i : Addr) : Option Bytes :=
  if (i - buf).toNat + 4 ≤ mem.length then some (mem.drop (i - buf).toNat) else none

/-- The loop of `ncmd_iscomplete`, from pointer `i` with `argsleft` arguments to go. -/
def scanAt (buf : Addr) (mem : Bytes) : Nat → Addr → Scan
  | 0, i => ⟨some ((i - buf).setWidth 32).toInt, [i]⟩
  | argsleft + 1, i =>
      let len := BitVec.ofNat 64 mem.length
      if buf + len < i + 4 then ⟨some 0, [i]⟩
      else
        match peek buf mem i with
        | none => ⟨none, [i]⟩
        | some p =>
            if buf + len < i + readNl p + 4 then ⟨some 0, [i]⟩
            else
              let rest := scanAt buf mem argsleft (i + (readNl p + 4))
              ⟨rest.ret, i :: rest.cursors⟩

/-- `ncmd_iscomplete` on the bytes `mem` at address `buf`. -/
def iscompleteAt (buf : Addr) (mem : Bytes) : Scan :=
  if mem.length < 4 then ⟨some 0, []⟩
  else scanAt buf mem (readNs (mem.drop 2)).toNat (buf + 2 + 2)

/-- The value of an `int` that an integer is converted to. -/
def toCInt (i : Int) : Int := (BitVec.ofInt 32 i).toInt

/-- The loop of `ncmd_iscomplete` at offset `i` of the buffer. -/
def scan (mem : Bytes) : Nat → Int → Option Int
  | 0, i => if i < 0 then none else some (toCInt i)
  | argsleft + 1, i =>
      if i < 0 then none
      else if (mem.length : Int) < i + 4 then some 0
      else
        let l := (readNl (mem.drop i.toNat)).toInt
        if (mem.length : Int) < i + l + 4 then some 0
        else scan mem argsleft (i + (l + 4))

/-- `ncmd_iscomplete`: the size of the command at the front of the buffer, or 0. -/
def ncmdIscomplete (mem : Bytes) : Option Int :=
  if mem.length < 4 then some 0 else scan mem (readNs (mem.drop 2)).toNat 4

/-- `ncmd_get`. -/
def ncmdGet (buf : Bytes) : NCMDOp := NCMDOp.ofCode (readNs buf)

/-- `ncmd_getnumargs`. -/
def ncmdGetnumargs (buf : Bytes) : Nat := (readNs (buf.drop 2)).toNat

/-- The pointer walk of `ncmd_getarg`: past `currarg` arguments, from offset `i`. -/
def skipArgs (buf : Bytes) : Nat → Nat → Option Nat
  | 0, i => if i + 4 ≤ buf.length then some i else none
  | currarg + 1, i =>
      if i + 4 ≤ buf.length then skipArgs buf currarg (i + ((readNl (buf.drop i)).toNat + 4))
      else none

/-- `ncmd_getarg`: the return value, and the new target with its length. -/
def ncmdGetarg (buf : Bytes) (t : Arg) (argnum : Nat) (addzero : Bool) : Option (Int × Arg) :=
  if ncmdGetnumargs buf ≤ argnum then some (-1, t)
  else do
    let i ← skipArgs buf argnum 4
    let l := (readNl (buf.drop i)).toNat
    if buf.length < i + 4 + l then none
    else
      let b := (buf.drop (i + 4)).take l ++ (if addzero then [0] else [])
      match t.ap with
      | .null => some (0, .blk b)
      | .blk _ => if b = [] then some (-1, ⟨.freed, t.aplen⟩) else some (0, .blk b)
      | .freed => none

/--
The rest of `ncmd_remove` behind its call of `ncmd_iscomplete`, which returned
`cl`: the return value and the new buffer.  Moving memory from in front of the
buffer has no defined behaviour.
-/
def removeFront (cl : Option Int) (buf : Bytes) : Option (Int × Bytes) := do
  let cl ← cl
  if cl = 0 then some (-1, buf)
  else if cl < 0 then none
  else some (0, buf.drop cl.toNat)

/-- `ncmd_remove`. -/
def ncmdRemove (buf : Bytes) : Option (Int × Bytes) := removeFront (ncmdIscomplete buf) buf

/-! ### Building a command -/

/-- `ncmd_set`. -/
def ncmdSet (ncmd : NCMDOp) : Bytes := storeNs ncmd.code ++ storeNs 0

/-- `store_ns(*buf+2, read_ns(*buf+2)+1)`. -/
def bumpCount (buf : Bytes) : Bytes :=
  buf.take 2 ++ (storeNs (readNs (buf.drop 2) + 1) ++ buf.drop 4)

/-- `ncmd_add`; a `NULL` argument is added as an empty one. -/
def ncmdAdd (buf : Bytes) : Option Bytes → Bytes
  | none => bumpCount (buf ++ storeNl 0)
  | some s => bumpCount (buf ++ (storeNl (BitVec.ofNat 64 s.length) ++ s))

/-! ### Receiving -/

/-- `recvbuf` when `recv` returned the bytes `rbuf` and memory is there for them. -/
def recvbuf (buf rbuf : Bytes) : Bytes := buf ++ rbuf

/-- What the functions that read a command say about the one at the front of a buffer. -/
structure Read where
  op : NCMDOp
  numargs : Nat
  /-- `ncmd_getarg` with `addzero`, for each index, into a fresh pointer. -/
  arg : Nat → Option (Int × Arg)

/-- Reading the command at the front of the buffer. -/
def readCmd (buf : Bytes) : Read :=
  ⟨ncmdGet buf, ncmdGetnumargs buf, fun k => ncmdGetarg buf .null k true⟩

/--
The receive loop of `chatter_func`: while there is a complete command, read it and
remove it.  `fuel` bounds the number of rounds.
-/
def drainLoop : Nat → Bytes → Option (List Read × Bytes)
  | 0, _ => none
  | fuel + 1, buf => do
      let k ← ncmdIscomplete buf
      if k = 0 then some ([], buf)
      else
        let (_, buf') ← ncmdRemove buf
        let (log, rest) ← drainLoop fuel buf'
        some (readCmd buf :: log, rest)

/-- One `recvbuf` and the loop behind it; a command has four bytes at least. -/
def receive (buf rbuf : Bytes) : Option (List Read × Bytes) :=
  drainLoop ((recvbuf buf rbuf).length + 1) (recvbuf buf rbuf)

/-- Receiving chunk after chunk. -/
def receiveAll : List Bytes → Bytes → Option (List Read × Bytes)
  | [], buf => some ([], buf)
  | c :: cs, buf => do
      let (log, buf') ← receive buf c
      let (log', rest) ← receiveAll cs buf'
      some (log ++ log', rest)

end Smsg
