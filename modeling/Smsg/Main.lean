/-
`smsg.c`: standard input, the destination and the nick, and the message that is sent.

`char` is signed, so that the character 255 and `EOF` are the same `char`.  Standard input
is the bytes until its end, where `getchar` returns `EOF` as often as it is called.  Each
request for memory is answered by a `Malloc`.

`get_stdin` works on a block of the heap.  `main` writes the user of a destination to a
block that it sizes itself; what it writes behind that block is kept, as `Written` has it.
The nick is filtered in the block that `strdup` made for it, and no byte outside of that
block may be touched.
-/
import Smsg.Malloc
import Smsg.Memory

namespace Smsg

open Heaps Blocks

/-! ### Requests for memory -/

/-- `malloc`. -/
def Malloc.cMalloc (m : Malloc) (h : Mem) (n : Nat) : Mem × Option Nat :=
  if m.grants n then Smsg.cMalloc h n else (h, none)

/-- `realloc` of a live block; to a size of zero it frees it and returns `NULL`. -/
def Malloc.cRealloc (m : Malloc) (h : Mem) (p : Option Nat) (n : Nat) :
    Except EditFault (Mem × Option Nat) :=
  if n = 0 then (cFree h p).map (·, none)
  else if m.grants n then Smsg.cRealloc h p n
  else .ok (h, none)

/-! ### `get_stdin` -/

/-- `MSG_MAX_LEN`. -/
def msgMaxLen : Nat := 16768

/-- `(char)EOF`. -/
def eofChar : UInt8 := 255

/--
The loop of `get_stdin`: `p` is the offset of the pointer in the block and `n` the count.
It stops behind a character that is `EOF`, or that was read when `n` had come to the limit.
-/
def stdinLoop (h : Mem) (rdata : Option Nat) (p n : Nat) : Bytes → Except EditFault (Mem × Nat × Nat)
  | [] => do
      let h ← memcpy h rdata p [eofChar]
      .ok (h, p + 1, n)
  | c :: input => do
      let h ← memcpy h rdata p [c]
      if c ≠ eofChar ∧ n < msgMaxLen - 1 then stdinLoop h rdata (p + 1) (n + 1) input
      else .ok (h, p + 1, n)

/-- `get_stdin`: the return value, and `*rdata`. -/
def getStdin (m : Malloc) (h : Mem) (input : Bytes) : Except EditFault (Int × Mem × Option Nat) :=
  match m.cMalloc h msgMaxLen with
  | (h, none) => .ok (1, h, none)
  | (h, rdata) => do
      let (h, p, n) ← stdinLoop h rdata 0 0 input
      let h ← memcpy h rdata (p - 1) [0]
      let (h, rdata) ← m.cRealloc h rdata n
      .ok (0, h, rdata)

/-! ### `-d` -/

/-- What `main` knows of the destination. -/
structure Dest where
  targethost : CString
  /-- `NULL`, or the block, and what was written behind it. -/
  targetuser : Option (Written (Option UInt8))

/-- The block of `targetuser`, with `len` characters of the argument in front of the `@`. -/
def userBlock (optarg : Bytes) (len : Nat) : Written (Option UInt8) :=
  let targetuser := Written.clean (List.replicate (len + 1) none)
  let targetuser := targetuser.write 0 ((optarg.take len).map some)
  targetuser.write (len + 1) [some 0]

/-- The string that starts `len` characters into another one. -/
def CString.behind (s : CString) (len : Nat) : CString :=
  ⟨s.chars.drop len, fun h => s.nulFree (List.mem_of_mem_drop h)⟩

/-- The option `-d`; `none` where `main` exits because it gets no memory. -/
def mainDest (m : Malloc) (optarg : CString) : Option Dest :=
  match optarg.chars.idxOf? 64 with
  | none => if m.grants (optarg.chars.length + 1) then some ⟨optarg, none⟩ else none
  | some len =>
      let host := optarg.behind (len + 1)
      if m.grants (host.chars.length + 1) = false then none
      else if m.grants (len + 1) = false then none
      else some ⟨host, some (userBlock optarg.chars len)⟩

/-! ### The nick -/

/-- `*p < 33 || *p > 126`; the characters from 128 on are negative. -/
def illegal (c : UInt8) : Bool := decide (c.toInt8 < 33) || decide (126 < c.toInt8)

/-- `strlen`, from an offset of a block; `none` when there is no NUL in the block. -/
def strlenAt (b : Bytes) (p : Nat) : Option Nat := (b.drop p).idxOf? 0

/--
The loop that takes illegal characters out of the nick, from the offset `p` on; `none` as
soon as a byte outside of the block is touched.
-/
def filterNick (nick : Bytes) (p : Nat) : Option Bytes :=
  match hc : nick[p]? with
  | none => none
  | some c =>
      if c = 0 then some nick
      else if illegal c then
        match strlenAt nick p with
        | none => none
        | some len =>
            match h : Blocks.move nick p (p + 1) (len + 1) with
            | none => none
            | some nick' => filterNick nick' (p + 1)
      else filterNick nick (p + 1)
termination_by nick.length - p
decreasing_by
  · have hp := (List.getElem?_eq_some_iff.mp hc).1
    rw [Blocks.length_move h]
    omega
  · have hp := (List.getElem?_eq_some_iff.mp hc).1
    omega

/-! ### `sendmessage` -/

/-- `strlen`, with the bytes it counts. -/
def strText : List (Option UInt8) → Except EditFault Bytes
  | [] => .error .outside
  | none :: _ => .error .uninit
  | some c :: b => if c = 0 then .ok [] else (strText b).map (c :: ·)

/-- `strlen` of a pointer that may be `NULL`. -/
def ptrText : Option (List (Option UInt8)) → Except EditFault Bytes
  | none => .error .dead
  | some b => strText b

/-- The command that `sendmessage` builds; a target user that is `NULL` becomes an empty one. -/
def sendmessageCmd (pwName : CString) (targetuser msgdata : Option (List (Option UInt8))) :
    Except EditFault NetCmd := do
  let user ← match targetuser with
    | none => .ok []
    | some b => strText b
  let msg ← ptrText msgdata
  .ok ((((NetCmd.set .msg).add pwName.chars).add user).add msg)

end Smsg
