/-
Bytes, C strings and pointers into the heap.

A C string is kept without its terminating NUL, and the type carries the fact
that no other NUL is in it, so that comparing two of them is `strcmp`.  What
`malloc` returned is a `Ptr`: `NULL`, a live block with its bytes, or a block that
`realloc` has freed and that the caller still points to.
-/
import Mathlib.Data.List.Basic
import Mathlib.Data.List.TakeWhile
import Mathlib.Tactic

namespace Smsg

abbrev Bytes := List UInt8

/-- A C string, without its terminating NUL. -/
structure CString where
  chars : Bytes
  nulFree : (0 : UInt8) ∉ chars
deriving DecidableEq

namespace CString

theorem ext {s t : CString} (h : s.chars = t.chars) : s = t := by
  cases s; cases t; simp_all

/-- The empty string. -/
def empty : CString := ⟨[], by simp⟩

instance : Inhabited CString := ⟨empty⟩

end CString

/-- The bytes of a text that stands in the source. -/
def text (s : String) : Bytes := s.toList.map fun c => UInt8.ofNat c.toNat

/-- White space. -/
def isspace (c : UInt8) : Bool := c == 32 || (9 ≤ c && c ≤ 13)

/-- The C string that starts at the first byte of `b`. -/
def cstr (b : Bytes) : CString :=
  ⟨b.takeWhile (· != 0), fun h => by simpa using List.mem_takeWhile_imp h⟩

theorem takeWhile_append_nul {b : Bytes} (h : (0 : UInt8) ∉ b) (rest : Bytes) :
    (b ++ 0 :: rest).takeWhile (· != 0) = b := by
  induction b with
  | nil => simp
  | cons x b ih =>
      have hx : x ≠ 0 := fun hc => h (by simp [hc])
      have hb : (0 : UInt8) ∉ b := fun hc => h (by simp [hc])
      simp [hx, ih hb]

/-- Reading a stored string back. -/
@[simp] theorem cstr_terminated (s : CString) (rest : Bytes) : cstr (s.chars ++ 0 :: rest) = s :=
  CString.ext (takeWhile_append_nul s.nulFree rest)

/-- `xstrlen` with the bytes it counts: `NULL` counts as the empty string. -/
def xstr : Option CString → Bytes
  | none => []
  | some s => s.chars

@[simp] theorem xstr_some (s : CString) : xstr (some s) = s.chars := rfl

/-- What a `char *` of the program points to. -/
inductive Ptr
  | null
  | blk (b : Bytes)
  | freed
deriving DecidableEq

namespace Ptr

/-- The string behind a pointer; a `NULL` or freed pointer is none. -/
def str : Ptr → Option CString
  | blk b => some (cstr b)
  | _ => none

/-- The bytes of the block, `NULL` counting as an empty one. -/
def bytes : Ptr → Bytes
  | blk b => b
  | _ => []

@[simp] theorem str_null : null.str = none := rfl
@[simp] theorem str_blk (b : Bytes) : (blk b).str = some (cstr b) := rfl
@[simp] theorem bytes_blk (b : Bytes) : (blk b).bytes = b := rfl

end Ptr

/-- A `char *` that an argument is fetched into, with the variable for its length. -/
structure Arg where
  ap : Ptr
  aplen : Nat
deriving DecidableEq

namespace Arg

/-- A fresh one: `NULL` and 0. -/
def null : Arg := ⟨.null, 0⟩

/-- One that holds the block `b`. -/
def blk (b : Bytes) : Arg := ⟨.blk b, b.length⟩

/-- The string behind the pointer. -/
def str (a : Arg) : Option CString := a.ap.str

/-- The first `aplen` bytes behind the pointer. -/
def bytes (a : Arg) : Bytes := a.ap.bytes.take a.aplen

@[simp] theorem str_null : null.str = none := rfl
@[simp] theorem str_blk (b : Bytes) : (blk b).str = some (cstr b) := rfl
@[simp] theorem bytes_blk (b : Bytes) : (blk b).bytes = b := by simp [bytes, blk]
end Arg

end Smsg
