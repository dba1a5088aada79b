/-
Memory, for the code whose use of it matters.

A pointer is the number of a block of the heap, or `NULL`.  A byte that has been allocated
and not been written is `none`.  What has no defined behaviour is an `EditFault`: a place
outside of a block, a block that is not live, a byte that was never written, and an `int`
that cannot hold a result, where that may be.
-/
import Smsg.Bytes
import Smsg.Lib.Block
import Smsg.Lib.Heap

namespace Smsg

open Heaps

/-- What can go wrong in a step. -/
inductive EditFault
  /-- An `int` cannot hold the result. -/
  | overflow
  /-- A place outside of a block. -/
  | outside
  /-- A pointer to no live block. -/
  | dead
  /-- `free` or `realloc` of a block that is not live. -/
  | badFree
  /-- A byte that was never written. -/
  | uninit
deriving DecidableEq

/-- `INT_MAX`. -/
def intMax : Nat := 2 ^ 31 - 1

abbrev Mem := Heap (Option UInt8)

/-! ### Blocks -/

/-- Changing the block behind a pointer; `f` is `none` where it would leave the block. -/
def memWrite (h : Mem) (p : Option Nat)
    (f : List (Option UInt8) → Option (List (Option UInt8))) : Except EditFault Mem :=
  match p with
  | none => .error .dead
  | some p =>
      match h.get p with
      | none => .error .dead
      | some b =>
          match f b with
          | none => .error .outside
          | some b => .ok (h.put p b)

/-- `memmove` inside of a block. -/
def memmove (h : Mem) (p : Option Nat) (dst src count : Nat) : Except EditFault Mem :=
  memWrite h p fun b => Blocks.move b dst src count

/-- `memcpy` of `data` to a place in a block. -/
def memcpy (h : Mem) (p : Option Nat) (dst : Nat) (data : Bytes) : Except EditFault Mem :=
  memWrite h p fun b => Blocks.copyIn b dst (data.map some)

/-- The first `n` bytes of a block. -/
def memRead (h : Mem) (p : Option Nat) (n : Nat) : Except EditFault (List (Option UInt8)) :=
  match p.bind h.get with
  | none => .error .dead
  | some b => if n ≤ b.length then .ok (b.take n) else .error .outside

/-- The bytes, when all of them have been written. -/
def settled : List (Option UInt8) → Option Bytes
  | [] => some []
  | none :: _ => none
  | some c :: b => (settled b).map (c :: ·)

/-- Reading bytes in order to look at them. -/
def readText (h : Mem) (p : Option Nat) (n : Nat) : Except EditFault Bytes := do
  let b ← memRead h p n
  match settled b with
  | some t => .ok t
  | none => .error .uninit

/-- `malloc`: nothing is in the block. -/
def cMalloc (h : Mem) (n : Nat) : Mem × Option Nat :=
  let (h, p) := h.malloc (List.replicate n none)
  (h, some p)

/-- `free`. -/
def cFree (h : Mem) : Option Nat → Except EditFault Mem
  | none => .ok h
  | some p =>
      match h.free p with
      | some h => .ok h
      | none => .error .badFree

/-- `realloc` to a size that is not zero. -/
def cRealloc (h : Mem) (p : Option Nat) (n : Nat) : Except EditFault (Mem × Option Nat) :=
  match p with
  | none => .ok (cMalloc h n)
  | some p =>
      match h.realloc p n none with
      | some (h, p) => .ok (h, some p)
      | none => .error .badFree

end Smsg
