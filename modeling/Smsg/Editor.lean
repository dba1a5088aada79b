/-
`clchat.c`: the input line of `chatter_func`, and its history.

`iqueue` is an array of pairs of buffers: `[i][0]` is the line that was entered `i` lines
ago, and `[i][1]` what it was before it was recalled.  A buffer is a pointer, what is
thought to be allocated for it and what is used of that.  A byte that has been allocated
and not been written is `none`.

An `int` is a number up to `INT_MAX`; where a sum may be larger, the step is an `EditFault`.
The other faults are uses of memory without defined behaviour.  Memory is always there,
and a block of no bytes is a block.  What only draws is left out, apart from that the
window shows what is read from the buffer.
-/
import Smsg.Cmdline
import Smsg.Memory

namespace Smsg

open Heaps

/-- `struct ibuf_s`. -/
structure Ibuf where
  ibuf : Option Nat
  ttlen : Nat
  ulen : Nat
deriving DecidableEq

/-! ### Keys -/

/-- What a character from `wgetch` means to `chatter_func`. -/
inductive Key
  | data (cch : UInt8)
  /-- The tabulator, with the names that `culist` has then. -/
  | tab (culist : List CString)
  | keyHome | keyEnd | keyLeft | keyRight | keyDc | keyBackspace | ctrlU | keyIc
  | keyUp | keyDown | keyEnter
  /-- `KEY_RESIZE`, `KEY_PPAGE` and `KEY_NPAGE`, which leave the line alone. -/
  | other
deriving DecidableEq

/-- The `char` that is put into the line for a character. -/
def dataChar (ch : Int) : UInt8 :=
  let cch := UInt8.ofBitVec (BitVec.ofInt 8 ch)
  if 13 < cch ∧ cch < 31 ∧ cch ≠ 15 ∧ cch ≠ 22 then (cch &&& 127) ||| 64 else cch

/-- The switch over a character; the numbers are those of `curses.h`. -/
def keyOf (backspaceChar : Int) (culist : List CString) (ch : Int) : Key :=
  let ch := if ch = backspaceChar then 8 else ch
  if ch = 9 then .tab culist
  else if ch = 0o406 then .keyHome
  else if ch = 0o550 then .keyEnd
  else if ch = 0o404 then .keyLeft
  else if ch = 0o405 then .keyRight
  else if ch = 0o512 then .keyDc
  else if ch = 0o407 ∨ ch = 8 then .keyBackspace
  else if ch = 21 then .ctrlU
  else if ch = 0o513 ∨ ch = 0o514 then .keyIc
  else if ch = 0o403 then .keyUp
  else if ch = 0o402 then .keyDown
  else if ch = 0o632 ∨ ch = 0o523 ∨ ch = 0o522 then .other
  else if ch = 10 ∨ ch = 13 ∨ ch = 0o527 then .keyEnter
  else .data (dataChar ch)

/-! ### Editing -/

/-- The buffer that is edited, and where. -/
structure Editing where
  heap : Mem
  bs : Ibuf
  ipos : Nat
  insertmode : Bool

/-- `LCC_BUF_ADD_LEN`. -/
def lccBufAddLen : Nat := 100

/-- `LCC_BUF_ENLARGE_ZONE`. -/
def lccBufEnlargeZone : Nat := 10

/-- Before a character is read: some room is made sure of. -/
def makeRoom (h : Mem) (bs : Ibuf) : Except EditFault (Mem × Ibuf) :=
  match bs.ibuf with
  | none =>
      let (h, p) := cMalloc h lccBufAddLen
      .ok (h, ⟨p, lccBufAddLen, 0⟩)
  | some p =>
      if bs.ttlen ≤ bs.ulen + lccBufEnlargeZone then
        if intMax < bs.ttlen + lccBufAddLen then .error .overflow
        else do
          let (h, p) ← cRealloc h (some p) (bs.ttlen + lccBufAddLen)
          .ok (h, { bs with ibuf := p, ttlen := bs.ttlen + lccBufAddLen })
      else .ok (h, bs)

/-- The new length of the line in `lcc_input_edit_wizard`. -/
def wizardNewlen (e : Editing) (datalen : Nat) : Nat :=
  max e.bs.ulen (if e.insertmode then e.bs.ulen + datalen else e.ipos + datalen)

/-- The buffer is enlarged when the new length does not fit. -/
def wizardEnlarge (h : Mem) (bs : Ibuf) (newlen : Nat) : Except EditFault (Mem × Ibuf) :=
  if bs.ttlen < newlen then do
    let (h, p) ← cRealloc h bs.ibuf newlen
    .ok (h, { bs with ibuf := p, ttlen := newlen })
  else .ok (h, bs)

/-- Inserting in front of the end: what is behind the cursor is moved. -/
def wizardMove (e : Editing) (h : Mem) (bs : Ibuf) (datalen : Nat) : Except EditFault Mem :=
  if e.insertmode ∧ e.ipos < bs.ulen then
    memmove h bs.ibuf (e.ipos + datalen) e.ipos (bs.ulen - e.ipos)
  else .ok h

/-- `lcc_input_edit_wizard`; in both modes it computes `ulen + datalen`. -/
def lccInputEditWizard (e : Editing) (data : Bytes) : Except EditFault Editing :=
  if intMax < e.bs.ulen + data.length then .error .overflow
  else do
    let newlen := wizardNewlen e data.length
    let (h, bs) ← wizardEnlarge e.heap e.bs newlen
    let h ← wizardMove e h bs data.length
    let h ← memcpy h bs.ibuf e.ipos data
    .ok { e with heap := h, bs := { bs with ulen := newlen }, ipos := e.ipos + data.length }

/-- What is behind the character at `ibuf_pos` is moved over it, with a byte behind the text. -/
def deleteMove (e : Editing) : Except EditFault Mem :=
  if e.ipos < e.bs.ulen - 1 then
    memmove e.heap e.bs.ibuf e.ipos (e.ipos + 1) (e.bs.ulen - e.ipos)
  else .ok e.heap

/-- What `KEY_DC` and `KEY_BACKSPACE` have in common: the character at `ibuf_pos` is taken out. -/
def deleteHere (e : Editing) : Except EditFault Editing := do
  let h ← deleteMove e
  .ok { e with heap := h, bs := { e.bs with ulen := e.bs.ulen - 1 } }

/-! ### Completion -/

/-- `strchr(LCC_TOKEN_DELIM, c)` finds something; it finds the terminating NUL, too. -/
def endsToken (c : UInt8) : Bool := c == 0 || isDelim c

/-- The loop that moves `cts` back to the start of the token, from the index `n` on. -/
def tokenStart (buf : Bytes) : Nat → Nat
  | 0 => 0
  | n + 1 => if endsToken (buf.getD n 0) then n + 1 else tokenStart buf n

/-- What a search for names that start with a token comes to. -/
inductive Matches
  | nothing
  | one (name : Bytes)
  | many

/-- The search; `cusi` is the first match. -/
def findMatch (cts : Bytes) : Option Bytes → List Bytes → Matches
  | none, [] => .nothing
  | some t, [] => .one t
  | cusi, t :: names =>
      if strncaseeq cts t cts.length then
        match cusi with
        | none => findMatch cts (some t) names
        | some _ => .many
      else findMatch cts cusi names

/-- Names that start with `!!` or `N_` are not considered. -/
def hiddenName (t : Bytes) : Bool :=
  decide (2 ≤ t.length) && ((t.getD 0 0 == 33 && t.getD 1 0 == 33) || (t.getD 0 0 == 78 && t.getD 1 0 == 95))

/-- The names of the commands, in the order of `ncmd_getname`. -/
def commandNames : List Bytes := (ncmds.map fun e => text e.1).filter fun t => !hiddenName t

/-- The token in front of the cursor that is to be completed, and the names for it. -/
def tabToken (buf : Bytes) (culist : List CString) : Bytes × List Bytes :=
  let start := tokenStart buf buf.length
  let cts := buf.drop start
  if cts.head? = some 47 ∧ start = 0 then (cts.drop 1, commandNames)
  else (cts, culist.map (·.chars))

/-- What the tabulator inserts: the rest of the only match, and a space. -/
def tabData (buf : Bytes) (culist : List CString) : Option Bytes :=
  let (cts, names) := tabToken buf culist
  match findMatch cts none names with
  | .one cw => some ((cw ++ [32]).drop cts.length)
  | _ => none

/-- The tabulator. -/
def tabKey (e : Editing) (culist : List CString) : Except EditFault Editing := do
  let buf ← readText e.heap e.bs.ibuf e.ipos
  match tabData buf culist with
  | some data => lccInputEditWizard e data
  | none => .ok e

/-! ### The keys that edit -/

/-- A key that stays on its line. -/
def editKey (e : Editing) : Key → Except EditFault Editing
  | .data cch => lccInputEditWizard e [cch]
  | .tab culist => tabKey e culist
  | .keyHome => .ok { e with ipos := 0 }
  | .keyEnd => .ok { e with ipos := max e.ipos e.bs.ulen }
  | .keyLeft => .ok { e with ipos := e.ipos - 1 }
  | .keyRight => .ok { e with ipos := if e.ipos < e.bs.ulen then e.ipos + 1 else e.ipos }
  | .keyDc => if e.ipos < e.bs.ulen then deleteHere e else .ok e
  | .keyBackspace => if 0 < e.ipos then deleteHere { e with ipos := e.ipos - 1 } else .ok e
  | .ctrlU => .ok { e with bs := { e.bs with ulen := 0 }, ipos := 0 }
  | .keyIc => .ok { e with insertmode := !e.insertmode }
  | _ => .ok e

section

variable (e : Editing)

theorem editKey_data (cch : UInt8) : editKey e (.data cch) = lccInputEditWizard e [cch] := rfl

theorem editKey_tab (culist : List CString) : editKey e (.tab culist) = tabKey e culist := rfl

theorem editKey_keyDc :
    editKey e .keyDc = if e.ipos < e.bs.ulen then deleteHere e else .ok e := rfl

theorem editKey_keyBackspace : editKey e .keyBackspace
    = if 0 < e.ipos then deleteHere { e with ipos := e.ipos - 1 } else .ok e := rfl

theorem editKey_other : editKey e .other = .ok e := rfl

end

/-! ### History -/

/-- The number of a buffer in `iqueue`. -/
abbrev Cell := Nat × Fin 2

instance twoColumns : NeZero 2 := ⟨by decide⟩

/-- The variables of `chatter_func` for the input line. -/
structure Editor where
  heap : Mem
  iqueue : Cell → Ibuf
  ibqi : Nat
  ibufPos : Nat
  insertmode : Bool

/-- Before the first key. -/
def Editor.init : Editor := ⟨.empty, fun _ => ⟨none, 0, 0⟩, 0, 0, true⟩

/-- `UGLY_CURSOR_MOVEMENT_GOTO`: the first time, the line is copied. -/
def cursorMovement (st : Editor) : Except EditFault Editor := do
  let bs := st.iqueue (st.ibqi, 0)
  let shown ← memRead st.heap bs.ibuf bs.ulen
  if st.ibqi ≠ 0 ∧ (st.iqueue (st.ibqi, 1)).ibuf = none then
    let (h, p) := st.heap.malloc shown
    .ok { st with
      heap := h
      iqueue := Function.update st.iqueue (st.ibqi, 1) { bs with ibuf := some p }
      ibufPos := bs.ulen }
  else .ok { st with ibufPos := bs.ulen }

/-- `iqueue[ibqi+1][0]` is there to go to. -/
def hasOlder (histlen : Nat) (st : Editor) : Prop :=
  st.ibqi < histlen - 1 ∧ (st.iqueue (st.ibqi + 1, 0)).ibuf ≠ none

instance (histlen : Nat) (st : Editor) : Decidable (hasOlder histlen st) :=
  inferInstanceAs (Decidable (_ ∧ _))

/-- `KEY_UP`. -/
def keyUp (histlen : Nat) (st : Editor) : Except EditFault Editor :=
  if hasOlder histlen st then cursorMovement { st with ibqi := st.ibqi + 1 } else .ok st

/-- `KEY_DOWN`. -/
def keyDown (st : Editor) : Except EditFault Editor :=
  if 0 < st.ibqi then cursorMovement { st with ibqi := st.ibqi - 1 } else .ok st

/-- The entered line becomes the newest one, and what it was before takes its place. -/
def takeEntered (st : Editor) : Except EditFault Editor :=
  if st.ibqi ≠ 0 then do
    let h ← cFree st.heap (st.iqueue (0, 0)).ibuf
    let q := Function.update st.iqueue (0, 0) (st.iqueue (st.ibqi, 0))
    let q := Function.update q (st.ibqi, 0) (q (st.ibqi, 1))
    let q := Function.update q (st.ibqi, 1) { q (st.ibqi, 1) with ibuf := none }
    .ok { st with heap := h, iqueue := q }
  else .ok st

/-- The copy of the next line is freed, if there is one of line `ibqi`. -/
def cleanCopy (ibqi i : Nat) (h : Mem) (q : Cell → Ibuf) : Except EditFault (Mem × (Cell → Ibuf)) :=
  if (q (ibqi, 1)).ibuf ≠ none then do
    let h ← cFree h (q (i, 1)).ibuf
    .ok (h, Function.update q (i, 1) { q (i, 1) with ibuf := none })
  else .ok (h, q)

/-- The loop that shifts the lines, with `i + 1` as its variable. -/
def shiftLoop (ibqi : Nat) : Nat → Mem → (Cell → Ibuf) → Except EditFault (Mem × (Cell → Ibuf))
  | 0, h, q => .ok (h, q)
  | i + 1, h, q => do
      let (h, q) ← cleanCopy ibqi i h q
      shiftLoop ibqi i h (Function.update q (i + 1, 0) (q (i, 0)))

/-- The oldest line is freed with its copy, and the others become one older. -/
def dropOldest (histlen : Nat) (st : Editor) : Except EditFault Editor := do
  let h ← cFree st.heap (st.iqueue (histlen - 1, 0)).ibuf
  let h ← cFree h (st.iqueue (histlen - 1, 1)).ibuf
  let (h, q) ← shiftLoop st.ibqi (histlen - 1) h st.iqueue
  .ok { st with
    heap := h
    iqueue := Function.update q (0, 0) { q (0, 0) with ibuf := none }
    ibqi := 0
    ibufPos := 0 }

/-- What is done to the history once a line has been entered and parsed. -/
def shiftHistory (histlen : Nat) (st : Editor) : Except EditFault Editor := do
  let st ← takeEntered st
  dropOldest histlen st

/-- What the line that the cursor is in has in it: this is what the window shows. -/
def shownLine (st : Editor) : Except EditFault Bytes :=
  readText st.heap (st.iqueue (st.ibqi, 0)).ibuf (st.iqueue (st.ibqi, 0)).ulen

/-- A key that stays on its line. -/
def stayOnLine (st : Editor) (key : Key) : Except EditFault Editor := do
  let e ← editKey ⟨st.heap, st.iqueue (st.ibqi, 0), st.ibufPos, st.insertmode⟩ key
  .ok { st with
    heap := e.heap
    iqueue := Function.update st.iqueue (st.ibqi, 0) e.bs
    ibufPos := e.ipos
    insertmode := e.insertmode }

/-- Enter: the line is copied and parsed, and goes into the history. -/
def keyEnter (histlen : Nat) (st : Editor) : Except EditFault (Editor × Option Bytes) := do
  let bufcopy ← shownLine st
  let st ← shiftHistory histlen st
  .ok (st, some bufcopy)

/-- The switch: the new state, and the line when it has been entered. -/
def switchKey (histlen : Nat) (st : Editor) : Key → Except EditFault (Editor × Option Bytes)
  | .keyUp => (keyUp histlen st).map (·, none)
  | .keyDown => (keyDown st).map (·, none)
  | .keyEnter => keyEnter histlen st
  | key => (stayOnLine st key).map (·, none)

/-- One key. -/
def chatterKey (histlen : Nat) (st : Editor) (key : Key) : Except EditFault (Editor × Option Bytes) := do
  let (h, bs) ← makeRoom st.heap (st.iqueue (st.ibqi, 0))
  switchKey histlen { st with heap := h, iqueue := Function.update st.iqueue (st.ibqi, 0) bs } key

/-! ### Runs -/

/-- The editor, and the lines that have been entered, the last one first. -/
structure Session where
  ed : Editor
  entered : List Bytes

/-- One key. -/
def Session.press (histlen : Nat) (s : Session) (key : Key) : Except EditFault Session := do
  let (ed, line) ← chatterKey histlen s.ed key
  .ok ⟨ed, line.toList ++ s.entered⟩

/-- One key after the other. -/
def Session.pressAll (histlen : Nat) (s : Session) (keys : List Key) : Except EditFault Session :=
  keys.foldlM (Session.press histlen) s

/-- Before the first key. -/
def Session.start : Session := ⟨.init, []⟩

end Smsg
