/-
`clchat.c`: from the characters that are typed to what is sent.

`chatter_func` takes one character from `wgetch`, and with it the names that are in `culist`
then.  What the character means depends on `backspace_char`, which a line can change, and
no more characters are taken after a line that sets `exitloop`.

In a `TypedChat` there are keyboards at the clients, and a line is there because its
characters have been typed.  Each client has the editor that `chatter_func` starts with.  As
in the chat, a line that makes no whole command is left out; so is a character at which an
`int` overflows, or memory is used wrongly.
-/
import Smsg.Chatroom
import Smsg.Editor

namespace Smsg

open Machines

/-! ### One keyboard -/

/-- A character that is typed, and the names that `culist` has then. -/
abbrev Typed := List CString × Int

/-- One character: the editor, and the line when it has been entered.  `ulen` is an `int`. -/
def typeChar (histlen : Nat) (ed : Editor) (backspaceChar : Int) (c : Typed) :
    Except EditFault (Editor × Option InputLine) := do
  let (ed, bufcopy) ← chatterKey histlen ed (keyOf backspaceChar c.1 c.2)
  match bufcopy with
  | none => .ok (ed, none)
  | some bufcopy =>
      if h : bufcopy.length < 2 ^ 31 then .ok (ed, some ⟨bufcopy, h⟩) else .error .overflow

/-- The variables for what is typed, and what has been sent for it. -/
structure Typing where
  ed : Editor
  vars : LineVars
  sent : List Bytes

namespace Typing

/-- `erase_key` of the options is the first `backspace_char`. -/
def start (eraseKey : Int) : Typing := ⟨.init, ⟨eraseKey, none, false⟩, []⟩

/-- One character, as long as the loop goes on. -/
def press (histlen : Nat) (ty : Typing) (c : Typed) : Except EditFault Typing :=
  if ty.vars.exitloop then .ok ty
  else do
    let (ed, line) ← typeChar histlen ty.ed ty.vars.backspaceChar c
    match line with
    | none => .ok { ty with ed := ed }
    | some line =>
        let (vars, sbuf) := chatterLine ty.vars line
        .ok ⟨ed, vars, ty.sent ++ sbuf.toList⟩

/-- One character after the other. -/
def pressAll (histlen : Nat) (ty : Typing) (cs : List Typed) : Except EditFault Typing :=
  cs.foldlM (press histlen) ty

end Typing

/-! ### A chat with keyboards -/

/-- The chat, and the editor of each client. -/
structure TypedChat where
  room : Chatroom
  ed : Slot → Editor

/-- What can happen: something of the chat, or a character is typed. -/
inductive TypedEvent
  | chat (e : ChatroomEvent)
  | key (i : Slot) (ch : Int)

namespace TypedChat

/-- The client in slot `i` has an editor in another state. -/
def setEd (y : TypedChat) (i : Slot) (ed : Editor) : TypedChat :=
  { y with ed := fun j => if j = i then ed else y.ed j }

/-- Something of the chat, but for lines; `chatter_func` starts with a new editor. -/
def chatStep (y : TypedChat) (e : ChatroomEvent) : Option (TypedChat × Option (Slot × NetCmd)) := do
  let (room, heard) ← y.room.step e
  match e with
  | .line _ _ => none
  | .answered i _ => some (({ y with room := room } : TypedChat).setEd i .init, heard)
  | _ => some ({ y with room := room }, heard)

/-- A character. -/
def keyStep (histlen : Nat) (y : TypedChat) (i : Slot) (ch : Int) :
    Option (TypedChat × Option (Slot × NetCmd)) :=
  match (y.room.peer i).member with
  | .inside _ v l =>
      if l.exitloop then none
      else
        match typeChar histlen (y.ed i) l.backspaceChar (v.culist, ch) with
        | .error _ => none
        | .ok (ed, none) => some (y.setEd i ed, none)
        | .ok (ed, some line) => do
            let (room, heard) ← y.room.step (.line i line)
            some (({ y with room := room } : TypedChat).setEd i ed, heard)
  | _ => none

def step (histlen : Nat) (y : TypedChat) : TypedEvent → Option (TypedChat × Option (Slot × NetCmd))
  | .chat e => y.chatStep e
  | .key i ch => y.keyStep histlen i ch

end TypedChat

/-- The chat with keyboards, for a `CMDLINE_HISTLEN`. -/
def typedChat (histlen : Nat) : Machine TypedChat TypedEvent (Option (Slot × NetCmd)) where
  init y := chatroom.init y.room
  step := TypedChat.step histlen

abbrev TypedStep := Step TypedChat TypedEvent (Option (Slot × NetCmd))

end Smsg
