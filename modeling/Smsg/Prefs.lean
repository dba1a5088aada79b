/-
Preferences as a total map.

An entry of the store has two parts.  The chat has its own (`UdataEnt.seat`); what is
left is the account of a user: the terminal, the beep and the mode that `SETPREF` sets
and `GETPREF` asks for, and the queue.

To a user the preferences are a total map.  Before anything is set they are
`Pref.unset`, and `Pref.set` is what a `SETPREF` means.  Whether the store has an entry
does not show.
-/
import Smsg.Server

namespace Smsg

/-! ### The map -/

/-- The preferences of a user. -/
structure Pref where
  tty : Bytes
  beep : Int8
  mode : Int8
deriving DecidableEq

/-- What counts for somebody who has set nothing. -/
def Pref.unset : Pref := ⟨text "none", -1, -1⟩

/-- An empty tty and the number -2 leave alone what was there. -/
def Pref.set (p : Pref) (tty : Bytes) (beep mode : Int8) : Pref where
  tty := if tty = [] then p.tty else tty
  beep := if beep = -2 then p.beep else beep
  mode := if mode = -2 then p.mode else mode

/-! ### The commands -/

/-- `SETPREF` with its four arguments. -/
def setprefCmd (user tty : CString) (beep mode : UInt8) : NetCmd :=
  ⟨.setpref, [user.chars, tty.chars, [beep], [mode]]⟩

/-- `GETPREF`. -/
def getprefCmd (user : CString) : NetCmd := ⟨.getpref, [user.chars]⟩

/-- `PREF` with some preferences. -/
def Pref.msg (p : Pref) : NetCmd := ⟨.pref, [p.tty, [p.beep.toUInt8], [p.mode.toUInt8]]⟩

/-! ### The store -/

/-- The part of an entry that is not about the chat. -/
structure Account where
  user : CString
  tty : CString
  beep : Int8
  mode : Int8
  queue : Ptr
deriving DecidableEq

def UdataEnt.account (e : UdataEnt) : Account := ⟨e.user, e.tty, e.beep, e.mode, e.queue⟩

def Account.pref (a : Account) : Pref := ⟨a.tty.chars, a.beep, a.mode⟩

/-- All accounts, in the order of the entries. -/
def Udata.accounts (u : Udata) : List Account := u.ents.map (·.account)

/-- The preferences of a user, with or without an entry. -/
def Udata.pref (u : Udata) (user : CString) : Pref :=
  match u.accounts.find? fun a => a.user == user with
  | none => .unset
  | some a => a.pref

/-- The entry of a user that the server has just heard of. -/
def newcomer (user : CString) : UdataEnt := ⟨user, ttysetUnset, -1, -1, .null, -1, none, 0⟩

/-- The same list, or one with an entry for a user that had none. -/
def Enrolled (u u' : Udata) : Prop :=
  u' = u ∨ ∃ user, u.udataGet (some user) = none ∧ u'.ents = u.ents ++ [newcomer user]

end Smsg
