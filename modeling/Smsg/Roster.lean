/-
The roster: who is in the room, under which nick.

A room says more than who is in it.  `Room.roster` forgets the rest, and `onRoster`
says what an act does to what is left: a join puts a name on it, those who leave or
are thrown out are taken off, and a new nick takes the place of the old one.

Somebody in chat can keep a roster of nicks from what it is told.  `Nicks.update` is
how: it is not translated from the client, which asks for a new list instead.
-/
import Smsg.Room
import Smsg.Server
import Mathlib.Data.Finset.Dedup
import Mathlib.Data.Finset.Insert

namespace Smsg

/-! ### The roster of a room -/

/-- Users in the room with their nicks; a nick may be missing. -/
abbrev Roster (User Nick : Type*) := User → Option (Option Nick)

/-- Who is in the room. -/
def Room.roster {User Nick : Type*} (r : Room User Nick) : Roster User Nick :=
  fun v => ((r v).filter fun s => s.has udcFlagPresent).map (·.nick)

/-- What an act does to the roster. -/
def Act.onRoster {User Nick : Type*} [DecidableEq User] (act : Act User Nick)
    (names : Roster User Nick) : Roster User Nick :=
  match act with
  | .join user nick => Function.update names user (some nick)
  | .leave user | .kick user | .ban user => Function.update names user none
  | .rename user nick => Function.update names user (some (some nick))
  | _ => names

/-! ### A roster kept by somebody in chat -/

/-- The message tells that somebody has come or gone. -/
def NetCmd.isMembership (m : NetCmd) : Bool :=
  m.op == .cDoor || ((m.op == .cKick || m.op == .cBan) && m.args.length == 2)

/-- The nicks of those in chat; two users may have one nick. -/
abbrev Nicks := Multiset Bytes

/-- A message that tells of those who come and go, or of a new nick, changes the roster. -/
def Nicks.update (names : Nicks) (m : NetCmd) : Nicks :=
  match m.op, m.args with
  | .cDoor, dir :: nick :: _ => if dir = [0] then names.erase nick else nick ::ₘ names
  | .cKick, [nick, _] => names.erase nick
  | .cBan, [nick, _] => names.erase nick
  | .cNick, [new, old] => if old ∈ names then new ::ₘ names.erase old else names
  | _, _ => names

/-- The message tells that somebody with this nick has gone. -/
def NetCmd.TellsLeft (m : NetCmd) (nick : Bytes) : Prop :=
  (m.op = .cDoor ∧ ∃ more, m.args = [0] :: nick :: more) ∨
    ((m.op = .cKick ∨ m.op = .cBan) ∧ ∃ oper, m.args = [nick, oper])

/-- The message says nothing about a roster. -/
structure NetCmd.Plain (m : NetCmd) : Prop where
  membership : m.isMembership = false
  update : ∀ names : Nicks, names.update m = names

/-- Those who are in chat. -/
def Udata.present (u : Udata) : Finset CString :=
  ((u.ents.filter fun e => e.has udcFlagPresent).map (·.user)).toFinset

/-- The nicks of those who are in chat. -/
def Udata.nicks (u : Udata) : Nicks :=
  Multiset.ofList ((u.ents.filter fun e => e.has udcFlagPresent).map fun e => xstr e.nick)

/-- The message tells how those who were in chat have become those who are. -/
inductive TellsOf (u u' : Udata) (m : NetCmd) : Prop
  | entered {user : CString} (hout : user ∉ u.present) (hin : u'.present = insert user u.present)
      (hm : m = doorMsg 1 (u'.nickOf user))
  | left {user : CString} (hin : user ∈ u.present) (hout : u'.present = u.present.erase user)
      (hm : m.TellsLeft (xstr (u.nickOf user)))

/-- A change is told once to everybody in chat before and after, and nothing is told without. -/
structure Told (u u' : Udata) (out : List Effect) : Prop where
  change : u'.present ≠ u.present → ∃ m, TellsOf u u' m ∧
    ∀ e ∈ u.ents, e.has udcFlagPresent → e.user ∈ u'.present →
      (sentTo e.fd out).filter (·.isMembership) = [m]
  silent : u'.present = u.present → ∀ fd m, .send fd m ∈ out → m.isMembership = false

end Smsg
