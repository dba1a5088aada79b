/-
The chat as a room.

What is said here is what the chat part of the store is for, without lists,
commands or memory.  A room gives each known user a seat: the connection it was
taken on, a nick, and flags.  Users are enrolled when the server first hears of
them, take a seat by joining and give it up by leaving, by being kicked or by being
banned; those that sit may change their nick, step away, and act on each other as
operators.

`Act` lists what can be done, `permits` says when, `apply` says what it does.
-/
import Smsg.Lib.Machine
import Smsg.Udata

namespace Smsg

open Machines

/-- A seat: the connection, the nick and the flags of a user. -/
structure Seat (Nick : Type*) where
  fd : Int
  nick : Option Nick
  flags : Flags

/-- A room: the seats of the users that are known. -/
abbrev Room (User Nick : Type*) := User → Option (Seat Nick)

namespace Seat

variable {Nick : Type*}

/-- `flags & f`. -/
def has (s : Seat Nick) (f : Flags) : Bool := s.flags &&& f != 0

/-- The user is in the room. -/
def present (s : Seat Nick) : Prop := s.has udcFlagPresent = true

instance (s : Seat Nick) : Decidable s.present := inferInstanceAs (Decidable (_ = _))

/-- The same seat with other flags. -/
def mapFlags (s : Seat Nick) (f : Flags → Flags) : Seat Nick := { s with flags := f s.flags }

@[simp] theorem mapFlags_fd (s : Seat Nick) (f : Flags → Flags) : (s.mapFlags f).fd = s.fd := rfl
@[simp] theorem mapFlags_nick (s : Seat Nick) (f : Flags → Flags) :
    (s.mapFlags f).nick = s.nick := rfl
@[simp] theorem mapFlags_flags (s : Seat Nick) (f : Flags → Flags) :
    (s.mapFlags f).flags = f s.flags := rfl

/-- What is known of a user that has never been in the room. -/
def unused : Seat Nick := ⟨-1, none, 0⟩

theorem not_present_unused : ¬ (unused : Seat Nick).present := by
  simp [present, has, unused]

end Seat

/-- What can be done in a room. -/
inductive Act (User Nick : Type*)
  | idle
  | enrol (user : User)
  | join (user : User) (nick : Option Nick)
  | leave (user : User)
  | rename (user : User) (nick : Nick)
  | away (user : User)
  | oper (user : User)
  | op (user : User)
  | deop (user : User)
  | unban (user : User)
  | kick (user : User)
  | ban (user : User)

/-- Setting flags, and clearing them. -/
def setFlags (f : Flags) (flags : Flags) : Flags := flags ||| f
def clearFlags (f : Flags) (flags : Flags) : Flags := flags &&& ~~~f

/-- Away on, or off again. -/
def toggleAway (flags : Flags) : Flags :=
  if flags &&& udcFlagAway != 0 then clearFlags udcFlagAway flags else setFlags udcFlagAway flags

theorem Seat.mapFlags_toggleAway {Nick : Type*} (s : Seat Nick) :
    s.mapFlags toggleAway = if s.has udcFlagAway then s.mapFlags (clearFlags udcFlagAway)
      else s.mapFlags (setFlags udcFlagAway) := by
  unfold mapFlags toggleAway has
  split <;> rfl

namespace Room

variable {User Nick : Type*} {r : Room User Nick} {user v : User} {fd : Int}

/-- The user sits in the room, on connection `fd`. -/
def Sits (r : Room User Nick) (user : User) (fd : Int) : Prop :=
  ∃ s, r user = some s ∧ s.present ∧ s.fd = fd

/-- An operator sits in the room on connection `fd`. -/
def OperatorOn (r : Room User Nick) (fd : Int) : Prop :=
  ∃ user s, r user = some s ∧ s.present ∧ s.fd = fd ∧ s.has udcFlagOperator

/-- The user can be found by its nick. -/
def Named (r : Room User Nick) (user : User) : Prop :=
  ∃ s, r user = some s ∧ s.present ∧ 0 ≤ s.fd

theorem Sits.present {s : Seat Nick} (h : r.Sits user fd) (hs : r user = some s) : s.present := by
  obtain ⟨s', hs', hpres, -⟩ := h
  rw [hs'] at hs
  rw [← Option.some.inj hs]
  exact hpres

theorem Named.present {s : Seat Nick} (h : r.Named user) (hs : r user = some s) : s.present := by
  obtain ⟨s', hs', hpres, -⟩ := h
  rw [hs'] at hs
  rw [← Option.some.inj hs]
  exact hpres

/-- No user that can be found by its nick has this one. -/
def FreeNick (r : Room User Nick) (nick : Nick) : Prop :=
  ∀ v s, r v = some s → s.present → 0 ≤ s.fd → s.nick ≠ some nick

section

variable [DecidableEq User]

/-- The room with one seat written. -/
def set (r : Room User Nick) (user : User) (s : Seat Nick) : Room User Nick :=
  fun v => if v = user then some s else r v

/-- The room with one seat changed, if the user has one. -/
def modify (r : Room User Nick) (user : User) (f : Seat Nick → Seat Nick) : Room User Nick :=
  fun v => if v = user then (r v).map f else r v

@[simp] theorem set_self (r : Room User Nick) (user : User) (s : Seat Nick) :
    r.set user s user = some s := by
  simp [set]

@[simp] theorem set_ne (s : Seat Nick) (h : v ≠ user) : r.set user s v = r v := by
  simp [set, h]

@[simp] theorem modify_self (r : Room User Nick) (user : User) (f : Seat Nick → Seat Nick) :
    r.modify user f user = (r user).map f := by
  simp [modify]

@[simp] theorem modify_ne (f : Seat Nick → Seat Nick) (h : v ≠ user) : r.modify user f v = r v := by
  simp [modify, h]

/-- Changing a seat that is there is writing it. -/
theorem modify_eq_set {s : Seat Nick} (h : r user = some s) (f : Seat Nick → Seat Nick) :
    r.modify user f = r.set user (f s) := by
  funext v
  by_cases hv : v = user
  · subst hv
    simp [h]
  · simp [hv]

/-- A change that changes nothing. -/
theorem modify_id {f : Seat Nick → Seat Nick} (h : ∀ s, f s = s) : r.modify user f = r := by
  funext v
  by_cases hv : v = user
  · subst hv
    rw [modify_self, show f = id from funext h, Option.map_id, id]
  · simp [hv]

@[simp] theorem set_set (r : Room User Nick) (user : User) (s t : Seat Nick) :
    (r.set user s).set user t = r.set user t := by
  funext v
  by_cases hv : v = user <;> simp [set, hv]

@[simp] theorem modify_modify (r : Room User Nick) (user : User) (f g : Seat Nick → Seat Nick) :
    (r.modify user f).modify user g = r.modify user fun s => g (f s) := by
  funext v
  by_cases hv : v = user
  · subst hv
    simp [Function.comp_def]
  · simp [hv]

end

end Room

namespace Act

variable {User Nick : Type*}

/-- When an act of connection `fd` may happen. -/
def permits (fd : Int) (r : Room User Nick) : Act User Nick → Prop
  | idle => True
  | enrol user => r user = none
  | join user _ => 0 ≤ fd ∧ ∀ s, r user = some s → ¬ s.has udcFlagBanned ∧ ¬ s.present
  | leave user => ∃ s, r user = some s ∧ s.present
  | rename user _ | away user | oper user => r.Sits user fd
  | op user | deop user | unban user | kick user | ban user => r.OperatorOn fd ∧ r.Named user

/-- Nobody is given a nick that is in use. -/
def clean (r : Room User Nick) : Act User Nick → Prop
  | join _ nick => ∃ n, nick = some n ∧ r.FreeNick n
  | rename _ nick => r.FreeNick nick
  | _ => True

/-- What an act does. -/
def apply [DecidableEq User] (fd : Int) (r : Room User Nick) : Act User Nick → Room User Nick
  | idle => r
  | enrol user => r.set user .unused
  | join user nick => r.set user ⟨fd, nick, udcFlagPresent⟩
  | leave user | kick user => r.modify user (·.mapFlags (clearFlags sessionFlags))
  | rename user nick => r.modify user fun s => { s with nick := some nick }
  | away user => r.modify user (·.mapFlags toggleAway)
  | oper user | op user => r.modify user (·.mapFlags (setFlags udcFlagOperator))
  | deop user => r.modify user (·.mapFlags (clearFlags udcFlagOperator))
  | unban user => r.modify user (·.mapFlags (clearFlags udcFlagBanned))
  | ban user =>
      r.modify user (·.mapFlags fun f => clearFlags sessionFlags (setFlags udcFlagBanned f))

/-- The user an act is about. -/
def subject : Act User Nick → Option User
  | idle => none
  | enrol user | join user _ | leave user | rename user _ | away user | oper user | op user
  | deop user | unban user | kick user | ban user => some user

variable [DecidableEq User]

/-- An act leaves everybody else alone. -/
theorem apply_ne {fd : Int} {r : Room User Nick} {act : Act User Nick} {v : User}
    (h : act.subject ≠ some v) : act.apply fd r v = r v := by
  cases act with
  | idle => rfl
  | _ => simp only [subject, ne_eq, Option.some.injEq] at h; simp [apply, Ne.symm h]

end Act

/-! ### The room as a machine -/

/-- Connections act in the room; with `tidy`, nicks in use are not handed out. -/
noncomputable def roomMachine (User Nick : Type*) [DecidableEq User] (tidy : Prop) :
    Machine (Room User Nick) (Int × Act User Nick) Unit where
  init r := r = fun _ => none
  step r e :=
    open Classical in
    if e.2.permits e.1 r ∧ (tidy → e.2.clean r) then some (e.2.apply e.1 r, ()) else none

variable {User Nick : Type*} [DecidableEq User]

theorem roomMachine_step {tidy : Prop} {r r' : Room User Nick} {fd : Int} {act : Act User Nick}
    {o : Unit} :
    (roomMachine User Nick tidy).step r (fd, act) = some (r', o) ↔
      act.permits fd r ∧ (tidy → act.clean r) ∧ r' = act.apply fd r := by
  simp only [roomMachine, Option.ite_none_right_eq_some, Option.some.injEq, Prod.mk.injEq]
  constructor
  · intro h
    obtain ⟨⟨h₁, h₂⟩, h₃, -⟩ := h
    exact ⟨h₁, h₂, h₃.symm⟩
  · intro h
    obtain ⟨h₁, h₂, h₃⟩ := h
    exact ⟨⟨h₁, h₂⟩, h₃.symm, trivial⟩

abbrev RoomStep (User Nick : Type*) := Step (Room User Nick) (Int × Act User Nick) Unit

end Smsg
