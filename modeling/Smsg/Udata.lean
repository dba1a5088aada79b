/-
`udata.c`: the list of what the server knows about each user.

An entry belongs to one user name, and no two entries have the same one; the type
`Udata` carries that.  The entries stand in the order in which they were added,
which is the order the three lookup functions search them in.

A call may run out of memory.  `AllocSite` names the places where `udata_add` and
`udata_update` ask for some, and each call is given what happens there.
-/
import Smsg.Bytes

namespace Smsg

/-! ### Constants -/

abbrev Flags := BitVec 16

def udcFlagOperator : Flags := 1
def udcFlagAway : Flags := 2
def udcFlagPresent : Flags := 4
def udcFlagBanned : Flags := 8
def udcFlagSuperuser : Flags := 16

/-- The flags that are cleared when somebody leaves the chat. -/
def sessionFlags : Flags :=
  udcFlagPresent ||| udcFlagAway ||| udcFlagOperator ||| udcFlagSuperuser

def udataLeave : Int8 := -2

/-- `TTYSET_UNSET`, which is `UDATA_TTYDEF`. -/
def ttysetUnset : CString := ⟨text "none", by decide⟩

/-! ### Entries -/

/-- `struct udata_ent` in the list, without its links. -/
structure UdataEnt where
  user : CString
  tty : CString
  beep : Int8
  mode : Int8
  queue : Ptr
  fd : Int
  nick : Option CString
  flags : Flags
deriving DecidableEq

namespace UdataEnt

/-- `flags & f`. -/
def has (e : UdataEnt) (f : Flags) : Bool := e.flags &&& f != 0

end UdataEnt

/-- `struct udata_ent` as the argument of a call, where strings may be `NULL`. -/
structure UdataArg where
  user : Option CString
  tty : Option CString
  beep : Int8
  mode : Int8
  fd : Int
  nick : Option CString
  flags : Flags
deriving DecidableEq

/-- `UDATA_DEF_ENTRY`. -/
def udataDefEntry : UdataArg := ⟨none, none, udataLeave, udataLeave, -1, none, 0⟩

/-- The list that `udata_start` points to. -/
structure Udata where
  ents : List UdataEnt
  nodup : (ents.map (·.user)).Nodup
deriving DecidableEq

/-- Where `udata.c` asks for memory. -/
inductive AllocSite
  | addEnt | addUser | addTty | addNick | updateTty | updateNick
deriving DecidableEq

/-- Which requests for memory are met. -/
abbrev Alloc := AllocSite → Bool

namespace Udata

/-- `udata_start = NULL`. -/
def empty : Udata := ⟨[], List.nodup_nil⟩

/-! ### Lookup -/

/-- `udata_get`. -/
def udataGet (u : Udata) : Option CString → Option UdataEnt
  | none => none
  | some user => u.ents.find? fun e => e.user == user

/-- `udata_get_by_nick`. -/
def udataGetByNick (u : Udata) : Option CString → Option UdataEnt
  | none => none
  | some nick =>
      u.ents.find? fun e => decide (0 ≤ e.fd) && e.has udcFlagPresent && e.nick == some nick

/-- `udata_get_by_fd`. -/
def udataGetByFd (u : Udata) (fd : Int) : Option UdataEnt :=
  u.ents.find? fun e => fd == e.fd && e.has udcFlagPresent

/-! ### Writing -/

/-- The entries with the one of `user` rewritten; the name itself is never written to. -/
def modifyEnts (user : CString) (f : UdataEnt → UdataEnt) (es : List UdataEnt) : List UdataEnt :=
  es.map fun e => if e.user = user then { f e with user := e.user } else e

theorem map_user_modifyEnts (user : CString) (f : UdataEnt → UdataEnt) (es : List UdataEnt) :
    (modifyEnts user f es).map (·.user) = es.map (·.user) := by
  rw [modifyEnts, List.map_map]
  refine List.map_congr_left fun e _ => ?_
  simp only [Function.comp]
  split <;> rfl

/-- Writing to the entry of `user`. -/
def modify (u : Udata) (user : CString) (f : UdataEnt → UdataEnt) : Udata :=
  ⟨modifyEnts user f u.ents, by rw [map_user_modifyEnts]; exact u.nodup⟩

/-- The entry that `udata_add` links to the end of the list. -/
def newEnt (user : CString) (ne : UdataArg) : UdataEnt where
  user := user
  tty := ne.tty.getD ttysetUnset
  beep := if ne.beep = -2 then -1 else ne.beep
  mode := if ne.mode = -2 then -1 else ne.mode
  queue := .null
  fd := if ne.fd < 0 then -1 else ne.fd
  nick := ne.nick
  flags := 0

/-- The memory `udata_add` asks for is there. -/
def addAlloc (alloc : Alloc) (ne : UdataArg) : Bool :=
  alloc .addEnt && alloc .addUser && alloc .addTty && (ne.nick.isNone || alloc .addNick)

/-- `udata_add`. -/
def udataAdd (alloc : Alloc) (u : Udata) (ne : UdataArg) : Int × Udata :=
  match ne.user with
  | none => (-1, u)
  | some user =>
      if h : user ∈ u.ents.map (·.user) then (-1, u)
      else if addAlloc alloc ne = false then (-1, u)
      else
        (0, ⟨u.ents ++ [newEnt user ne], by
          rw [List.map_append, List.nodup_append]
          refine ⟨u.nodup, List.nodup_singleton _, ?_⟩
          intro x hx y hy heq
          subst heq
          rw [List.mem_singleton.mp hy] at hx
          exact h hx⟩)

/-- `udata_flagset`. -/
def udataFlagset (u : Udata) (user : CString) (f : Flags) : Udata :=
  u.modify user fun e => { e with flags := e.flags ||| f }

/-- `udata_flagunset`. -/
def udataFlagunset (u : Udata) (user : CString) (f : Flags) : Udata :=
  u.modify user fun e => { e with flags := e.flags &&& ~~~f }

/-- The argument sets nothing, so no entry is made for it. -/
def UdataArg.isDefault (e : UdataArg) : Bool :=
  (e.tty.isNone || e.tty == some ttysetUnset) && (e.beep == -2 || e.beep == -1) &&
    (e.mode == -2 || e.mode == -1) && e.flags == 0

/-- The part of `udata_update` in front of the nick. -/
def updatePrefs (u : Udata) (user : CString) (e : UdataArg) : Udata :=
  u.modify user fun t =>
    { t with
      tty := e.tty.getD t.tty
      beep := if e.beep ≠ udataLeave then e.beep else t.beep
      mode := if e.mode ≠ udataLeave then e.mode else t.mode
      fd := if 0 ≤ e.fd then e.fd else t.fd }

/-- `udata_update`. -/
def udataUpdate (alloc : Alloc) (u : Udata) (e : UdataArg) : Int × Udata :=
  match e.user, u.udataGet e.user with
  | some user, some _ =>
      if e.tty.isSome && !alloc .updateTty then (-1, u)
      else
        let u := u.updatePrefs user e
        match e.nick with
        | none => (0, u)
        | some nick =>
            if alloc .updateNick then (0, u.modify user fun t => { t with nick := some nick })
            else (-1, u)
  | _, _ => if UdataArg.isDefault e then (0, u) else udataAdd alloc u e

/-- `udata_set_qp`. -/
def udataSetQp (alloc : Alloc) (u : Udata) (user : CString) (queue : Ptr) : Int × Udata :=
  match u.udataGet (some user) with
  | some _ => (0, u.modify user fun e => { e with queue := queue })
  | none =>
      let (r, u) := udataAdd alloc u { udataDefEntry with user := some user }
      if 0 ≤ r then (r, u.modify user fun e => { e with queue := queue }) else (-1, u)

/-- `udata_get_qp`. -/
def udataGetQp (u : Udata) (user : Option CString) : Ptr :=
  match u.udataGet user with
  | some e => e.queue
  | none => .null

end Udata

end Smsg
