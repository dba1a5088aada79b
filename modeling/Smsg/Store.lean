/-
`udata.c` with its pointers.

`Udata` has the entries as a list.  Here they are nodes on the heap, which `udata_start`
and the pointers in the nodes lead to, and each function follows and writes them as the
source does.  A string is copied for the entry that it is put into and freed with it, so
an entry holds its strings by value.  Where `udata_add` asks for memory for the entry it
is given the address `new`.

A call that follows a pointer to an entry that is not there, or that walks in a circle,
has no result.
-/
import Smsg.Udata
import Smsg.Lib.Dll

namespace Smsg

open Links

/-- The entries on the heap and `udata_start`. -/
abbrev Store := Dll UdataEnt

namespace Store

/-- `udata_get`. -/
def udataGet (d : Store) (user : Option CString) : Option (Option Loc) :=
  match user with
  | none => some none
  | some user => d.find fun e => e.user == user

/-- `udata_add`. -/
def udataAdd (alloc : Alloc) (new : Loc) (d : Store) (ne : UdataArg) : Option (Int × Store) :=
  match ne.user with
  | none => some (-1, d)
  | some user => do
      match ← d.udataGet (some user) with
      | some _ => some (-1, d)
      | none =>
          if Udata.addAlloc alloc ne = false then some (-1, d)
          else do
            let d ← d.pushBack new (Udata.newEnt user ne)
            some (0, d)

/-- `udata_remove`. -/
def udataRemove (d : Store) (user : Option CString) : Option (Int × Store) := do
  match ← d.udataGet user with
  | none => some (-1, d)
  | some e => do
      let d ← d.unlink e
      some (0, d)

/-- `udata_update`. -/
def udataUpdate (alloc : Alloc) (new : Loc) (d : Store) (e : UdataArg) : Option (Int × Store) := do
  match ← d.udataGet e.user with
  | none => if Udata.UdataArg.isDefault e then some (0, d) else udataAdd alloc new d e
  | some tent =>
      if e.tty.isSome && !alloc .updateTty then some (-1, d)
      else do
        let d ← d.modify tent fun t =>
          { t with
            tty := e.tty.getD t.tty
            beep := if e.beep ≠ udataLeave then e.beep else t.beep
            mode := if e.mode ≠ udataLeave then e.mode else t.mode
            fd := if 0 ≤ e.fd then e.fd else t.fd }
        match e.nick with
        | none => some (0, d)
        | some nick =>
            if alloc .updateNick then do
              let d ← d.modify tent fun t => { t with nick := some nick }
              some (0, d)
            else some (-1, d)

/-- `udata_set_qp`. -/
def udataSetQp (alloc : Alloc) (new : Loc) (d : Store) (user : Option CString) (queue : Ptr) :
    Option (Int × Store) := do
  match ← d.udataGet user with
  | none => do
      let (r, d) ← udataAdd alloc new d { udataDefEntry with user := user }
      if 0 ≤ r then do
        match ← d.udataGet user with
        | some tent => do
            let d ← d.modify tent fun t => { t with queue := queue }
            some (r, d)
        | none => some (-1, d)
      else some (-1, d)
  | some tent => do
      let d ← d.modify tent fun t => { t with queue := queue }
      some (0, d)

/-- `udata_flagset`. -/
def udataFlagset (d : Store) (user : Option CString) (f : Flags) : Option (Int × Store) := do
  match ← d.udataGet user with
  | none => some (-1, d)
  | some e => do
      let d ← d.modify e fun t => { t with flags := t.flags ||| f }
      some (0, d)

/-- `udata_flagunset`. -/
def udataFlagunset (d : Store) (user : Option CString) (f : Flags) : Option (Int × Store) := do
  match ← d.udataGet user with
  | none => some (-1, d)
  | some e => do
      let d ← d.modify e fun t => { t with flags := t.flags &&& ~~~f }
      some (0, d)

end Store

/-! ### The same on the list -/

namespace Udata

/-- `udata_remove`. -/
def udataRemove (u : Udata) (user : Option CString) : Int × Udata :=
  match u.udataGet user with
  | none => (-1, u)
  | some e => (0, ⟨u.ents.filter fun e' => e'.user ≠ e.user,
      (u.nodup.sublist (List.Sublist.map _ List.filter_sublist))⟩)

/-- What is done to the entry of a user, if there is one. -/
def onEntry (u : Udata) (user : Option CString) (f : CString → Udata) : Int × Udata :=
  match u.udataGet user with
  | none => (-1, u)
  | some e => (0, f e.user)

end Udata

/-! ### Calls -/

/-- A call of one of the functions that change the store. -/
inductive StoreCall
  | add (ne : UdataArg)
  | update (e : UdataArg)
  | remove (user : Option CString)
  | setQp (user : Option CString) (queue : Ptr)
  | flagset (user : Option CString) (f : Flags)
  | flagunset (user : Option CString) (f : Flags)

namespace StoreCall

/-- Making the call, when there is memory and `new` is the address of what is asked for. -/
def run (new : Loc) (d : Store) : StoreCall → Option (Int × Store)
  | add ne => d.udataAdd (fun _ => true) new ne
  | update e => d.udataUpdate (fun _ => true) new e
  | remove user => d.udataRemove user
  | setQp user queue => d.udataSetQp (fun _ => true) new user queue
  | flagset user f => d.udataFlagset user f
  | flagunset user f => d.udataFlagunset user f

/-- The user that the call names. -/
def user : StoreCall → Option CString
  | add ne => ne.user
  | update e => e.user
  | remove user => user
  | setQp user _ => user
  | flagset user _ => user
  | flagunset user _ => user

/-- The user is added by the call if there is no entry yet: an update adds somebody only if
it sets something. -/
def adds : StoreCall → Option CString
  | add ne => ne.user
  | update e => if Udata.UdataArg.isDefault e then none else e.user
  | setQp user _ => user
  | _ => none

/-- The user is taken out by the call. -/
def removes : StoreCall → Option CString
  | remove user => user
  | _ => none

/-- The same call on the list. -/
def list (u : Udata) : StoreCall → Int × Udata
  | add ne => Udata.udataAdd (fun _ => true) u ne
  | update e => Udata.udataUpdate (fun _ => true) u e
  | remove user => u.udataRemove user
  | setQp user queue =>
      match user with
      | none => (-1, u)
      | some user => Udata.udataSetQp (fun _ => true) u user queue
  | flagset user f => u.onEntry user fun user => u.udataFlagset user f
  | flagunset user f => u.onEntry user fun user => u.udataFlagunset user f

end StoreCall

/-! ### What is asked of the store -/

/-- The names without one of them. -/
def leaveOut (names : List CString) : Option CString → List CString
  | some v => names.filter (· ≠ v)
  | none => names

/-- The names with one more at the end, unless it is one of them. -/
def putIn (names : List CString) : Option CString → List CString
  | some v => if v ∈ names then names else names ++ [v]
  | none => names

/-- The users whom there are entries for after a call, in the order they were added in. -/
def StoreCall.roster (c : StoreCall) (names : List CString) : List CString :=
  putIn (leaveOut names c.removes) c.adds

/-- The same after some calls. -/
def roster (calls : List StoreCall) : List CString := calls.foldl (fun names c => c.roster names) []

/-- `v` was added by one of the calls and has not been removed since. -/
def Added (calls : List StoreCall) (v : CString) : Prop :=
  ∃ before c after, calls = before ++ c :: after ∧ c.adds = some v ∧
    ∀ c' ∈ after, c'.removes ≠ some v

/-- What a store is like after calls that there was memory for. -/
inductive Reached : List StoreCall → Store → Prop
  | start : Reached [] .empty
  | call {calls : List StoreCall} {d d' : Store} {c : StoreCall} {new : Loc} {r : Int}
      (h : Reached calls d) (hnew : new ∉ d.heap) (hrun : c.run new d = some (r, d')) :
      Reached (calls ++ [c]) d'

/-- The list is well formed, and leads to the entries of the users that were added, each in
the place it was added in. -/
structure StoreRight (calls : List StoreCall) (d : Store) : Prop where
  wf : d.Wf
  names : (roster calls).Nodup
  order : ∃ nodes, d.Holds nodes ∧ nodes.map (·.2.user) = roster calls
  get : ∀ v, (∃ a, d.udataGet (some v) = some (some a)) ↔ Added calls v
  node : ∀ v a, d.udataGet (some v) = some (some a) ↔
    ∃ n, d.heap.lookup a = some n ∧ n.val.user = v
  miss : ∀ v, ¬ Added calls v → d.udataGet (some v) = some none

/-- A pointer that ended the list leads to the entry that the call has added. -/
def LinksNew (c : StoreCall) (d d' : Store) (p p' : Option Loc) : Prop :=
  p = none ∧ ∃ b m, p' = some b ∧ b ∉ d.heap ∧ d'.heap.lookup b = some m ∧
    c.adds = some m.val.user

/-- A pointer to the entry that the call has taken out leads where the pointer there led. -/
def PastGone (c : StoreCall) (d : Store) (link : Node UdataEnt → Option Loc)
    (p p' : Option Loc) : Prop :=
  ∃ b m, p = some b ∧ d.heap.lookup b = some m ∧ c.removes = some m.val.user ∧ p' = link m

/-- What a call leaves alone. -/
structure StoreFrame (c : StoreCall) (d d' : Store) : Prop where
  start : d'.start = d.start ∨ LinksNew c d d' d.start d'.start ∨
    PastGone c d (·.next) d.start d'.start
  others : ∀ a n, d.heap.lookup a = some n → c.user ≠ some n.val.user →
    ∃ n', d'.heap.lookup a = some n' ∧ n'.val = n.val
  next : ∀ a n n', d.heap.lookup a = some n → d'.heap.lookup a = some n' →
    n'.next = n.next ∨ LinksNew c d d' n.next n'.next ∨ PastGone c d (·.next) n.next n'.next
  prev : ∀ a n n', d.heap.lookup a = some n → d'.heap.lookup a = some n' →
    n'.prev = n.prev ∨ PastGone c d (·.prev) n.prev n'.prev
  kept : ∀ a n, d.heap.lookup a = some n → c.removes ≠ some n.val.user →
    ∃ n', d'.heap.lookup a = some n' ∧ n'.val.user = n.val.user
  fresh : ∀ a n', d'.heap.lookup a = some n' → a ∈ d.heap ∨ c.adds = some n'.val.user

end Smsg
