/-
The store seen as a room.

`Udata.room` forgets the preferences and the queue of each entry.  The functions of
`udata.c` are told to the room one by one, so that the proofs about commands never
look into the list: a lookup finds a seat with what it looked for, or there is
none, and a write changes the seat of one user.
-/
import Smsg.Room
import Smsg.Server

namespace Smsg

/-- What the chat knows of an entry. -/
def UdataEnt.seat (e : UdataEnt) : Seat CString := ⟨e.fd, e.nick, e.flags⟩

@[simp] theorem UdataEnt.seat_fd (e : UdataEnt) : e.seat.fd = e.fd := rfl
@[simp] theorem UdataEnt.seat_nick (e : UdataEnt) : e.seat.nick = e.nick := rfl
@[simp] theorem UdataEnt.seat_flags (e : UdataEnt) : e.seat.flags = e.flags := rfl
@[simp] theorem UdataEnt.seat_has (e : UdataEnt) (f : Flags) : e.seat.has f = e.has f := rfl

namespace Udata

variable {u : Udata} {e : UdataEnt} {user v : CString} {fd : Int}

/-- The room that the entries describe. -/
def room (u : Udata) : Room CString CString := fun v => (u.udataGet (some v)).map (·.seat)

@[simp] theorem room_empty : room empty = fun _ => none := rfl

/-! ### Lookup -/

theorem udataGet_some (h : u.udataGet (some v) = some e) : e ∈ u.ents ∧ e.user = v := by
  refine ⟨List.mem_of_find?_eq_some h, ?_⟩
  simpa using List.find?_some h

theorem udataGet_of_mem (h : e ∈ u.ents) : u.udataGet (some e.user) = some e := by
  cases hg : u.udataGet (some e.user) with
  | none =>
      have := List.find?_eq_none.mp hg e h
      simp at this
  | some e' =>
      obtain ⟨hmem, huser⟩ := udataGet_some hg
      exact congrArg some (List.inj_on_of_nodup_map u.nodup hmem h huser)

theorem udataGet_iff : u.udataGet (some v) = some e ↔ e ∈ u.ents ∧ e.user = v :=
  ⟨udataGet_some, fun ⟨h, hv⟩ => hv ▸ udataGet_of_mem h⟩

theorem room_of_mem (h : e ∈ u.ents) : u.room e.user = some e.seat := by
  rw [room, udataGet_of_mem h]
  rfl

theorem room_iff {s : Seat CString} :
    u.room v = some s ↔ ∃ e ∈ u.ents, e.user = v ∧ e.seat = s := by
  rw [room, Option.map_eq_some_iff]
  simp only [udataGet_iff, and_assoc]

theorem room_none : u.room v = none ↔ u.udataGet (some v) = none := by
  rw [room, Option.map_eq_none_iff]

theorem udataGetByFd_some (h : u.udataGetByFd fd = some e) :
    e ∈ u.ents ∧ e.fd = fd ∧ e.has udcFlagPresent = true := by
  have hp := List.find?_some h
  simp only [Bool.and_eq_true, beq_iff_eq] at hp
  exact ⟨List.mem_of_find?_eq_some h, hp.1.symm, hp.2⟩

theorem udataGetByFd_none (h : u.udataGetByFd fd = none) :
    ∀ e ∈ u.ents, e.has udcFlagPresent = true → e.fd ≠ fd := by
  intro e he hp hfd
  have := List.find?_eq_none.mp h e he
  simp [hfd, hp] at this

theorem udataGetByFd_nobody (h : ∀ e ∈ u.ents, e.has udcFlagPresent = true → e.fd ≠ fd) :
    u.udataGetByFd fd = none := by
  refine Option.eq_none_iff_forall_ne_some.mpr fun e hget => ?_
  obtain ⟨he, hfd, hp⟩ := udataGetByFd_some hget
  exact h e he hp hfd

theorem udataGetByFd_sits (h : u.udataGetByFd fd = some e) : u.room.Sits e.user fd := by
  obtain ⟨he, hfd, hp⟩ := udataGetByFd_some h
  exact ⟨e.seat, room_of_mem he, hp, hfd⟩

theorem udataGetByNick_some {nick : Option CString} (h : u.udataGetByNick nick = some e) :
    e ∈ u.ents ∧ nick = e.nick ∧ e.nick ≠ none ∧ 0 ≤ e.fd ∧ e.has udcFlagPresent = true := by
  cases nick with
  | none => simp [udataGetByNick] at h
  | some n =>
      have hp := List.find?_some h
      simp only [Bool.and_eq_true, decide_eq_true_eq, beq_iff_eq] at hp
      exact ⟨List.mem_of_find?_eq_some h, hp.2.symm, by rw [hp.2]; simp, hp.1.1, hp.1.2⟩

theorem udataGetByNick_named {nick : Option CString} (h : u.udataGetByNick nick = some e) :
    u.room.Named e.user := by
  obtain ⟨he, -, -, hfd, hp⟩ := udataGetByNick_some h
  exact ⟨e.seat, room_of_mem he, hp, hfd⟩

theorem udataGetByNick_none {n : CString} (h : u.udataGetByNick (some n) = none) :
    ∀ e ∈ u.ents, e.has udcFlagPresent = true → 0 ≤ e.fd → e.nick ≠ some n := by
  intro e he hp hfd hn
  have := List.find?_eq_none.mp h e he
  simp [hp, hfd, hn] at this

theorem udataGetByNick_free {n : CString} :
    u.udataGetByNick (some n) = none ↔ u.room.FreeNick n := by
  constructor
  · intro h v s hs hp hfd
    obtain ⟨e, he, -, rfl⟩ := room_iff.mp hs
    exact udataGetByNick_none h e he hp hfd
  · intro h
    refine Option.eq_none_iff_forall_ne_some.mpr fun e he => ?_
    obtain ⟨hmem, hn, -, hfd, hp⟩ := udataGetByNick_some he
    exact h e.user e.seat (room_of_mem hmem) hp hfd hn.symm

/-! ### Writing -/

theorem mem_modify {f : UdataEnt → UdataEnt} :
    e ∈ (u.modify user f).ents ↔ (e ∈ u.ents ∧ e.user ≠ user) ∨
      ∃ e₀ ∈ u.ents, e₀.user = user ∧ { f e₀ with user := e₀.user } = e := by
  simp only [modify, modifyEnts, List.mem_map]
  constructor
  · intro h
    obtain ⟨e₀, he₀, rfl⟩ := h
    by_cases hu : e₀.user = user
    · exact Or.inr ⟨e₀, he₀, hu, by rw [if_pos hu]⟩
    · rw [if_neg hu]
      exact Or.inl ⟨he₀, hu⟩
  · rintro (⟨he, hu⟩ | ⟨e₀, he₀, hu, rfl⟩)
    · exact ⟨e, he, if_neg hu⟩
    · exact ⟨e₀, he₀, if_pos hu⟩

theorem udataGet_modify_self {f : UdataEnt → UdataEnt} (h : u.udataGet (some user) = some e) :
    (u.modify user f).udataGet (some user) = some { f e with user := user } := by
  obtain ⟨he, hu⟩ := udataGet_some h
  exact udataGet_iff.mpr ⟨mem_modify.mpr (Or.inr ⟨e, he, hu, by rw [hu]⟩), rfl⟩

theorem udataGet_modify_ne {f : UdataEnt → UdataEnt} (hv : v ≠ user) :
    (u.modify user f).udataGet (some v) = u.udataGet (some v) := by
  refine Option.ext fun e => ?_
  rw [udataGet_iff, udataGet_iff, mem_modify]
  constructor
  · intro h
    obtain ⟨⟨he, -⟩ | ⟨e₀, -, hu, rfl⟩, hev⟩ := h
    · exact ⟨he, hev⟩
    · exact absurd (hev.symm.trans hu) hv
  · intro h
    obtain ⟨he, rfl⟩ := h
    exact ⟨Or.inl ⟨he, hv⟩, rfl⟩

theorem udataGet_modify_none {f : UdataEnt → UdataEnt} (h : u.udataGet (some user) = none) :
    (u.modify user f).udataGet (some user) = none := by
  refine Option.eq_none_iff_forall_ne_some.mpr fun e he => ?_
  obtain ⟨hmem, huser⟩ := udataGet_some he
  rcases mem_modify.mp hmem with ⟨-, hne⟩ | ⟨e₀, he₀, hu, -⟩
  · exact hne huser
  · rw [← hu, udataGet_of_mem he₀] at h
    simp at h

/-- **Writing to an entry changes one seat.** -/
theorem room_modify {f : UdataEnt → UdataEnt} {g : Seat CString → Seat CString}
    (h : ∀ e, UdataEnt.seat { f e with user := e.user } = g e.seat) :
    (u.modify user f).room = u.room.modify user g := by
  funext v
  by_cases hv : v = user
  · subst hv
    rw [Room.modify_self, room, room]
    cases hg : u.udataGet (some v) with
    | none => rw [udataGet_modify_none hg]; rfl
    | some e =>
        obtain ⟨-, hu⟩ := udataGet_some hg
        rw [udataGet_modify_self hg, Option.map_some, Option.map_some, Option.map_some, ← h e, hu]
  · rw [Room.modify_ne _ hv, room, room, udataGet_modify_ne hv]

theorem room_udataFlagset (u : Udata) (user : CString) (f : Flags) :
    (u.udataFlagset user f).room = u.room.modify user (·.mapFlags (setFlags f)) :=
  room_modify fun _ => rfl

theorem room_udataFlagunset (u : Udata) (user : CString) (f : Flags) :
    (u.udataFlagunset user f).room = u.room.modify user (·.mapFlags (clearFlags f)) :=
  room_modify fun _ => rfl

/-- `udata_add` with memory, for a user that has no entry. -/
theorem udataAdd_new {alloc : Alloc} {ne : UdataArg} (huser : ne.user = some user)
    (hnew : u.udataGet (some user) = none) (hmem : addAlloc alloc ne = true) :
    (u.udataAdd alloc ne).1 = 0 ∧ (u.udataAdd alloc ne).2.ents = u.ents ++ [newEnt user ne] := by
  have hnot : user ∉ u.ents.map (·.user) := by
    intro hmem
    obtain ⟨e, he, rfl⟩ := List.mem_map.mp hmem
    rw [udataGet_of_mem he] at hnew
    simp at hnew
  unfold udataAdd
  simp only [huser, dif_neg hnot, hmem, Bool.true_eq_false, if_false, and_self]

/-- `udata_add` puts a new entry at the end of the list, or does nothing. -/
theorem udataAdd_cases (alloc : Alloc) (u : Udata) (ne : UdataArg) :
    u.udataAdd alloc ne = (-1, u) ∨
      ∃ user, ne.user = some user ∧ u.udataGet (some user) = none ∧ addAlloc alloc ne = true := by
  unfold udataAdd
  cases huser : ne.user with
  | none => exact Or.inl rfl
  | some user =>
      dsimp only
      split
      · exact Or.inl rfl
      · rename_i hnew
        split
        · exact Or.inl rfl
        · rename_i hmem
          refine Or.inr ⟨user, rfl, ?_, by simpa using hmem⟩
          refine Option.eq_none_iff_forall_ne_some.mpr fun e he => hnew ?_
          obtain ⟨hmem, hu⟩ := udataGet_some he
          exact hu ▸ List.mem_map_of_mem hmem

/-- The room behind a list that has one entry more. -/
theorem room_append {u' : Udata} {ne : UdataArg} (hnew : u.udataGet (some user) = none)
    (h : u'.ents = u.ents ++ [newEnt user ne]) :
    u'.room = u.room.set user (newEnt user ne).seat := by
  funext v
  by_cases hv : v = user
  · subst hv
    rw [Room.set_self]
    exact room_of_mem (e := newEnt v ne) (by rw [h]; simp)
  · rw [Room.set_ne _ hv]
    refine Option.ext fun s => ?_
    rw [room_iff, room_iff, h]
    constructor
    · intro h
      obtain ⟨e, he, rfl, rfl⟩ := h
      rcases List.mem_append.mp he with he | he
      · exact ⟨e, he, rfl, rfl⟩
      · rw [List.mem_singleton.mp he] at hv
        exact absurd rfl hv
    · intro h
      obtain ⟨e, he, rfl, rfl⟩ := h
      exact ⟨e, List.mem_append_left _ he, rfl, rfl⟩

/-- What `udata_update` does to the seat of an entry that is there. -/
def updateSeat (alloc : Alloc) (e : UdataArg) (s : Seat CString) : Seat CString where
  fd := if 0 ≤ e.fd then e.fd else s.fd
  nick := match e.nick with
    | none => s.nick
    | some nick => if alloc .updateNick then some nick else s.nick
  flags := s.flags

/-- `udata_update` without a tty, for a user that has an entry. -/
theorem room_udataUpdate {alloc : Alloc} {arg : UdataArg} (huser : arg.user = some user)
    (htty : arg.tty = none) (h : u.udataGet (some user) = some e) :
    (u.udataUpdate alloc arg).2.room = u.room.modify user (updateSeat alloc arg) := by
  have hprefs : (u.updatePrefs user arg).room
      = u.room.modify user fun s => { s with fd := if 0 ≤ arg.fd then arg.fd else s.fd } :=
    room_modify fun _ => rfl
  unfold udataUpdate
  simp only [huser, h, htty, Option.isSome_none, Bool.false_and, Bool.false_eq_true, if_false]
  cases hnick : arg.nick with
  | none =>
      dsimp only
      rw [hprefs]
      congr 1
      funext s
      simp [updateSeat, hnick]
  | some nick =>
      dsimp only
      split
      · rename_i hmem
        rw [room_modify (g := fun s => { s with nick := some nick }) (fun _ => rfl), hprefs,
          Room.modify_modify]
        congr 1
        funext s
        simp [updateSeat, hnick, hmem]
      · rename_i hmem
        rw [hprefs]
        congr 1
        funext s
        simp [updateSeat, hnick, hmem]

/-- `udata_update` of a nick. -/
theorem room_udataUpdate_nick {alloc : Alloc} {nick : CString}
    (h : u.udataGet (some user) = some e) :
    (u.udataUpdate alloc { udataDefEntry with user := some user, nick := some nick }).2.room
      = if alloc .updateNick then u.room.modify user fun s => { s with nick := some nick }
        else u.room := by
  rw [room_udataUpdate rfl rfl h]
  by_cases hmem : alloc .updateNick = true
  · rw [if_pos hmem]
    congr 1
    funext s
    simp [updateSeat, udataDefEntry, hmem]
  · rw [if_neg hmem]
    refine Room.modify_id fun s => ?_
    simp [updateSeat, udataDefEntry, hmem]

/-- `udata_update` of preferences: the room stays, or has one new user. -/
theorem room_udataUpdate_prefs (alloc : Alloc) (u : Udata) {arg : UdataArg} (hfd : arg.fd = -1)
    (hnick : arg.nick = none) :
    (u.udataUpdate alloc arg).2.room = u.room ∨
      ∃ v, u.room v = none ∧ (u.udataUpdate alloc arg).2.room = u.room.set v .unused := by
  have hadd : ∀ u' : Udata, u' = (u.udataAdd alloc arg).2 → u'.room = u.room ∨
      ∃ v, u.room v = none ∧ u'.room = u.room.set v .unused := by
    intro u' heq
    subst heq
    rcases udataAdd_cases alloc u arg with h | ⟨user, huser, hnone, hmem⟩
    · exact Or.inl (by rw [h])
    · obtain ⟨-, hents⟩ := udataAdd_new huser hnone hmem
      refine Or.inr ⟨user, room_none.mpr hnone, ?_⟩
      rw [room_append hnone hents]
      congr 1
      simp [newEnt, UdataEnt.seat, hfd, hnick, Seat.unused]
  unfold udataUpdate
  split
  · left
    split
    · rfl
    · dsimp only
      simp only [hnick]
      rw [updatePrefs, room_modify (g := id), Room.modify_id (f := id) fun _ => rfl]
      intro e
      simp [UdataEnt.seat, hfd]
  · split
    · exact Or.inl rfl
    · exact hadd _ rfl

theorem room_removeFromChat (alloc : Alloc) (u : Udata) {user : CString} (h : u.room user ≠ none) :
    (removeFromChat alloc u user).room
      = u.room.modify user (·.mapFlags (clearFlags sessionFlags)) := by
  obtain ⟨e, he⟩ : ∃ e, u.udataGet (some user) = some e :=
    Option.ne_none_iff_exists'.mp fun hn => h (room_none.mpr hn)
  rw [removeFromChat, room_udataFlagunset, room_udataUpdate rfl rfl he, Room.modify_modify]
  rfl

end Udata

/-! ### Making an entry for a join -/

theorem enrol_known {alloc : Alloc} {u : Udata} {user : CString} (h : u.room user ≠ none) :
    enrol alloc u (some user) = u := by
  unfold enrol
  split
  · rfl
  · rename_i hnone
    exact absurd (Udata.room_none.mpr hnone) h

/-- A user without one gets one that is in use by nobody, if there is memory. -/
theorem enrol_new {alloc : Alloc} {u : Udata} {user : CString} (h : u.room user = none)
    (hmem : Udata.addAlloc alloc { udataDefEntry with user := some user } = true) :
    (enrol alloc u (some user)).room = u.room.set user .unused := by
  have hnone := Udata.room_none.mp h
  rw [enrol, hnone]
  exact Udata.room_append hnone (Udata.udataAdd_new rfl hnone hmem).2

/-- There is nothing else that enrolling does. -/
theorem enrol_cases (alloc : Alloc) (u : Udata) (user : Option CString) :
    enrol alloc u user = u ∨
      ∃ v, user = some v ∧ u.room v = none ∧
        Udata.addAlloc alloc { udataDefEntry with user := some v } = true := by
  unfold enrol
  split
  · exact Or.inl rfl
  · rcases u.udataAdd_cases alloc { udataDefEntry with user := user } with h | ⟨v, hv, hnone, hmem⟩
    · exact Or.inl (by rw [h])
    · obtain rfl : user = some v := hv
      exact Or.inr ⟨v, rfl, Udata.room_none.mpr hnone, hmem⟩

end Smsg
