/-
Sessions: who is in chat, and on which connection.

An entry knows the connection of its user by the number of a descriptor only, and
numbers are used again.  `Bound` says that this goes well: no two users in chat
have one descriptor, and the descriptor of each is that of a connection on which
this user has joined.

It goes well until somebody joins on a connection that has a user in chat already,
which the server does not check (`bound_iff`).  Ending the session of somebody else
takes an operator, or a `CHATDOOR` that names the user (`others_kept_iff`).  Nicks
stay unique in any case (`nicks_unique`).
-/
import Smsg.Proofs.Events

namespace Smsg

open Machines

variable {mem : Memory} {hist : List ServerStep} {s s' : Server} {i : Slot} {user : CString}

/-! ### Joins in the history -/

/-- The step acknowledged a join of `user` on slot `i`. -/
def JoinAcked (i : Slot) (user : CString) (st : ServerStep) : Prop :=
  ∃ c env, st.ev = .netcmd i c env ∧ c.get = .chatdoor ∧ c.leaves = false ∧
    c.doorUser = some user ∧ .send (st.pre.clients i).fd (.set .ack) ∈ st.out

/-- The step put an accepted connection into slot `i`. -/
def AcceptedInto (i : Slot) (st : ServerStep) : Prop :=
  ∃ newfd peer, st.ev = .accept newfd peer ∧ st.pre.acceptSlot = some i

/-- On the connection in slot `i`, since it was accepted, a join of `user` was acknowledged. -/
def JoinedOn (hist : List ServerStep) (i : Slot) (user : CString) : Prop :=
  ∃ later st earlier, hist = later ++ st :: earlier ∧ JoinAcked i user st ∧
    ∀ st' ∈ later, ¬ AcceptedInto i st'

theorem JoinedOn.cons (h : JoinedOn hist i user) {st : ServerStep} (hst : ¬ AcceptedInto i st) :
    JoinedOn (st :: hist) i user := by
  obtain ⟨later, st₀, earlier, hhist, hack, hno⟩ := h
  refine ⟨st :: later, st₀, earlier, by rw [hhist, List.cons_append], hack, ?_⟩
  intro st' hst'
  rcases List.mem_cons.mp hst' with h | h
  · rw [h]
    exact hst
  · exact hno st' h

theorem joinAcked_of_joins {c : NetCmd} {env : Env} {o : Outcome} {nick : CString}
    (hcall : lsHandleNetcmd (s.call i c env) = .ok o) (hj : (s.call i c env).Joins user nick)
    (hfd : 0 ≤ (s.clients i).fd) :
    JoinAcked i user ⟨s, .netcmd i c env, (s.settle o).1, (s.settle o).2⟩ := by
  refine ⟨c, env, rfl, hj.op, hj.form, hj.named, ?_⟩
  obtain ⟨nick, -, -, heff, -⟩ := hj.handled hfd hcall
  refine List.mem_append_left _ ?_
  rw [heff]
  exact List.mem_append_right _ List.mem_cons_self

theorem live_of_joins {c : NetCmd} {env : Env} {o : Outcome} {nick : CString}
    (hcall : lsHandleNetcmd (s.call i c env) = .ok o) (hj : (s.call i c env).Joins user nick)
    (hlive : s.live i) (hfd : 0 ≤ (s.clients i).fd) : (s.settle o).1.live i := by
  obtain ⟨-, -, hret, -, -⟩ := hj.handled hfd hcall
  rw [Server.live_settle_iff, Server.kicked_neg hret]
  exact ⟨by simp, hlive⟩

/-! ### The binding of users and connections -/

/-- Those in chat are on connections of their own, on which they have joined. -/
structure Bound (hist : List ServerStep) (s : Server) : Prop where
  apart : ∀ e ∈ s.udata.ents, ∀ e' ∈ s.udata.ents, e.has udcFlagPresent → e'.has udcFlagPresent →
    e.fd = e'.fd → e = e'
  session : ∀ e ∈ s.udata.ents, e.has udcFlagPresent →
    ∃ i, s.live i ∧ (s.clients i).fd = e.fd ∧ JoinedOn hist i e.user

/-- A join that goes through, on a connection that has somebody in chat. -/
def Server.JoinsTwice (s : Server) (ev : Event) : Prop :=
  ∃ i c env user nick, ev = .netcmd i c env ∧ (s.call i c env).Joins user nick ∧
    s.udata.udataGetByFd (s.clients i).fd ≠ none

/-- A test that no step which passes it is such a join. -/
def ServerStep.joinsApart (st : ServerStep) : Bool :=
  st.commandIs fun i c => decide (c.op ≠ .chatdoor) || c.leaves ||
    decide (st.pre.udata.udataGetByFd (st.pre.clients i).fd = none)

theorem not_joinsTwice (h : hist.all ServerStep.joinsApart = true) :
    ∀ st ∈ hist, ¬ st.pre.JoinsTwice st.ev := by
  intro st hst htwice
  obtain ⟨i, c, env, user, nick, hev, hj, hused⟩ := htwice
  have hapart := List.all_eq_true.mp h st hst
  have hop : c.op = .chatdoor := hj.op
  have hform : c.leaves = false := hj.form
  simp only [ServerStep.joinsApart, ServerStep.commandIs, hev, hop, hform, ne_eq, not_true_eq_false, decide_false,
    Bool.false_or, decide_eq_true_eq] at hapart
  exact hused hapart

/-- The same as `Bound`, said of the room. -/
structure Seated (hist : List ServerStep) (s : Server) : Prop where
  apart : s.udata.room.Apart
  session : ∀ v t, s.udata.room v = some t → t.present →
    ∃ i, s.live i ∧ (s.clients i).fd = t.fd ∧ JoinedOn hist i v

theorem seated_iff_bound : Seated hist s ↔ Bound hist s := by
  constructor
  · intro h
    refine ⟨?_, fun e he hp => h.session e.user e.seat (Udata.room_of_mem he) hp⟩
    intro e he e' he' hp hp' hfd
    have huser := h.apart e.user e'.user e.seat e'.seat (Udata.room_of_mem he)
      (Udata.room_of_mem he') hp hp' hfd
    exact List.inj_on_of_nodup_map s.udata.nodup he he' huser
  · intro h
    refine ⟨?_, ?_⟩
    · intro v w a b ha hb hpa hpb hfd
      obtain ⟨e, he, hv, rfl⟩ := Udata.room_iff.mp ha
      obtain ⟨e', he', hw, rfl⟩ := Udata.room_iff.mp hb
      rw [← hv, ← hw, h.apart e he e' he' hpa hpb hfd]
    · intro v t ht hp
      obtain ⟨e, he, hv, rfl⟩ := Udata.room_iff.mp ht
      rw [← hv]
      exact h.session e he hp

/-- Somebody in chat on a connection is found there. -/
theorem udataGetByFd_of_seat {u : Udata} {fd : Int} {v : CString} {t : Seat CString}
    (ht : u.room v = some t) (hpres : t.present) (hfd : t.fd = fd) : u.udataGetByFd fd ≠ none := by
  intro hnone
  obtain ⟨e, he, -, rfl⟩ := Udata.room_iff.mp ht
  exact Udata.udataGetByFd_none hnone e he hpres hfd

/-- The connection of somebody who stays in chat is not closed. -/
theorem Turn.live_kept {ev : Event} {out : List Effect} (hs : s.Ok) (hapart : s.udata.room.Apart)
    (h : Turn mem s ev s' out) {v : CString} {t t' : Seat CString}
    (ht : s.udata.room v = some t) (hpres : t.present) (ht' : s'.udata.room v = some t')
    (hpres' : t'.present) (hlive : s.live i) (hfd : (s.clients i).fd = t.fd) :
    s'.live i ∧ (s'.clients i).fd = (s.clients i).fd ∧ ∀ newfd peer, ev = .accept newfd peer →
      s.acceptSlot ≠ some i := by
  cases h with
  | refused hfresh hslot =>
      refine ⟨hlive, rfl, ?_⟩
      intro _ _ _
      rw [hslot]
      simp
  | recvError => exact ⟨hlive, rfl, fun _ _ hev => by cases hev⟩
  | @accepted newfd peer k hfresh hslot =>
      have hne : i ≠ k := by
        intro hik
        rw [hik] at hlive
        exact Server.not_live_acceptSlot hslot hlive
      have hnewfd : newfd ≠ -1 := by
        have := hs.servfd
        have := hfresh.1
        omega
      refine ⟨(Server.live_accept_iff hslot hnewfd peer i).mpr (Or.inr hlive), ?_, ?_⟩
      · rw [Server.accept_clients hslot, if_neg hne]
      · intro _ _ _ hsome
        rw [hslot] at hsome
        exact hne (Option.some.inj hsome).symm
  | @closed k alloc hklive hnone =>
      have hne : i ≠ k := by
        intro hik
        rw [hik] at hfd
        exact udataGetByFd_of_seat ht hpres hfd.symm hnone
      refine ⟨(s.live_closeSlot_iff k i).mpr ⟨hne, hlive⟩, ?_, fun _ _ hev => by cases hev⟩
      rw [s.closeSlot_ne hne]
  | @hungUp k alloc e hklive hent =>
      have hne : i ≠ k := by
        intro hik
        obtain ⟨hmem, hefd, hepres⟩ := Udata.udataGetByFd_some hent
        have hv : e.user = v := by
          refine hapart e.user v e.seat t (Udata.room_of_mem hmem) ht hepres hpres ?_
          rw [UdataEnt.seat_fd, hefd, ← hik, hfd]
        subst hv
        have hleft : (Act.leave e.user).apply (s.clients k).fd s.udata.room e.user = some t' := by
          rw [← room_hungUp alloc hent]
          exact ht'
        exact Act.apply_left (Or.inl rfl) hleft hpres'
      refine ⟨(Server.live_closeSlot_iff _ k i).mpr ⟨hne, hlive⟩, ?_, fun _ _ hev => by cases hev⟩
      rw [Server.closeSlot_ne _ hne]
  | @netcmd k c env o act hklive hmem hcall hdoes =>
      have hkept : (s.settle o).1.live i := by
        refine (Server.live_settle_iff s o i).mpr ⟨?_, hlive⟩
        intro hkick
        rcases hdoes.1.kicks with hneg | ⟨e, he, hact, hret⟩
        · rw [Server.kicked_neg hneg] at hkick
          simp at hkick
        · -- the one who is kicked out has the descriptor of the slot that is closed
          rw [hret] at hkick
          have hefd : (s.clients i).fd = e.fd := Server.kicked_kickSlot_some hkick
          obtain ⟨hmem, -, -, -, hepres⟩ := Udata.udataGetByNick_some he
          have hv : e.user = v := by
            refine hapart e.user v e.seat t (Udata.room_of_mem hmem) ht hepres hpres ?_
            rw [UdataEnt.seat_fd, ← hefd, hfd]
          rw [hv] at hact
          have hroom : (s.settle o).1.udata.room = act.apply (s.clients k).fd s.udata.room := hdoes.2
          rw [hroom] at ht'
          exact Act.apply_left (Or.inr hact) ht' hpres'
      exact ⟨hkept, by rw [Server.settle_client s hkept], fun _ _ hev => by cases hev⟩

/-- One event keeps users and connections together, unless it is a join on a used one. -/
theorem Seated.step {ev : Event} {out : List Effect} (hs : s.Ok) (h : Seated hist s)
    (hturn : Turn mem s ev s' out) (hok : ¬ s.JoinsTwice ev) :
    Seated (⟨s, ev, s', out⟩ :: hist) s' := by
  obtain ⟨fd, act, -, -, hroom, hjoin⟩ := hturn.act hs
  refine ⟨?_, ?_⟩
  · rw [hroom]
    refine h.apart.apply ?_
    intro v nick hact w t ht hpres hfd
    obtain ⟨i, c, env, anick, hev, -, hifd, hj⟩ := hjoin v nick hact
    exact hok ⟨i, c, env, v, anick, hev, hj, udataGetByFd_of_seat ht hpres (hfd.trans hifd.symm)⟩
  · intro v t' ht' hpres'
    have hsplit := ht'
    rw [hroom] at hsplit
    rcases Act.apply_present hsplit hpres' with ⟨nick, hact, rfl⟩ | ⟨t, ht, hpres, hfd⟩
    · -- the one who has just joined
      obtain ⟨i, c, env, anick, rfl, hlive, rfl, hj⟩ := hjoin v nick hact
      cases hturn with
      | @netcmd _ _ _ o act' _ hmem hcall hdoes =>
          have hfd0 : 0 ≤ (s.clients i).fd := le_of_lt (hs.fd_pos hlive)
          have hnokick := live_of_joins hcall hj hlive hfd0
          refine ⟨i, hnokick, by rw [Server.settle_client s hnokick], ?_⟩
          exact ⟨[], _, hist, rfl, joinAcked_of_joins hcall hj hfd0, by simp⟩
    · obtain ⟨i, hlive, hifd, hon⟩ := h.session v t ht hpres
      obtain ⟨hlive', hifd', hacc⟩ :=
        hturn.live_kept hs h.apart ht hpres ht' hpres' hlive hifd
      refine ⟨i, hlive', by rw [hifd', hifd, hfd], hon.cons ?_⟩
      intro hinto
      obtain ⟨newfd, peer, hev, hslot⟩ := hinto
      exact hacc newfd peer hev hslot

/-- Runs without a join on a used connection keep users and connections together. -/
theorem seated_run (h : Run (server mem) hist s) (hok : ∀ st ∈ hist, ¬ st.pre.JoinsTwice st.ev) :
    Seated hist s := by
  obtain ⟨s₀, h₀, hx⟩ := h
  refine (hx.history (fun hist s => s.Ok ∧ Seated hist s) (fun st => ¬ st.pre.JoinsTwice st.ev)
    ⟨ok_initial h₀, ?_⟩ ?_ hok).2
  · obtain ⟨servfd, -, rfl⟩ := h₀
    refine ⟨?_, ?_⟩
    · intro v w a b ha
      simp [Server.initial] at ha
    · intro v t ht
      simp [Server.initial] at ht
  · intro hist s ev s' out hP hstep hst
    have hturn := step_turn hP.1 hstep
    exact ⟨hturn.ok hP.1, hP.2.step hP.1 hturn hst⟩

/-- A join on a used connection puts two users on it. -/
theorem not_bound_of_joinsTwice {ev : Event} {out : List Effect} (hs : s.Ok)
    (hstep : (server mem).step s ev = some (s', out)) (htwice : s.JoinsTwice ev) :
    ¬ Bound (⟨s, ev, s', out⟩ :: hist) s' := by
  intro hbound
  obtain ⟨i, c, env, user, anick, rfl, hj, hused⟩ := htwice
  have hapart := (seated_iff_bound.mpr hbound).apart
  obtain ⟨e, he⟩ := Option.ne_none_iff_exists'.mp hused
  obtain ⟨hmem, hefd, hepres⟩ := Udata.udataGetByFd_some he
  cases step_turn hs hstep with
  | @netcmd _ _ _ o act hlive hmem' hcall hdoes =>
      obtain ⟨nick, -, -, -, hroom⟩ := hj.handled (le_of_lt (hs.fd_pos hlive)) hcall
      have hroom' : (s.settle o).1.udata.room
          = s.udata.room.set user ⟨(s.clients i).fd, nick, udcFlagPresent⟩ := hroom
      have hne : e.user ≠ user := by
        intro hu
        have hseat : s.udata.room user = some e.seat := by
          rw [← hu]
          exact Udata.room_of_mem hmem
        exact (hj.seat e.seat hseat).2 hepres
      refine hne (hapart e.user user e.seat ⟨(s.clients i).fd, nick, udcFlagPresent⟩ ?_ ?_ hepres
        ?_ hefd)
      · rw [hroom', Room.set_ne _ hne]
        exact Udata.room_of_mem hmem
      · rw [hroom', Room.set_self]
      · simp [Seat.present, Seat.has, udcFlagPresent]

/--
**Users and connections belong together in every state of a run, if and only if the
run has no join on a connection that is used by somebody in chat.**
-/
theorem bound_iff (h : Run (server mem) hist s) :
    (∀ later earlier s', hist = later ++ earlier → Run (server mem) earlier s' →
      Exec (server mem) s' later s → Bound earlier s') ↔
      ∀ st ∈ hist, ¬ st.pre.JoinsTwice st.ev := by
  constructor
  · intro hall st hst htwice
    obtain ⟨later, earlier, rfl⟩ := List.append_of_mem hst
    obtain ⟨hrun, hstep, hrest⟩ := h.split
    refine not_bound_of_joinsTwice (run_ok hrun) hstep htwice
      (hall later (st :: earlier) st.post rfl (hrun.snoc hstep) hrest)
  · intro hok later earlier s' hhist hrun _
    refine seated_iff_bound.mp (seated_run hrun fun st hst => hok st ?_)
    rw [hhist]
    exact List.mem_append_right _ hst

/-- A connection from here arrives. -/
def arrives (newfd : Int) : Event := .accept newfd ⟨127, 0, 0, 1⟩

/-- A `CHATDOOR` with the names of a user and of a nick. -/
def enters (i : Slot) (user nick : Bytes) : Event := .netcmd i ⟨.chatdoor, [user, nick]⟩ .bare

/-- Two users in chat, on two connections. -/
def twoUsers : List Event := [arrives 4, arrives 5, enters 0 [97] [97], enters 1 [98] [98]]

/-- One join on one connection. -/
theorem bound_one_join : ∃ hist s, Run (server .enough) hist s ∧ hist.length = 2 ∧
    Bound hist s := by
  have hrun : (exec (server .enough) (.initial 3) [arrives 4, enters 0 [97] [97]] []).map
      (fun r => (r.1.length, r.1.all ServerStep.joinsApart)) = some (2, true) := by
    decide +kernel
  obtain ⟨⟨hist, s⟩, hexec, hproj⟩ := Option.map_eq_some_iff.mp hrun
  rw [Prod.mk.injEq] at hproj
  have h : Run (server .enough) hist s := run_of_exec hexec
  exact ⟨hist, s, h, hproj.1, (bound_iff h).mpr (not_joinsTwice hproj.2) [] hist s rfl h .nil⟩

/-- Two users join on one connection, and when it closes one of them stays in chat. -/
theorem not_bound_two_joins : ∃ hist s, Run (server .enough) hist s ∧ ¬ Bound hist s := by
  have hrun : (exec (server .enough) (.initial 3)
      [arrives 4, enters 0 [97] [97], enters 0 [98] [98], .closed 0 fun _ => true] []).map
      (fun r => r.2.udata.ents.any fun e => e.has udcFlagPresent &&
        (List.finRange maxClients).all fun i =>
          decide (¬ (r.2.live i ∧ (r.2.clients i).fd = e.fd))) = some true := by
    decide +kernel
  obtain ⟨⟨hist, s⟩, hexec, hproj⟩ := Option.map_eq_some_iff.mp hrun
  refine ⟨hist, s, run_of_exec hexec, ?_⟩
  intro hbound
  obtain ⟨e, he, hleft⟩ := List.any_eq_true.mp hproj
  rw [Bool.and_eq_true] at hleft
  obtain ⟨i, hlive, hfd, -⟩ := hbound.session e he hleft.1
  exact of_decide_eq_true (List.all_eq_true.mp hleft.2 i (List.mem_finRange i)) ⟨hlive, hfd⟩

/-! ### Nicks -/

/-- With memory for the nicks of those who join, nicks are unique. -/
theorem run_nicks (h : Run (server mem) hist s) (hmem : ∀ st ∈ hist, st.pre.StoresNick st.ev) :
    s.udata.room.NicksUnique := by
  obtain ⟨acts, hacts⟩ := run_room h fun st hst (_ : True) => hmem st hst
  exact room_nicks hacts

theorem storesNick_of_enough (h : Run (server .enough) hist s) :
    ∀ st ∈ hist, st.pre.StoresNick st.ev := by
  intro st hst i c env user nick hev _
  obtain ⟨later, earlier, rfl⟩ := List.append_of_mem hst
  obtain ⟨-, hstep, -⟩ := h.split
  rw [hev] at hstep
  have hfull : env.alloc.full = true := (step_netcmd hstep).2.1
  simp only [Alloc.full, Bool.and_eq_true] at hfull
  exact hfull.2

theorem eq_of_nick {u : Udata} (h : u.room.NicksUnique) {e e' : UdataEnt} (he : e ∈ u.ents)
    (he' : e' ∈ u.ents) (hp : e.has udcFlagPresent = true) (hp' : e'.has udcFlagPresent = true)
    (hnick : e.nick = e'.nick) : e = e' := by
  have huser := h.unique e.user e'.user e.seat e'.seat (Udata.room_of_mem he)
    (Udata.room_of_mem he') hp hp' hnick
  exact List.inj_on_of_nodup_map u.nodup he he' huser

/-- Somebody in chat is found by its nick. -/
theorem udataGetByNick_present {u : Udata} (h : u.room.NicksUnique) {e : UdataEnt}
    (he : e ∈ u.ents) (hp : e.has udcFlagPresent = true) {nick : CString}
    (hnick : e.nick = some nick) : u.udataGetByNick (some nick) = some e := by
  cases hget : u.udataGetByNick (some nick) with
  | none =>
      have hfd := h.fd e.user e.seat (Udata.room_of_mem he) hp
      exact absurd hnick (Udata.udataGetByNick_none hget e he hp hfd)
  | some e' =>
      obtain ⟨hmem, hn, -, -, hp'⟩ := Udata.udataGetByNick_some hget
      rw [eq_of_nick h hmem he hp' hp (by rw [← hn, hnick])]

/--
**Nicks are unique.**  With memory, in every run, those in chat have a connection and
a nick, no two of them the same nick, and looking for the nick of one finds that one.
-/
theorem nicks_unique (h : Run (server .enough) hist s) :
    (∀ e ∈ s.udata.ents, e.has udcFlagPresent → 0 ≤ e.fd ∧ e.nick ≠ none) ∧
      (∀ e ∈ s.udata.ents, ∀ e' ∈ s.udata.ents, e.has udcFlagPresent → e'.has udcFlagPresent →
        e.nick = e'.nick → e = e') ∧
      ∀ e ∈ s.udata.ents, e.has udcFlagPresent → ∀ nick, e.nick = some nick →
        s.udata.udataGetByNick (some nick) = some e := by
  have hnicks := run_nicks h (storesNick_of_enough h)
  refine ⟨?_, fun e he e' he' hp hp' hnick => eq_of_nick hnicks he he' hp hp' hnick,
    fun e he hp nick hnick => udataGetByNick_present hnicks he hp hnick⟩
  intro e he hp
  have hroom := Udata.room_of_mem he
  exact ⟨hnicks.fd e.user e.seat hroom hp, hnicks.nick e.user e.seat hroom hp⟩

/-- Two users in chat, on two connections. -/
theorem nicks_unique_two : ∃ hist s, Run (server .enough) hist s ∧ s.udata.ents.length = 2 ∧
    ∀ e ∈ s.udata.ents, e.has udcFlagPresent → 0 ≤ e.fd ∧ e.nick ≠ none := by
  have hrun : (exec (server .enough) (.initial 3) twoUsers []).map
      (fun r => r.2.udata.ents.length) = some 2 := by
    decide +kernel
  obtain ⟨⟨hist, s⟩, hexec, hproj⟩ := Option.map_eq_some_iff.mp hrun
  have h : Run (server .enough) hist s := run_of_exec hexec
  exact ⟨hist, s, h, hproj, (nicks_unique h).1⟩

/-! ### Whose session it is -/

/-- What a command must leave alone: the chat part of an entry. -/
def UdataEnt.Kept (e : UdataEnt) (u : Udata) : Prop :=
  ∃ e' ∈ u.ents, e'.user = e.user ∧ e'.fd = e.fd ∧ e'.nick = e.nick ∧ e'.flags = e.flags

theorem kept_iff {e : UdataEnt} {u : Udata} : e.Kept u ↔ u.room e.user = some e.seat := by
  rw [Udata.room_iff]
  refine exists_congr fun e' => and_congr_right fun _ => and_congr_right fun _ => ?_
  rw [UdataEnt.seat, UdataEnt.seat, Seat.mk.injEq]

/-- No operator is in chat on the connection of slot `i`. -/
def Server.NoOperator (s : Server) (i : Slot) : Prop :=
  ∀ e ∈ s.udata.ents, e.has udcFlagPresent → e.fd = (s.clients i).fd →
    e.has udcFlagOperator = false

/-- A `CHATDOOR` that asks to leave, for somebody who is in chat on another connection. -/
def Server.LeavesForeign (s : Server) (i : Slot) (c : NetCmd) : Prop :=
  c.get = .chatdoor ∧ c.leaves = true ∧ ∃ e ∈ s.udata.ents, e.has udcFlagPresent ∧
    e.fd ≠ (s.clients i).fd ∧ c.doorUser = some e.user

/-- An act about nobody on another connection. -/
theorem Deed.keeps {c : NetCmd} {env : Env} {o : Outcome} {act : Act CString CString}
    (h : Deed (s.call i c env) o act) (hop : s.NoOperator i) (hforeign : ¬ s.LeavesForeign i c)
    {e : UdataEnt} (he : e ∈ s.udata.ents) (hpres : e.has udcFlagPresent)
    (hfd : e.fd ≠ (s.clients i).fd) : act.subject ≠ some e.user := by
  have hsender : ∀ {e' : UdataEnt}, (s.call i c env).Sender e' → e'.user ≠ e.user := by
    intro e' hs hu
    obtain ⟨hmem, hfd', -⟩ := Udata.udataGetByFd_some hs
    rw [List.inj_on_of_nodup_map s.udata.nodup hmem he hu] at hfd'
    exact hfd hfd'
  have hroom : s.udata.room e.user = some e.seat := Udata.room_of_mem he
  cases h with
  | idle => simp [Act.subject]
  | @enrol user hnew =>
      intro hu
      rw [Act.subject, Option.some.injEq] at hu
      have hnew' : s.udata.room user = none := hnew
      rw [hu, hroom] at hnew'
      simp at hnew'
  | @join user _ _ hj =>
      intro hu
      rw [Act.subject, Option.some.injEq] at hu
      refine (hj.seat e.seat ?_).2 hpres
      rw [hu]
      exact hroom
  | @leave user _ _ hl =>
      intro hu
      rw [Act.subject, Option.some.injEq] at hu
      exact hforeign ⟨hl.op, hl.form, e, he, hpres, hfd, by rw [← hu]; exact hl.named⟩
  | rename hs => exact fun hu => hsender hs (Option.some.inj hu)
  | away hs => exact fun hu => hsender hs (Option.some.inj hu)
  | oper hs => exact fun hu => hsender hs (Option.some.inj hu)
  | mode hs hoper =>
      obtain ⟨hmem, hfd', hp⟩ := Udata.udataGetByFd_some hs
      have hnot := hop _ hmem hp hfd'
      rw [hoper] at hnot
      simp at hnot

/--
**Only its own connection ends or alters a session, except that a `CHATDOOR` ends
the session of the user it names.**
-/
theorem others_kept_iff (h : Run (server mem) hist s) {c : NetCmd} {env : Env}
    {out : List Effect} (hstep : (server mem).step s (.netcmd i c env) = some (s', out))
    (hop : s.NoOperator i) :
    (∀ e ∈ s.udata.ents, e.has udcFlagPresent → e.fd ≠ (s.clients i).fd → e.Kept s'.udata) ↔
      ¬ s.LeavesForeign i c := by
  cases step_turn (run_ok h) hstep with
  | @netcmd _ _ _ o act hlive hmem hcall hdoes =>
      constructor
      · intro hall hforeign
        obtain ⟨hcop, hform, e, he, hpres, hfd, huser⟩ := hforeign
        have hroom : s.udata.room e.user = some e.seat := Udata.room_of_mem he
        have hl : (s.call i c env).Leaves e.user e.seat := ⟨hcop, hform, huser, hroom, hpres⟩
        have hleft := (does_leave hl).2
        rw [lsHandleNetcmd_chatdoor hl.op, Except.ok.injEq] at hcall
        rw [hcall] at hleft
        have hkept := kept_iff.mp (hall e he hpres hfd)
        rw [Server.settle_udata, hleft] at hkept
        exact Act.apply_left (Or.inl rfl) hkept hpres
      · intro hforeign e he hpres hfd
        rw [kept_iff, Server.settle_udata, hdoes.2,
          Act.apply_ne (hdoes.1.keeps hop hforeign he hpres hfd)]
        exact Udata.room_of_mem he

/-- Two users in chat; the second one steps away, and the first one is left alone. -/
theorem others_kept_away : ∃ hist s s' out, Run (server .enough) hist s ∧
    (server .enough).step s (.netcmd 1 ⟨.cAway, []⟩ .bare) = some (s', out) ∧
    ∀ e ∈ s.udata.ents, e.has udcFlagPresent → e.fd ≠ (s.clients 1).fd → e.Kept s'.udata := by
  have hrun : (exec (server .enough) (.initial 3) twoUsers []).map
      (fun r => (((server .enough).step r.2 (.netcmd 1 ⟨.cAway, []⟩ .bare)).isSome,
        r.2.udata.ents.all fun e => !e.has udcFlagOperator)) = some (true, true) := by
    decide +kernel
  obtain ⟨⟨hist, s⟩, hexec, hproj⟩ := Option.map_eq_some_iff.mp hrun
  rw [Prod.mk.injEq] at hproj
  have h : Run (server .enough) hist s := run_of_exec hexec
  obtain ⟨⟨s', out⟩, hstep⟩ := Option.isSome_iff_exists.mp hproj.1
  refine ⟨hist, s, s', out, h, hstep, (others_kept_iff h hstep ?_).mpr ?_⟩
  · intro e he _ _
    simpa using List.all_eq_true.mp hproj.2 e he
  · intro hforeign
    have hop : NCMDOp.cAway = NCMDOp.chatdoor := hforeign.1
    simp at hop

/-- A connection that has not joined ends the session of the user in chat. -/
theorem not_kept_foreign_leave : ∃ hist s s' out e, Run (server .enough) hist s ∧
    (server .enough).step s (.netcmd 1 ⟨.chatdoor, [[97]]⟩ .bare) = some (s', out) ∧
    s.NoOperator 1 ∧ e ∈ s.udata.ents ∧ e.has udcFlagPresent = true ∧
    e.fd ≠ (s.clients 1).fd ∧ ¬ e.Kept s'.udata := by
  have hrun : (exec (server .enough) (.initial 3)
      [arrives 4, arrives 5, enters 0 [97] [97]] []).map
      (fun r => (r.2.udata.ents.all fun e => !e.has udcFlagOperator,
        r.2.udata.ents.any fun e => e.has udcFlagPresent && decide (e.fd ≠ (r.2.clients 1).fd) &&
          match (server .enough).step r.2 (.netcmd 1 ⟨.chatdoor, [[97]]⟩ .bare) with
          | none => false
          | some (s', _) => s'.udata.ents.all fun e' => decide (e'.flags ≠ e.flags)))
      = some (true, true) := by
    decide +kernel
  obtain ⟨⟨hist, s⟩, hexec, hproj⟩ := Option.map_eq_some_iff.mp hrun
  rw [Prod.mk.injEq] at hproj
  obtain ⟨e, he, hleft⟩ := List.any_eq_true.mp hproj.2
  cases hstep : (server .enough).step s (.netcmd 1 ⟨.chatdoor, [[97]]⟩ .bare) with
  | none => simp [hstep] at hleft
  | some r =>
      obtain ⟨s', out⟩ := r
      simp only [hstep, Bool.and_eq_true, decide_eq_true_eq] at hleft
      obtain ⟨⟨hpres, hfd⟩, hflags⟩ := hleft
      refine ⟨hist, s, s', out, e, run_of_exec hexec, hstep, ?_,
        he, hpres, hfd, ?_⟩
      · intro e' he' _ _
        simpa using List.all_eq_true.mp hproj.1 e' he'
      · intro hkept
        obtain ⟨e', he', -, -, -, hsame⟩ := hkept
        exact of_decide_eq_true (List.all_eq_true.mp hflags e' he') hsame

end Smsg
