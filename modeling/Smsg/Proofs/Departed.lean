/-
What the store keeps of users who have left.

`smsg.h` has it that the descriptor of an entry is reset when its user leaves the chat
or the connection goes.  The four places that take somebody out of the chat ask
`udata_update` for the descriptor -1, which that function takes for a field that is to
be left alone.  So the first user who goes keeps a descriptor that the system hands out
again, and in a run nobody is without a session and with a descriptor just as long as
nobody has gone (`reset_iff`).
-/
import Smsg.Proofs.Membership

namespace Smsg

open Machines

/-! ### Seats that nobody is on -/

section

variable {User Nick : Type*} [DecidableEq User] {r : Room User Nick} {fd : Int}
  {act : Act User Nick} {user : User} {t : Seat Nick}

/-- Whoever is not in the room has no descriptor. -/
def Room.Vacated (r : Room User Nick) : Prop := ∀ v t, r v = some t → ¬ t.present → t.fd = -1

/-- The user whom an act takes out of the room. -/
def Act.removes : Act User Nick → Option User
  | .leave user | .kick user | .ban user => some user
  | _ => none

omit [DecidableEq User] in
theorem Act.removes_eq (h : act.removes = some user) :
    act = .leave user ∨ act = .kick user ∨ act = .ban user := by
  cases act <;> simp [removes] at h <;> subst h <;> simp

theorem Room.Vacated.set (hr : r.Vacated) (h : ¬ t.present → t.fd = -1) :
    (r.set user t).Vacated := by
  intro v s hs hgone
  by_cases hv : v = user
  · rw [hv, Room.set_self, Option.some.injEq] at hs
    rw [← hs] at hgone ⊢
    exact h hgone
  · rw [Room.set_ne _ hv] at hs
    exact hr v s hs hgone

/-- Flags that do not say who is present do not matter. -/
theorem Room.Vacated.mapFlags (hr : r.Vacated) {f : Flags → Flags}
    (h : ∀ g, f g &&& udcFlagPresent = g &&& udcFlagPresent) :
    Room.Vacated (r.modify user (·.mapFlags f)) := by
  cases hs : r user with
  | none =>
      intro v t ht
      by_cases hv : v = user
      · rw [hv, Room.modify_self, hs] at ht
        simp at ht
      · rw [Room.modify_ne _ hv] at ht
        exact hr v t ht
  | some s =>
      rw [Room.modify_eq_set hs]
      refine hr.set fun hgone => hr user s hs ?_
      have hbit : (s.mapFlags f).has udcFlagPresent = s.has udcFlagPresent := by
        rw [Seat.has, Seat.mapFlags_flags, h, Seat.has]
      rwa [Seat.present, hbit] at hgone

/-- **An act that takes nobody out leaves no descriptor behind.** -/
theorem Room.Vacated.apply (hr : r.Vacated) (hp : act.permits fd r) (hact : act.removes = none) :
    (act.apply fd r).Vacated := by
  cases act with
  | idle => exact hr
  | enrol user => exact hr.set fun _ => rfl
  | join user nick =>
      refine hr.set fun hgone => absurd ?_ hgone
      simp [Seat.present, Seat.has, udcFlagPresent]
  | rename user nick =>
      obtain ⟨s, hs, hpres, -⟩ := hp
      rw [Act.apply, Room.modify_eq_set hs]
      exact hr.set fun hgone => absurd hpres hgone
  | away user => exact hr.mapFlags toggleAway_other
  | oper user => exact hr.mapFlags (setFlags_other (by decide))
  | op user => exact hr.mapFlags (setFlags_other (by decide))
  | deop user => exact hr.mapFlags (clearFlags_other (by decide))
  | unban user => exact hr.mapFlags (clearFlags_other (by decide))
  | leave user => simp [Act.removes] at hact
  | kick user => simp [Act.removes] at hact
  | ban user => simp [Act.removes] at hact

theorem Act.apply_removes (fd : Int) (h : act.removes = some user) (ht : r user = some t) :
    ∃ t', act.apply fd r user = some t' ∧ t'.fd = t.fd ∧ ¬ t'.present := by
  have hact := Act.removes_eq h
  obtain ⟨f, hf⟩ : ∃ f, act.apply fd r user = some (t.mapFlags f) := by
    rcases hact with rfl | rfl | rfl <;> rw [Act.apply, Room.modify_self, ht] <;> exact ⟨_, rfl⟩
  exact ⟨_, hf, rfl, Act.apply_left hact hf⟩

end

/-! ### Descriptors in the store -/

variable {mem : Memory} {hist : List ServerStep} {s s' : Server} {ev : Event} {out : List Effect}

/-- Every entry of somebody who is not in chat has been reset. -/
def Udata.Reset (u : Udata) : Prop := ∀ e ∈ u.ents, e.has udcFlagPresent = false → e.fd = -1

theorem Udata.reset_iff_vacated {u : Udata} : u.Reset ↔ u.room.Vacated := by
  constructor
  · intro h v t ht hgone
    obtain ⟨e, he, -, rfl⟩ := Udata.room_iff.mp ht
    exact h e he (by simpa [Seat.present] using hgone)
  · intro h e he hgone
    exact h e.user e.seat (Udata.room_of_mem he) (by simp [Seat.present, hgone])

/-- The event takes somebody out of the chat. -/
inductive Server.TakesOut (s : Server) : Event → Prop
  | hungUp {i : Slot} {alloc : Alloc} {e : UdataEnt}
      (hent : s.udata.udataGetByFd (s.clients i).fd = some e) : TakesOut s (.closed i alloc)
  | left {i : Slot} {c : NetCmd} {env : Env} {user : CString} {t : Seat CString}
      (h : (s.call i c env).Leaves user t) : TakesOut s (.netcmd i c env)
  | thrown {i : Slot} {c : NetCmd} {env : Env} {e t : UdataEnt} (hop : c.get = .cKick ∨ c.get = .cBan)
      (hs : (s.call i c env).Sender e) (hoper : e.has udcFlagOperator = true)
      (ht : (s.call i c env).Target t) : TakesOut s (.netcmd i c env)

/-- What happens to whom is taken out. -/
theorem Turn.takesOut (h : Turn mem s ev s' out) (hout : s.TakesOut ev) :
    ∃ (fd : Int) (act : Act CString CString) (user : CString) (t : Seat CString),
      act.removes = some user ∧ s.udata.room user = some t ∧ t.present ∧
      s'.udata.room = act.apply fd s.udata.room := by
  cases hout with
  | hungUp hent =>
      cases h with
      | closed _ hnone =>
          rw [hnone] at hent
          simp at hent
      | hungUp _ hent' =>
          obtain ⟨t, ht, hpres, -⟩ := Udata.udataGetByFd_sits hent'
          exact ⟨_, _, _, t, rfl, ht, hpres, room_hungUp _ hent'⟩
  | left hl =>
      cases h with
      | netcmd hlive hmem hcall hdoes =>
          rw [lsHandleNetcmd_chatdoor hl.op, Except.ok.injEq] at hcall
          have hroom := (does_leave hl).2
          rw [hcall] at hroom
          exact ⟨_, _, _, _, rfl, hl.seat, hl.present, hroom⟩
  | @thrown i c env e t hop hs hoper ht =>
      cases h with
      | netcmd hlive hmem hcall hdoes =>
          have hops : c.op.isChatcmd = true ∧ c.op ∈ modeOps := by
            rcases hop with hop | hop <;> rw [show c.op = _ from hop] <;> decide
          have hmode : handleChatcmd (s.call i c env) = chatMode (s.call i c env) := by
            rcases hop with hop | hop <;>
              rw [handleChatcmd, show (s.call i c env).cmd.get = _ from hop]
          have hsend : s.udata.udataGetByFd (s.clients i).fd = some e := hs
          rw [lsHandleNetcmd_present hops.1 hsend, hmode] at hcall
          obtain ⟨act, hact, -, hroom⟩ := does_mode hops.2 hs hoper ht hcall
          obtain ⟨seat, hseat, hpres, -⟩ := Udata.udataGetByNick_named ht
          refine ⟨_, act, t.user, seat, ?_, hseat, hpres, hroom⟩
          have hact' : modeAct c.get t.user = some act := hact
          rcases hop with hop | hop <;> rw [hop] at hact' <;> rw [← Option.some.inj hact'] <;> rfl

/-- There is no other way out. -/
theorem Turn.takesNobody (hs : s.Ok) (h : Turn mem s ev s' out) (hno : ¬ s.TakesOut ev) :
    ∃ (fd : Int) (act : Act CString CString), act.permits fd s.udata.room ∧ act.removes = none ∧
      s'.udata.room = act.apply fd s.udata.room := by
  cases h with
  | refused => exact ⟨0, .idle, trivial, rfl, rfl⟩
  | recvError => exact ⟨0, .idle, trivial, rfl, rfl⟩
  | accepted =>
      refine ⟨0, .idle, trivial, rfl, ?_⟩
      rw [Server.accept_udata]
      rfl
  | closed => exact ⟨0, .idle, trivial, rfl, rfl⟩
  | hungUp _ hent => exact absurd (.hungUp hent) hno
  | @netcmd i c env o act hlive hmem hcall hdoes =>
      refine ⟨(s.clients i).fd, act, hdoes.1.permits (le_of_lt (hs.fd_pos hlive)), ?_, hdoes.2⟩
      cases hdoes.1 with
      | leave hl => exact absurd (.left hl) hno
      | mode hsend hoper _ ht hact =>
          cases hop : (s.call i c env).cmd.op <;> simp [modeAct, hop] at hact <;> subst hact
          case cKick => exact absurd (.thrown (Or.inl hop) hsend hoper ht) hno
          case cBan => exact absurd (.thrown (Or.inr hop) hsend hoper ht) hno
          all_goals rfl
      | _ => rfl

theorem Turn.reset (hs : s.Ok) (h : Turn mem s ev s' out) (hno : ¬ s.TakesOut ev)
    (hreset : s.udata.Reset) : s'.udata.Reset := by
  obtain ⟨fd, act, hp, hact, hroom⟩ := h.takesNobody hs hno
  rw [Udata.reset_iff_vacated] at hreset ⊢
  rw [hroom]
  exact hreset.apply hp hact

/-- Taking somebody out breaks it: those in chat have a descriptor, and it stays. -/
theorem Turn.not_reset (hs : s.Ok) (h : Turn mem s ev s' out) (hout : s.TakesOut ev) :
    ¬ s'.udata.Reset := by
  obtain ⟨fd, act, user, t, hact, ht, hpres, hroom⟩ := h.takesOut hout
  obtain ⟨t', ht', hfd, hgone⟩ := Act.apply_removes fd hact ht
  rw [Udata.reset_iff_vacated]
  intro hvac
  have hminus := hvac user t' (by rw [hroom, ht']) hgone
  have habove := hs.seats user t ht hpres
  have hserv := hs.servfd
  omega

/-- Runs that take nobody out keep the rule. -/
theorem reset_run (h : Run (server mem) hist s) (hno : ∀ st ∈ hist, ¬ st.pre.TakesOut st.ev) :
    s.udata.Reset := by
  obtain ⟨s₀, h₀, hx⟩ := h
  refine (hx.invariant (fun s => s.Ok ∧ s.udata.Reset) (fun st => ¬ st.pre.TakesOut st.ev)
    ⟨ok_initial h₀, ?_⟩ ?_ hno).2
  · obtain ⟨servfd, -, rfl⟩ := h₀
    intro e he
    simp [Server.initial, Udata.empty] at he
  · intro s ev s' out hP hstep hst
    have hturn := step_turn hP.1 hstep
    exact ⟨hturn.ok hP.1, hturn.reset hP.1 hst hP.2⟩

/--
**Descriptors are reset in every state of a run, if and only if the run takes nobody out
of the chat**: no user leaves, hangs up, or is kicked or banned.
-/
theorem reset_iff (h : Run (server mem) hist s) :
    (∀ later earlier s', hist = later ++ earlier → Run (server mem) earlier s' →
      Exec (server mem) s' later s → s'.udata.Reset) ↔
      ∀ st ∈ hist, ¬ st.pre.TakesOut st.ev := by
  constructor
  · intro hall st hst hout
    obtain ⟨later, earlier, rfl⟩ := List.append_of_mem hst
    obtain ⟨hrun, hstep, hrest⟩ := h.split
    have hturn := step_turn (run_ok hrun) hstep
    exact hturn.not_reset (run_ok hrun) hout
      (hall later (st :: earlier) st.post rfl (hrun.snoc hstep) hrest)
  · intro hno later earlier s' hhist hrun _
    refine reset_run hrun fun st hst => hno st ?_
    rw [hhist]
    exact List.mem_append_right _ hst

/-- No leave, no kick and no ban, and no connection is closed. -/
def Event.stays : Event → Bool
  | .closed _ _ => false
  | .netcmd _ c _ => !c.leaves && decide (c.get ≠ .cKick ∧ c.get ≠ .cBan)
  | _ => true

theorem not_takesOut (h : ev.stays = true) : ¬ s.TakesOut ev := by
  intro hout
  cases hout with
  | hungUp => simp [Event.stays] at h
  | left hl =>
      rename_i i c env user t
      have hform : c.leaves = true := hl.form
      simp [Event.stays, hform] at h
  | thrown hop => rcases hop with hop | hop <;> simp [Event.stays, hop] at h

/-- Two users ask for one nick: the second one is not let in, but has an entry from then on. -/
theorem reset_second_refused : ∃ hist s, Run (server .enough) hist s ∧
    (∃ e ∈ s.udata.ents, e.has udcFlagPresent = true) ∧
    ∃ e ∈ s.udata.ents, e.has udcFlagPresent = false ∧ e.fd = -1 := by
  have hrun : (exec (server .enough) (.initial 3)
      [arrives 4, enters 0 [97] [97], arrives 5, enters 1 [98] [97]] []).any (fun r =>
        r.1.all (fun st => st.ev.stays) &&
        r.2.udata.ents.any (fun e => e.has udcFlagPresent) &&
        r.2.udata.ents.any fun e => !e.has udcFlagPresent) = true := by
    decide +kernel
  simp only [Option.any_eq_true, Bool.and_eq_true] at hrun
  obtain ⟨⟨hist, s⟩, hexec, ⟨hstays, hpres⟩, hgone⟩ := hrun
  have h : Run (server .enough) hist s := run_of_exec hexec
  have hreset : s.udata.Reset := (reset_iff h).mpr
    (fun st hst => not_takesOut (List.all_eq_true.mp hstays st hst)) [] hist s rfl h .nil
  obtain ⟨e, he, hout⟩ := List.any_eq_true.mp hgone
  rw [Bool.not_eq_true'] at hout
  exact ⟨hist, s, h, List.any_eq_true.mp hpres, e, he, hout, hreset e he hout⟩

/-- One user joins and hangs up: its entry keeps descriptor 4. -/
theorem not_reset_hungUp : ∃ hist s, Run (server .enough) hist s ∧ ¬ s.udata.Reset := by
  have hrun : (exec (server .enough) (.initial 3)
      [arrives 4, enters 0 [97] [97], .closed 0 fun _ => true] []).map
      (fun r => r.2.udata.ents.any fun e => decide (e.has udcFlagPresent = false ∧ e.fd = 4))
      = some true := by
    decide +kernel
  obtain ⟨⟨hist, s⟩, hexec, hproj⟩ := Option.map_eq_some_iff.mp hrun
  refine ⟨hist, s, run_of_exec hexec, ?_⟩
  intro hreset
  obtain ⟨e, he, hleft⟩ := List.any_eq_true.mp hproj
  obtain ⟨hgone, hfd⟩ := of_decide_eq_true hleft
  rw [hreset e he hgone] at hfd
  simp at hfd

end Smsg
