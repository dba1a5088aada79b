/-
Descriptors are taken care of.

What is sent in a run goes to descriptors that are open at that moment, and what is closed
was open.  In the end the open ones are those of the live slots, so none has been lost on
the way (`descriptors_kept`).

A user in chat has a descriptor in the store as well, and `C_PSAY` and `C_BEEP` send to it
without looking for a slot.  That it is open is what `Seated` is needed for: after two
joins on one connection it need not be.
-/
import Smsg.Lib.Handles
import Smsg.Proofs.Answers

namespace Smsg

open Machines Handles

variable {mem : Memory} {hist : List ServerStep} {s s' : Server} {i j : Slot} {c : NetCmd}
  {env : Env} {ev : Event} {out : List Effect} {fd : Int}

/-! ### Open descriptors -/

/-- The descriptors of the live slots. -/
def Server.openFds (s : Server) : Finset Int :=
  (((List.finRange maxClients).filter fun i => decide (s.live i)).map fun i =>
    (s.clients i).fd).toFinset

theorem Server.mem_openFds : fd ∈ s.openFds ↔ ∃ i, s.live i ∧ (s.clients i).fd = fd := by
  simp [Server.openFds]

theorem Server.fd_mem_openFds (h : s.live i) : (s.clients i).fd ∈ s.openFds :=
  Server.mem_openFds.mpr ⟨i, h, rfl⟩

/-- Closing a slot closes its descriptor and no other. -/
theorem Server.openFds_closeSlot (hs : s.Ok) (hi : s.live i) :
    (s.closeSlot i).openFds = s.openFds.erase (s.clients i).fd := by
  ext fd
  rw [Finset.mem_erase, Server.mem_openFds, Server.mem_openFds]
  constructor
  · intro h
    obtain ⟨j, hj, rfl⟩ := h
    obtain ⟨hji, hlive⟩ := (Server.live_closeSlot_iff s i j).mp hj
    have hsame : (s.closeSlot i).clients j = s.clients j := if_neg hji
    rw [hsame]
    exact ⟨fun hfd => hji (hs.eq_of_fd hi hfd), j, hlive, rfl⟩
  · intro h
    obtain ⟨hne, j, hj, rfl⟩ := h
    have hji : j ≠ i := fun hji => hne (by rw [hji])
    have hsame : (s.closeSlot i).clients j = s.clients j := if_neg hji
    exact ⟨j, (Server.live_closeSlot_iff s i j).mpr ⟨hji, hj⟩, by rw [hsame]⟩

theorem Server.openFds_accept {newfd : Int} (peer : InAddr) (hs : s.Ok) (hfresh : s.fresh newfd)
    (hslot : s.acceptSlot = some i) :
    (s.accept newfd peer).1.openFds = insert newfd s.openFds := by
  have hnewfd : newfd ≠ -1 := by
    have := hs.servfd
    have := hfresh.1
    omega
  ext fd
  rw [Finset.mem_insert, Server.mem_openFds, Server.mem_openFds]
  constructor
  · intro h
    obtain ⟨j, hj, hfd⟩ := h
    rw [Server.accept_clients hslot] at hfd
    by_cases hji : j = i
    · rw [if_pos hji] at hfd
      exact Or.inl hfd.symm
    · rw [if_neg hji] at hfd
      exact Or.inr ⟨j, ((Server.live_accept_iff hslot hnewfd peer j).mp hj).resolve_left hji, hfd⟩
  · intro h
    rcases h with rfl | ⟨j, hj, hfd⟩
    · refine ⟨i, (Server.live_accept_iff hslot hnewfd peer i).mpr (Or.inl rfl), ?_⟩
      rw [Server.accept_clients hslot, if_pos rfl]
    · have hji : j ≠ i := fun hji => Server.not_live_acceptSlot hslot (hji ▸ hj)
      refine ⟨j, (Server.live_accept_iff hslot hnewfd peer j).mpr (Or.inr hj), ?_⟩
      rw [Server.accept_clients hslot, if_neg hji, hfd]

/-! ### What happens to them -/

/-- What the effects do with descriptors. -/
def fdOps (effects : List Effect) : List (Op Int) :=
  effects.filterMap fun
    | .send fd _ => some (.uses fd)
    | .close fd => some (.closes fd)
    | _ => none

/-- What a step of the server does with them. -/
def stepOps (st : ServerStep) : List (Op Int) :=
  match st.ev with
  | .accept newfd _ => .opens newfd :: fdOps st.out
  | _ => fdOps st.out

theorem fdOps_append (l₁ l₂ : List Effect) : fdOps (l₁ ++ l₂) = fdOps l₁ ++ fdOps l₂ :=
  List.filterMap_append

/-- Nothing is closed, and what is sent goes to open descriptors. -/
theorem replay_sends {fds : Finset Int} {effects : List Effect} (hclose : closes effects = [])
    (hsend : ∀ p ∈ posts effects, p.1 ∈ fds) : replay fds (fdOps effects) = some fds := by
  refine replay_uses fun op hop => ?_
  obtain ⟨ef, hef, hfd⟩ := List.mem_filterMap.mp hop
  cases ef with
  | send fd m =>
      exact ⟨fd, hsend _ (mem_posts.mpr hef), (Option.some.inj hfd).symm⟩
  | close fd =>
      have hmem : fd ∈ closes effects := List.mem_filterMap.mpr ⟨_, hef, rfl⟩
      rw [hclose] at hmem
      simp at hmem
  | _ => simp at hfd

theorem Server.Ok.open_slot (hs : s.Ok) {u : Udata}
    (hseats : ∀ e ∈ u.ents, e.has udcFlagPresent → s.servfd < e.fd)
    (h : u.udataGetByFd (s.clients j).fd ≠ none) : (s.clients j).fd ∈ s.openFds := by
  obtain ⟨e, he⟩ := Option.ne_none_iff_exists'.mp h
  obtain ⟨hmem, hfd, hpres⟩ := Udata.udataGetByFd_some he
  refine Server.fd_mem_openFds (hs.live_of_fd ?_)
  rw [← hfd]
  exact hseats e hmem hpres

/-- What a command has sent goes to open descriptors. -/
theorem Post.to_open {o : Outcome} (h : Post (s.call i c env) o) (hs : s.Ok) (hi : s.live i)
    (hseated : Seated hist s)
    (hseats : ∀ e ∈ o.udata.ents, e.has udcFlagPresent → s.servfd < e.fd) :
    closes o.effects = [] ∧ ∀ p ∈ posts o.effects, p.1 ∈ s.openFds := by
  have hown : (s.call i c env).fd ∈ s.openFds := Server.fd_mem_openFds hi
  have hbefore : ∀ e ∈ s.udata.ents, e.has udcFlagPresent → s.servfd < e.fd :=
    fun e he hpres => hs.seats e.user e.seat (Udata.room_of_mem he) hpres
  have htarget : ∀ {t : UdataEnt}, (s.call i c env).Target t → t.fd ∈ s.openFds := by
    intro t ht
    obtain ⟨hmem, -, -, -, hpres⟩ := Udata.udataGetByNick_some ht
    obtain ⟨k, hlive, hfd, -⟩ := hseated.session t.user t.seat (Udata.room_of_mem hmem) hpres
    exact Server.mem_openFds.mpr ⟨k, hlive, hfd⟩
  have hdist : ∀ {u : Udata} {low : Int} {m : NetCmd} {excl : Option Slot},
      (∀ e ∈ u.ents, e.has udcFlagPresent → s.servfd < e.fd) →
      ∀ p ∈ posts (distribute low s.clients u m excl), p.1 ∈ s.openFds := by
    intro u low m excl hu p hp
    obtain ⟨-, j, -, hfd, -, hget⟩ := posts_distribute hp
    rw [hfd] at hget ⊢
    exact hs.open_slot hu hget
  cases h with
  | silent _ h hopen => exact ⟨hopen, by simp [h]⟩
  | answer _ _ h hopen =>
      refine ⟨hopen, fun p hp => ?_⟩
      rw [h] at hp
      rw [List.mem_singleton.mp hp]
      exact hown
  | told _ _ h =>
      rw [h]
      exact ⟨closes_distribute _ _ _ _ _, hdist hseats⟩
  | door _ _ _ hu h =>
      rw [h, closes_append, closes_distribute, posts_append]
      refine ⟨rfl, fun p hp => ?_⟩
      rcases List.mem_append.mp hp with hp | hp
      · refine hdist ?_ p hp
        rcases hu with rfl | rfl
        · exact hbefore
        · exact hseats
      · rw [List.mem_singleton.mp hp]
        exact hown
  | beepAll _ h =>
      rw [h]
      exact ⟨closes_distribute _ _ _ _ _, hdist hbefore⟩
  | beep _ ht h hopen =>
      refine ⟨hopen, fun p hp => ?_⟩
      rw [h] at hp
      rw [List.mem_singleton.mp hp]
      exact htarget ht
  | psay _ _ ht _ h hopen =>
      refine ⟨hopen, fun p hp => ?_⟩
      rw [h] at hp
      rcases List.mem_cons.mp hp with rfl | hp
      · exact htarget ht
      · rw [List.mem_singleton.mp hp]
        exact hown

/-- A kick closes the descriptor of a live slot. -/
theorem replay_kick (hs : s.Ok) {o : Outcome} {act : Act CString CString}
    (hdoes : Does (s.call i c env) o act) :
    replay s.openFds (fdOps (s.kickEffects o.retval)) = some (s.kick o.retval).openFds := by
  cases hk : Server.kicked o.retval with
  | none => simp [Server.kickEffects, Server.kick, hk, fdOps, replay]
  | some r =>
      have hlive : s.live r := by
        rcases hdoes.1.kicks with hneg | ⟨t, ht, -, hret⟩
        · rw [Server.kicked_neg hneg] at hk
          simp at hk
        · rw [hret] at hk
          obtain ⟨hmem, -, -, -, hpres⟩ := Udata.udataGetByNick_some ht
          have hfd : (s.clients r).fd = t.fd := Server.kicked_kickSlot_some hk
          refine hs.live_of_fd ?_
          rw [hfd]
          exact hs.seats t.user t.seat (Udata.room_of_mem hmem) hpres
      have hops : fdOps (s.kickEffects o.retval) = [.closes (s.clients r).fd] := by
        simp [Server.kickEffects, hk, fdOps]
      have hkick : s.kick o.retval = s.closeSlot r := by simp [Server.kick, hk]
      rw [hops, hkick, Server.openFds_closeSlot hs hlive, replay,
        if_pos (Server.fd_mem_openFds hlive), replay]

/-- **Every event takes care of the descriptors.** -/
theorem Turn.descriptors (hs : s.Ok) (hseated : Seated hist s) (hturn : Turn mem s ev s' out) :
    replay s.openFds (stepOps ⟨s, ev, s', out⟩) = some s'.openFds := by
  have hs' := hturn.ok hs
  cases hturn with
  | @refused newfd peer hfresh hslot =>
      have hnew : newfd ∉ s.openFds := by
        rw [Server.mem_openFds]
        rintro ⟨i, hi, hfd⟩
        exact hfresh.2 i hi hfd
      have hops : stepOps ⟨s, .accept newfd peer, s, [.close newfd]⟩
          = [.opens newfd, .closes newfd] := rfl
      rw [hops, replay, if_neg hnew, replay, if_pos (Finset.mem_insert_self _ _), replay,
        Finset.erase_insert hnew]
  | @accepted newfd peer i hfresh hslot =>
      have hnew : newfd ∉ s.openFds := by
        rw [Server.mem_openFds]
        rintro ⟨i, hi, hfd⟩
        exact hfresh.2 i hi hfd
      have hops : stepOps ⟨s, .accept newfd peer, (s.accept newfd peer).1, []⟩
          = [.opens newfd] := rfl
      rw [hops, replay, if_neg hnew, replay, Server.openFds_accept peer hs hfresh hslot]
  | recvError => rfl
  | @closed i alloc hlive hnone =>
      have hops : stepOps ⟨s, .closed i alloc, s.closeSlot i, [.close (s.clients i).fd]⟩
          = [.closes (s.clients i).fd] := rfl
      rw [hops, replay, if_pos (Server.fd_mem_openFds hlive), replay,
        Server.openFds_closeSlot hs hlive]
  | @hungUp i alloc e hlive hent =>
      have hbefore : ∀ e ∈ s.udata.ents, e.has udcFlagPresent → s.servfd < e.fd :=
        fun e he hpres => hs.seats e.user e.seat (Udata.room_of_mem he) hpres
      have hsent : replay s.openFds (fdOps (distribute 1 s.clients s.udata
          ((doorMsg 0 e.nick).add errorChatPeerclose) (some i))) = some s.openFds := by
        refine replay_sends (closes_distribute _ _ _ _ _) fun p hp => ?_
        obtain ⟨-, j, -, hfd, -, hget⟩ := posts_distribute hp
        rw [hfd] at hget ⊢
        exact hs.open_slot hbefore hget
      have hsame : ({ s with udata := removeFromChat alloc s.udata e.user }.closeSlot i).openFds
          = (s.closeSlot i).openFds := rfl
      rw [stepOps, fdOps_append, replay_append, hsent, hsame, Server.openFds_closeSlot hs hlive,
        Option.bind_some]
      exact if_pos (Server.fd_mem_openFds hlive)
  | @netcmd i c env o act hlive hmem hcall hdoes =>
      have hpost := post_lsHandleNetcmd (x := s.call i c env) (le_of_lt (hs.fd_pos hlive)) hcall
      have hservfd : (s.settle o).1.servfd = s.servfd := (Turn.netcmd hlive hmem hcall hdoes).servfd
      have hseats : ∀ e ∈ o.udata.ents, e.has udcFlagPresent → s.servfd < e.fd := by
        intro e he hpres
        rw [← hservfd]
        refine hs'.seats e.user e.seat ?_ hpres
        rw [Server.settle_udata]
        exact Udata.room_of_mem he
      obtain ⟨hclose, hsend⟩ := hpost.to_open hs hlive hseated hseats
      have hkick := replay_kick hs hdoes
      have hafter : (s.settle o).1.openFds = (s.kick o.retval).openFds := rfl
      rw [stepOps, Server.settle, fdOps_append, replay_append, replay_sends hclose hsend,
        Option.bind_some, hkick, ← hafter]
      rfl

/--
**Descriptors are taken care of.**  Take a run in which nobody joins twice on a connection,
and all that it does with the descriptors that `accept` returns, in the order in which it
does it.  Each is open when something is sent to it, and when it is closed.  In the end
those that have not been closed are the descriptors of the live slots.
-/
theorem descriptors_kept (h : Run (server mem) hist s)
    (hjoins : ∀ st ∈ hist, ¬ st.pre.JoinsTwice st.ev) :
    replay ∅ (hist.reverse.flatMap stepOps) = some s.openFds := by
  obtain ⟨s₀, h₀, hx⟩ := h
  have hnone : s₀.openFds = ∅ := by
    obtain ⟨servfd, -, rfl⟩ := h₀
    refine Finset.eq_empty_of_forall_notMem fun fd hfd => ?_
    obtain ⟨i, hi, -⟩ := Server.mem_openFds.mp hfd
    exact absurd hi.1 (Nat.not_lt_zero _)
  rw [← hnone]
  refine replay_exec Server.openFds stepOps hx fun st hst => ?_
  obtain ⟨later, earlier, rfl⟩ := List.append_of_mem hst
  obtain ⟨hpre, hstep, -⟩ := hx.split
  have hrun : Run (server mem) earlier st.pre := ⟨s₀, h₀, hpre⟩
  have hseated := seated_run hrun fun st' hst' =>
    hjoins st' (List.mem_append_right _ (List.mem_cons_of_mem _ hst'))
  exact (step_turn (run_ok hrun) hstep).descriptors (run_ok hrun) hseated

/-- The first of two users hangs up, and the second one is told. -/
theorem descriptors_kept_two : ∃ hist s, Run (server .enough) hist s ∧ s.openFds = {5} ∧
    replay ∅ (hist.reverse.flatMap stepOps) = some s.openFds := by
  have hrun : (exec (server .enough) (.initial 3) (twoUsers ++ [.closed 0 fun _ => true]) []).any
      (fun r => r.1.all ServerStep.joinsApart && decide (r.2.openFds = {5})) = true := by
    decide +kernel
  obtain ⟨⟨hist, s⟩, hexec, hproj⟩ := (Option.any_eq_true _ _).mp hrun
  simp only [Bool.and_eq_true, decide_eq_true_eq] at hproj
  have h : Run (server .enough) hist s := run_of_exec hexec
  exact ⟨hist, s, h, hproj.2, descriptors_kept h (not_joinsTwice hproj.1)⟩

end Smsg
