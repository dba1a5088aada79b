/-
The sidebars get to be right.

A client inside `chatter_func` has its sidebar from the last list that it was sent.  It may
be wrong at any time, for the list was made before it was read, but it does not stay so:
whatever changes the names is told to the client, and that makes it ask again.  So once
there is nothing under way between a client and the server, its sidebar has the names of
those in chat (`sidebar_right`).

`Peer.Fine` is what holds of one connection, and every event of the server keeps it.
-/
import Smsg.Proofs.Members

namespace Smsg

open Machines Refetch

/-! ### One connection -/

/-- What holds of whoever is at the other end of an open connection. -/
def Peer.Fine (p : Peer) (s : Server) (i : Slot) : Prop :=
  match p.member with
  | .visitor => s.NobodyOn i ∧ ∀ c ∈ p.up, c.op ≠ .chatdoor
  | .joining user nick _ => nick.chars ≠ [] ∧
      ((p.up = [chatterJoin user nick] ∧ p.down = [] ∧ s.NobodyOn i) ∨
        (p.up = [] ∧ ∃ m down, p.down = m :: down ∧
          ((m.op = .nak ∧ s.NobodyOn i) ∨ (m.op = .ack ∧ s.On i user))))
  | .inside user v _ => s.On i user ∧ (∀ c ∈ p.up, c.Entered) ∧
      Refetch.Follows (∃ c ∈ p.up, c.AsksChat) v.sidebar (p.down.map sidebarKind) s.udata.sayNames
  | .finished => (p.up = [] ∧ s.NobodyOn i) ∨
      ∃ user cmds reason, p.up = cmds ++ [chatterLeave user reason] ∧ (∀ c ∈ cmds, c.Entered) ∧
        s.On i user

/-- The connection with more messages on their way. -/
def Peer.hear (p : Peer) (sent : List NetCmd) : Peer := { p with down := p.down ++ sent }

section

variable {mem : Memory} {hist : List ServerStep} {s s' : Server} {i j : Slot} {c : NetCmd}
  {env : Env} {ev : Event} {out : List Effect} {p : Peer} {up : List NetCmd} {user : CString}

theorem NetCmd.Entered.plain (h : c.Entered) : c.op ≠ .chatdoor ∧ c.op ≠ .cBan := by
  have hall : ∀ op ∈ lineOps, op ≠ .chatdoor ∧ op ≠ .cBan := by decide
  exact hall _ h.op

theorem Turn.on_stays (hs : s.Ok) (hturn : Turn mem s ev s' out) (hmann : s.Mannered ev)
    (hj : s.live j) (hj' : s'.live j) (hown : ∀ c env, ev = .netcmd j c env → c.op ≠ .chatdoor)
    (hon : s.On j user) : s'.On j user := by
  have hsits := hturn.stays hs hmann hj hj' hown hon
  rw [Server.On, hturn.client_kept hj hj']
  exact hsits

/-- **Whatever somebody else does leaves a connection fine.** -/
theorem Peer.Fine.hear (h : p.Fine s j) (hs : s.Ok) (hseated : Seated hist s)
    (hturn : Turn mem s ev s' out) (hmann : s.Mannered ev) (hj : s.live j) (hj' : s'.live j)
    (hother : ∀ c env, ev ≠ .netcmd j c env) :
    (p.hear (sentTo (s.clients j).fd out)).Fine s' j := by
  have hnobody : s.NobodyOn j → s'.NobodyOn j ∧ sentTo (s.clients j).fd out = [] := by
    intro hno
    have hno' : s'.NobodyOn j :=
      hturn.nobody hs hseated hno fun c env v anick hev => absurd hev (hother c env)
    refine ⟨hno', hturn.outside hs hno ?_ hother⟩
    rw [← hturn.client_kept hj hj']
    exact hno'
  have hon : ∀ {user}, s.On j user → s'.On j user := fun hon =>
    hturn.on_stays hs hmann hj hj' (fun c env hev => absurd hev (hother c env)) hon
  unfold Peer.Fine Peer.hear at *
  dsimp only at *
  cases hmember : p.member with
  | visitor =>
      simp only [hmember] at h ⊢
      exact ⟨(hnobody h.1).1, h.2⟩
  | joining user nick eraseKey =>
      simp only [hmember] at h ⊢
      refine ⟨h.1, h.2.imp ?_ ?_⟩
      · intro hjoin
        obtain ⟨hup, hdown, hno⟩ := hjoin
        obtain ⟨hno', hsent⟩ := hnobody hno
        exact ⟨hup, by rw [hdown, hsent]; rfl, hno'⟩
      · intro hanswer
        obtain ⟨hup, m, down, hdown, hm⟩ := hanswer
        refine ⟨hup, m, down ++ sentTo (s.clients j).fd out, ?_, ?_⟩
        · rw [hdown, List.cons_append]
        · exact hm.imp (fun hnak => ⟨hnak.1, (hnobody hnak.2).1⟩) fun hack => ⟨hack.1, hon hack.2⟩
  | inside user v l =>
      simp only [hmember] at h ⊢
      obtain ⟨huser, hup, hfollows⟩ := h
      refine ⟨hon huser, hup, ?_⟩
      rw [List.map_append]
      refine hfollows.send ?_
      refine (hturn.refreshed hs hseated hmann).sidebar ⟨user, huser, ?_⟩ fun m hm hop => ?_
      · exact hturn.stays hs hmann hj hj' (fun c env hev => absurd hev (hother c env)) huser
      · obtain ⟨c, env, hev, -⟩ := hturn.lists hs hm hop
        exact hother c env hev
  | finished =>
      simp only [hmember] at h ⊢
      refine h.imp ?_ ?_
      · exact fun hgone => ⟨hgone.1, (hnobody hgone.2).1⟩
      · intro hleave
        obtain ⟨user, cmds, reason, hup, hcmds, huser⟩ := hleave
        exact ⟨user, cmds, reason, hup, hcmds, hon huser⟩

/-- What the next command of a connection is like. -/
theorem Peer.Fine.mannered (h : p.Fine s i) (hup : p.up = c :: up) : s.Mannered (.netcmd i c env) := by
  have hmem : c ∈ p.up := by rw [hup]; exact List.mem_cons_self
  have hplain : c.op ≠ .chatdoor ∧ c.op ≠ .cBan → s.Mannered (.netcmd i c env) := fun hc =>
    mannered_netcmd (fun hop => absurd hop hc.1) (fun hforeign => hc.1 hforeign.1)
      fun hop => absurd hop hc.2
  unfold Peer.Fine at h
  cases hmember : p.member with
  | visitor =>
      simp only [hmember] at h
      have hdoor := h.2 c hmem
      exact mannered_netcmd (fun hop => absurd hop hdoor) (fun hforeign => hdoor hforeign.1)
        fun _ => h.1
  | joining user nick eraseKey =>
      simp only [hmember] at h
      obtain ⟨hnick, ⟨hjoin, -, hno⟩ | ⟨hnil, -⟩⟩ := h
      · rw [hup] at hjoin
        obtain ⟨rfl, -⟩ := List.cons.inj hjoin
        refine mannered_netcmd (fun _ _ => hno) (fun hforeign => ?_) fun _ => hno
        have hform := hforeign.2.1
        rw [chatterJoin_asks hnick] at hform
        cases hform
      · rw [hup] at hnil
        cases hnil
  | inside user v l =>
      simp only [hmember] at h
      exact hplain (h.2.1 c hmem).plain
  | finished =>
      simp only [hmember] at h
      rcases h with ⟨hnil, -⟩ | ⟨user, cmds, reason, hleave, hcmds, huser⟩
      · rw [hup] at hnil
        cases hnil
      · rw [hup] at hleave
        cases cmds with
        | cons c' cmds =>
            obtain ⟨rfl, -⟩ := List.cons.inj hleave
            exact hplain (hcmds c List.mem_cons_self).plain
        | nil =>
            obtain ⟨rfl, -⟩ := List.cons.inj hleave
            refine mannered_netcmd (fun _ hform => ?_) (fun hforeign => ?_) fun hop => ?_
            · rw [chatterLeave_leaves] at hform
              cases hform
            · obtain ⟨-, -, e, he, hpres, hne, hdoor⟩ := hforeign
              rw [chatterLeave_user, Option.some.injEq] at hdoor
              obtain ⟨t, ht, -, htfd⟩ := huser
              rw [hdoor, Udata.room_of_mem he, Option.some.injEq] at ht
              rw [← ht] at htfd
              exact hne htfd
            · rw [chatterLeave_op] at hop
              cases hop

/-- **A command that is handled leaves its connection fine.** -/
theorem Peer.Fine.serve (h : p.Fine s j) (hs : s.Ok) (hseated : Seated hist s)
    (hnicks : ∀ e ∈ s.udata.ents, e.has udcFlagPresent → e.nick ≠ none)
    (hup : p.up = c :: up) (hturn : Turn mem s (.netcmd j c env) s' out) (hj : s.live j)
    (hj' : s'.live j) :
    (Peer.hear { p with up := up } (sentTo (s.clients j).fd out)).Fine s' j := by
  have hmann : s.Mannered (.netcmd j c env) := h.mannered hup
  have hon : ∀ {user}, c.op ≠ .chatdoor → s.On j user → s'.On j user := fun hc hon =>
    hturn.on_stays hs hmann hj hj'
      (fun c' env' hev => by rw [← (Event.netcmd.inj hev).2.1]; exact hc) hon
  unfold Peer.Fine Peer.hear at *
  dsimp only at *
  cases hmember : p.member with
  | visitor =>
      simp only [hmember] at h ⊢
      refine ⟨hturn.nobody hs hseated h.1 fun c' env' v anick hev hjoin => ?_, fun c' hc' =>
        h.2 c' (by rw [hup]; exact List.mem_cons_of_mem _ hc')⟩
      obtain ⟨-, rfl, -⟩ := Event.netcmd.inj hev
      exact h.2 c (by rw [hup]; exact List.mem_cons_self) hjoin.op
  | joining user nick eraseKey =>
      simp only [hmember] at h ⊢
      obtain ⟨hnick, ⟨hjoin, hdown, hno⟩ | ⟨hnil, -⟩⟩ := h
      · rw [hup] at hjoin
        obtain ⟨rfl, rfl⟩ := List.cons.inj hjoin
        obtain ⟨m, hsent, hm⟩ := hturn.join_served hs hseated hnick hno
        refine ⟨hnick, Or.inr ⟨rfl, m, [], ?_, ?_⟩⟩
        · rw [hdown, hsent]
          rfl
        · rw [Server.On, hturn.client_kept hj hj']
          exact hm
      · rw [hup] at hnil
        simp at hnil
  | inside user v l =>
      simp only [hmember] at h ⊢
      obtain ⟨huser, hcmds, hfollows⟩ := h
      have hent : c.Entered := hcmds c (by rw [hup]; exact List.mem_cons_self)
      refine ⟨hon hent.plain.1 huser, fun c' hc' =>
        hcmds c' (by rw [hup]; exact List.mem_cons_of_mem _ hc'), ?_⟩
      have hrest : ¬ c.AsksChat → Refetch.Follows (∃ c ∈ up, c.AsksChat) v.sidebar
          (p.down.map sidebarKind) s.udata.sayNames := by
        intro hno
        refine hfollows.mono fun hasked => ?_
        obtain ⟨c', hc', hasks⟩ := hasked
        rw [hup] at hc'
        rcases List.mem_cons.mp hc' with rfl | hc'
        · exact absurd hasks hno
        · exact ⟨c', hc', hasks⟩
      rw [List.map_append]
      by_cases hwho : c.op = .cWho
      · obtain ⟨hsame, m, hsent, hfresh, hother⟩ :=
          hturn.listed hs hseated hnicks huser.not_nobody (hent.list hwho)
        rw [hsent, hsame, List.map_singleton]
        by_cases hasks : c.AsksChat
        · rw [hfresh hasks]
          exact Refetch.Follows.answer (fun k hk => Or.inr (List.mem_singleton.mp hk))
            (List.mem_singleton_self _)
        · rw [hother hasks]
          exact (hrest hasks).send (Or.inr ⟨rfl, fun k hk => Or.inl (List.mem_singleton.mp hk)⟩)
      · refine (hrest fun hasks => hwho hasks.1).send ?_
        refine (hturn.refreshed hs hseated hmann).sidebar ⟨user, huser, ?_⟩ fun m hm hop => ?_
        · refine hturn.stays hs hmann hj hj' (fun c' env' hev => ?_) huser
          rw [← (Event.netcmd.inj hev).2.1]
          exact hent.plain.1
        · obtain ⟨c', env', hev, hop'⟩ := hturn.lists hs hm hop
          rw [← (Event.netcmd.inj hev).2.1] at hop'
          exact hwho hop'
  | finished =>
      simp only [hmember] at h ⊢
      rcases h with ⟨hnil, -⟩ | ⟨user, cmds, reason, hleave, hcmds, huser⟩
      · rw [hup] at hnil
        simp at hnil
      · rw [hup] at hleave
        cases cmds with
        | cons c' cmds =>
            obtain ⟨rfl, rfl⟩ := List.cons.inj hleave
            have hent : c.Entered := hcmds c List.mem_cons_self
            exact Or.inr ⟨user, cmds, reason, rfl, fun c' hc' =>
              hcmds c' (List.mem_cons_of_mem _ hc'), hon hent.plain.1 huser⟩
        | nil =>
            obtain ⟨rfl, rfl⟩ := List.cons.inj hleave
            exact Or.inl ⟨rfl, hturn.leave_served hs hseated huser⟩

/-! ### What the clients do -/

variable {p' : Peer} {m : NetCmd}

theorem Peer.Fine.line {line : InputLine} (h : p.Fine s i) (hstep : p.line line = some p') :
    p'.Fine s i := by
  unfold Peer.line at hstep
  cases hmember : p.member with
  | inside user v l =>
      simp only [hmember] at hstep
      simp only [Peer.Fine, hmember] at h
      obtain ⟨huser, hcmds, hfollows⟩ := h
      split at hstep
      · simp at hstep
      · split at hstep
        · rw [← Option.some.inj hstep]
          exact ⟨huser, hcmds, hfollows⟩
        · rename_i l' sbuf hline
          obtain ⟨c, hwhole, hp'⟩ := Option.bind_eq_some_iff.mp hstep
          rw [chatterLine_asks] at hline
          obtain ⟨m, hasks, rfl⟩ := Option.map_eq_some_iff.mp (congrArg Prod.snd hline)
          rw [← Option.some.inj hp']
          refine ⟨huser, fun c' hc' => ?_, hfollows.mono fun hasked => ?_⟩
          · rcases List.mem_append.mp hc' with hc' | hc'
            · exact hcmds c' hc'
            · rw [List.mem_singleton.mp hc']
              exact wholeCmd_entered hwhole (lineAsks_entered hasks)
          · obtain ⟨c', hc', hasks⟩ := hasked
            exact ⟨c', List.mem_append_left _ hc', hasks⟩
  | _ => simp [hmember] at hstep

theorem Peer.Fine.answered {more : Nat} (h : p.Fine s i) (hstep : p.answered more = some p') :
    p'.Fine s i := by
  unfold Peer.answered at hstep
  cases hmember : p.member with
  | joining user nick eraseKey =>
      simp only [hmember] at hstep
      simp only [Peer.Fine, hmember] at h
      obtain ⟨hnick, ⟨-, hnil, -⟩ | ⟨hup, m, down, hdown, hm⟩⟩ := h
      · simp [hnil] at hstep
      · simp only [hdown] at hstep
        split at hstep
        · rename_i hop
          rw [← Option.some.inj hstep]
          refine Or.inl ⟨hup, (hm.resolve_right fun hack => ?_).2⟩
          have hnak : m.op = .nak := hop
          rw [hack.1] at hnak
          cases hnak
        · rename_i hop
          rw [← Option.some.inj hstep]
          refine ⟨(hm.resolve_left fun hnak => hop hnak.1).2, ?_,
            Or.inl ⟨.set .cWho, ?_, rfl, Or.inl rfl⟩⟩
          · intro c hc
            rw [hup, List.nil_append, List.mem_singleton] at hc
            rw [hc]
            exact entered_who
          · exact List.mem_append_right _ (List.mem_singleton_self _)
  | _ => simp [hmember] at hstep

theorem Peer.Fine.read (h : p.Fine s i) (hstep : p.read = some (p', m)) : p'.Fine s i := by
  unfold Peer.read at hstep
  cases hmember : p.member with
  | inside user v l =>
      cases hdown : p.down with
      | nil => simp [hmember, hdown] at hstep
      | cons rbuf down =>
          simp only [hmember, hdown, Option.bind_eq_bind, Option.bind_eq_some_iff,
            Option.some.injEq, Prod.mk.injEq] at hstep
          obtain ⟨⟨v', acts⟩, hfunc, rfl, rfl⟩ := hstep
          simp only [Peer.Fine, hmember, hdown, List.map_cons] at h
          obtain ⟨huser, hcmds, hfollows⟩ := h
          obtain ⟨hside, hsends⟩ := chatterFunc_sidebar hfunc
          have hask : (∃ c ∈ p.up, c.AsksChat) ∨ sidebarKind rbuf = .stale →
              ∃ c ∈ p.up ++ chatterSends acts, c.AsksChat := by
            intro hasked
            rcases hasked with ⟨c, hc, hasks⟩ | hstale
            · exact ⟨c, List.mem_append_left _ hc, hasks⟩
            · have hreq : reqWho rbuf.op = true := by
                by_contra hno
                rw [sidebarKind, if_neg hno] at hstale
                split at hstale <;> cases hstale
              refine ⟨.set .cWho, List.mem_append_right _ ?_, rfl, Or.inl rfl⟩
              rw [hsends, if_pos hreq]
              exact List.mem_singleton_self _
          refine ⟨huser, fun c hc => ?_, ?_⟩
          · rcases List.mem_append.mp hc with hc | hc
            · exact hcmds c hc
            · rw [hsends] at hc
              split at hc
              · rw [List.mem_singleton.mp hc]
                exact entered_who
              · simp at hc
          · have hread := hfollows.read hask
            rw [← hside] at hread
            exact hread
  | _ => simp [hmember] at hstep

theorem Peer.Fine.quit (h : p.Fine s i) (hstep : p.quit = some p') : p'.Fine s i := by
  unfold Peer.quit at hstep
  cases hmember : p.member with
  | inside user v l =>
      simp only [hmember] at hstep
      simp only [Peer.Fine, hmember] at h
      split at hstep
      · rw [← Option.some.inj hstep]
        exact Or.inr ⟨user, p.up, l.reason, rfl, h.2.1, h.1⟩
      · simp at hstep
  | _ => simp [hmember] at hstep

theorem Peer.Fine.request (h : p.Fine s i) (hmember : p.member = .visitor)
    (hop : c.op ≠ .chatdoor) : Peer.Fine { p with up := p.up ++ [c] } s i := by
  simp only [Peer.Fine, hmember] at h ⊢
  refine ⟨h.1, fun c' hc' => ?_⟩
  rcases List.mem_append.mp hc' with hc' | hc'
  · exact h.2 c' hc'
  · rw [List.mem_singleton.mp hc']
    exact hop

end

/-! ### All of them -/

/-- A state that the server gets to, with memory, and with nobody joining twice. -/
def Server.Neat (s : Server) : Prop :=
  ∃ hist, Run (server .enough) hist s ∧ ∀ st ∈ hist, ¬ st.pre.JoinsTwice st.ev

/-- What holds of the chat. -/
structure Chatroom.Fine (y : Chatroom) : Prop where
  neat : y.server.Neat
  peers : ∀ i, y.server.live i → (y.peer i).Fine y.server i

section

variable {y y' : Chatroom} {i j : Slot} {ev : Event} {out : List Effect} {p : Peer}

theorem Chatroom.tell_some (h : y.tell ev = some y') : ∃ out,
    (Smsg.server .enough).step y.server ev = some (y'.server, out) ∧
      ∀ j, y'.peer j = (y.peer j).hear (sentTo (y.server.clients j).fd out) := by
  simp only [Chatroom.tell, Option.bind_eq_bind, Option.bind_eq_some_iff, Option.some.injEq] at h
  obtain ⟨⟨server, out⟩, hstep, rfl⟩ := h
  exact ⟨out, hstep, fun _ => rfl⟩

@[simp] theorem Chatroom.setPeer_self (y : Chatroom) (i : Slot) (p : Peer) :
    (y.setPeer i p).peer i = p := if_pos rfl

@[simp] theorem Chatroom.setPeer_ne (y : Chatroom) (p : Peer) (h : j ≠ i) :
    (y.setPeer i p).peer j = y.peer j := if_neg h

@[simp] theorem Chatroom.setPeer_server (y : Chatroom) (i : Slot) (p : Peer) :
    (y.setPeer i p).server = y.server := rfl

/-- What a client does with its own connection is nothing to the others. -/
theorem Chatroom.setPeer_keeps {α : Type} (f : Peer → α) (hp : i = j → f p = f (y.peer i)) :
    f ((y.setPeer i p).peer j) = f (y.peer j) := by
  by_cases hij : i = j
  · subst hij
    rw [Chatroom.setPeer_self]
    exact hp rfl
  · rw [Chatroom.setPeer_ne _ _ (Ne.symm hij)]

/-- The server goes on in good manners. -/
theorem Server.Neat.step {s s' : Server} (hs : s.Neat)
    (hstep : (server .enough).step s ev = some (s', out)) (hmann : s.Mannered ev) : s'.Neat := by
  obtain ⟨hist, hrun, hapart⟩ := hs
  refine ⟨_, hrun.snoc hstep, fun st hst => ?_⟩
  rcases List.mem_cons.mp hst with hst | hst
  · rw [hst]
    exact hmann.apart
  · exact hapart st hst

/-- An event of the server that is no command, for the connections that were open before. -/
theorem Chatroom.Fine.tell (hy : y.Fine) (h : y.tell ev = some y')
    (hev : ∀ i c env, ev ≠ .netcmd i c env) :
    y'.server.Neat ∧ ∀ j, y.server.live j → y'.server.live j → (y'.peer j).Fine y'.server j := by
  obtain ⟨out, hstep, hpeer⟩ := Chatroom.tell_some h
  have hmann : y.server.Mannered ev := mannered_of_not_netcmd hev
  refine ⟨hy.neat.step hstep hmann, fun j hj hj' => ?_⟩
  obtain ⟨hist, hrun, hapart⟩ := hy.neat
  rw [hpeer]
  exact (hy.peers j hj).hear (run_ok hrun) (seated_run hrun hapart)
    (step_turn (run_ok hrun) hstep) hmann hj hj' (hev j)

/-- A connection that is closed takes nobody's place. -/
theorem Turn.live_before {mem : Memory} {s s' : Server} (hturn : Turn mem s ev s' out)
    (hev : ∀ newfd peer, ev ≠ .accept newfd peer) (hj' : s'.live j) : s.live j := by
  cases hturn with
  | refused => exact hj'
  | accepted => exact absurd rfl (hev _ _)
  | recvError => exact hj'
  | closed => exact ((Server.live_closeSlot_iff _ _ j).mp hj').2
  | hungUp => exact ((Server.live_closeSlot_iff _ _ j).mp hj').2
  | netcmd => exact ((Server.live_settle_iff _ _ j).mp hj').2

/-- A slot that is new is the one that the connection is put into. -/
theorem Turn.live_new {mem : Memory} {s s' : Server} {newfd : Int} {peer : InAddr} (hs : s.Ok)
    (hturn : Turn mem s (.accept newfd peer) s' out) (hj' : s'.live j) (hj : ¬ s.live j) :
    s.acceptSlot = some j := by
  cases hturn with
  | refused => exact absurd hj' hj
  | accepted hfresh hslot =>
      have hnewfd : newfd ≠ -1 := by
        have := hs.servfd
        have := hfresh.1
        omega
      rcases (Server.live_accept_iff hslot hnewfd peer j).mp hj' with rfl | hlive
      · exact hslot
      · exact absurd hlive hj

theorem Turn.not_live_closed {mem : Memory} {s s' : Server} {alloc : Alloc}
    (hturn : Turn mem s (.closed i alloc) s' out) : ¬ s'.live i := by
  cases hturn with
  | closed => exact Server.not_live_closeSlot _ i
  | hungUp => exact Server.not_live_closeSlot _ i

/-- Whoever arrives is at the slot that the connection is put into, if it is. -/
theorem Chatroom.arrive_some {newfd : Int} {peer : InAddr} (h : y.arrive newfd peer p = some y') :
    ∃ y₁, y.tell (.accept newfd peer) = some y₁ ∧ y'.server = y₁.server ∧
      ∀ j, y'.peer j = if y.server.acceptSlot = some j then p else y₁.peer j := by
  simp only [Chatroom.arrive, Option.bind_eq_bind, Option.bind_eq_some_iff] at h
  obtain ⟨y₁, htell, h⟩ := h
  refine ⟨y₁, htell, ?_⟩
  cases hslot : y.server.acceptSlot with
  | none =>
      simp only [hslot, Option.some.injEq] at h
      rw [h]
      exact ⟨rfl, fun j => (if_neg (by simp)).symm⟩
  | some i =>
      simp only [hslot, Option.some.injEq] at h
      rw [← h]
      refine ⟨rfl, fun j => ?_⟩
      by_cases hji : j = i
      · rw [hji, Chatroom.setPeer_self, if_pos rfl]
      · rw [Chatroom.setPeer_ne _ _ hji, if_neg fun heq => hji (Option.some.inj heq).symm]

/-- A connection arrives. -/
theorem Chatroom.Fine.arrive {newfd : Int} {peer : InAddr} (hy : y.Fine)
    (h : y.arrive newfd peer p = some y')
    (hp : ∀ s i, Server.NobodyOn s i → p.Fine s i) : y'.Fine := by
  obtain ⟨y₁, htell, hserver, hpeer⟩ := Chatroom.arrive_some h
  obtain ⟨hneat, hpeers⟩ := hy.tell htell (by simp)
  obtain ⟨hist, hrun, hapart⟩ := hy.neat
  obtain ⟨out, hstep, -⟩ := Chatroom.tell_some htell
  have hturn := step_turn (run_ok hrun) hstep
  refine ⟨hserver ▸ hneat, fun j hj' => ?_⟩
  rw [hserver] at hj' ⊢
  rw [hpeer]
  by_cases hslot : y.server.acceptSlot = some j
  · rw [if_pos hslot]
    refine hp _ _ (Udata.udataGetByFd_nobody fun e he hpres hfd => ?_)
    exact hturn.accepted_alone (seated_run hrun hapart) hslot (Udata.room_of_mem he) hpres hfd
  · rw [if_neg hslot]
    refine hpeers j ?_ hj'
    by_contra hj
    exact hslot (hturn.live_new (run_ok hrun) hj' hj)

/-- A client does something by itself. -/
theorem Chatroom.Fine.setPeer (hy : y.Fine)
    (hp : y.server.live i → (y.peer i).Fine y.server i → p.Fine y.server i) :
    (y.setPeer i p).Fine := by
  refine ⟨hy.neat, fun j hj => ?_⟩
  by_cases hji : j = i
  · subst hji
    rw [Chatroom.setPeer_self]
    exact hp hj (hy.peers j hj)
  · rw [Chatroom.setPeer_ne _ _ hji]
    exact hy.peers j hj

/-- A command is handled. -/
theorem Chatroom.Fine.serve {c : NetCmd} {up : List NetCmd} {env : Env} (hy : y.Fine)
    (hup : (y.peer i).up = c :: up)
    (h : (y.setPeer i { y.peer i with up := up }).tell (.netcmd i c env) = some y') : y'.Fine := by
  obtain ⟨out, hstep, hpeer⟩ := Chatroom.tell_some h
  obtain ⟨hist, hrun, hapart⟩ := hy.neat
  have hs := run_ok hrun
  have hseated := seated_run hrun hapart
  have hlive : y.server.live i := (step_netcmd hstep).1
  have hmann : y.server.Mannered (.netcmd i c env) := (hy.peers i hlive).mannered hup
  have hturn := step_turn hs hstep
  have hnicks : ∀ e ∈ y.server.udata.ents, e.has udcFlagPresent → e.nick ≠ none :=
    fun e he => (run_nicks hrun (storesNick_of_enough hrun)).nick e.user e.seat
      (Udata.room_of_mem he)
  refine ⟨hy.neat.step hstep hmann, fun j hj' => ?_⟩
  have hj : y.server.live j := hturn.live_before (by simp) hj'
  rw [hpeer]
  by_cases hji : j = i
  · subst hji
    rw [Chatroom.setPeer_self]
    exact (hy.peers j hj).serve hs hseated hnicks hup hturn hj hj'
  · rw [Chatroom.setPeer_ne _ _ hji]
    exact (hy.peers j hj).hear hs hseated hturn hmann hj hj'
      fun c' env' hev => hji (Event.netcmd.inj hev).1.symm

/-- What an event does to the chat, and what it takes. -/
inductive ChatTurn (y : Chatroom) : ChatroomEvent → Chatroom → Option (Slot × NetCmd) → Prop
  | visit {newfd : Int} {peer : InAddr} {y' : Chatroom}
      (harrive : y.arrive newfd peer ⟨.visitor, [], []⟩ = some y') :
      ChatTurn y (.visit newfd peer) y' none
  | chatter {newfd : Int} {peer : InAddr} {user nick : CString} {eraseKey : Int} {y' : Chatroom}
      (hnick : nick.chars ≠ [])
      (harrive : y.arrive newfd peer ⟨.joining user nick eraseKey, [chatterJoin user nick], []⟩
        = some y') : ChatTurn y (.chatter newfd peer user nick eraseKey) y' none
  | recvError {i : Slot} {y' : Chatroom} (htell : y.tell (.recvError i) = some y') :
      ChatTurn y (.recvError i) y' none
  | closed {i : Slot} {alloc : Alloc} {y' : Chatroom} (htell : y.tell (.closed i alloc) = some y') :
      ChatTurn y (.closed i alloc) (y'.setPeer i ⟨.finished, [], []⟩) none
  | serve {i : Slot} {c : NetCmd} {up : List NetCmd} {env : Env} {y' : Chatroom}
      (hup : (y.peer i).up = c :: up)
      (htell : (y.setPeer i { y.peer i with up := up }).tell (.netcmd i c env) = some y') :
      ChatTurn y (.serve i env) y' none
  | request {i : Slot} {c : NetCmd} (hvisitor : (y.peer i).member = .visitor)
      (hop : c.op ≠ .chatdoor) :
      ChatTurn y (.request i c) (y.setPeer i { y.peer i with up := (y.peer i).up ++ [c] }) none
  | line {i : Slot} {line : InputLine} {p : Peer} (hline : (y.peer i).line line = some p) :
      ChatTurn y (.line i line) (y.setPeer i p) none
  | answered {i : Slot} {more : Nat} {p : Peer} (hanswer : (y.peer i).answered more = some p) :
      ChatTurn y (.answered i more) (y.setPeer i p) none
  | read {i : Slot} {p : Peer} {m : NetCmd} (hread : (y.peer i).read = some (p, m)) :
      ChatTurn y (.read i) (y.setPeer i p) (some (i, m))
  | quit {i : Slot} {p : Peer} (hquit : (y.peer i).quit = some p) :
      ChatTurn y (.quit i) (y.setPeer i p) none
  | hangup {i : Slot} (hdown : (y.peer i).down = []) (hdead : ¬ y.server.live i) :
      ChatTurn y (.hangup i) (y.setPeer i ⟨.finished, [], []⟩) none

/-- **Every step is one of these.** -/
theorem Chatroom.turn {e : ChatroomEvent} {heard : Option (Slot × NetCmd)}
    (h : y.step e = some (y', heard)) : ChatTurn y e y' heard := by
  have hsilent : ∀ {o : Option Chatroom}, o.map (fun y => (y, (none : Option (Slot × NetCmd))))
      = some (y', heard) → o = some y' ∧ heard = none := by
    intro o ho
    obtain ⟨y₁, hy₁, heq⟩ := Option.map_eq_some_iff.mp ho
    rw [hy₁, (Prod.mk.inj heq).1]
    exact ⟨rfl, (Prod.mk.inj heq).2.symm⟩
  cases e with
  | visit newfd peer =>
      obtain ⟨harrive, rfl⟩ := hsilent h
      exact .visit harrive
  | chatter newfd peer user nick eraseKey =>
      simp only [Chatroom.step] at h
      split at h
      · simp at h
      · rename_i hnick
        obtain ⟨harrive, rfl⟩ := hsilent h
        exact .chatter hnick harrive
  | recvError i =>
      obtain ⟨htell, rfl⟩ := hsilent h
      exact .recvError htell
  | closed i alloc =>
      obtain ⟨hmap, rfl⟩ := hsilent h
      obtain ⟨y₁, htell, rfl⟩ := Option.map_eq_some_iff.mp hmap
      exact .closed htell
  | serve i env =>
      cases hup : (y.peer i).up with
      | nil => simp [Chatroom.step, hup] at h
      | cons c up =>
          simp only [Chatroom.step, hup] at h
          obtain ⟨htell, rfl⟩ := hsilent h
          exact .serve hup htell
  | request i c =>
      cases hvisitor : (y.peer i).member with
      | visitor =>
          simp only [Chatroom.step, hvisitor] at h
          split at h
          · simp at h
          · rename_i hop
            obtain ⟨rfl, rfl⟩ := Prod.mk.inj (Option.some.inj h)
            rw [← hvisitor]
            exact .request hvisitor hop
      | _ => simp [Chatroom.step, hvisitor] at h
  | line i line =>
      obtain ⟨hmap, rfl⟩ := hsilent h
      obtain ⟨p, hp, rfl⟩ := Option.map_eq_some_iff.mp hmap
      exact .line hp
  | answered i more =>
      obtain ⟨hmap, rfl⟩ := hsilent h
      obtain ⟨p, hp, rfl⟩ := Option.map_eq_some_iff.mp hmap
      exact .answered hp
  | read i =>
      simp only [Chatroom.step, Option.map_eq_some_iff, Prod.mk.injEq] at h
      obtain ⟨⟨p, m⟩, hp, rfl, rfl⟩ := h
      exact .read hp
  | quit i =>
      obtain ⟨hmap, rfl⟩ := hsilent h
      obtain ⟨p, hp, rfl⟩ := Option.map_eq_some_iff.mp hmap
      exact .quit hp
  | hangup i =>
      simp only [Chatroom.step] at h
      split at h
      · split at h
        · simp at h
        · rename_i hdown hdead
          obtain ⟨rfl, rfl⟩ := Prod.mk.inj (Option.some.inj h)
          exact .hangup hdown hdead
      · simp at h

/-- **Every event leaves everything fine.** -/
theorem Chatroom.Fine.step {e : ChatroomEvent} {heard : Option (Slot × NetCmd)} (hy : y.Fine)
    (h : y.step e = some (y', heard)) : y'.Fine := by
  cases Chatroom.turn h with
  | visit harrive => exact hy.arrive harrive fun s i hno => ⟨hno, by simp⟩
  | chatter hnick harrive =>
      exact hy.arrive harrive fun s i hno => ⟨hnick, Or.inl ⟨rfl, rfl, hno⟩⟩
  | recvError htell =>
      obtain ⟨hneat, hpeers⟩ := hy.tell htell (by simp)
      obtain ⟨out, hstep, -⟩ := Chatroom.tell_some htell
      obtain ⟨hist, hrun, -⟩ := hy.neat
      exact ⟨hneat, fun j hj' => hpeers j
        ((step_turn (run_ok hrun) hstep).live_before (by simp) hj') hj'⟩
  | @closed i alloc y₁ htell =>
      obtain ⟨hneat, hpeers⟩ := hy.tell htell (by simp)
      obtain ⟨out, hstep, -⟩ := Chatroom.tell_some htell
      obtain ⟨hist, hrun, -⟩ := hy.neat
      have hturn := step_turn (run_ok hrun) hstep
      refine ⟨hneat, fun j hj' => ?_⟩
      by_cases hji : j = i
      · subst hji
        exact absurd hj' hturn.not_live_closed
      · rw [Chatroom.setPeer_ne _ _ hji]
        exact hpeers j (hturn.live_before (by simp) hj') hj'
  | serve hup htell => exact hy.serve hup htell
  | request hvisitor hop => exact hy.setPeer fun _ hp => hp.request hvisitor hop
  | line hline => exact hy.setPeer fun _ hp => hp.line hline
  | answered hanswer => exact hy.setPeer fun _ hp => hp.answered hanswer
  | read hread => exact hy.setPeer fun _ hp => hp.read hread
  | quit hquit => exact hy.setPeer fun _ hp => hp.quit hquit
  | hangup hdown hdead => exact hy.setPeer fun hlive => absurd hlive hdead

theorem chatroom_fine {hist : List ChatroomStep} (h : Run chatroom hist y) : y.Fine := by
  obtain ⟨y₀, h₀, hx⟩ := h
  refine hx.invariant Chatroom.Fine (fun _ => True) ?_ ?_ fun _ _ => trivial
  · obtain ⟨servfd, hfd, rfl⟩ := h₀
    exact ⟨⟨[], ⟨_, ⟨servfd, hfd, rfl⟩, .nil⟩, by simp⟩, fun i hi => absurd hi.1 (Nat.not_lt_zero _)⟩
  · intro y e y' o hy hstep _
    exact hy.step hstep

/--
**Once nothing is under way, the sidebar is right.**  In every run of the chat, the user of
a client inside `chatter_func` is in chat as long as the connection is open.  When the
client has read all that it was sent, and has not asked for a list that is still to be
made, its sidebar has the names of those in chat and no others, each of them once.
-/
theorem sidebar_right {hist : List ChatroomStep} (h : Run chatroom hist y)
    {user : CString} {v : ChatterVars} {l : LineVars} (hlive : y.server.live i)
    (hinside : (y.peer i).member = .inside user v l) :
    y.server.On i user ∧
      (¬ y.Asked i → (y.peer i).down = [] → v.sidebar = y.server.udata.sayNames) := by
  have hfine := (chatroom_fine h).peers i hlive
  simp only [Peer.Fine, hinside] at hfine
  obtain ⟨huser, -, hfollows⟩ := hfine
  refine ⟨huser, fun hasked hdown => ?_⟩
  rw [hdown] at hfollows
  exact hfollows.settled hasked

/-- Two users join, and the first one is told of the second. -/
def twoChatters : List ChatroomEvent :=
  [.chatter 4 ⟨127, 0, 0, 1⟩ (cstr [97]) (cstr [97]) 8,
    .chatter 5 ⟨127, 0, 0, 1⟩ (cstr [98]) (cstr [98]) 8, .serve 0 .bare,
    .answered 0 0, .serve 0 .bare, .read 0, .serve 1 .bare, .answered 1 0, .serve 1 .bare,
    .read 1, .read 0, .serve 0 .bare, .read 0]

/-- How many names the sidebar of a client has that is inside. -/
def Member.names : Member → Nat
  | .inside _ v _ => v.culist.length
  | _ => 0

theorem sidebar_right_two : ∃ hist y, ∃ v : ChatterVars, Run chatroom hist y ∧
    v.sidebar = y.server.udata.sayNames ∧ v.culist.length = 2 := by
  have hrun : (exec chatroom (.initial 3) twoChatters []).any (fun r =>
      decide (r.2.server.live 0) && (r.2.peer 0).up.isEmpty && (r.2.peer 0).down.isEmpty &&
        decide ((r.2.peer 0).member.names = 2)) = true := by
    decide +kernel
  obtain ⟨⟨hist, y⟩, hexec, hproj⟩ := (Option.any_eq_true _ _).mp hrun
  simp only [Bool.and_eq_true, decide_eq_true_eq, List.isEmpty_iff] at hproj
  obtain ⟨⟨⟨hlive, hup⟩, hdown⟩, hinside⟩ := hproj
  have h : Run chatroom hist y := ⟨_, ⟨3, by decide, rfl⟩, exec_sound _ .nil hexec⟩
  cases hmember : (y.peer 0).member with
  | inside user v l =>
      simp only [hmember, Member.names] at hinside
      refine ⟨hist, y, v, h, (sidebar_right h hlive hmember).2 ?_ hdown, hinside⟩
      intro hasked
      obtain ⟨c, hc, -⟩ := hasked
      rw [hup] at hc
      simp at hc
  | _ => simp [hmember, Member.names] at hinside

/-- What stands for a user in chat: its client, or what its client is about to do. -/
inductive Peer.Stands (p : Peer) (user : CString) : Prop
  | entering {nick : CString} {eraseKey : Int} (h : p.member = .joining user nick eraseKey)
      (hanswer : p.down ≠ [])
  | inside {v : ChatterVars} {l : LineVars} (h : p.member = .inside user v l)
  | leaving {cmds : List NetCmd} {reason : Option Bytes} (h : p.member = .finished)
      (hup : p.up = cmds ++ [chatterLeave user reason])

/--
**There are no ghosts.**  In every run of the chat, everybody in chat is there on an open
connection, and at the other end of it is the client of this user: it is inside
`chatter_func`, or it has yet to read that it has got in, or its leave is under way.
-/
theorem no_ghosts {hist : List ChatroomStep} (h : Run chatroom hist y) :
    ∀ e ∈ y.server.udata.ents, e.has udcFlagPresent →
      ∃ i, y.server.live i ∧ (y.server.clients i).fd = e.fd ∧ (y.peer i).Stands e.user := by
  intro e he hpres
  have hfine := chatroom_fine h
  obtain ⟨hist', hrun, hapart⟩ := hfine.neat
  have hseated := seated_run hrun hapart
  obtain ⟨i, hlive, hfd, -⟩ := hseated.session e.user e.seat (Udata.room_of_mem he) hpres
  refine ⟨i, hlive, hfd, ?_⟩
  have hon : ¬ y.server.NobodyOn i := fun hno => Udata.udataGetByFd_none hno e he hpres hfd.symm
  have hsame : ∀ user, y.server.On i user → user = e.user := by
    intro user huser
    obtain ⟨t, ht, htpres, htfd⟩ := huser
    exact hseated.apart _ _ t e.seat ht (Udata.room_of_mem he) htpres hpres (htfd.trans hfd)
  have hpeer := hfine.peers i hlive
  unfold Peer.Fine at hpeer
  cases hmember : (y.peer i).member with
  | visitor =>
      simp only [hmember] at hpeer
      exact absurd hpeer.1 hon
  | joining user nick eraseKey =>
      simp only [hmember] at hpeer
      obtain ⟨-, ⟨-, -, hno⟩ | ⟨-, m, down, hdown, hm⟩⟩ := hpeer
      · exact absurd hno hon
      · have huser := hsame user (hm.resolve_left fun hnak => hon hnak.2).2
        rw [huser] at hmember
        exact .entering hmember (by rw [hdown]; simp)
  | inside user v l =>
      simp only [hmember] at hpeer
      have huser := hsame user hpeer.1
      rw [huser] at hmember
      exact .inside hmember
  | finished =>
      simp only [hmember] at hpeer
      rcases hpeer with ⟨-, hno⟩ | ⟨user, cmds, reason, hup, -, huser⟩
      · exact absurd hno hon
      · rw [hsame user huser] at hup
        exact .leaving hmember hup

/-- Two users in chat, each with its client. -/
theorem no_ghosts_two : ∃ hist y, Run chatroom hist y ∧ y.server.udata.chatting.length = 2 ∧
    ∀ e ∈ y.server.udata.ents, e.has udcFlagPresent →
      ∃ i, y.server.live i ∧ (y.server.clients i).fd = e.fd ∧ (y.peer i).Stands e.user := by
  have hrun : (exec chatroom (.initial 3) twoChatters []).any (fun r =>
      decide (r.2.server.udata.chatting.length = 2)) = true := by
    decide +kernel
  obtain ⟨⟨hist, y⟩, hexec, hlen⟩ := (Option.any_eq_true _ _).mp hrun
  have h : Run chatroom hist y := ⟨_, ⟨3, by decide, rfl⟩, exec_sound _ .nil hexec⟩
  exact ⟨hist, y, h, of_decide_eq_true hlen, no_ghosts h⟩

end

end Smsg
