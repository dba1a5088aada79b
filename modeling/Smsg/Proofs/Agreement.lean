/-
Client and server agree on who the user is.

The copy that a client has of its nick and its flags may be behind.  It ends up right
all the same: what is in its channel takes the copy to what the server has stored
(`identities_agree`).  A step of the server adds to the channel what makes up for the
change that it did, and a step of the client takes from the channel what it applies.
-/
import Smsg.Proofs.Identity

namespace Smsg

open Machines

/-! ### Clients and server -/

section

variable {y y' : System} {i j : Slot} {ev : Event} {user : CString} {d : Identity}

/-- `v` is in chat, on the connection of slot `i`. -/
def System.On (y : System) (i : Slot) (v : CString) (t : Seat CString) : Prop :=
  y.server.udata.room v = some t ∧ t.present ∧ t.fd = (y.server.clients i).fd

/-- Whoever is in chat on the connection of slot `i` is `user`, and reading `channel` takes
`d` to what the server has. -/
def System.Catches (y : System) (i : Slot) (user : CString) (d : Identity)
    (channel : List NetCmd) : Prop :=
  ∀ v t, y.On i v t → v = user ∧ ∃ d', d.handleAll channel = some d' ∧ Agrees d' t

/-- What holds of a client, its channel and the server. -/
def System.Knows (y : System) (i : Slot) : Prop :=
  match y.chatter i with
  | .joining _ _ => (∀ v t, ¬ y.On i v t) ∧ ∀ m ∈ y.channel i, NoNews m
  | .waiting user nick => (∀ v t, y.On i v t → y.channel i ≠ []) ∧
      y.Catches i user ⟨nick, 0⟩ (y.channel i).tail
  | .inside user d => y.Catches i user d (y.channel i)
  | .finished => True

/-- The event is no join on a used connection, and no join without memory for the nick. -/
def Server.Orderly (s : Server) (ev : Event) : Prop := ¬ s.JoinsTwice ev ∧ s.StoresNick ev

/-- The command is a `CHATDOOR` that asks to join. -/
def NetCmd.Asks (c : NetCmd) : Prop := c.get = .chatdoor ∧ c.leaves = false

theorem orderly_of_not_asks {s : Server} (h : ∀ j c env, ev = .netcmd j c env → ¬ c.Asks) :
    s.Orderly ev := by
  refine ⟨?_, ?_⟩
  · intro htwice
    obtain ⟨i, c, env, user, nick, hev, hj, -⟩ := htwice
    exact h i c env hev ⟨hj.op, hj.form⟩
  · intro i c env user nick hev hj
    exact absurd ⟨hj.op, hj.form⟩ (h i c env hev)

/-- A state that the server gets to by orderly events. -/
def Server.Tidy (s : Server) : Prop :=
  ∃ hist, Run (server .any) hist s ∧ ∀ st ∈ hist, st.pre.Orderly st.ev

/-- What holds in every state of clients and server. -/
structure System.Agreeing (y : System) : Prop where
  tidy : y.server.Tidy
  knows : ∀ i, y.Knows i

theorem serve_some (h : y.serve ev = some y') : ∃ out,
    (server .any).step y.server ev = some (y'.server, out) ∧ y'.chatter = y.chatter ∧
      ∀ j, y'.channel j = y.channel j ++ sentTo (y.server.clients j).fd out := by
  simp only [System.serve, Option.bind_eq_bind, Option.bind_eq_some_iff, Option.some.injEq] at h
  obtain ⟨⟨server, out⟩, hstep, rfl⟩ := h
  exact ⟨out, hstep, rfl, fun _ => rfl⟩

/-- What an event of the server does, for the client of a slot that does not join with it. -/
structure System.Served (y y' : System) (j : Slot) (out : List Effect) : Prop where
  chatter : y'.chatter = y.chatter
  channel : y'.channel j = y.channel j ++ sentTo (y.server.clients j).fd out
  follows : ∀ v t', y'.On j v t' → ∃ t, y.On j v t ∧ ∀ d, Agrees d t →
    ∃ d', d.handleAll (sentTo (y.server.clients j).fd out) = some d' ∧ Agrees d' t'

/-- An orderly event. -/
theorem System.Agreeing.serve (hy : y.Agreeing) (h : y.serve ev = some y')
    (horder : y.server.Orderly ev) :
    y'.server.Tidy ∧ ∃ out, Turn .any y.server ev y'.server out ∧
      ∀ j, (∀ c env v anick, ev = .netcmd j c env → ¬ (y.server.call j c env).Joins v anick) →
        y.Served y' j out := by
  obtain ⟨hist, hrun, hok⟩ := hy.tidy
  obtain ⟨out, hstep, hchatter, hchannel⟩ := serve_some h
  have hs := run_ok hrun
  have hseated := seated_run hrun fun st hst => (hok st hst).1
  have hnicks := run_nicks hrun fun st hst => (hok st hst).2
  have hturn := step_turn hs hstep
  refine ⟨⟨_, hrun.snoc hstep, ?_⟩, out, hturn, fun j hjoin => ⟨hchatter, hchannel j, ?_⟩⟩
  · intro st hst
    rcases List.mem_cons.mp hst with hst | hst
    · rw [hst]
      exact horder
    · exact hok st hst
  · intro v t' hon'
    obtain ⟨ht', hpres', hfd'⟩ := hon'
    rcases hturn.on_cases hs hseated ht' hpres' hfd' with hold | hnew
    · obtain ⟨t, ht, hpres, hfd, hlive, hfdj⟩ := hold
      exact ⟨t, ⟨ht, hpres, hfd⟩, fun d hd => hturn.follows hs hnicks hseated.apart
        hlive hfdj ht hpres hfd ht' hpres' hfd' hd⟩
    · obtain ⟨c, env, anick, hev, hj⟩ := hnew
      exact absurd hj (hjoin c env v anick hev)

/-- A client catches up with what it is sent. -/
theorem System.Catches.serve {out : List Effect} {channel : List NetCmd}
    (h : y.Catches j user d channel) (hserved : y.Served y' j out) :
    y'.Catches j user d (channel ++ sentTo (y.server.clients j).fd out) := by
  intro v t' hon'
  obtain ⟨t, hon, hfollows⟩ := hserved.follows v t' hon'
  obtain ⟨huser, d₁, hd₁, hagrees⟩ := h v t hon
  obtain ⟨d₂, hd₂, hagrees'⟩ := hfollows d₁ hagrees
  refine ⟨huser, d₂, ?_, hagrees'⟩
  rw [handleAll_append, hd₁]
  exact hd₂

/-- What is known of a client is known after an event that is no command of a joining one. -/
theorem System.Knows.serve {out : List Effect} (h : y.Knows j) (hs : y.server.Ok)
    (hturn : Turn .any y.server ev y'.server out) (hserved : y.Served y' j out)
    (hquiet : ∀ user nick, y.chatter j = .joining user nick → ∀ c env, ev ≠ .netcmd j c env) :
    y'.Knows j := by
  unfold System.Knows at h ⊢
  rw [hserved.chatter]
  cases hchatter : y.chatter j with
  | joining user nick =>
      simp only [hchatter] at h ⊢
      refine ⟨?_, ?_⟩
      · intro v t' hon'
        obtain ⟨t, hon, -⟩ := hserved.follows v t' hon'
        exact h.1 v t hon
      · intro m hm
        rw [hserved.channel, List.mem_append] at hm
        rcases hm with hm | hm
        · exact h.2 m hm
        · refine hturn.unheard hs (hquiet user nick hchatter) ?_ m hm
          intro v t ht hpres hfd
          exact h.1 v t ⟨ht, hpres, hfd⟩
  | waiting user nick =>
      simp only [hchatter] at h ⊢
      rw [hserved.channel]
      refine ⟨?_, ?_⟩
      · intro v t' hon'
        obtain ⟨t, hon, -⟩ := hserved.follows v t' hon'
        exact List.append_ne_nil_of_left_ne_nil (h.1 v t hon) _
      · intro v t' hon'
        obtain ⟨t, hon, -⟩ := hserved.follows v t' hon'
        rw [List.tail_append_of_ne_nil (h.1 v t hon)]
        exact h.2.serve hserved v t' hon'
  | inside user d =>
      simp only [hchatter] at h ⊢
      rw [hserved.channel]
      exact h.serve hserved
  | finished => trivial

/-- What an event of the server leaves known. -/
theorem System.Agreeing.knows_serve (hy : y.Agreeing) (h : y.serve ev = some y')
    (horder : y.server.Orderly ev)
    (hjoin : ∀ c env, ev = .netcmd j c env →
      ¬ c.Asks ∧ ∀ user nick, y.chatter j ≠ .joining user nick) : y'.Knows j := by
  obtain ⟨-, out, hturn, hserved⟩ := hy.serve h horder
  obtain ⟨hist, hrun, -⟩ := hy.tidy
  refine (hy.knows j).serve (run_ok hrun) hturn (hserved j ?_) ?_
  · intro c env v anick hev hj
    exact (hjoin c env hev).1 ⟨hj.op, hj.form⟩
  · intro user nick hchatter c env hev
    exact (hjoin c env hev).2 user nick hchatter

theorem System.Knows.same (h : y.Knows j) (hserver : y'.server = y.server)
    (hchatter : y'.chatter j = y.chatter j) (hchannel : y'.channel j = y.channel j) :
    y'.Knows j := by
  unfold System.Knows System.Catches System.On at h ⊢
  rw [hserver, hchatter, hchannel]
  exact h

theorem System.Agreeing.step_serve (hy : y.Agreeing) (h : y.serve ev = some y')
    (hjoin : ∀ j c env, ev = .netcmd j c env →
      ¬ c.Asks ∧ ∀ user nick, y.chatter j ≠ .joining user nick) : y'.Agreeing := by
  have horder : y.server.Orderly ev := orderly_of_not_asks fun j c env hev => (hjoin j c env hev).1
  exact ⟨(hy.serve h horder).1, fun j => hy.knows_serve h horder (hjoin j)⟩

/-- A client joins. -/
theorem System.Agreeing.step_join (hy : y.Agreeing) {nick : CString} {env : Env}
    (hchatter : y.chatter i = .joining user nick)
    (hmem : y.server.StoresNick (.netcmd i (chatterJoin user nick) env))
    (h : y.serve (.netcmd i (chatterJoin user nick) env) = some y') :
    (y'.setChatter i (.waiting user nick)).Agreeing := by
  have hknows := hy.knows i
  simp only [System.Knows, hchatter] at hknows
  obtain ⟨hout, hnews⟩ := hknows
  obtain ⟨hist, hrun, hok⟩ := hy.tidy
  have hs := run_ok hrun
  have hseated := seated_run hrun fun st hst => (hok st hst).1
  have horder : y.server.Orderly (.netcmd i (chatterJoin user nick) env) := by
    refine ⟨?_, hmem⟩
    intro htwice
    obtain ⟨k, c, env', user', nick', hev, -, hused⟩ := htwice
    obtain rfl : i = k := (Event.netcmd.inj hev).1
    obtain ⟨e, he⟩ := Option.ne_none_iff_exists'.mp hused
    obtain ⟨hents, hefd, hepres⟩ := Udata.udataGetByFd_some he
    exact hout e.user e.seat ⟨Udata.room_of_mem hents, hepres, hefd⟩
  obtain ⟨htidy, -⟩ := hy.serve h horder
  obtain ⟨out, hstep, -, hchannel⟩ := serve_some h
  have hturn := step_turn hs hstep
  refine ⟨htidy, fun j => ?_⟩
  by_cases hji : j = i
  · subst hji
    have hon : ∀ v t', y'.On j v t' → v = user ∧ Agrees ⟨nick, 0⟩ t' ∧
        y'.channel j = y.channel j ++ [.set .ack] := by
      intro v t' hon'
      obtain ⟨ht', hpres', hfd'⟩ := hon'
      obtain ⟨hv, hagrees, hsent⟩ := hturn.joined hs hseated hmem
        (fun v t ht hpres hfd => hout v t ⟨ht, hpres, hfd⟩) ht' hpres' hfd'
      exact ⟨hv, hagrees, by rw [hchannel, hsent]⟩
    simp only [System.Knows, System.setChatter, if_true]
    refine ⟨?_, ?_⟩
    · intro v t' hon'
      rw [(hon v t' hon').2.2]
      exact List.append_ne_nil_of_right_ne_nil _ (by simp)
    · intro v t' hon'
      obtain ⟨hv, hagrees, hch⟩ := hon v t' hon'
      refine ⟨hv, ⟨nick, 0⟩, handleAll_idle fun m hm => ?_, hagrees⟩
      rw [hch] at hm
      rcases List.mem_append.mp (List.mem_of_mem_tail hm) with hm | hm
      · exact hnews m hm _
      · rw [List.mem_singleton.mp hm]
        rfl
  · have hne : ∀ c env', Event.netcmd i (chatterJoin user nick) env ≠ .netcmd j c env' :=
      fun c env' hev => hji (Event.netcmd.inj hev).1.symm
    have hknows' : y'.Knows j := hy.knows_serve h horder fun c env' hev => absurd hev (hne c env')
    exact hknows'.same rfl (if_neg hji) rfl

/-- A connection arrives, and with it a client that is going to join. -/
theorem System.Agreeing.step_connect (hy : y.Agreeing) {newfd : Int} {peer : InAddr}
    {nick : CString} (hslot : y.server.acceptSlot = some i)
    (h : y.serve (.accept newfd peer) = some y') :
    ((y'.setChatter i (.joining user nick)).setChannel i []).Agreeing := by
  obtain ⟨hist, hrun, hok⟩ := hy.tidy
  have hs := run_ok hrun
  have hseated := seated_run hrun fun st hst => (hok st hst).1
  have horder : y.server.Orderly (.accept newfd peer) := orderly_of_not_asks (by simp)
  obtain ⟨htidy, -⟩ := hy.serve h horder
  obtain ⟨out, hstep, -, -⟩ := serve_some h
  refine ⟨htidy, fun j => ?_⟩
  by_cases hji : j = i
  · subst hji
    simp only [System.Knows, System.setChannel, System.setChatter, if_true]
    refine ⟨?_, by simp⟩
    intro v t hon
    obtain ⟨ht, hpres, hfd⟩ := hon
    exact (step_turn hs hstep).accepted_alone hseated hslot ht hpres hfd
  · have hknows' : y'.Knows j := hy.knows_serve h horder fun c env hev => by cases hev
    exact hknows'.same rfl (if_neg hji) (if_neg hji)

/-- A client reads. -/
theorem System.Agreeing.step_read (hy : y.Agreeing) {rbuf : NetCmd} {channel : List NetCmd}
    {p : Chatter} (hchannel : y.channel i = rbuf :: channel)
    (hread : (y.chatter i).read rbuf = some p) :
    ((y.setChatter i p).setChannel i channel).Agreeing := by
  refine ⟨hy.tidy, fun j => ?_⟩
  by_cases hji : j = i
  · subst hji
    have hknows := hy.knows j
    simp only [System.Knows, System.setChannel, System.setChatter, if_true] at hknows ⊢
    cases hchatter : y.chatter j with
    | joining user nick => simp [hchatter, Chatter.read] at hread
    | finished => simp [hchatter, Chatter.read] at hread
    | waiting user nick =>
        simp only [hchatter, hchannel, List.tail_cons] at hknows
        simp only [hchatter, Chatter.read] at hread
        split at hread
        · rw [← Option.some.inj hread]
          trivial
        · rw [← Option.some.inj hread]
          exact hknows.2
    | inside user d =>
        simp only [hchatter, hchannel] at hknows
        simp only [hchatter, Chatter.read, Option.bind_eq_bind, Option.bind_eq_some_iff,
          Option.some.injEq] at hread
        obtain ⟨d₁, hd₁, rfl⟩ := hread
        intro v t hon
        obtain ⟨huser, d', hd', hagrees⟩ := hknows v t hon
        rw [Identity.handleAll, List.foldlM_cons, hd₁] at hd'
        exact ⟨huser, d', hd', hagrees⟩
  · exact (hy.knows j).same rfl (if_neg hji) (if_neg hji)

theorem System.Agreeing.finish (hy : y.Agreeing) (i : Slot) :
    (y.setChatter i .finished).Agreeing := by
  refine ⟨hy.tidy, fun j => ?_⟩
  by_cases hji : j = i
  · subst hji
    simp [System.Knows, System.setChatter]
  · exact (hy.knows j).same rfl (if_neg hji) rfl

/-- If the event is a join that goes through, there is memory for the nick. -/
def System.StoresNick (y : System) (e : SystemEvent) : Prop :=
  ∀ i env user nick, e = .join i env → y.chatter i = .joining user nick →
    y.server.StoresNick (.netcmd i (chatterJoin user nick) env)

/-- **Every step keeps clients and server in agreement.** -/
theorem System.Agreeing.step {e : SystemEvent} (hy : y.Agreeing) (h : y.step e = some y')
    (hmem : y.StoresNick e) : y'.Agreeing := by
  have hnojoin : ∀ {ev : Event}, (∀ k c env, ev ≠ .netcmd k c env) → ∀ j c env,
      ev = .netcmd j c env → ¬ c.Asks ∧ ∀ user nick, y.chatter j ≠ .joining user nick :=
    fun hev j c env heq => absurd heq (hev j c env)
  cases e with
  | connect newfd peer user nick =>
      simp only [System.step, Option.bind_eq_bind, Option.bind_eq_some_iff] at h
      obtain ⟨y₁, hserve, h⟩ := h
      cases hslot : y.server.acceptSlot with
      | none =>
          simp only [hslot, Option.some.injEq] at h
          rw [← h]
          exact hy.step_serve hserve (hnojoin (by simp))
      | some i =>
          simp only [hslot, Option.some.injEq] at h
          rw [← h]
          exact hy.step_connect hslot hserve
  | recvError i => exact hy.step_serve h (hnojoin (by simp))
  | closed i alloc =>
      simp only [System.step, Option.bind_eq_bind, Option.bind_eq_some_iff,
        Option.some.injEq] at h
      obtain ⟨y₁, hserve, rfl⟩ := h
      exact (hy.step_serve hserve (hnojoin (by simp))).finish i
  | join i env =>
      cases hchatter : y.chatter i with
      | joining user nick =>
          simp only [System.step, hchatter, Option.bind_eq_bind, Option.bind_eq_some_iff,
            Option.some.injEq] at h
          obtain ⟨y₁, hserve, rfl⟩ := h
          exact hy.step_join hchatter (hmem i env user nick rfl hchatter) hserve
      | _ => simp [System.step, hchatter] at h
  | netcmd i c env =>
      have hserve : (∀ user nick, y.chatter i ≠ .joining user nick) →
          (if c.get = .chatdoor ∧ c.leaves = false then none
            else y.serve (.netcmd i c env)) = some y' → y'.Agreeing := by
        intro hchatter h
        split at h
        · simp at h
        · rename_i hasks
          refine hy.step_serve h fun j c' env' hev => ?_
          obtain ⟨rfl, rfl, -⟩ := Event.netcmd.inj hev
          exact ⟨hasks, hchatter⟩
      cases hchatter : y.chatter i with
      | inside user d =>
          simp only [System.step, hchatter] at h
          exact hserve (by simp [hchatter]) h
      | finished =>
          simp only [System.step, hchatter] at h
          exact hserve (by simp [hchatter]) h
      | _ => simp [System.step, hchatter] at h
  | read i =>
      cases hchannel : y.channel i with
      | nil => simp [System.step, hchannel] at h
      | cons rbuf channel =>
          simp only [System.step, hchannel, Option.bind_eq_bind, Option.bind_eq_some_iff,
            Option.some.injEq] at h
          obtain ⟨p, hread, rfl⟩ := h
          exact hy.step_read hchannel hread
  | quit i =>
      cases hchatter : y.chatter i with
      | inside user d =>
          simp only [System.step, hchatter, Option.some.injEq] at h
          rw [← h]
          exact hy.finish i
      | _ => simp [System.step, hchatter] at h

end

/-- In every run, clients and server agree. -/
theorem agreeing_run {hist : List (Step System SystemEvent Unit)} {y : System}
    (h : Run system hist y) (hmem : ∀ st ∈ hist, st.pre.StoresNick st.ev) : y.Agreeing := by
  obtain ⟨y₀, h₀, hx⟩ := h
  refine hx.invariant System.Agreeing (fun st => st.pre.StoresNick st.ev) ?_ ?_ hmem
  · obtain ⟨servfd, hfd, rfl⟩ := h₀
    exact ⟨⟨[], ⟨_, ⟨servfd, hfd, rfl⟩, .nil⟩, by simp⟩, fun i => trivial⟩
  · intro y e y' o hy hstep hmem
    simp only [system, Option.map_eq_some_iff, Prod.mk.injEq] at hstep
    obtain ⟨y₁, hstep, rfl, -⟩ := hstep
    exact hy.step hstep hmem

/-- Reading what is in the channel takes a client to the nick and the flags of an entry. -/
def Identity.CatchesUp (d : Identity) (channel : List NetCmd) (e : UdataEnt) : Prop :=
  ∃ d', d.handleAll channel = some d' ∧ e.nick = some d'.nick ∧
    ∀ b ∈ [udcFlagAway, udcFlagOperator], d'.flags &&& b = e.flags &&& b

/--
Every client inside `chatter_func` whose connection has an entry in chat has the user of
that entry, and catches up with it.
-/
def System.InAgreement (y : System) : Prop :=
  ∀ i user d, y.chatter i = .inside user d → ∀ e ∈ y.server.udata.ents, e.has udcFlagPresent →
    e.fd = (y.server.clients i).fd → e.user = user ∧ d.CatchesUp (y.channel i) e

end Smsg
