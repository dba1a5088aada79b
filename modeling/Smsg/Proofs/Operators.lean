/-
Operators and bans: where the flags of a user come from.

Somebody is an operator only if, since joining, the password was given on the
connection or another operator said so (`operator_provenance`).  Nothing but
`BANNED` survives the end of a session, and nobody who is banned gets in again
(`flags_life_cycle`).  The second holds without an exception: a
`C_UNBAN` looks for its user among those in chat, where no banned user is.
-/
import Smsg.Proofs.Sessions

namespace Smsg

open Machines

variable {mem : Memory} {hist : List ServerStep} {s s' : Server} {i : Slot} {user : CString}

/-! ### Joins and grants -/

/-- An acknowledged join is one that nothing was in the way of. -/
theorem joins_of_joinAcked {ev : Event} {out : List Effect} (hturn : Turn mem s ev s' out)
    (h : JoinAcked i user ⟨s, ev, s', out⟩) :
    ∃ c env nick, ev = .netcmd i c env ∧ (s.call i c env).Joins user nick := by
  obtain ⟨c, env, hev, hop, hform, huser, hack⟩ := h
  obtain rfl : ev = .netcmd i c env := hev
  cases hturn with
  | @netcmd _ _ _ o act hlive hmem hcall hdoes =>
      rcases chatdoor_cases (x := s.call i c env) hop huser with ⟨t, hl⟩ | ⟨nick, hj⟩ | ⟨reason, hnak⟩
      · have hleaves : c.leaves = true := hl.form
        rw [hform] at hleaves
        simp at hleaves
      · exact ⟨c, env, nick, rfl, hj⟩
      · rw [lsHandleNetcmd_chatdoor hop, hnak, Except.ok.injEq] at hcall
        rw [← hcall, Call.nak, s.settle_done] at hack
        simp [Call.reply, NetCmd.set, NetCmd.add] at hack

/-- What happened since the last acknowledged join of `user`. -/
def SinceJoin (hist later : List ServerStep) (user : CString) : Prop :=
  ∃ i join earlier, hist = later ++ join :: earlier ∧ JoinAcked i user join ∧
    ∀ st ∈ later, ∀ j, ¬ JoinAcked j user st

/--
The step made `user` an operator: the password came on the connection of its entry, or
a `C_OP` with its nick came from an operator.
-/
def GrantsOperator (user : CString) (st : ServerStep) : Prop :=
  ∃ i c env, st.ev = .netcmd i c env ∧
    ((c.get = .cOper ∧ c.str0 = some lcsOperPassword ∧
        ∃ e, st.pre.udata.udataGetByFd (st.pre.clients i).fd = some e ∧ e.user = user) ∨
      (c.get = .cOp ∧
        (∃ e, st.pre.udata.udataGetByFd (st.pre.clients i).fd = some e ∧ e.has udcFlagOperator) ∧
        ∃ t, st.pre.udata.udataGetByNick c.str0 = some t ∧ t.user = user))

/-- A `C_OPER` with the password. -/
def CorrectOper (st : ServerStep) : Prop :=
  ∃ i c env, st.ev = .netcmd i c env ∧ c.get = .cOper ∧ c.str0 = some lcsOperPassword

/-- An operator was one before the event, or has just been made one. -/
theorem Turn.granted {ev : Event} {out : List Effect} (h : Turn mem s ev s' out)
    {t' : Seat CString} (ht' : s'.udata.room user = some t')
    (hoper : t'.has udcFlagOperator = true) :
    (∃ t, s.udata.room user = some t ∧ t.has udcFlagOperator = true) ∨
      GrantsOperator user ⟨s, ev, s', out⟩ := by
  cases h with
  | refused => exact Or.inl ⟨t', ht', hoper⟩
  | recvError => exact Or.inl ⟨t', ht', hoper⟩
  | closed => exact Or.inl ⟨t', ht', hoper⟩
  | accepted =>
      rw [Server.accept_udata] at ht'
      exact Or.inl ⟨t', ht', hoper⟩
  | @hungUp k alloc e hlive hent =>
      have hroom := room_hungUp alloc hent
      have hleft : (Act.leave e.user).apply (s.clients k).fd s.udata.room user = some t' := by
        rw [← hroom]
        exact ht'
      rcases Act.apply_operator hleft hoper with hact | hold
      · rcases hact with hact | hact <;> cases hact
      · exact Or.inl hold
  | @netcmd i c env o act hlive hmem hcall hdoes =>
      have hroom : (s.settle o).1.udata.room = act.apply (s.clients i).fd s.udata.room := hdoes.2
      rw [hroom] at ht'
      rcases Act.apply_operator ht' hoper with hact | hold
      · refine Or.inr ⟨i, c, env, rfl, ?_⟩
        cases hdoes.1 with
        | @oper e hs hop hpw =>
            rcases hact with hact | hact
            · exact Or.inl ⟨hop, hpw, e, hs, Act.oper.inj hact⟩
            · cases hact
        | @mode e t _ _ hs ho _ ht hmode =>
            have hkey : ∀ op, modeAct op t.user = some act → op = .cOp ∧ t.user = user := by
              intro op hm
              rcases hact with rfl | rfl <;> cases op <;> simp [modeAct] at hm
              exact ⟨rfl, hm⟩
            obtain ⟨hop, hu⟩ := hkey _ hmode
            exact Or.inr ⟨hop, ⟨e, hs, ho⟩, t, ht, hu⟩
        | _ => rcases hact with hact | hact <;> cases hact
      · exact Or.inl hold

/-! ### Operators -/

/-- Those in chat have joined, and the operators among them were made so since. -/
def Provenance (hist : List ServerStep) (s : Server) : Prop :=
  ∀ v t, s.udata.room v = some t → t.present → ∃ later, SinceJoin hist later v ∧
    (t.has udcFlagOperator = true → ∃ st ∈ later, GrantsOperator v st)

theorem Provenance.step {ev : Event} {out : List Effect} (hs : s.Ok) (h : Provenance hist s)
    (hturn : Turn mem s ev s' out) : Provenance (⟨s, ev, s', out⟩ :: hist) s' := by
  intro v t' ht' hpres'
  obtain ⟨fd, act, -, -, hroom, hjoin⟩ := hturn.act hs
  have hafter := ht'
  rw [hroom] at hafter
  rcases Act.apply_present hafter hpres' with ⟨nick, hact, hseat⟩ | ⟨t, ht, hpres, -⟩
  · -- a join clears the flags
    obtain ⟨i, c, env, anick, rfl, hlive, -, hj⟩ := hjoin v nick hact
    refine ⟨[], ⟨i, _, hist, rfl, ?_, by simp⟩, ?_⟩
    · cases hturn with
      | netcmd _ _ hcall => exact joinAcked_of_joins hcall hj (le_of_lt (hs.fd_pos hlive))
    · intro hoper
      rw [hseat] at hoper
      simp [Seat.has, udcFlagPresent, udcFlagOperator] at hoper
  · obtain ⟨later, ⟨i, join, earlier, hhist, hack, hno⟩, hgrant⟩ := h v t ht hpres
    refine ⟨⟨s, ev, s', out⟩ :: later, ⟨i, join, earlier, by rw [hhist, List.cons_append], hack,
      ?_⟩, ?_⟩
    · intro st hst j hack'
      rcases List.mem_cons.mp hst with rfl | hst
      · obtain ⟨c, env, nick, -, hj⟩ := joins_of_joinAcked hturn hack'
        exact (hj.seat t ht).2 hpres
      · exact hno st hst j hack'
    · intro hoper
      rcases hturn.granted ht' hoper with ⟨t₀, ht₀, hoper₀⟩ | hnew
      · rw [ht, Option.some.injEq] at ht₀
        rw [← ht₀] at hoper₀
        obtain ⟨st, hst, hg⟩ := hgrant hoper₀
        exact ⟨st, List.mem_cons_of_mem _ hst, hg⟩
      · exact ⟨_, List.mem_cons_self, hnew⟩

theorem provenance_run (h : Run (server mem) hist s) : Provenance hist s := by
  obtain ⟨s₀, h₀, hx⟩ := h
  refine (hx.history (fun hist s => s.Ok ∧ Provenance hist s) (fun _ => True)
    ⟨ok_initial h₀, ?_⟩ ?_ fun _ _ => trivial).2
  · obtain ⟨servfd, -, rfl⟩ := h₀
    intro v t ht
    simp [Server.initial] at ht
  · intro hist s ev s' out hP hstep _
    have hturn := step_turn hP.1 hstep
    exact ⟨hturn.ok hP.1, hP.2.step hP.1 hturn⟩

theorem run_legal (h : Run (server mem) hist s) : s.udata.room.Legal := by
  obtain ⟨acts, hacts⟩ := run_room h fun _ _ htidy => False.elim htidy
  exact room_legal hacts

/-- Without the password there are no operators. -/
theorem no_operator (h : Run (server mem) hist s) (hpw : ∀ st ∈ hist, ¬ CorrectOper st) :
    ∀ v t, s.udata.room v = some t → t.has udcFlagOperator = false := by
  obtain ⟨s₀, h₀, hx⟩ := h
  refine (hx.invariant (fun s => s.Ok ∧ ∀ v t, s.udata.room v = some t →
    t.has udcFlagOperator = false) (fun st => ¬ CorrectOper st) ⟨ok_initial h₀, ?_⟩ ?_ hpw).2
  · obtain ⟨servfd, -, rfl⟩ := h₀
    intro v t ht
    simp [Server.initial] at ht
  · intro s ev s' out hP hstep hok
    have hturn := step_turn hP.1 hstep
    refine ⟨hturn.ok hP.1, ?_⟩
    intro v t' ht'
    by_contra hoper
    rcases hturn.granted ht' (by simpa using hoper) with ⟨t, ht, ho⟩ | hgrant
    · rw [hP.2 v t ht] at ho
      simp at ho
    · obtain ⟨i, c, env, hev, ⟨hop, hpw, -⟩ | ⟨-, ⟨e, he, ho⟩, -⟩⟩ := hgrant
      · exact hok ⟨i, c, env, hev, hop, hpw⟩
      · have hno := hP.2 e.user e.seat (Udata.room_of_mem (Udata.udataGetByFd_some he).1)
        rw [UdataEnt.seat_has, ho] at hno
        simp at hno

/-- While there is no operator, the commands of operators do nothing but answer. -/
theorem modeOps_idle {c : NetCmd} {env : Env} {out : List Effect}
    (hstep : (server mem).step s (.netcmd i c env) = some (s', out)) (hop : c.get ∈ modeOps)
    (hno : ∀ e ∈ s.udata.ents, e.has udcFlagOperator = false) :
    s' = s ∧ ∀ fd, Effect.close fd ∉ out := by
  have hrefused : chatMode (s.call i c env) =
      .ok ((s.call i c env).done s.udata [(s.call i c env).reply (.set c.op)]) :=
    chatMode_refused fun e hs => hno e (Udata.udataGetByFd_some hs).1
  have hchat : c.op.isChatcmd = true ∧ handleChatcmd (s.call i c env) = chatMode (s.call i c env) := by
    simp only [modeOps, List.mem_cons, List.not_mem_nil, or_false] at hop
    rcases hop with hop | hop | hop | hop | hop <;>
      exact ⟨by rw [show c.op = _ from hop]; decide,
        by rw [handleChatcmd, show (s.call i c env).cmd.get = _ from hop]⟩
  obtain ⟨-, -, o, hcall, hsettle⟩ := step_netcmd hstep
  have hdone : ∀ effects, (∀ fd, Effect.close fd ∉ effects) →
      s.settle ((s.call i c env).done s.udata effects) = (s', out) →
      s' = s ∧ ∀ fd, Effect.close fd ∉ out := by
    intro effects hclose hset
    rw [s.settle_done, Prod.mk.injEq] at hset
    obtain ⟨rfl, rfl⟩ := hset
    exact ⟨rfl, hclose⟩
  rw [lsHandleNetcmd_chatcmd hchat.1] at hcall
  split at hcall
  · rw [hchat.2, hrefused, Except.ok.injEq] at hcall
    rw [← hcall] at hsettle
    exact hdone _ (by simp [Call.reply]) hsettle
  · rw [Except.ok.injEq] at hcall
    rw [← hcall] at hsettle
    exact hdone _ (by simp) hsettle

/--
**Where operators come from.**  An operator was made one since it last joined; while
there is none, the commands of operators change no entry and close no connection; and
there is none in a run in which the password is never given.
-/
theorem operator_provenance (h : Run (server mem) hist s) :
    (∀ e ∈ s.udata.ents, e.has udcFlagOperator → ∃ later, SinceJoin hist later e.user ∧
        ∃ st ∈ later, GrantsOperator e.user st) ∧
      ((∀ e ∈ s.udata.ents, e.has udcFlagOperator = false) → ∀ i c env s' out,
        (server mem).step s (.netcmd i c env) = some (s', out) → c.get ∈ modeOps →
        s' = s ∧ ∀ fd, Effect.close fd ∉ out) ∧
      ((∀ st ∈ hist, ¬ CorrectOper st) → ∀ e ∈ s.udata.ents, e.has udcFlagOperator = false) := by
  refine ⟨?_, fun hno i c env s' out hstep hop => modeOps_idle hstep hop hno, ?_⟩
  · intro e he hoper
    have hroom := Udata.room_of_mem he
    obtain ⟨later, hsince, hgrant⟩ := provenance_run h e.user e.seat hroom
      ((run_legal h).operator_present hroom hoper)
    exact ⟨later, hsince, hgrant hoper⟩
  · intro hpw e he
    exact no_operator h hpw e.user e.seat (Udata.room_of_mem he)

/-- An operator by the password. -/
theorem operator_by_password : ∃ hist s, Run (server .enough) hist s ∧
    (∃ e ∈ s.udata.ents, e.has udcFlagOperator = true) ∧
    ∀ e ∈ s.udata.ents, e.has udcFlagOperator → ∃ later, SinceJoin hist later e.user ∧
      ∃ st ∈ later, GrantsOperator e.user st := by
  have hrun : (exec (server .enough) (.initial 3)
      (twoUsers ++ [.netcmd 0 ⟨.cOper, [lcsOperPassword.chars]⟩ .bare]) []).map
      (fun r => r.2.udata.ents.any fun e => e.has udcFlagOperator) = some true := by
    decide +kernel
  obtain ⟨⟨hist, s⟩, hexec, hproj⟩ := Option.map_eq_some_iff.mp hrun
  have h : Run (server .enough) hist s := run_of_exec hexec
  exact ⟨hist, s, h, List.any_eq_true.mp hproj, (operator_provenance h).1⟩

/-! ### Bans -/

/-- What is left of the flags of somebody who is not in chat, and of somebody who is. -/
theorem flags_legal (h : Run (server mem) hist s) :
    ∀ e ∈ s.udata.ents, (e.has udcFlagPresent = false → e.flags &&& ~~~udcFlagBanned = 0) ∧
      (e.has udcFlagPresent = true → e.has udcFlagBanned = false) := by
  intro e he
  have hroom := Udata.room_of_mem he
  refine ⟨?_, fun hpres => (run_legal h).not_banned hroom hpres⟩
  intro hout
  have hall : ∀ f ∈ legalFlags, f &&& udcFlagPresent = 0 → f &&& ~~~udcFlagBanned = 0 := by
    simp [legalFlags, udcFlagOperator, udcFlagAway, udcFlagPresent, udcFlagBanned]
  exact hall e.flags (run_legal h e.user e.seat hroom) (by simpa [UdataEnt.has] using hout)

/-- A `C_BAN` that hits: it comes from an operator and names the nick of `user`. -/
def Bans (user : CString) (st : ServerStep) : Prop :=
  ∃ i c env e t, st.ev = .netcmd i c env ∧ c.get = .cBan ∧
    st.pre.udata.udataGetByFd (st.pre.clients i).fd = some e ∧ e.has udcFlagOperator = true ∧
    st.pre.udata.udataGetByNick c.str0 = some t ∧ t.user = user

/-- `user` is out and banned. -/
def KeptOut (u : Udata) (user : CString) : Prop :=
  ∃ e ∈ u.ents, e.user = user ∧ e.has udcFlagBanned = true ∧ e.has udcFlagPresent = false

theorem keptOut_of_room {u : Udata} {t : Seat CString} (hu : u.room.Legal)
    (ht : u.room user = some t) (hban : t.has udcFlagBanned = true) : KeptOut u user := by
  obtain ⟨e, he, huser, rfl⟩ := Udata.room_iff.mp ht
  refine ⟨e, he, huser, hban, ?_⟩
  by_contra hpres
  rw [hu.not_banned ht (by simpa [Seat.present] using hpres)] at hban
  simp at hban

/-- A ban that hits is one. -/
theorem Bans.banned {ev : Event} {out : List Effect} (hturn : Turn mem s ev s' out)
    (h : Bans user ⟨s, ev, s', out⟩) :
    ∃ t, s'.udata.room user = some t ∧ t.has udcFlagBanned = true := by
  obtain ⟨i, c, env, e, t, hev, hop, hs, hoper, ht, rfl⟩ := h
  obtain rfl : ev = .netcmd i c env := hev
  cases hturn with
  | @netcmd _ _ _ o _ hlive hmem hcall _ =>
      have hchat : (s.call i c env).cmd.op.isChatcmd = true := by
        rw [show (s.call i c env).cmd.op = .cBan from hop]
        decide
      have hin : (s.call i c env).inChat = true := by
        obtain ⟨-, -, hpres⟩ := Udata.udataGetByFd_some hs
        rw [Call.inChat, show (s.call i c env).udata.udataGetByFd (s.call i c env).fd = some e from hs]
        exact hpres
      rw [lsHandleNetcmd_chatcmd hchat, hin, Bool.or_true, if_pos rfl, handleChatcmd,
        show (s.call i c env).cmd.get = .cBan from hop] at hcall
      obtain ⟨act, hact, -, hroom⟩ := does_mode (x := s.call i c env)
        (by rw [show (s.call i c env).cmd.op = .cBan from hop]; decide) hs hoper ht hcall
      rw [show (s.call i c env).cmd.op = .cBan from hop] at hact
      obtain rfl := Option.some.inj hact
      rw [Server.settle_udata, hroom]
      exact Act.apply_ban _ (Udata.room_of_mem (Udata.udataGetByNick_some ht).1)

/-- A `CHATDOOR` that asks to join as `user` was refused. -/
def JoinsRefused (user : CString) (st : ServerStep) : Prop :=
  ∀ i c env, st.ev = .netcmd i c env → c.get = .chatdoor → c.leaves = false →
    c.doorUser = some user →
    st.out = [.send (st.pre.clients i).fd ((NetCmd.set .nak).add errorChatBanned)]

/-- One event while `user` is banned. -/
theorem banned_step {ev : Event} {out : List Effect} (hs : s.Ok) (hlegal : s.udata.room.Legal)
    (hturn : Turn mem s ev s' out) {t : Seat CString} (ht : s.udata.room user = some t)
    (hban : t.has udcFlagBanned = true) :
    s'.udata.room.Legal ∧ (∃ t', s'.udata.room user = some t' ∧ t'.has udcFlagBanned = true) ∧
      JoinsRefused user ⟨s, ev, s', out⟩ := by
  obtain ⟨fd, act, hp, -, hroom, -⟩ := hturn.act hs
  refine ⟨by rw [hroom]; exact hlegal.apply hp, ?_, ?_⟩
  · rw [hroom]
    exact Act.apply_banned hlegal hp ht hban
  · intro i c env hev hop hform huser
    obtain rfl : ev = .netcmd i c env := hev
    cases hturn with
    | netcmd _ _ hcall =>
        have hnak := chatdoor_banned (x := s.call i c env) hform huser ht hban
        rw [lsHandleNetcmd_chatdoor hop, hnak, Except.ok.injEq] at hcall
        rw [← hcall, Call.nak, s.settle_done]
        rfl

/-- **Somebody who was banned stays out**, with every attempt to join refused. -/
theorem kept_out {later earlier : List ServerStep} {ban : ServerStep}
    (h : Run (server mem) (later ++ ban :: earlier) s) (hbans : Bans user ban) :
    KeptOut ban.post.udata user ∧
      ∀ st ∈ later, KeptOut st.post.udata user ∧ JoinsRefused user st := by
  obtain ⟨hrun, hstep, hrest⟩ := h.split
  have hok : ban.post.Ok := run_ok (hrun.snoc hstep)
  have hlegal : ban.post.udata.room.Legal := run_legal (hrun.snoc hstep)
  obtain ⟨t, ht, hban⟩ := Bans.banned (step_turn (run_ok hrun) hstep) hbans
  refine ⟨keptOut_of_room hlegal ht hban, ?_⟩
  refine (hrest.history (fun later s => (s.Ok ∧ s.udata.room.Legal ∧
      ∃ t, s.udata.room user = some t ∧ t.has udcFlagBanned = true) ∧
    ∀ st ∈ later, KeptOut st.post.udata user ∧ JoinsRefused user st) (fun _ => True)
    ⟨⟨hok, hlegal, t, ht, hban⟩, by simp⟩ ?_ fun _ _ => trivial).2
  intro later s ev s' out hP hstep' _
  obtain ⟨⟨hs, hl, t₁, ht₁, hban₁⟩, hlater⟩ := hP
  have hturn := step_turn hs hstep'
  obtain ⟨hl', ⟨t₂, ht₂, hban₂⟩, hrefused⟩ := banned_step hs hl hturn ht₁ hban₁
  refine ⟨⟨hturn.ok hs, hl', t₂, ht₂, hban₂⟩, ?_⟩
  intro st hst
  rcases List.mem_cons.mp hst with rfl | hst
  · exact ⟨keptOut_of_room hl' ht₂ hban₂, hrefused⟩
  · exact hlater st hst

/--
**What flags say.**  Outside of the chat nothing is left of them but `BANNED`, inside
nobody is banned; and a user that was banned stays out and banned, with every attempt
to join refused.
-/
theorem flags_life_cycle (h : Run (server mem) hist s) :
    (∀ e ∈ s.udata.ents, (e.has udcFlagPresent = false → e.flags &&& ~~~udcFlagBanned = 0) ∧
        (e.has udcFlagPresent = true → e.has udcFlagBanned = false)) ∧
      ∀ later ban earlier user, hist = later ++ ban :: earlier → Bans user ban →
        KeptOut ban.post.udata user ∧
          ∀ st ∈ later, KeptOut st.post.udata user ∧ JoinsRefused user st := by
  refine ⟨flags_legal h, ?_⟩
  intro later ban earlier user hhist hbans
  subst hhist
  exact kept_out h hbans

/-- The operator bans the other user. -/
theorem flags_life_cycle_ban : ∃ hist s ban, Run (server .enough) (ban :: hist) s ∧
    ∃ user, Bans user ban ∧ KeptOut ban.post.udata user := by
  have hrun : (exec (server .enough) (.initial 3)
      (twoUsers ++ [.netcmd 0 ⟨.cOper, [lcsOperPassword.chars]⟩ .bare]) []).map
      (fun r => (((server .enough).step r.2 (.netcmd 0 ⟨.cBan, [[98]]⟩ .bare)).isSome,
        (r.2.udata.udataGetByFd (r.2.clients 0).fd).any fun e => e.has udcFlagOperator,
        (r.2.udata.udataGetByNick (NetCmd.str0 ⟨.cBan, [[98]]⟩)).isSome))
      = some (true, true, true) := by
    decide +kernel
  obtain ⟨⟨hist, s⟩, hexec, hproj⟩ := Option.map_eq_some_iff.mp hrun
  simp only [Prod.mk.injEq, Option.isSome_iff_exists, Option.any_eq_true] at hproj
  obtain ⟨⟨⟨s', out⟩, hstep⟩, ⟨e, he, hoper⟩, t, ht⟩ := hproj
  have h : Run (server .enough) hist s := run_of_exec hexec
  have hbans : Bans t.user ⟨s, .netcmd 0 ⟨.cBan, [[98]]⟩ .bare, s', out⟩ :=
    ⟨0, _, _, e, t, rfl, rfl, he, hoper, ht, rfl⟩
  refine ⟨hist, s', _, h.snoc hstep, t.user, hbans, ?_⟩
  exact ((flags_life_cycle (h.snoc hstep)).2 [] _ hist t.user rfl hbans).1

/-! ### Unbanning -/

/-- A `C_UNBAN` from an operator for a nick that nobody in chat has. -/
def Unbans (nick : CString) (st : ServerStep) : Prop :=
  ∃ i c env e, st.ev = .netcmd i c env ∧ c.get = .cUnban ∧ c.str0 = some nick ∧
    st.pre.udata.udataGetByFd (st.pre.clients i).fd = some e ∧ e.has udcFlagOperator = true ∧
    st.pre.udata.udataGetByNick (some nick) = none

/-- In the history, `ban` has banned the user, and `unban` names the nick that the user had. -/
structure BannedAndUnbanned (hist later : List ServerStep) (user : CString)
    (ban unban : ServerStep) : Prop where
  order : ∃ between earlier, hist = later ++ unban :: (between ++ ban :: earlier)
  bans : Bans user ban
  unbans : ∃ nick, ban.pre.udata.nickOf user = some nick ∧ Unbans nick unban

/-- The step is a `CHATDOOR` to join as `user` under a nick that nobody in chat has. -/
def AsksToJoin (user : CString) (st : ServerStep) : Prop :=
  ∃ i c env, st.ev = .netcmd i c env ∧ c.get = .chatdoor ∧ c.leaves = false ∧
    c.doorUser = some user ∧ st.pre.udata.udataGetByNick (c.fetch .null 1).str = none

/-- `BANNED` is clear in `s`, and the next time the user asks to join it is acknowledged. -/
structure LetIn (s : Server) (later : List ServerStep) (user : CString) : Prop where
  clear : ∀ e ∈ s.udata.ents, e.user = user → e.has udcFlagBanned = false
  joins : ∀ rest st sooner, later = rest ++ st :: sooner → AsksToJoin user st →
    (∀ st' ∈ sooner, ¬ AsksToJoin user st') → ∃ i, JoinAcked i user st

/--
**Unbanning does nothing.**  The nick is looked for among those in chat, where nobody is
who was banned: in no run is the user let in, and whenever it asks to join it is refused.
-/
theorem never_unbanned {later : List ServerStep} {ban unban : ServerStep}
    (h : Run (server mem) hist s) (hunban : BannedAndUnbanned hist later user ban unban) :
    ¬ LetIn unban.post later user ∧ ∀ st ∈ later, JoinsRefused user st := by
  obtain ⟨between, earlier, rfl⟩ := hunban.order
  rw [← List.cons_append, ← List.append_assoc] at h
  obtain ⟨-, hkept⟩ := kept_out h hunban.bans
  refine ⟨?_, fun st hst => (hkept st (List.mem_append_left _ hst)).2⟩
  intro hin
  obtain ⟨⟨e, he, huser, hban, -⟩, -⟩ := hkept unban
    (List.mem_append_right _ List.mem_cons_self)
  rw [hin.clear e he huser] at hban
  simp at hban

/-- The operator `a` bans `b` and takes it back. -/
theorem run_unban : ∃ hist s ban unban, Run (server .enough) hist s ∧
    BannedAndUnbanned hist [] ⟨[98], by decide⟩ ban unban ∧
    ∃ e ∈ unban.post.udata.ents, e.user = ⟨[98], by decide⟩ ∧ e.has udcFlagBanned = true := by
  have hrun : (exec (server .enough) (.initial 3)
      (twoUsers ++ [.netcmd 0 ⟨.cOper, [lcsOperPassword.chars]⟩ .bare]) []).any (fun r =>
        ((r.2.udata.udataGetByFd (r.2.clients 0).fd).any fun e => e.has udcFlagOperator) &&
        ((r.2.udata.udataGetByNick (some ⟨[98], by decide⟩)).any fun t =>
          decide (t.user = ⟨[98], by decide⟩)) &&
        decide (r.2.udata.nickOf ⟨[98], by decide⟩ = some ⟨[98], by decide⟩) &&
        ((server .enough).step r.2 (.netcmd 0 ⟨.cBan, [[98]]⟩ .bare)).any fun p =>
          ((p.1.udata.udataGetByFd (p.1.clients 0).fd).any fun e => e.has udcFlagOperator) &&
          (p.1.udata.udataGetByNick (some ⟨[98], by decide⟩)).isNone &&
          ((server .enough).step p.1 (.netcmd 0 ⟨.cUnban, [[98]]⟩ .bare)).any fun q =>
            q.1.udata.ents.any fun e => decide (e.user = ⟨[98], by decide⟩) &&
              e.has udcFlagBanned) = true := by
    decide +kernel
  simp only [Option.any_eq_true, Bool.and_eq_true, decide_eq_true_eq, Option.isNone_iff_eq_none,
    List.any_eq_true] at hrun
  obtain ⟨⟨hist, s⟩, hexec, ⟨⟨⟨e, he, hoper⟩, t, ht, huser⟩, hnick⟩, ⟨s₁, out₁⟩, hban,
    ⟨⟨e₁, he₁, hoper₁⟩, hfree⟩, ⟨s₂, out₂⟩, hunban, e₂, he₂, hkept⟩ := hrun
  have h : Run (server .enough) hist s := run_of_exec hexec
  exact ⟨_, s₂, _, _, (h.snoc hban).snoc hunban,
    ⟨⟨[], hist, rfl⟩, ⟨0, _, _, e, t, rfl, rfl, he, hoper, ht, huser⟩,
      ⟨⟨[98], by decide⟩, hnick, 0, _, _, e₁, rfl, rfl, rfl, he₁, hoper₁, hfree⟩⟩, e₂, he₂, hkept⟩

theorem never_unbanned_two : ∃ hist s ban unban, Run (server .enough) hist s ∧
    BannedAndUnbanned hist [] ⟨[98], by decide⟩ ban unban ∧
    ¬ LetIn unban.post [] ⟨[98], by decide⟩ := by
  obtain ⟨hist, s, ban, unban, h, hunban, -⟩ := run_unban
  exact ⟨hist, s, ban, unban, h, hunban, (never_unbanned h hunban).1⟩

/-- The flag is still there. -/
theorem not_unbanned : ∃ hist s ban unban, Run (server .enough) hist s ∧
    BannedAndUnbanned hist [] ⟨[98], by decide⟩ ban unban ∧
    ¬ LetIn unban.post [] ⟨[98], by decide⟩ := by
  obtain ⟨hist, s, ban, unban, h, hunban, e, he, huser, hban⟩ := run_unban
  refine ⟨hist, s, ban, unban, h, hunban, fun hin => ?_⟩
  rw [hin.clear e he huser] at hban
  simp at hban

end Smsg
