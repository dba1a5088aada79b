/-
Asking for queued messages.

Nothing in the server adds a message to a queue, and an entry is made without one.  So
in every state of a run the queue pointer of every entry is `NULL` (`queueless_run`), and
`mq_getnum`, which follows the pointer of every entry that it finds, is safe only for
users that have no entry.
-/
import Smsg.Proofs.Queue
import Smsg.Proofs.Prefs

namespace Smsg

open Machines Udata

variable {u : Udata} {user : CString} {x : Call} {o : Outcome}

/-! ### Stores without queues -/

/-- No entry has a queue. -/
def Udata.Queueless (u : Udata) : Prop := ∀ a ∈ u.accounts, a.queue = .null

theorem Udata.queueless_iff : u.Queueless ↔ ∀ e ∈ u.ents, e.queue = .null := by
  simp only [Queueless, accounts, List.mem_map, forall_exists_index, and_imp,
    forall_apply_eq_imp_iff₂, UdataEnt.account]

theorem Udata.Queueless.modify {f : UdataEnt → UdataEnt} (h : u.Queueless)
    (hf : ∀ e, (f e).queue = e.queue) : (u.modify user f).Queueless := by
  rw [queueless_iff] at h ⊢
  intro e he
  rcases mem_modify.mp he with ⟨he, -⟩ | ⟨e₀, he₀, -, rfl⟩
  · exact h e he
  · exact (hf e₀).trans (h e₀ he₀)

theorem Udata.Queueless.udataAdd (h : u.Queueless) (alloc : Alloc) (ne : UdataArg) :
    (u.udataAdd alloc ne).2.Queueless := by
  rcases u.udataAdd_cases alloc ne with hsame | ⟨v, hv, hnone, hmem⟩
  · rwa [hsame]
  · rw [queueless_iff] at h ⊢
    rw [(udataAdd_new hv hnone hmem).2]
    intro e he
    rcases List.mem_append.mp he with he | he
    · exact h e he
    · rw [List.mem_singleton.mp he]
      rfl

theorem Udata.Queueless.udataUpdate (h : u.Queueless) (alloc : Alloc) (arg : UdataArg) :
    (u.udataUpdate alloc arg).2.Queueless := by
  unfold Udata.udataUpdate
  split
  · split
    · exact h
    · rename_i user _ _ _ _
      have hprefs : (u.updatePrefs user arg).Queueless := h.modify fun _ => rfl
      dsimp only
      split
      · exact hprefs
      · split
        · exact hprefs.modify fun _ => rfl
        · exact hprefs
  · split
    · exact h
    · exact h.udataAdd alloc arg

/-- An entry that says nothing has no queue either. -/
theorem Udata.Queueless.enrolled {u' : Udata} (h : u.Queueless) (henrol : Enrolled u u') :
    u'.Queueless := by
  rcases henrol with rfl | ⟨v, -, hents⟩
  · exact h
  · rw [queueless_iff] at h ⊢
    rw [hents]
    intro e he
    rcases List.mem_append.mp he with he | he
    · exact h e he
    · rw [List.mem_singleton.mp he]
      rfl

theorem Udata.Queueless.accounts {u' : Udata} (h : u.Queueless) (hsame : u'.accounts = u.accounts) :
    u'.Queueless := by
  rw [Queueless, hsame]
  exact h

theorem Udata.Queueless.udataGetQp (h : u.Queueless) (user : CString) :
    u.udataGetQp (some user) = .null := by
  unfold Udata.udataGetQp
  cases hget : u.udataGet (some user) with
  | none => rfl
  | some e => exact queueless_iff.mp h e (udataGet_some hget).1

/-! ### No command makes one -/

theorem msgWrite_udata (x : Call) (u : Udata) (past : List Effect) (tbeep : Int8) (tty : CString)
    (sender msg : Option CString) : (msgWrite x u past tbeep tty sender msg).udata = u := by
  unfold msgWrite
  dsimp only
  split
  · rfl
  · split
    · rfl
    · split
      · rfl
      · split <;> rfl

theorem msgTty_queueless (h : x.udata.Queueless) (sender msg : Option CString) :
    (msgTty x user sender msg).udata.Queueless := by
  have hstore : ∀ b : Bool, (if b then (x.udata.udataUpdate x.env.alloc
      { udataDefEntry with user := some user, tty := some ttysetUnset }).2
      else x.udata).Queueless := by
    intro b
    split
    · exact h.udataUpdate _ _
    · exact h
  unfold msgTty
  dsimp only
  split
  · split
    · rw [msgWrite_udata]
      exact hstore _
    · exact hstore _
  · split
    · exact hstore _
    · split
      · rw [msgWrite_udata]
        exact hstore _
      · exact hstore _

theorem handleMsg_queueless (h : x.udata.Queueless) : (handleMsg x).udata.Queueless := by
  unfold handleMsg msgFor
  dsimp only
  split
  · exact h
  · split
    · exact h
    · split
      · exact h
      · split
        · exact h
        · exact msgTty_queueless h _ _

theorem setpref_queueless {targ0 : Arg} (h : x.udata.Queueless) (hset : setpref x targ0 = .ok o) :
    o.udata.Queueless := by
  obtain ⟨arg, m, -, -, -, rfl⟩ := setpref_cases hset
  exact h.udataUpdate _ _

theorem handleSetpref_queueless (h : x.udata.Queueless) (hset : handleSetpref x = .ok o) :
    o.udata.Queueless := by
  unfold handleSetpref at hset
  dsimp only at hset
  split at hset
  · rw [← Except.ok.inj hset]
    exact h
  · split at hset
    · simp at hset
    · split at hset
      · rw [← Except.ok.inj hset]
        exact h
      · split at hset
        · rw [← Except.ok.inj hset]
          exact h
        · exact setpref_queueless h hset

theorem handleGetqmsg_queueless (h : x.udata.Queueless) (hq : handleGetqmsg x = .ok o) :
    o.udata.Queueless := by
  have hget : ∀ {user : CString} {r : Int} {vars : MqVars} {u : Udata},
      mqGet x.env x.udata user = .ok (r, vars, u) → u.Queueless := by
    intro user r vars u hmq
    rcases mqGet_udata hmq with rfl | ⟨q, hne, -⟩
    · exact h
    · exact absurd (h.udataGetQp user) hne
  unfold handleGetqmsg getqmsg at hq
  dsimp only at hq
  split at hq
  · rw [← Except.ok.inj hq]
    exact h
  · split at hq
    · simp at hq
    · split at hq
      · rw [← Except.ok.inj hq]
        exact h
      · split at hq
        · simp at hq
        · rw [← Except.ok.inj hq]
          exact h
        · split at hq
          · simp at hq
          · rename_i hmq
            rw [← Except.ok.inj hq]
            exact hget hmq
          · rename_i hmq
            rw [← Except.ok.inj hq]
            exact hget hmq

/-! ### Counting messages -/

/-- What `mq_getnum` does: it follows the pointer of every entry. -/
theorem mqGetnum_eq (u : Udata) (user : CString) :
    (u.udataGet (some user) = none ∧ mqGetnum u user = .ok 0) ∨
      ∃ e, u.udataGet (some user) = some e ∧
        (e.queue = .null → mqGetnum u user = .error .nullPointer) := by
  unfold mqGetnum
  cases hget : u.udataGet (some user) with
  | none => exact Or.inl ⟨rfl, rfl⟩
  | some e => exact Or.inr ⟨e, rfl, fun hq => by simp only [hq]⟩

theorem mqGetnum_blk {ms : List Queued} (hq : u.udataGetQp (some user) = .blk (queueLayout ms))
    (hlen : ms.length < 2 ^ 16) : mqGetnum u user = .ok ms.length := by
  obtain ⟨e, he, heq⟩ := udataGet_of_queue hq
  have hdrop : (queueLayout ms).drop 4 = be16 ms.length ++ queueRecords ms := by
    rw [queueLayout, List.drop_left' (length_be32 _)]
  unfold mqGetnum
  simp only [he, heq]
  rw [hdrop, readNs_be16 hlen]

/-- Messages are counted right for users that have some, and for those without an entry. -/
theorem countsRight_iff {ms : List Queued} (hq : QueueHolds (u.udataGetQp (some user)) ms)
    (hlen : ms.length < 2 ^ 16) :
    CountsRight u user ↔ u.udataGet (some user) = none ∨ u.udataGetQp (some user) ≠ .null := by
  cases ms with
  | cons m ms =>
      have hblk : u.udataGetQp (some user) = .blk (queueLayout (m :: ms)) := by
        generalize u.udataGetQp (some user) = q at hq ⊢
        cases hq
        rfl
      exact iff_of_true ⟨_, hq, mqGetnum_blk hblk hlen⟩ (Or.inr (by rw [hblk]; simp))
  | nil =>
      rcases mqGetnum_eq u user with ⟨hnone, hnum⟩ | ⟨e, he, herror⟩
      · exact iff_of_true ⟨_, hq, hnum⟩ (Or.inl hnone)
      · have hqp : u.udataGetQp (some user) = e.queue := by rw [udataGetQp, he]
        rw [hqp] at hq ⊢
        rw [he, or_iff_right (by simp)]
        constructor
        · intro h hnull
          obtain ⟨ms, -, hnum⟩ := h
          rw [herror hnull] at hnum
          simp at hnum
        · intro hne
          generalize hp : e.queue = q at hq hne hqp
          cases hq with
          | null => exact absurd rfl hne
          | blk => exact ⟨[], by rw [hqp]; exact .blk [], mqGetnum_blk hqp (by decide)⟩

theorem handleGetqmsg_none (hlocal : islocal (x.clients x.cl).address = true)
    (huser : (x.cmd.fetch .null 0).str = some user) (hpasswd : x.env.getpwnam user = true)
    (hnone : x.udata.udataGet (some user) = none) :
    handleGetqmsg x = .ok (x.done x.udata [x.reply ((NetCmd.set .qmsg).add [0, 0])]) := by
  have hnum : mqGetnum x.udata user = .ok 0 := by
    rw [mqGetnum, hnone]
  simp only [handleGetqmsg, getqmsg, hlocal, huser, hpasswd, hnum, Bool.not_true, Bool.false_eq_true,
    if_false]

/-! ### Runs -/

section

variable {mem : Memory} {hist : List ServerStep} {s s' : Server}

/-- One event makes no queue. -/
theorem Turn.queueless {ev : Event} {out : List Effect} (hturn : Turn mem s ev s' out)
    (h : s.udata.Queueless) : s'.udata.Queueless := by
  cases hturn with
  | refused => exact h
  | accepted =>
      rw [Server.accept_udata]
      exact h
  | recvError => exact h
  | closed => exact h
  | hungUp => exact h.accounts (accounts_removeFromChat _ _ _)
  | @netcmd i c env o act hlive hmem hcall hdoes =>
      rw [Server.settle_udata]
      by_cases hchat : c.op.isChatcmd = true
      · exact h.accounts (lsHandleNetcmd_accounts (x := s.call i c env) hchat hcall)
      · unfold lsHandleNetcmd at hcall
        split at hcall
        · rw [← Except.ok.inj hcall]
          exact handleMsg_queueless (x := s.call i c env) h
        · exact handleGetqmsg_queueless (x := s.call i c env) h hcall
        · rw [← Except.ok.inj hcall]
          unfold handleGetlist
          split <;> exact h
        · exact handleSetpref_queueless (x := s.call i c env) h hcall
        · rw [getpref_udata hcall]
          exact h
        · rw [← Except.ok.inj hcall]
          exact (h.enrolled (enrolled_enrol _ _ _)).accounts (handleChatdoor_accounts _)
        · rw [if_neg (show ¬ (s.call i c env).cmd.get.isChatcmd = true from hchat)] at hcall
          rw [← Except.ok.inj hcall]
          exact h

/-- **No entry ever has a queue.** -/
theorem queueless_run (h : Run (server mem) hist s) : s.udata.Queueless := by
  obtain ⟨s₀, h₀, hx⟩ := h
  refine (hx.invariant (fun s => s.Ok ∧ s.udata.Queueless) (fun _ => True)
    ⟨ok_initial h₀, ?_⟩ ?_ fun _ _ => trivial).2
  · obtain ⟨servfd, -, rfl⟩ := h₀
    intro a ha
    simp [Server.initial, accounts, Udata.empty] at ha
  · intro s ev s' out hP hstep _
    have hturn := step_turn hP.1 hstep
    exact ⟨hturn.ok hP.1, hturn.queueless hP.2⟩

/--
**Asking how many messages are queued is safe for those without an entry only.**  In every
state of a run, `mq_getnum` counts the messages of a user, and every `GETQMSG` for the
user is answered, if and only if neither a preference nor the chat has made an entry.
-/
theorem getqmsg_safe_iff (h : Run (server mem) hist s) (user : CString) :
    CountsRight s.udata user ∧ AnswersQueue mem s user ↔ s.udata.udataGet (some user) = none := by
  have hnull := (queueless_run h).udataGetQp user
  have hcount : CountsRight s.udata user ↔ s.udata.udataGet (some user) = none := by
    have hempty : QueueHolds (s.udata.udataGetQp (some user)) [] := by
      rw [hnull]
      exact .null
    rw [countsRight_iff hempty (by decide), hnull]
    simp
  rw [hcount, and_iff_left_iff_imp]
  intro hnone i c env hask
  refine ⟨s, (NetCmd.set .qmsg).add [0, 0], ?_, Or.inl rfl⟩
  refine step_done hask.live hask.mem ?_
  rw [lsHandleNetcmd, show (s.call i c env).cmd.get = .getqmsg from hask.op]
  exact handleGetqmsg_none (x := s.call i c env) hask.isLocal hask.named hask.passwd hnone

/-- Somebody the server has not heard of. -/
theorem getqmsg_safe_stranger : ∃ hist s, Run (server .enough) hist s ∧ s.live 0 ∧
    CountsRight s.udata ⟨[97], by decide⟩ ∧ AnswersQueue .enough s ⟨[97], by decide⟩ := by
  have hrun : (exec (server .enough) (.initial 3) [arrives 4] []).map
      (fun r => (decide (r.2.live 0), r.2.udata.udataGet (some ⟨[97], by decide⟩))) =
      some (true, none) := by
    decide +kernel
  obtain ⟨⟨hist, s⟩, hexec, hproj⟩ := Option.map_eq_some_iff.mp hrun
  simp only [Prod.mk.injEq, decide_eq_true_eq] at hproj
  have h : Run (server .enough) hist s := run_of_exec hexec
  exact ⟨hist, s, h, hproj.1, (getqmsg_safe_iff h _).mpr hproj.2⟩

/-- Somebody who has joined the chat: `GETQMSG` for the user has no outcome. -/
theorem not_getqmsg_safe : ∃ hist s c env, Run (server .enough) hist s ∧
    AsksQueue .enough s 0 c env ⟨[97], by decide⟩ ∧
    lsHandleNetcmd (s.call 0 c env) = .error .nullPointer ∧
    ¬ CountsRight s.udata ⟨[97], by decide⟩ ∧ ¬ AnswersQueue .enough s ⟨[97], by decide⟩ := by
  have hrun : (exec (server .enough) (.initial 3) [arrives 4, enters 0 [97] [97]] []).map
      (fun r => (decide (r.2.live 0), islocal (r.2.clients 0).address,
        match lsHandleNetcmd (r.2.call 0 ⟨.getqmsg, [[97]]⟩ .oneUser) with
        | .error .nullPointer => true
        | _ => false,
        match mqGetnum r.2.udata ⟨[97], by decide⟩ with
        | .error _ => true
        | .ok _ => false)) = some (true, true, true, true) := by
    decide +kernel
  obtain ⟨⟨hist, s⟩, hexec, hproj⟩ := Option.map_eq_some_iff.mp hrun
  simp only [Prod.mk.injEq, decide_eq_true_eq] at hproj
  obtain ⟨hlive, hlocal, hfault, hnum⟩ := hproj
  have h : Run (server .enough) hist s := run_of_exec hexec
  have herror : lsHandleNetcmd (s.call 0 ⟨.getqmsg, [[97]]⟩ .oneUser) = .error .nullPointer := by
    split at hfault
    · assumption
    · simp at hfault
  have hask : AsksQueue .enough s 0 ⟨.getqmsg, [[97]]⟩ .oneUser ⟨[97], by decide⟩ :=
    ⟨hlive, rfl, rfl, rfl, hlocal, rfl⟩
  refine ⟨hist, s, _, _, h, hask, herror, ?_, ?_⟩
  · intro hcount
    obtain ⟨ms, -, hright⟩ := hcount
    rw [hright] at hnum
    simp at hnum
  · intro hans
    obtain ⟨s', m, hstep, -⟩ := hans _ _ _ hask
    have hno : s.step .enough (.netcmd 0 ⟨.getqmsg, [[97]]⟩ .oneUser) = none := by
      simp only [Server.step, Server.handle, herror, ite_self]
    rw [hno] at hstep
    simp at hstep

end

end Smsg
