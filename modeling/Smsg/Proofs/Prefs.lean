/-
The two halves of an entry.

The preferences and the chat are kept in one record, and one function writes to both.
They stay out of each other's way: the commands for preferences leave the seats of all
users alone, and those of the chat leave the accounts alone (`parts_kept`).  What
`GETPREF` replies is then what the acknowledged `SETPREF`s of the user come to, whenever
the entry was made (`prefs_fold`).
-/
import Smsg.Prefs
import Smsg.Proofs.Identity

namespace Smsg

open Machines

namespace Udata

variable {u u' : Udata} {user v : CString} {alloc : Alloc}

/-! ### Accounts -/

/-- Writing to the chat part of an entry. -/
theorem accounts_modify {f : UdataEnt → UdataEnt}
    (h : ∀ e, UdataEnt.account { f e with user := e.user } = e.account) :
    (u.modify user f).accounts = u.accounts := by
  show (modifyEnts user f u.ents).map _ = u.ents.map _
  rw [modifyEnts, List.map_map]
  refine List.map_congr_left fun e _ => ?_
  rw [Function.comp]
  split
  · exact h e
  · rfl

theorem accounts_udataFlagset (u : Udata) (user : CString) (f : Flags) :
    (u.udataFlagset user f).accounts = u.accounts := accounts_modify fun _ => rfl

theorem accounts_udataFlagunset (u : Udata) (user : CString) (f : Flags) :
    (u.udataFlagunset user f).accounts = u.accounts := accounts_modify fun _ => rfl

/-- `udata_update` of nothing but a nick and a descriptor. -/
theorem accounts_udataUpdate (alloc : Alloc) (u : Udata) {arg : UdataArg} (htty : arg.tty = none)
    (hbeep : arg.beep = -2) (hmode : arg.mode = -2) (hflags : arg.flags = 0) :
    (u.udataUpdate alloc arg).2.accounts = u.accounts := by
  have hprefs : ∀ user, (u.updatePrefs user arg).accounts = u.accounts := by
    intro user
    refine accounts_modify fun e => ?_
    simp [UdataEnt.account, htty, hbeep, hmode, udataLeave]
  unfold udataUpdate
  split
  · simp only [htty, Option.isSome_none, Bool.false_and, Bool.false_eq_true, if_false]
    split
    · exact hprefs _
    · split
      · rename_i nick _ _
        exact (accounts_modify (f := fun t => { t with nick := some nick }) fun _ => rfl).trans
          (hprefs _)
      · exact hprefs _
  · rw [if_pos]
    simp [UdataArg.isDefault, htty, hbeep, hmode, hflags]

theorem accounts_removeFromChat (alloc : Alloc) (u : Udata) (user : CString) :
    (removeFromChat alloc u user).accounts = u.accounts := by
  rw [removeFromChat, accounts_udataFlagunset]
  exact accounts_udataUpdate alloc u rfl rfl rfl rfl

theorem accounts_modeFlags (op : NCMDOp) (u : Udata) (user : CString) :
    (modeFlags op u user).accounts = u.accounts := by
  unfold modeFlags
  split
  · exact accounts_udataFlagset _ _ _
  · exact accounts_udataFlagunset _ _ _
  · exact accounts_udataFlagset _ _ _
  · exact accounts_udataFlagunset _ _ _
  · rfl

end Udata

/-! ### The chat leaves accounts alone -/

section

variable {x : Call} {o : Outcome}

theorem chatNick_accounts (h : chatNick x = .ok o) : o.udata.accounts = x.udata.accounts := by
  unfold chatNick chatRename at h
  split at h
  · dsimp only at h
    split at h
    · split at h
      · simp at h
      · split at h
        · simp at h
        · rw [Except.ok.injEq] at h
          rw [← h]
          exact Udata.accounts_udataUpdate _ _ rfl rfl rfl rfl
    · rw [Except.ok.injEq] at h
      rw [← h]
      rfl
  · split at h
    · simp at h
    · rw [Except.ok.injEq] at h
      rw [← h]
      rfl

theorem chatAway_accounts (x : Call) : (chatAway x).udata.accounts = x.udata.accounts := by
  unfold chatAway
  split
  · rfl
  · simp only [Call.done]
    split
    · exact Udata.accounts_udataFlagunset _ _ _
    · exact Udata.accounts_udataFlagset _ _ _

theorem chatOper_accounts (x : Call) : (chatOper x).udata.accounts = x.udata.accounts := by
  unfold chatOper
  split
  · dsimp only
    split
    · rfl
    · split
      · exact Udata.accounts_udataFlagset _ _ _
      · rfl
  · rfl

theorem chatMode_accounts (h : chatMode x = .ok o) : o.udata.accounts = x.udata.accounts := by
  unfold chatMode modeOn at h
  dsimp only at h
  split at h
  · rw [Except.ok.injEq] at h
    rw [← h]
    rfl
  · split at h
    · split at h
      · simp at h
      · split at h
        · rw [Except.ok.injEq] at h
          rw [← h]
          rfl
        · split at h
          · rw [Except.ok.injEq] at h
            rw [← h]
            exact (Udata.accounts_removeFromChat _ _ _).trans (Udata.accounts_modeFlags _ _ _)
          · rw [Except.ok.injEq] at h
            rw [← h]
            exact Udata.accounts_modeFlags _ _ _
    · rw [Except.ok.injEq] at h
      rw [← h]
      rfl

theorem chatSay_accounts (h : chatSay x = .ok o) : o.udata.accounts = x.udata.accounts := by
  unfold chatSay at h
  dsimp only at h
  split at h
  · simp at h
  · rw [← Except.ok.inj h]
    rfl

theorem chatWho_accounts (h : chatWho x = .ok o) : o.udata.accounts = x.udata.accounts := by
  unfold chatWho whoLists at h
  dsimp only at h
  split at h
  · simp at h
  · rw [← Except.ok.inj h]
    rfl

/-- **Chat commands leave all accounts alone.** -/
theorem handleChatcmd_accounts (h : handleChatcmd x = .ok o) :
    o.udata.accounts = x.udata.accounts := by
  have hsame : ∀ {o' : Outcome}, o'.udata = x.udata → (.ok o' : Except Fault Outcome) = .ok o →
      o.udata.accounts = x.udata.accounts := by
    intro o' hu ho
    rw [← Except.ok.inj ho, hu]
  unfold handleChatcmd at h
  split at h
  · exact chatNick_accounts h
  · rw [← Except.ok.inj h]
    exact chatAway_accounts x
  · refine hsame ?_ h
    unfold chatBeep
    split
    · rfl
    · dsimp only
      split <;> rfl
  · rw [← Except.ok.inj h]
    exact chatOper_accounts x
  · refine hsame ?_ h
    unfold chatPsay
    dsimp only
    split <;> rfl
  · exact chatSay_accounts h
  · exact chatSay_accounts h
  · exact chatWho_accounts h
  · exact chatMode_accounts h
  · exact chatMode_accounts h
  · exact chatMode_accounts h
  · exact chatMode_accounts h
  · exact chatMode_accounts h
  · exact hsame rfl h

/-! ### Enrolling -/

theorem enrolled_enrol (alloc : Alloc) (u : Udata) (user : Option CString) :
    Enrolled u (enrol alloc u user) := by
  rcases enrol_cases alloc u user with h | ⟨v, rfl, hnew, hmem⟩
  · exact Or.inl h
  · have hnone := Udata.room_none.mp hnew
    refine Or.inr ⟨v, hnone, ?_⟩
    rw [enrol, hnone]
    exact (Udata.udataAdd_new rfl hnone hmem).2

theorem enrol_enrol (alloc : Alloc) (u : Udata) (user : Option CString) :
    enrol alloc (enrol alloc u user) user = enrol alloc u user := by
  rcases enrol_cases alloc u user with h | ⟨v, rfl, hnew, hmem⟩
  · rw [h, h]
  · refine enrol_known ?_
    rw [enrol_new hnew hmem, Room.set_self]
    simp

theorem handleChatdoor_enrol (x : Call) :
    handleChatdoor { x with udata := enrol x.env.alloc x.udata x.cmd.doorUser }
      = handleChatdoor x := by
  simp only [handleChatdoor, enrol_enrol]
  rfl

theorem handleChatdoor_accounts (x : Call) :
    (handleChatdoor x).udata.accounts
      = (enrol x.env.alloc x.udata x.cmd.doorUser).accounts := by
  unfold handleChatdoor
  dsimp only
  split
  · rfl
  · split
    · unfold chatdoorLeave chatdoorExit
      split
      · rfl
      · exact Udata.accounts_removeFromChat _ _ _
    · unfold chatdoorJoin chatdoorEnter
      dsimp only
      split
      · rfl
      · split
        · rfl
        · split
          · rfl
          · show ((Udata.udataFlagset _ _ _).accounts) = _
            rw [Udata.accounts_udataFlagset, Udata.accounts_udataFlagunset]
            exact Udata.accounts_udataUpdate _ _ rfl rfl rfl rfl

end

/-! ### Neither part disturbs the other -/

section

variable {mem : Memory} {hist : List ServerStep} {s s' : Server} {i : Slot} {c : NetCmd} {env : Env}
  {out : List Effect} {o : Outcome}

/-- The commands about terminals and preferences. -/
def prefOps : List NCMDOp := [.msg, .getlist, .setpref, .getpref]

/-- They do no more in the room than to make an entry. -/
theorem Deed.of_prefOps {x : Call} {act : Act CString CString} (h : Deed x o act)
    (hop : x.cmd.op ∈ prefOps) : act = .idle ∨ ∃ user, x.udata.room user = none ∧ act = .enrol user := by
  have hne : ∀ {op : NCMDOp}, op ∉ prefOps → x.cmd.op ≠ op := by
    intro op hnot heq
    rw [heq] at hop
    exact hnot hop
  cases h with
  | idle => exact Or.inl rfl
  | enrol hnew => exact Or.inr ⟨_, hnew, rfl⟩
  | join hj => exact absurd hj.op (hne (by decide))
  | leave hl => exact absurd hl.op (hne (by decide))
  | rename _ hop' => exact absurd hop' (hne (by decide))
  | away _ hop' => exact absurd hop' (hne (by decide))
  | oper _ hop' => exact absurd hop' (hne (by decide))
  | mode _ _ _ _ hact =>
      have hnot : ∀ op ∈ prefOps, ∀ user, modeAct op user = none := by
        simp [prefOps, modeAct]
      rw [hnot _ hop] at hact
      simp at hact

theorem lsHandleNetcmd_accounts {x : Call} (hchat : x.cmd.op.isChatcmd = true)
    (h : lsHandleNetcmd x = .ok o) : o.udata.accounts = x.udata.accounts := by
  rw [lsHandleNetcmd_chatcmd hchat] at h
  split at h
  · exact handleChatcmd_accounts h
  · rw [← Except.ok.inj h]
    rfl

theorem settle_store (s : Server) (u : Udata) (o : Outcome) :
    Server.settle { s with udata := u } o = s.settle o := by
  unfold Server.settle Server.kick Server.kickEffects
  cases Server.kicked o.retval <;> rfl

/-- The step is the same from the list with the entry as if it had been there. -/
theorem step_enrol (hop : c.op = .chatdoor) :
    (server mem).step { s with udata := enrol env.alloc s.udata c.doorUser } (.netcmd i c env)
      = (server mem).step s (.netcmd i c env) := by
  have hcall : lsHandleNetcmd
      (Server.call { s with udata := enrol env.alloc s.udata c.doorUser } i c env)
      = lsHandleNetcmd (s.call i c env) := by
    rw [lsHandleNetcmd_chatdoor (x := s.call i c env) hop, lsHandleNetcmd_chatdoor hop]
    exact congrArg Except.ok (handleChatdoor_enrol (s.call i c env))
  simp only [server, Server.step, Server.handle, hcall, settle_store]
  rfl

/--
**The preferences and the chat do not interfere.**  In every state of a run: `MSG`,
`GETLIST`, `SETPREF` and `GETPREF` leave the descriptor, the nick and the flags of every
entry as they are.  `CHATDOOR` and the commands of the chat leave the tty, the beep, the
mode and the queue of every entry as they are; if they make an entry, it is one that
says nothing, and they go on from there as if it had been in the list before.
-/
theorem parts_kept (h : Run (server mem) hist s)
    (hstep : (server mem).step s (.netcmd i c env) = some (s', out)) :
    (c.get ∈ prefOps → ∀ e ∈ s.udata.ents, e.Kept s'.udata) ∧
      (c.get = .chatdoor ∨ c.get.isChatcmd = true → ∃ u, Enrolled s.udata u ∧
        (server mem).step { s with udata := u } (.netcmd i c env) = some (s', out) ∧
        s'.udata.accounts = u.accounts) := by
  obtain ⟨-, -, o, hcall, hsettle⟩ := step_netcmd hstep
  have hs' : s'.udata = o.udata := by rw [← s.settle_udata o, hsettle]
  constructor
  · intro hop e he
    cases step_turn (run_ok h) hstep with
    | @netcmd _ _ _ o act _ _ _ hdoes =>
        rw [kept_iff, Server.settle_udata, hdoes.2]
        have hroom : s.udata.room e.user = some e.seat := Udata.room_of_mem he
        rcases hdoes.1.of_prefOps hop with rfl | ⟨user, hnew, rfl⟩
        · exact hroom
        · rw [Act.apply_ne]
          · exact hroom
          · intro hu
            have hnone : s.udata.room user = none := hnew
            rw [Option.some.inj hu, hroom] at hnone
            simp at hnone
  · intro hop
    rcases hop with hop | hop
    · refine ⟨enrol env.alloc s.udata c.doorUser, enrolled_enrol _ _ _, ?_, ?_⟩
      · rw [step_enrol hop]
        exact hstep
      · rw [lsHandleNetcmd_chatdoor (x := s.call i c env) hop, Except.ok.injEq] at hcall
        rw [hs', ← hcall]
        exact handleChatdoor_accounts (s.call i c env)
    · refine ⟨s.udata, Or.inl rfl, hstep, ?_⟩
      rw [hs']
      exact lsHandleNetcmd_accounts (x := s.call i c env) hop hcall

/-- A user that nobody has heard of joins. -/
theorem parts_kept_join : ∃ hist s s' out u, Run (server .enough) hist s ∧
    (server .enough).step s (enters 0 [97] [97]) = some (s', out) ∧ s.udata.ents = [] ∧
    Enrolled s.udata u ∧ s'.udata.accounts = u.accounts := by
  have hrun : (exec (server .enough) (.initial 3) [arrives 4] []).map
      (fun r => (decide (r.2.udata.ents = []),
        ((server .enough).step r.2 (enters 0 [97] [97])).isSome)) = some (true, true) := by
    decide +kernel
  obtain ⟨⟨hist, s⟩, hexec, hproj⟩ := Option.map_eq_some_iff.mp hrun
  rw [Prod.mk.injEq, decide_eq_true_eq] at hproj
  have h : Run (server .enough) hist s := run_of_exec hexec
  obtain ⟨⟨s', out⟩, hstep⟩ := Option.isSome_iff_exists.mp hproj.2
  obtain ⟨u, hu, -, hacc⟩ := (parts_kept h hstep).2 (Or.inl rfl)
  exact ⟨hist, s, s', out, u, h, hstep, hproj.1, hu, hacc⟩

end

/-! ### What the store says of a user -/

namespace Udata

variable {u u' : Udata} {user v : CString} {e : UdataEnt}

theorem pref_eq (u : Udata) (v : CString) :
    u.pref v = ((u.udataGet (some v)).map fun e => e.account.pref).getD .unset := by
  have hfind : u.accounts.find? (fun a => a.user == v)
      = (u.udataGet (some v)).map (·.account) := by
    rw [accounts, List.find?_map]
    rfl
  rw [pref, hfind]
  cases u.udataGet (some v) <;> rfl

theorem pref_none (h : u.udataGet (some v) = none) : u.pref v = .unset := by
  rw [pref_eq, h]
  rfl

theorem pref_some (h : u.udataGet (some v) = some e) : u.pref v = e.account.pref := by
  rw [pref_eq, h]
  rfl

theorem pref_accounts (h : u'.accounts = u.accounts) (v : CString) : u'.pref v = u.pref v := by
  rw [pref, pref, h]

theorem pref_modify {f : UdataEnt → UdataEnt} (h : u.udataGet (some user) = some e) (v : CString) :
    (u.modify user f).pref v = if v = user then (f e).account.pref else u.pref v := by
  by_cases hv : v = user
  · subst hv
    rw [if_pos rfl, pref_some (udataGet_modify_self h)]
    rfl
  · rw [if_neg hv, pref_eq, udataGet_modify_ne hv, ← pref_eq]

theorem pref_append (huser : e.user = user) (h : u'.ents = u.ents ++ [e]) (v : CString) :
    u'.pref v = if v = user then e.account.pref else u.pref v := by
  by_cases hv : v = user
  · rw [if_pos hv, hv, ← huser]
    exact pref_some (udataGet_of_mem (by rw [h]; simp))
  · have hne : e.user ≠ v := fun hev => hv (hev.symm.trans huser)
    have hsame : u'.udataGet (some v) = u.udataGet (some v) := by
      simp [udataGet, h, hne]
    rw [if_neg hv, pref_eq, hsame, ← pref_eq]

/-- An entry that says nothing does not show. -/
theorem pref_enrolled (h : Enrolled u u') (v : CString) : u'.pref v = u.pref v := by
  rcases h with rfl | ⟨user, hnew, hents⟩
  · rfl
  · rw [pref_append (show (newcomer user).user = user from rfl) hents]
    split
    · rename_i hv
      rw [hv, pref_none hnew]
      rfl
    · rfl

/-- The queue is no preference. -/
theorem pref_udataSetQp {alloc : Alloc} {q : Ptr} (h : u.udataGetQp (some user) ≠ .null)
    (v : CString) : (u.udataSetQp alloc user q).2.pref v = u.pref v := by
  unfold udataSetQp
  cases hget : u.udataGet (some user) with
  | none => exact absurd (by rw [udataGetQp, hget]) h
  | some e =>
      show (u.modify user _).pref v = u.pref v
      rw [pref_modify hget]
      split
      · rename_i hv
        rw [hv, pref_some hget]
        rfl
      · rfl

/-- `udata_update` as `SETPREF` calls it. -/
def prefArg (user tty : CString) (beep mode : Int8) : UdataArg :=
  { udataDefEntry with
    user := some user
    tty := if tty.chars = [] then none else some tty
    beep := beep
    mode := mode }

/-- What an entry says that is made for preferences. -/
theorem pref_newEnt (user tty : CString) (beep mode : Int8) :
    (newEnt user (prefArg user tty beep mode)).account.pref
      = Pref.unset.set tty.chars beep mode := by
  simp only [newEnt, prefArg, UdataEnt.account, Account.pref, Pref.set, Pref.unset]
  have htty : (if tty.chars = [] then (none : Option CString) else some tty).getD ttysetUnset
      = if tty.chars = [] then ttysetUnset else tty := by
    split <;> rfl
  rw [htty, Pref.mk.injEq]
  refine ⟨?_, ?_, ?_⟩
  · split <;> rfl
  · split <;> simp [*]
  · split <;> simp [*]

/-- Nothing is missed when no entry is made for preferences that are those of everybody. -/
theorem pref_isDefault {user tty : CString} {beep mode : Int8}
    (h : UdataArg.isDefault (prefArg user tty beep mode) = true) :
    Pref.unset.set tty.chars beep mode = .unset := by
  simp only [UdataArg.isDefault, prefArg, Bool.and_eq_true, Bool.or_eq_true, beq_iff_eq] at h
  obtain ⟨⟨⟨htty, hbeep⟩, hmode⟩, -⟩ := h
  have htty' : (if tty.chars = [] then text "none" else tty.chars) = text "none" := by
    by_cases hempty : tty.chars = []
    · rw [if_pos hempty]
    · rw [if_neg hempty] at htty ⊢
      have hsome : tty = ttysetUnset := by simpa using htty
      rw [hsome]
      rfl
  have hval : ∀ b : Int8, b = -2 ∨ b = -1 → (if b = -2 then (-1 : Int8) else b) = -1 := by
    intro b hb
    rcases hb with rfl | rfl <;> decide
  rw [Pref.set, Pref.unset, htty', hval beep hbeep, hval mode hmode]

/-- **Setting preferences is setting them in the map, or does nothing.** -/
theorem udataUpdate_pref (alloc : Alloc) (u : Udata) (user tty : CString) (beep mode : Int8) :
    u.udataUpdate alloc (prefArg user tty beep mode) = (-1, u) ∨
      ((u.udataUpdate alloc (prefArg user tty beep mode)).1 = 0 ∧
        ∀ v, (u.udataUpdate alloc (prefArg user tty beep mode)).2.pref v
          = if v = user then (u.pref v).set tty.chars beep mode else u.pref v) := by
  have huser : (prefArg user tty beep mode).user = some user := rfl
  have hnick : (prefArg user tty beep mode).nick = none := rfl
  cases hget : u.udataGet (some user) with
  | some e =>
      unfold udataUpdate
      simp only [huser, hget, hnick]
      split
      · exact Or.inl rfl
      · refine Or.inr ⟨rfl, fun v => ?_⟩
        rw [updatePrefs, pref_modify hget]
        by_cases hv : v = user
        · rw [if_pos hv, if_pos hv, hv, pref_some hget]
          simp only [prefArg, UdataEnt.account, Account.pref, Pref.set, udataLeave, ne_eq]
          rw [Pref.mk.injEq]
          refine ⟨?_, ?_, ?_⟩
          · split <;> rfl
          · split <;> simp [*]
          · split <;> simp [*]
        · rw [if_neg hv, if_neg hv]
  | none =>
      have hupdate : u.udataUpdate alloc (prefArg user tty beep mode)
          = if UdataArg.isDefault (prefArg user tty beep mode) = true then (0, u)
            else u.udataAdd alloc (prefArg user tty beep mode) := by
        unfold udataUpdate
        simp only [huser, hget]
      rw [hupdate]
      split
      · rename_i hdefault
        refine Or.inr ⟨rfl, fun v => ?_⟩
        by_cases hv : v = user
        · rw [if_pos hv, hv, pref_none hget, pref_isDefault hdefault]
        · rw [if_neg hv]
      · rcases u.udataAdd_cases alloc (prefArg user tty beep mode) with hfail | ⟨w, hw, hnone, hmem⟩
        · exact Or.inl hfail
        · obtain rfl : user = w := Option.some.inj (huser.symm.trans hw)
          obtain ⟨hret, hents⟩ := udataAdd_new hw hnone hmem
          refine Or.inr ⟨hret, fun v => ?_⟩
          rw [pref_append (show (newEnt user _).user = user from rfl) hents]
          by_cases hv : v = user
          · rw [hv, if_pos rfl, if_pos rfl, pref_newEnt, pref_none hget]
          · rw [if_neg hv, if_neg hv]

end Udata

/-! ### What the commands do to it -/

section

variable {x : Call} {o : Outcome} {user tty : CString} {beep mode : UInt8}

theorem firstChar_blk (b : UInt8) (bs : Bytes) : firstChar (.blk (b :: bs)) = .ok b := rfl

/-- `SETPREF` comes to `udata_update`, and an answer that tells what it returned. -/
theorem setpref_eq (hcmd : x.cmd = setprefCmd user tty beep mode) :
    setpref x (.blk (user.chars ++ [0])) = .ok
      (let (r, u) := x.udata.udataUpdate x.env.alloc
        (Udata.prefArg user tty beep.toInt8 mode.toInt8)
      if r = -1 then
        match x.env.strerror with
        | some s => x.nak u s.chars
        | none => x.nak u errorWeirdSettty
      else x.done u [x.reply (.set .ack)]) := by
  have hget : x.cmd.getarg (.blk (user.chars ++ [0])) 2 false = some (0, .blk [beep]) := by
    rw [hcmd]
    rfl
  have harg : ∀ t : Arg, x.cmd.fetch t 0 = .blk (user.chars ++ [0]) ∧
      x.cmd.fetch t 1 = .blk (tty.chars ++ [0]) ∧ x.cmd.fetch t 3 = .blk [mode, 0] := by
    intro t
    rw [hcmd]
    exact ⟨rfl, rfl, rfl⟩
  simp only [setpref, setprefStore, hget, (harg _).1, (harg _).2.1, (harg _).2.2, str_arg, xstr_some, bind,
    Except.bind, firstChar_blk]
  rfl

/-- An acknowledged `SETPREF` sets what it says; one that is refused sets nothing. -/
theorem setpref_pref (hcmd : x.cmd = setprefCmd user tty beep mode)
    (h : lsHandleNetcmd x = .ok o) :
    (o.udata = x.udata ∧ .send x.fd (.set .ack) ∉ o.effects) ∨
      (.send x.fd (.set .ack) ∈ o.effects ∧ ∀ v, o.udata.pref v = if v = user then
        (x.udata.pref v).set tty.chars beep.toInt8 mode.toInt8 else x.udata.pref v) := by
  have hnak : ∀ reason, x.nak x.udata reason = o →
      o.udata = x.udata ∧ .send x.fd (.set .ack) ∉ o.effects := by
    intro reason ho
    rw [← ho]
    exact ⟨rfl, by simp [Call.nak, Call.done, Call.reply, NetCmd.set, NetCmd.add]⟩
  have hop : x.cmd.get = .setpref := by rw [hcmd]; rfl
  have hstr : x.cmd.fetch .null 0 = .blk (user.chars ++ [0]) := by rw [hcmd]; rfl
  rw [lsHandleNetcmd, hop] at h
  unfold handleSetpref at h
  simp only [hstr, str_arg] at h
  split at h
  · exact Or.inl (hnak _ (Except.ok.inj h))
  · split at h
    · exact Or.inl (hnak _ (Except.ok.inj h))
    · split at h
      · exact Or.inl (hnak _ (Except.ok.inj h))
      · rw [setpref_eq hcmd, Except.ok.injEq] at h
        rcases Udata.udataUpdate_pref x.env.alloc x.udata user tty beep.toInt8 mode.toInt8 with
          hfail | ⟨hret, hpref⟩
        · rw [hfail] at h
          simp only [if_true] at h
          split at h
          · exact Or.inl (hnak _ h)
          · exact Or.inl (hnak _ h)
        · rw [← h]
          simp only [hret, show ¬ (0 : Int) = -1 by decide, if_false]
          exact Or.inr ⟨List.mem_singleton.mpr rfl, hpref⟩

/-- The queue is left out of it. -/
theorem getqmsg_pref (h : handleGetqmsg x = .ok o) (v : CString) :
    o.udata.pref v = x.udata.pref v := by
  have hget : ∀ {user : CString} {r : Int} {vars : MqVars} {u : Udata},
      mqGet x.env x.udata user = .ok (r, vars, u) → u.pref v = x.udata.pref v := by
    intro user r vars u hmq
    rcases mqGet_udata hmq with rfl | ⟨q, hne, rfl⟩
    · rfl
    · exact Udata.pref_udataSetQp hne v
  unfold handleGetqmsg getqmsg at h
  dsimp only at h
  split at h
  · rw [← Except.ok.inj h]
    rfl
  · split at h
    · simp at h
    · split at h
      · rw [← Except.ok.inj h]
        rfl
      · split at h
        · simp at h
        · rw [← Except.ok.inj h]
          rfl
        · split at h
          · simp at h
          · rename_i hmq
            rw [← Except.ok.inj h]
            exact hget hmq
          · rename_i hmq
            rw [← Except.ok.inj h]
            exact hget hmq

/-- `GETPREF` of a local user replies what the store says. -/
theorem getpref_eq (hcmd : x.cmd = getprefCmd user)
    (hlocal : islocal (x.clients x.cl).address = true) (huser : x.env.getpwnam user = true) :
    lsHandleNetcmd x = .ok (x.done x.udata [x.reply (x.udata.pref user).msg]) := by
  have hop : x.cmd.get = .getpref := by rw [hcmd]; rfl
  have hstr : x.cmd.fetch .null 0 = .blk (user.chars ++ [0]) := by rw [hcmd]; rfl
  rw [lsHandleNetcmd, hop]
  simp only [handleGetpref, getpref, hstr, str_arg, hlocal, huser, Bool.not_true, Bool.false_eq_true,
    if_false]
  cases hget : x.udata.udataGet (some user) with
  | none =>
      rw [Udata.pref_none hget]
      rfl
  | some e =>
      rw [Udata.pref_some hget]
      rfl

theorem getpref_udata (h : handleGetpref x = .ok o) : o.udata = x.udata := by
  unfold handleGetpref getpref at h
  dsimp only at h
  split at h
  · rw [← Except.ok.inj h]
    rfl
  · split at h
    · simp at h
    · split at h
      · rw [← Except.ok.inj h]
        rfl
      · split at h <;> rw [← Except.ok.inj h] <;> rfl

/-- All others but `MSG` change no preferences. -/
theorem pref_kept (hmsg : x.cmd.get ≠ .msg) (hset : x.cmd.get ≠ .setpref)
    (h : lsHandleNetcmd x = .ok o) (v : CString) : o.udata.pref v = x.udata.pref v := by
  by_cases hchat : x.cmd.op.isChatcmd = true
  · exact Udata.pref_accounts (lsHandleNetcmd_accounts hchat h) v
  · unfold lsHandleNetcmd at h
    split at h
    · rename_i hop
      exact absurd hop hmsg
    · exact getqmsg_pref h v
    · rw [← Except.ok.inj h]
      unfold handleGetlist
      split <;> rfl
    · rename_i hop
      exact absurd hop hset
    · rw [getpref_udata h]
    · rw [← Except.ok.inj h, Udata.pref_accounts (handleChatdoor_accounts x)]
      exact Udata.pref_enrolled (enrolled_enrol _ _ _) v
    · rw [if_neg (show ¬ x.cmd.get.isChatcmd = true from hchat)] at h
      rw [← Except.ok.inj h]
      rfl

end

/-! ### The fold -/

section

variable {mem : Memory} {hist : List ServerStep} {s s' : Server} {i : Slot}

/-- What a step does to the preferences of `user`: an acknowledged `SETPREF` for it sets them. -/
def ServerStep.setPref (user : CString) (st : ServerStep) (p : Pref) : Pref :=
  match st.ev with
  | .netcmd i ⟨.setpref, [name, tty, [beep], [mode]]⟩ _ =>
      if name = user.chars ∧ .send (st.pre.clients i).fd (.set .ack) ∈ st.out then
        p.set tty beep.toInt8 mode.toInt8
      else p
  | _ => p

/-- The acknowledged `SETPREF`s for `user`, from the first one on. -/
def foldPrefs (user : CString) (hist : List ServerStep) : Pref :=
  hist.foldr (ServerStep.setPref user) .unset

/-- No `MSG`, and every `SETPREF` with its four arguments. -/
def ServerStep.Documented (st : ServerStep) : Prop :=
  ∀ i c env, st.ev = .netcmd i c env → c.get ≠ .msg ∧
    (c.get = .setpref → ∃ user tty beep mode, c = setprefCmd user tty beep mode)

/-- One event does to the store what it does to the map. -/
theorem Turn.pref {ev : Event} {out : List Effect} (hturn : Turn mem s ev s' out)
    (hdoc : ServerStep.Documented ⟨s, ev, s', out⟩) (v : CString) :
    s'.udata.pref v = ServerStep.setPref v ⟨s, ev, s', out⟩ (s.udata.pref v) := by
  cases hturn with
  | refused => rfl
  | accepted =>
      rw [Server.accept_udata]
      rfl
  | recvError => rfl
  | closed => rfl
  | hungUp => exact Udata.pref_accounts (Udata.accounts_removeFromChat _ _ _) v
  | @netcmd i c env o act hlive hmem hcall hdoes =>
      obtain ⟨hmsg, hset⟩ := hdoc i c env rfl
      rw [Server.settle_udata]
      by_cases hop : c.get = .setpref
      · obtain ⟨user, tty, beep, mode, rfl⟩ := hset hop
        have hack : ∀ m : NetCmd, .send (s.clients i).fd m ∈ (s.settle o).2 ↔
            .send (s.clients i).fd m ∈ o.effects := by
          intro m
          rw [← mem_sentTo, sentTo_settle, mem_sentTo]
        have hnames : user.chars = v.chars ↔ v = user :=
          ⟨fun h => (CString.ext h).symm, fun h => by rw [h]⟩
        have hstep : ∀ p, ServerStep.setPref v
            ⟨s, .netcmd i (setprefCmd user tty beep mode) env, (s.settle o).1, (s.settle o).2⟩ p
            = if v = user ∧ .send (s.clients i).fd (.set .ack) ∈ o.effects then
                p.set tty.chars beep.toInt8 mode.toInt8 else p := by
          intro p
          simp only [ServerStep.setPref, setprefCmd, hack, hnames]
        rw [hstep]
        rcases setpref_pref (x := s.call i _ env) rfl hcall with ⟨hkept, hno⟩ | ⟨hyes, hpref⟩
        · rw [if_neg fun h => hno h.2, hkept]
          rfl
        · rw [hpref]
          by_cases hv : v = user
          · rw [if_pos hv, if_pos ⟨hv, hyes⟩]
            rfl
          · rw [if_neg hv, if_neg fun h => hv h.1]
            rfl
      · have hstep : ∀ p, ServerStep.setPref v
            ⟨s, .netcmd i c env, (s.settle o).1, (s.settle o).2⟩ p = p := by
          intro p
          unfold ServerStep.setPref
          split
          · rename_i hev
            obtain ⟨-, rfl, -⟩ := Event.netcmd.inj hev
            exact absurd rfl hop
          · rfl
        rw [hstep]
        exact pref_kept (x := s.call i c env) hmsg hop hcall v

theorem pref_run (h : Run (server mem) hist s) (hdoc : ∀ st ∈ hist, st.Documented) (v : CString) :
    s.udata.pref v = foldPrefs v hist := by
  obtain ⟨s₀, h₀, hx⟩ := h
  refine (hx.history (fun hist s => s.Ok ∧ s.udata.pref v = foldPrefs v hist)
    (fun st : ServerStep => st.Documented) ⟨ok_initial h₀, ?_⟩ ?_ hdoc).2
  · obtain ⟨servfd, -, rfl⟩ := h₀
    rfl
  · intro hist s ev s' out hP hstep hst
    have hturn := step_turn hP.1 hstep
    refine ⟨hturn.ok hP.1, ?_⟩
    rw [hturn.pref hst v, hP.2]
    rfl

/--
**Preferences are a total map.**  In runs without `MSG` in which every `SETPREF` has its
four arguments, `GETPREF` for a local user replies what the acknowledged `SETPREF`s for
that user come to, one after the other, from "none", -1 and -1 on.
-/
theorem prefs_fold (h : Run (server mem) hist s) (hdoc : ∀ st ∈ hist, st.Documented)
    {user : CString} {env : Env} (hlive : s.live i) (hmem : mem.allows env.alloc = true)
    (hlocal : islocal (s.clients i).address = true) (huser : env.getpwnam user = true) :
    (server mem).step s (.netcmd i (getprefCmd user) env)
      = some (s, [.send (s.clients i).fd (foldPrefs user hist).msg]) := by
  rw [← pref_run h hdoc user]
  exact step_done hlive hmem (getpref_eq (x := s.call i _ env) rfl hlocal huser)

/-- A system on which the user `a` is logged in. -/
def Env.oneUser : Env :=
  { Env.bare with
    getpwnam := fun _ => true
    loggedin := ⟨[⟨true, [97], [], 0⟩], fun _ => true⟩ }

/-- A user sets a tty and a beep, and asks for them. -/
theorem prefs_fold_one : ∃ hist s, Run (server .enough) hist s ∧
    (server .enough).step s (.netcmd 0 (getprefCmd ⟨[97], by decide⟩) .oneUser)
      = some (s, [.send (s.clients 0).fd ⟨.pref, [[116], [1], [255]]⟩]) := by
  have hrun : (exec (server .enough) (.initial 3)
      [arrives 4, .netcmd 0 (setprefCmd ⟨[97], by decide⟩ ⟨[116], by decide⟩ 1 254) .oneUser] []).map
      (fun r => (r.1.all (ServerStep.commandIs fun _ c =>
          decide (c = setprefCmd ⟨[97], by decide⟩ ⟨[116], by decide⟩ 1 254)),
        decide (r.2.live 0) && islocal (r.2.clients 0).address,
        decide (foldPrefs ⟨[97], by decide⟩ r.1 = ⟨[116], 1, -1⟩))) = some (true, true, true) := by
    decide +kernel
  obtain ⟨⟨hist, s⟩, hexec, hproj⟩ := Option.map_eq_some_iff.mp hrun
  simp only [Prod.mk.injEq, Bool.and_eq_true, decide_eq_true_eq] at hproj
  obtain ⟨hcmds, ⟨hlive, hlocal⟩, hfold⟩ := hproj
  have h : Run (server .enough) hist s := run_of_exec hexec
  refine ⟨hist, s, h, ?_⟩
  rw [prefs_fold h ?_ hlive (by decide) hlocal rfl, hfold]
  · rfl
  · intro st hst i c env hev
    have hcmd := List.all_eq_true.mp hcmds st hst
    simp only [ServerStep.commandIs, hev, decide_eq_true_eq] at hcmd
    rw [hcmd]
    exact ⟨by simp [NetCmd.get, setprefCmd], fun _ => ⟨_, _, _, _, rfl⟩⟩

end

end Smsg
