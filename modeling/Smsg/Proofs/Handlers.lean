/-
The handlers of `ls_handle_netcmd`.

Messages, lists and preferences leave the room as it is, but for an entry that may
be made for somebody who was not known.  A `CHATDOOR` is a leave, a join, or refused
(`chatdoor_cases`), and which one it is can be seen from the command and the room.
With the chat commands that is all of the switch (`does_lsHandleNetcmd`).
-/
import Smsg.Proofs.Deeds

namespace Smsg

variable {x : Call} {o : Outcome}

/-! ### Messages, lists and preferences -/

theorem does_prefs (hroom : o.udata.room = x.udata.room ∨
      ∃ v, x.udata.room v = none ∧ o.udata.room = x.udata.room.set v .unused)
    (hret : o.retval < 0) (hq : ∀ ef ∈ o.effects, Quiet x ef) : ∃ act, Does x o act := by
  rcases hroom with hroom | ⟨v, hnew, hroom⟩
  · exact does_idle hroom hret hq
  · exact ⟨.enrol v, .enrol hnew hret hq, hroom⟩

theorem quiet_plain {m : NetCmd} (h : m.op ∈ plainOps) : Quiet x (x.reply m) := Or.inl h

theorem quiet_ack : Quiet x (x.reply (.set .ack)) := quiet_plain (by decide)

theorem quiet_nak (reason : Bytes) : Quiet x (x.reply ((NetCmd.set .nak).add reason)) :=
  quiet_plain (by simp [plainOps])

/-- Writing to a terminal: what `MSG` does besides replying is not sent to clients. -/
theorem does_msgWrite {u : Udata} {past : List Effect} {tbeep : Int8} {tty : CString}
    (hroom : u.room = x.udata.room ∨
      ∃ v, x.udata.room v = none ∧ u.room = x.udata.room.set v .unused)
    (hpast : ∀ ef ∈ past, Quiet x ef) {sender msg : Option CString} :
    ∃ act, Does x (msgWrite x u past tbeep tty sender msg) act := by
  have hnak : ∀ (effects : List Effect) (reason : Bytes), (∀ ef ∈ effects, Quiet x ef) →
      ∃ act, Does x
        (x.done u (past ++ effects ++ [x.reply ((NetCmd.set .nak).add reason)])) act := by
    intro effects reason heff
    refine does_prefs hroom retval_neg fun ef hef => ?_
    rcases List.mem_append.mp hef with hef | hef
    · rcases List.mem_append.mp hef with hef | hef
      · exact hpast ef hef
      · exact heff ef hef
    · rw [List.mem_singleton.mp hef]
      exact quiet_nak reason
  have hopen : ∀ ef ∈ [Effect.openTty tty], Quiet x ef := by
    intro ef hef
    rw [List.mem_singleton.mp hef]
    trivial
  have hbeep : ∀ (p : Prop) [Decidable p], ∀ ef ∈ (if p then [Effect.print tty [7]] else []),
      Quiet x ef := by
    intro p _ ef hef
    split at hef
    · rw [List.mem_singleton.mp hef]
      trivial
    · simp at hef
  unfold msgWrite
  dsimp only
  split
  · exact hnak _ _ (by simp)
  · split
    · exact hnak _ _ hopen
    · split
      · exact hnak _ _ hopen
      · split
        · exact hnak _ _ hopen
        · refine does_prefs hroom retval_neg fun ef hef => ?_
          rcases List.mem_append.mp hef with hef | hef
          · rcases List.mem_append.mp hef with hef | hef
            · rcases List.mem_append.mp hef with hef | hef
              · exact hpast ef hef
              · rcases List.mem_cons.mp hef with rfl | hef
                · trivial
                · rw [List.mem_singleton.mp hef]
                  trivial
            · exact hbeep _ ef hef
          · rw [List.mem_singleton.mp hef]
            exact quiet_ack

theorem quiet_ttyOverread (x : Call) (entry : Option UdataEnt) :
    ∀ ef ∈ ttyOverread entry, Quiet x ef := by
  intro ef hef
  unfold ttyOverread at hef
  split at hef
  · simp at hef
  · split at hef
    · rw [List.mem_singleton.mp hef]
      trivial
    · simp at hef

theorem does_msgTty {user : CString} {sender msg : Option CString} :
    ∃ act, Does x (msgTty x user sender msg) act := by
  -- the terminal preference may be reset, the room is not
  have hroom : ∀ b : Bool, (if b then (x.udata.udataUpdate x.env.alloc
      { udataDefEntry with user := some user, tty := some ttysetUnset }).2
      else x.udata).room = x.udata.room ∨ ∃ v, x.udata.room v = none ∧
        (if b then (x.udata.udataUpdate x.env.alloc
          { udataDefEntry with user := some user, tty := some ttysetUnset }).2
          else x.udata).room = x.udata.room.set v .unused := by
    intro b
    cases b with
    | false => exact Or.inl rfl
    | true => exact Udata.room_udataUpdate_prefs _ _ rfl rfl
  have hnak : ∀ (b : Bool) (past : List Effect) (reason : Bytes), (∀ ef ∈ past, Quiet x ef) →
      ∃ act, Does x (x.done (if b then (x.udata.udataUpdate x.env.alloc
        { udataDefEntry with user := some user, tty := some ttysetUnset }).2 else x.udata)
        (past ++ [x.reply ((NetCmd.set .nak).add reason)])) act := by
    intro b past reason hp
    refine does_prefs (hroom b) retval_neg fun ef hef => ?_
    rcases List.mem_append.mp hef with hef | hef
    · exact hp ef hef
    · rw [List.mem_singleton.mp hef]
      exact quiet_nak reason
  have hpast := quiet_ttyOverread x (x.udata.udataGet (some user))
  unfold msgTty
  dsimp only
  split
  · split
    · exact does_msgWrite (hroom _) hpast
    · exact hnak _ _ _ hpast
  · split
    · exact hnak _ _ _ hpast
    · split
      · exact does_msgWrite (hroom _) hpast
      · exact hnak _ _ _ hpast

theorem does_handleMsg : ∃ act, Does x (handleMsg x) act := by
  unfold handleMsg msgFor
  dsimp only
  split
  · exact does_nak rfl _
  · split
    · exact does_nak rfl _
    · split
      · exact does_nak rfl _
      · split
        · exact does_nak rfl _
        · exact does_msgTty

/-- `mq_get` writes to nothing but the queue of an entry that has one. -/
theorem mqGet_udata {env : Env} {u u' : Udata} {user : CString} {r : Int} {v : MqVars}
    (h : mqGet env u user = .ok (r, v, u')) :
    u' = u ∨ ∃ q : Ptr, u.udataGetQp (some user) ≠ .null ∧
      u' = (u.udataSetQp env.alloc user q).2 := by
  unfold mqGet at h
  split at h
  · simp at h
  · rw [Except.ok.injEq, Prod.mk.injEq, Prod.mk.injEq] at h
    exact Or.inl h.2.2.symm
  · rename_i qp hqp
    have hne : u.udataGetQp (some user) ≠ .null := by rw [hqp]; simp
    dsimp only at h
    split at h
    · rw [Except.ok.injEq, Prod.mk.injEq, Prod.mk.injEq] at h
      exact Or.inl h.2.2.symm
    · split at h
      · rw [Except.ok.injEq, Prod.mk.injEq, Prod.mk.injEq] at h
        exact Or.inr ⟨_, hne, h.2.2.symm⟩
      · split at h
        · simp at h
        · split at h
          · rw [Except.ok.injEq, Prod.mk.injEq, Prod.mk.injEq] at h
            exact Or.inr ⟨_, hne, h.2.2.symm⟩
          · rw [Except.ok.injEq, Prod.mk.injEq, Prod.mk.injEq] at h
            exact Or.inr ⟨_, hne, h.2.2.symm⟩

/-- Reading the queue leaves the room alone, for there is an entry with a queue. -/
theorem mqGet_room {env : Env} {u u' : Udata} {user : CString} {r : Int} {v : MqVars}
    (h : mqGet env u user = .ok (r, v, u')) : u'.room = u.room := by
  rcases mqGet_udata h with rfl | ⟨q, hne, rfl⟩
  · rfl
  · unfold Udata.udataSetQp
    cases hget : u.udataGet (some user) with
    | none => exact absurd (by rw [Udata.udataGetQp, hget]) hne
    | some e =>
        have hroom : (u.modify user fun e => { e with queue := q }).room = u.room.modify user id :=
          Udata.room_modify fun _ => rfl
        exact hroom.trans (Room.modify_id fun _ => rfl)

theorem does_handleGetqmsg (h : handleGetqmsg x = .ok o) : ∃ act, Does x o act := by
  unfold handleGetqmsg getqmsg at h
  dsimp only at h
  split at h
  · rw [Except.ok.injEq] at h
    exact h ▸ does_nak rfl _
  · split at h
    · simp at h
    · split at h
      · rw [Except.ok.injEq] at h
        exact h ▸ does_nak rfl _
      · split at h
        · simp at h
        · rw [Except.ok.injEq] at h
          exact h ▸ does_reply (Or.inl (by simp [plainOps]))
        · split at h
          · simp at h
          · rename_i u hget
            rw [Except.ok.injEq] at h
            subst h
            refine does_idle (mqGet_room hget) retval_neg ?_
            intro ef hef
            simp only [Call.done, List.mem_cons, List.not_mem_nil, or_false] at hef
            rcases hef with rfl | rfl
            · trivial
            · exact quiet_nak _
          · rename_i v u _ hget
            rw [Except.ok.injEq] at h
            subst h
            refine does_idle (mqGet_room hget) retval_neg ?_
            intro ef hef
            rw [List.mem_singleton.mp hef]
            exact quiet_plain (by simp [plainOps])

theorem does_handleGetlist : ∃ act, Does x (handleGetlist x) act := by
  unfold handleGetlist
  split
  · exact does_nak rfl _
  · refine does_reply (Or.inl ?_)
    have hop : ∀ (f : NetCmd → UserlistEnt → NetCmd), (∀ m l, (f m l).op = m.op) →
        ∀ (ul : List UserlistEnt) (m : NetCmd), (ul.foldl f m).op = m.op := by
      intro f hf ul
      induction ul with
      | nil => intro m; rfl
      | cons l ul ih => intro m; rw [List.foldl_cons, ih, hf]
    refine (hop _ ?_ _ _).symm ▸ (by simp [plainOps] : NCMDOp.list ∈ plainOps)
    exact fun _ _ => rfl

/-- The update of `SETPREF` and its answer. -/
theorem update_cases (arg : UdataArg) : ∃ m : NetCmd, m.op ∈ plainOps ∧
    (if (x.udata.udataUpdate x.env.alloc arg).1 = -1 then
        match x.env.strerror with
        | some s => x.nak (x.udata.udataUpdate x.env.alloc arg).2 s.chars
        | none => x.nak (x.udata.udataUpdate x.env.alloc arg).2 errorWeirdSettty
      else x.done (x.udata.udataUpdate x.env.alloc arg).2 [x.reply (.set .ack)]) =
      x.done (x.udata.udataUpdate x.env.alloc arg).2 [x.reply m] := by
  split
  · split
    · exact ⟨_, by simp [plainOps], rfl⟩
    · exact ⟨_, by simp [plainOps], rfl⟩
  · exact ⟨_, by simp [plainOps], rfl⟩

theorem setprefStore_cases (user tty : Option CString) (tbeep tmode : UInt8) :
    ∃ (arg : UdataArg) (m : NetCmd), arg.fd = -1 ∧ arg.nick = none ∧ m.op ∈ plainOps ∧
      setprefStore x user tty tbeep tmode =
        x.done (x.udata.udataUpdate x.env.alloc arg).2 [x.reply m] := by
  obtain ⟨m, hm, h⟩ := update_cases (x := x) { udataDefEntry with
    user := user, tty := if xstr tty = [] then none else tty
    beep := tbeep.toInt8, mode := tmode.toInt8 }
  exact ⟨_, m, rfl, rfl, hm, h⟩

/-- `SETPREF` updates preferences and answers. -/
theorem setpref_cases {targ0 : Arg} (h : setpref x targ0 = .ok o) : ∃ (arg : UdataArg) (m : NetCmd),
    arg.fd = -1 ∧ arg.nick = none ∧ m.op ∈ plainOps ∧
      o = x.done (x.udata.udataUpdate x.env.alloc arg).2 [x.reply m] := by
  unfold setpref at h
  cases hget : x.cmd.getarg targ0 2 false with
  | none => simp [hget, bind, Except.bind] at h
  | some r =>
      simp only [hget, bind, Except.bind] at h
      split at h
      · simp at h
      · split at h
        · simp at h
        · rw [Except.ok.injEq] at h
          rw [← h]
          exact setprefStore_cases _ _ _ _

theorem does_setpref {targ0 : Arg} (h : setpref x targ0 = .ok o) : ∃ act, Does x o act := by
  obtain ⟨arg, m, hfd, hnick, hm, rfl⟩ := setpref_cases h
  refine does_prefs (Udata.room_udataUpdate_prefs _ _ hfd hnick) retval_neg ?_
  intro ef hef
  rw [List.mem_singleton.mp hef]
  exact quiet_plain hm

theorem does_handleSetpref (h : handleSetpref x = .ok o) : ∃ act, Does x o act := by
  unfold handleSetpref at h
  dsimp only at h
  split at h
  · rw [Except.ok.injEq] at h
    exact h ▸ does_nak rfl _
  · split at h
    · simp at h
    · split at h
      · rw [Except.ok.injEq] at h
        exact h ▸ does_nak rfl _
      · split at h
        · rw [Except.ok.injEq] at h
          exact h ▸ does_nak rfl _
        · exact does_setpref h

theorem does_handleGetpref (h : handleGetpref x = .ok o) : ∃ act, Does x o act := by
  unfold handleGetpref getpref at h
  dsimp only at h
  split at h
  · rw [Except.ok.injEq] at h
    exact h ▸ does_nak rfl _
  · split at h
    · simp at h
    · split at h
      · rw [Except.ok.injEq] at h
        exact h ▸ does_nak rfl _
      · split at h
        · rw [Except.ok.injEq] at h
          exact h ▸ does_reply (Or.inl (by simp [plainOps]))
        · rw [Except.ok.injEq] at h
          exact h ▸ does_reply (Or.inl (by simp [plainOps]))

/-! ### `CHATDOOR` -/

/-- A refused `CHATDOOR` may have made an entry. -/
theorem does_refused (reason : Bytes) :
    ∃ act, Does x (x.nak (enrol x.env.alloc x.udata x.cmd.doorUser) reason) act := by
  refine does_prefs ?_ retval_neg ?_
  · rcases enrol_cases x.env.alloc x.udata x.cmd.doorUser with h | ⟨v, hv, hnew, hmem⟩
    · exact Or.inl (congrArg Udata.room h)
    · exact Or.inr ⟨v, hnew, by rw [hv]; exact enrol_new hnew hmem⟩
  · intro ef hef
    rw [List.mem_singleton.mp hef]
    exact quiet_nak reason

theorem handleChatdoor_eq {user : CString} {u : Udata} {tuent : UdataEnt}
    (huser : x.cmd.doorUser = some user) (hu : enrol x.env.alloc x.udata (some user) = u)
    (hent : u.udataGet (some user) = some tuent) :
    handleChatdoor x
      = if x.cmd.leaves then chatdoorLeave x u tuent else chatdoorJoin x u tuent := by
  simp only [handleChatdoor, huser, hu, hent]

/-- A user that is in chat leaves. -/
theorem does_leave {user : CString} {s : Seat CString} (hl : x.Leaves user s) :
    Does x (handleChatdoor x) (.leave user) := by
  obtain ⟨tuent, hent, hseat⟩ := Option.map_eq_some_iff.mp hl.seat
  obtain ⟨-, hu⟩ := Udata.udataGet_some hent
  have hknown : x.udata.room user ≠ none := by rw [hl.seat]; simp
  have hpres : tuent.has udcFlagPresent = true := by
    rw [← UdataEnt.seat_has, hseat]
    exact hl.present
  rw [handleChatdoor_eq hl.named (enrol_known hknown) hent, if_pos hl.form, chatdoorLeave, chatdoorExit, hpres]
  simp only [Bool.not_true, Bool.false_eq_true, if_false]
  obtain ⟨more, hmsg⟩ := add_unless_null (if x.cmd.getnumargs = 3 then
    x.cmd.fetch (if x.cmd.getnumargs = 1 then .null else x.cmd.fetch .null 1) 2
    else if x.cmd.getnumargs = 1 then .null else x.cmd.fetch .null 1) (doorMsg 0 tuent.nick)
  refine ⟨@Deed.leave _ _ user s more hl retval_neg ?_, ?_⟩
  · rw [← hseat]
    exact congrArg (fun m => distribute 1 x.clients x.udata m (some x.cl) ++ _) hmsg
  · rw [hu]
    exact Udata.room_removeFromChat _ _ hknown

/-- The entry that a join works on. -/
theorem enrol_spec {user nick : CString} (hj : x.Joins user nick) :
    ∃ tuent, (enrol x.env.alloc x.udata (some user)).udataGet (some user) = some tuent ∧
      tuent.has udcFlagBanned = false ∧ tuent.has udcFlagPresent = false ∧
      ((enrol x.env.alloc x.udata (some user)).room = x.udata.room ∨
        (enrol x.env.alloc x.udata (some user)).room = x.udata.room.set user .unused) := by
  cases hroom : x.udata.room user with
  | none =>
      have hset := enrol_new hroom (hj.memory hroom)
      have hself : (enrol x.env.alloc x.udata (some user)).room user = some .unused := by
        rw [hset, Room.set_self]
      obtain ⟨tuent, hent, hseat⟩ := Option.map_eq_some_iff.mp hself
      refine ⟨tuent, hent, ?_, ?_, Or.inr hset⟩
      · rw [← UdataEnt.seat_has, hseat]
        rfl
      · rw [← UdataEnt.seat_has, hseat]
        rfl
  | some s =>
      rw [enrol_known (by rw [hroom]; simp)]
      obtain ⟨tuent, hent, hseat⟩ := Option.map_eq_some_iff.mp hroom
      obtain ⟨hban, hpres⟩ := hj.seat s hroom
      refine ⟨tuent, hent, ?_, ?_, Or.inl rfl⟩
      · rw [← UdataEnt.seat_has, hseat]
        simpa using hban
      · rw [← UdataEnt.seat_has, hseat]
        simpa [Seat.present] using hpres

/-- The nick that is stored for a join: the old one stays if there is no memory for it. -/
def Call.joinNick (x : Call) (user anick : CString) : Option CString :=
  if x.env.alloc .updateNick then some anick else x.udata.nickOf user

theorem nickOf_enrol (alloc : Alloc) (u : Udata) (user : CString) :
    (enrol alloc u (some user)).nickOf user = u.nickOf user := by
  rcases enrol_cases alloc u (some user) with h | ⟨v, hv, hnew, hmem⟩
  · rw [h]
  · obtain rfl : user = v := Option.some.inj hv
    rw [nickOf_eq _ user (by rw [enrol_new hnew hmem, Room.set_self]), Udata.nickOf,
      Udata.room_none.mp hnew]
    rfl

/-- A join nothing is in the way of takes place. -/
theorem does_join {user anick : CString} (hj : x.Joins user anick) (hfd : 0 ≤ x.fd) :
    Does x (handleChatdoor x) (.join user (x.joinNick user anick)) := by
  obtain ⟨tuent, hent, hban, hpres, hroom₁⟩ := enrol_spec hj
  obtain ⟨-, hu⟩ := Udata.udataGet_some hent
  have hset : ∀ t, (enrol x.env.alloc x.udata (some user)).room.set user t
      = x.udata.room.set user t := by
    intro t
    rcases hroom₁ with h | h
    · rw [h]
    · rw [h, Room.set_set]
  have hfree : (enrol x.env.alloc x.udata (some user)).udataGetByNick x.cmd.doorNick = none := by
    rw [hj.asked, Udata.udataGetByNick_free]
    rcases hroom₁ with h | h
    · rw [h]
      exact hj.free
    · intro v s hs hp
      by_cases hv : v = user
      · rw [h, hv, Room.set_self, Option.some.injEq] at hs
        rw [← hs] at hp
        exact absurd hp Seat.not_present_unused
      · rw [h, Room.set_ne _ hv] at hs
        exact hj.free v s hs hp
  rw [handleChatdoor_eq hj.named rfl hent, hj.form, chatdoorJoin, chatdoorEnter, hban, hpres]
  simp only [Bool.false_eq_true, if_false, show (x.cmd.fetch .null 1).str = x.cmd.doorNick from rfl,
    hfree, Option.isSome_none]
  have hstored : (Udata.updateSeat x.env.alloc { udataDefEntry with
      user := some tuent.user, nick := x.cmd.doorNick, fd := x.fd } tuent.seat).nick
      = x.joinNick user anick := by
    have hold : tuent.nick = x.udata.nickOf user := by
      rw [← nickOf_enrol x.env.alloc, Udata.nickOf, hent]
      rfl
    simp only [Udata.updateSeat, hj.asked, Call.joinNick, ← hold]
    rfl
  have hnick : x.joinNick user anick = some anick ∨ x.env.alloc .updateNick = false := by
    rw [Call.joinNick]
    cases x.env.alloc .updateNick with
    | true => exact Or.inl rfl
    | false => exact Or.inr rfl
  have hroom : ((((enrol x.env.alloc x.udata (some user)).udataUpdate x.env.alloc
      { udataDefEntry with user := some tuent.user, nick := x.cmd.doorNick,
                           fd := x.fd }).2.udataFlagunset tuent.user (~~~0)).udataFlagset
        tuent.user udcFlagPresent).room
      = x.udata.room.set user ⟨x.fd, x.joinNick user anick, udcFlagPresent⟩ := by
    have hseat := Udata.room_of_mem (Udata.udataGet_some hent).1
    rw [Udata.room_udataFlagset, Udata.room_udataFlagunset,
      Udata.room_udataUpdate rfl rfl (by rw [hu]; exact hent), Room.modify_modify,
      Room.modify_modify, Room.modify_eq_set hseat, hu, hset]
    congr 1
    rw [hu] at hstored
    simp only [Seat.mapFlags, hstored]
    simp [clearFlags, setFlags, Udata.updateSeat, hfd]
  refine ⟨.join hj hnick retval_neg ?_, hroom⟩
  have hnickOf := nickOf_eq _ tuent.user (by rw [hroom, hu]; exact Room.set_self _ _ _)
  exact congrArg (fun n => distribute 1 x.clients _ (doorMsg 1 n) (some x.cl) ++ _) hnickOf

/-- A `CHATDOOR` that joins has a nick. -/
theorem doorNick_some {user : CString} (hform : x.cmd.leaves = false)
    (huser : x.cmd.doorUser = some user) : ∃ nick, x.cmd.doorNick = some nick := by
  have hzero : x.cmd.args.length ≠ 0 := by
    intro hc
    rw [NetCmd.doorUser, NetCmd.fetch_none (List.getElem?_eq_none (by omega))] at huser
    simp at huser
  have hone : x.cmd.args.length ≠ 1 := by
    intro hc
    simp [NetCmd.leaves, NetCmd.getnumargs, hc] at hform
  obtain ⟨a, ha⟩ : ∃ a, x.cmd.args[1]? = some a := ⟨_, List.getElem?_eq_getElem (by omega)⟩
  exact ⟨_, by rw [NetCmd.doorNick, NetCmd.fetch_some ha]; rfl⟩

/-- What the checks of a join come to, for the room in front of the enrolling. -/
theorem joins_of {user anick : CString} {s : Seat CString} (hop : x.cmd.op = .chatdoor)
    (hform : x.cmd.leaves = false) (huser : x.cmd.doorUser = some user)
    (hanick : x.cmd.doorNick = some anick)
    (hroom : (enrol x.env.alloc x.udata (some user)).room user = some s)
    (hseat : ¬ s.has udcFlagBanned ∧ ¬ s.present)
    (hfree : (enrol x.env.alloc x.udata (some user)).room.FreeNick anick) :
    x.Joins user anick := by
  rcases enrol_cases x.env.alloc x.udata (some user) with h | ⟨v, hv, hnew, hmem⟩
  · rw [h] at hroom hfree
    refine ⟨hop, hform, huser, hanick, ?_, ?_, hfree⟩
    · intro t ht
      rw [hroom, Option.some.injEq] at ht
      rw [← ht]
      exact hseat
    · intro hnone
      rw [hroom] at hnone
      simp at hnone
  · obtain rfl : user = v := Option.some.inj hv
    refine ⟨hop, hform, huser, hanick, ?_, fun _ => hmem, ?_⟩
    · intro t ht
      rw [hnew] at ht
      simp at ht
    · intro w t ht
      have hw : w ≠ user := by
        intro hw
        rw [hw, hnew] at ht
        simp at ht
      refine hfree w t ?_
      rw [enrol_new hnew hmem, Room.set_ne _ hw]
      exact ht

/-- A `CHATDOOR` is a leave, a join, or refused. -/
theorem chatdoor_cases {user : CString} (hop : x.cmd.op = .chatdoor)
    (huser : x.cmd.doorUser = some user) :
    (∃ s, x.Leaves user s) ∨ (∃ nick, x.Joins user nick) ∨
      ∃ reason, handleChatdoor x = x.nak (enrol x.env.alloc x.udata (some user)) reason := by
  cases hent : (enrol x.env.alloc x.udata (some user)).udataGet (some user) with
  | none => exact Or.inr (Or.inr ⟨errorInternal, by simp only [handleChatdoor, huser, hent]⟩)
  | some tuent =>
      have hdoor := handleChatdoor_eq huser rfl hent
      have hroom := Udata.room_of_mem (Udata.udataGet_some hent).1
      rw [(Udata.udataGet_some hent).2] at hroom
      by_cases hform : x.cmd.leaves = true
      · by_cases hpres : tuent.seat.present
        · -- somebody who is in chat was not enrolled just now
          refine Or.inl ⟨tuent.seat, hop, hform, huser, ?_, hpres⟩
          rcases enrol_cases x.env.alloc x.udata (some user) with h | ⟨v, hv, hnew, hmem⟩
          · rw [← h]
            exact hroom
          · obtain rfl : user = v := Option.some.inj hv
            rw [enrol_new hnew hmem, Room.set_self, Option.some.injEq] at hroom
            exact absurd hpres (hroom ▸ Seat.not_present_unused)
        · have hnot : tuent.has udcFlagPresent = false := by simpa [Seat.present] using hpres
          refine Or.inr (Or.inr ⟨errorChatNotpresent, ?_⟩)
          rw [hdoor, if_pos hform, chatdoorLeave, chatdoorExit, hnot]
          rfl
      · right
        obtain ⟨anick, hanick⟩ := doorNick_some (by simpa using hform) huser
        rw [hdoor, if_neg hform]
        unfold chatdoorJoin chatdoorEnter
        dsimp only
        split
        · exact Or.inr ⟨_, rfl⟩
        · rename_i hban
          split
          · exact Or.inr ⟨_, rfl⟩
          · rename_i hpres
            split
            · exact Or.inr ⟨_, rfl⟩
            · rename_i hnick
              refine Or.inl ⟨anick, ?_⟩
              refine joins_of hop (by simpa using hform) huser hanick hroom ⟨hban, hpres⟩ ?_
              rw [← Udata.udataGetByNick_free, ← hanick]
              exact Option.not_isSome_iff_eq_none.mp hnick

theorem chatdoor_banned {user : CString} {t : Seat CString} (hform : x.cmd.leaves = false)
    (huser : x.cmd.doorUser = some user) (hroom : x.udata.room user = some t)
    (hban : t.has udcFlagBanned = true) : handleChatdoor x = x.nak x.udata errorChatBanned := by
  obtain ⟨tuent, hent, hseat⟩ := Option.map_eq_some_iff.mp hroom
  have hban' : tuent.has udcFlagBanned = true := by
    rw [← UdataEnt.seat_has, hseat]
    exact hban
  rw [handleChatdoor_eq huser (enrol_known (by rw [hroom]; simp)) hent, hform, chatdoorJoin, chatdoorEnter, hban']
  rfl

theorem does_handleChatdoor (hop : x.cmd.op = .chatdoor) (hfd : 0 ≤ x.fd) :
    ∃ act, Does x (handleChatdoor x) act := by
  cases huser : x.cmd.doorUser with
  | none =>
      have hrefused := @does_refused x errorInternal
      rw [huser] at hrefused
      simp only [handleChatdoor, huser, Udata.udataGet]
      exact hrefused
  | some user =>
      rcases chatdoor_cases hop huser with ⟨s, hl⟩ | ⟨anick, hj⟩ | ⟨reason, hnak⟩
      · exact ⟨_, does_leave hl⟩
      · exact ⟨_, does_join hj hfd⟩
      · rw [hnak, ← huser]
        exact does_refused reason

/-! ### The switch -/

theorem lsHandleNetcmd_chatdoor (hop : x.cmd.op = .chatdoor) :
    lsHandleNetcmd x = .ok (handleChatdoor x) := by
  unfold lsHandleNetcmd
  rw [show x.cmd.get = .chatdoor from hop]

theorem modeAct_ne_join {op : NCMDOp} {t user : CString} {nick : Option CString} :
    modeAct op t ≠ some (.join user nick) := by
  cases op <;> simp [modeAct]

/-- What comes of a join that nothing is in the way of. -/
theorem Call.Joins.handled {user anick : CString} (hj : x.Joins user anick) (hfd : 0 ≤ x.fd)
    (h : lsHandleNetcmd x = .ok o) :
    ∃ nick, (nick = some anick ∨ x.env.alloc .updateNick = false) ∧ o.retval < 0 ∧
      o.effects = distribute 1 x.clients o.udata (doorMsg 1 nick) (some x.cl) ++
        [x.reply (.set .ack)] ∧
      o.udata.room = x.udata.room.set user ⟨x.fd, nick, udcFlagPresent⟩ := by
  obtain ⟨hdeed, hroom⟩ := does_join hj hfd
  rw [lsHandleNetcmd_chatdoor hj.op, Except.ok.injEq] at h
  rw [h] at hdeed hroom
  cases hdeed with
  | join hj' hnick hret heff =>
      obtain rfl := Option.some.inj (hj.asked.symm.trans hj'.asked)
      exact ⟨_, hnick, hret, heff, hroom⟩
  | mode _ _ _ _ hact => exact absurd hact modeAct_ne_join

/-- A chat command gets through from somebody in chat, or as a magic `C_WHO`. -/
theorem lsHandleNetcmd_chatcmd (hchat : x.cmd.op.isChatcmd = true) :
    lsHandleNetcmd x = if x.cmd.isMagicWho || x.inChat then handleChatcmd x
      else .ok (x.done x.udata []) := by
  unfold lsHandleNetcmd
  split
  case h_7 => exact if_pos hchat
  all_goals
    rename_i hop
    rw [show x.cmd.op = _ from hop] at hchat
    simp [NCMDOp.isChatcmd] at hchat

theorem chatMode_refused (h : ∀ e, x.Sender e → e.has udcFlagOperator = false) :
    chatMode x = .ok (x.done x.udata [x.reply (.set x.cmd.op)]) := by
  unfold chatMode modeOn
  dsimp only
  split
  · rfl
  · rename_i e hs
    rw [h e hs, Bool.and_false]
    rfl

/-- **A command that is handled does one act.** -/
theorem does_lsHandleNetcmd (hfd : 0 ≤ x.fd) (h : lsHandleNetcmd x = .ok o) :
    ∃ act, Does x o act := by
  unfold lsHandleNetcmd at h
  split at h
  · rw [Except.ok.injEq] at h
    exact h ▸ does_handleMsg
  · exact does_handleGetqmsg h
  · rw [Except.ok.injEq] at h
    exact h ▸ does_handleGetlist
  · exact does_handleSetpref h
  · exact does_handleGetpref h
  · rename_i hop
    rw [Except.ok.injEq] at h
    exact h ▸ does_handleChatdoor hop hfd
  · split at h
    · split at h
      · exact does_handleChatcmd h
      · rw [Except.ok.injEq] at h
        subst h
        exact does_idle rfl retval_neg (by simp [Call.done])
    · rw [Except.ok.injEq] at h
      subst h
      exact does_idle rfl (show (-1 : Int) < 0 by decide) (by simp [Call.done])

end Smsg
