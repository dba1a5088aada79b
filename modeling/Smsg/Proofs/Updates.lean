/-
Updates of the store when memory runs out.

`udata_update` asks for memory twice, for the tty and for the nick, and writes the
fields in between as it comes to them.  When the second request fails the first fields
stay written although the call returns -1 (`whole_iff`).  `CHATDOOR` does not look at
what `udata_update` returns, and acknowledges a join with the nick of an earlier one
(`door_whole_iff`).
-/
import Smsg.Proofs.Sessions

namespace Smsg

open Machines

/-! ### What an update owes -/

/--
The fields of the argument that are not at their value for "leave alone" stand in the
entry.  `flags` and `queue` have no such value: they are written by `udata_flagset`,
`udata_flagunset` and `udata_set_qp`, and an update leaves them as they are.
-/
structure UdataEnt.Stores (e : UdataEnt) (arg : UdataArg) : Prop where
  tty : ∀ tty, arg.tty = some tty → e.tty = tty
  beep : arg.beep ≠ udataLeave → e.beep = arg.beep
  mode : arg.mode ≠ udataLeave → e.mode = arg.mode
  fd : 0 ≤ arg.fd → e.fd = arg.fd
  nick : ∀ nick, arg.nick = some nick → e.nick = some nick

/-- The call of `udata_add` or `udata_update` did nothing, or all that it was asked for. -/
structure Udata.Whole (u : Udata) (arg : UdataArg) (r : Int × Udata) : Prop where
  nothing : r.1 = -1 → r.2 = u
  all : r.1 = 0 → ∀ user e, arg.user = some user → u.udataGet (some user) = some e →
    ∃ e', r.2.udataGet (some user) = some e' ∧ e'.Stores arg ∧ e'.queue = e.queue ∧
      e'.flags = e.flags

/--
The update is left half done: the entry is there, there is no memory for the nick, and
a field in front of the nick is to be changed.
-/
structure Udata.HalfDone (alloc : Alloc) (u : Udata) (arg : UdataArg) (e : UdataEnt) : Prop where
  entry : arg.user = some e.user ∧ u.udataGet (some e.user) = some e
  nick : arg.nick ≠ none ∧ alloc .updateNick = false
  tty : arg.tty ≠ none → alloc .updateTty = true
  changes : ¬ e.Stores { arg with nick := none }

variable {alloc : Alloc} {u : Udata} {arg : UdataArg} {user nick : CString} {e : UdataEnt}

/-! ### The fields in front of the nick -/

/-- The entry with the fields in front of the nick written. -/
def UdataEnt.withPrefs (e : UdataEnt) (arg : UdataArg) : UdataEnt :=
  { e with
    tty := arg.tty.getD e.tty
    beep := if arg.beep ≠ udataLeave then arg.beep else e.beep
    mode := if arg.mode ≠ udataLeave then arg.mode else e.mode
    fd := if 0 ≤ arg.fd then arg.fd else e.fd }

theorem udataGet_updatePrefs (arg : UdataArg) (h : u.udataGet (some user) = some e) :
    (u.updatePrefs user arg).udataGet (some user) = some (e.withPrefs arg) := by
  obtain ⟨-, rfl⟩ := Udata.udataGet_some h
  exact Udata.udataGet_modify_self h

theorem stores_withPrefs (e : UdataEnt) (arg : UdataArg) :
    (e.withPrefs arg).Stores { arg with nick := none } where
  tty tty h := by
    have htty : arg.tty = some tty := h
    simp [UdataEnt.withPrefs, htty]
  beep h := if_pos h
  mode h := if_pos h
  fd h := if_pos h
  nick nick h := by simp at h

/-- Writing them changes nothing if they stand there already. -/
theorem withPrefs_eq_iff : e.withPrefs arg = e ↔ e.Stores { arg with nick := none } := by
  constructor
  · intro h
    rw [← h]
    exact stores_withPrefs e arg
  · intro h
    have htty : arg.tty.getD e.tty = e.tty := by
      cases ht : arg.tty with
      | none => rfl
      | some tty => exact (h.tty tty ht).symm
    have hbeep : (if arg.beep ≠ udataLeave then arg.beep else e.beep) = e.beep :=
      ite_eq_right_iff.mpr fun hb => (h.beep hb).symm
    have hmode : (if arg.mode ≠ udataLeave then arg.mode else e.mode) = e.mode :=
      ite_eq_right_iff.mpr fun hm => (h.mode hm).symm
    have hfd : (if 0 ≤ arg.fd then arg.fd else e.fd) = e.fd :=
      ite_eq_right_iff.mpr fun hf => (h.fd hf).symm
    rw [UdataEnt.withPrefs, htty, hbeep, hmode, hfd]

theorem Udata.ext_ents {u u' : Udata} (h : u.ents = u'.ents) : u = u' := by
  cases u
  cases u'
  cases h
  rfl

/-- A store in which the entry of one user has been written. -/
theorem modify_eq_iff {f : UdataEnt → UdataEnt} (h : u.udataGet (some user) = some e)
    (huser : (f e).user = user) : u.modify user f = u ↔ f e = e := by
  obtain ⟨hmem, hu⟩ := Udata.udataGet_some h
  have hself : (u.modify user f).udataGet (some user) = some (f e) := by
    rw [Udata.udataGet_modify_self h, ← huser]
  constructor
  · intro heq
    rw [heq, h] at hself
    exact (Option.some.inj hself).symm
  · intro heq
    refine Udata.ext_ents ((List.map_congr_left fun e' he' => ?_).trans (List.map_id u.ents))
    by_cases hu' : e'.user = user
    · obtain rfl : e' = e := by
        rw [← hu', Udata.udataGet_of_mem he'] at h
        exact Option.some.inj h
      rw [if_pos hu', heq]
      rfl
    · exact if_neg hu'

/-! ### All or nothing -/

/-- `udata_add` does nothing or makes an entry; it never writes to one that is there. -/
theorem whole_udataAdd (alloc : Alloc) (u : Udata) (arg : UdataArg) :
    u.Whole arg (u.udataAdd alloc arg) := by
  rcases Udata.udataAdd_cases alloc u arg with h | ⟨user, huser, hnew, hmem⟩
  · rw [h]
    exact ⟨fun _ => rfl, fun hr => by simp at hr⟩
  · obtain ⟨hret, -⟩ := Udata.udataAdd_new huser hnew hmem
    refine ⟨fun hr => ?_, fun _ user' e huser' hent => ?_⟩
    · rw [hret] at hr
      simp at hr
    · obtain rfl := Option.some.inj (huser.symm.trans huser')
      rw [hnew] at hent
      simp at hent

/-- An update for a user without an entry is an addition, or nothing. -/
theorem whole_udataUpdate_new (h : ∀ user, arg.user = some user → u.udataGet (some user) = none) :
    u.Whole arg (u.udataUpdate alloc arg) := by
  unfold Udata.udataUpdate
  split
  · rename_i user e huser hent
    rw [huser, h user huser] at hent
    simp at hent
  · split
    · refine ⟨fun hr => by simp at hr, fun _ user e huser hent => ?_⟩
      rw [h user huser] at hent
      simp at hent
    · exact whole_udataAdd alloc u arg

/-- What an update does to an entry that is there. -/
theorem udataUpdate_known (huser : arg.user = some user) (h : u.udataGet (some user) = some e) :
    u.udataUpdate alloc arg
      = if arg.tty.isSome && !alloc .updateTty then (-1, u)
        else match arg.nick with
          | none => (0, u.updatePrefs user arg)
          | some nick =>
              if alloc .updateNick then
                (0, (u.updatePrefs user arg).modify user fun t => { t with nick := some nick })
              else (-1, u.updatePrefs user arg) := by
  unfold Udata.udataUpdate
  split
  · rename_i user' _ huser' _
    obtain rfl := Option.some.inj (huser.symm.trans huser')
    rfl
  · rename_i hno
    exact (hno user e huser (by rw [huser, h])).elim

/-- An update of an entry does nothing or all, unless it is left half done. -/
theorem whole_udataUpdate_known (huser : arg.user = some e.user)
    (h : u.udataGet (some e.user) = some e) :
    u.Whole arg (u.udataUpdate alloc arg) ↔ ¬ Udata.HalfDone alloc u arg e := by
  have hprefs := udataGet_updatePrefs arg h
  have hstores := stores_withPrefs e arg
  rw [udataUpdate_known huser h]
  split
  · rename_i htty
    obtain ⟨hsome, hno⟩ : arg.tty ≠ none ∧ alloc .updateTty = false := by
      simpa [Option.isSome_iff_ne_none] using htty
    refine iff_of_true ⟨fun _ => rfl, fun hr => by simp at hr⟩ ?_
    intro hhalf
    rw [hhalf.tty hsome] at hno
    simp at hno
  · rename_i htty
    cases hnick : arg.nick with
    | none =>
        refine iff_of_true ⟨fun hr => by simp at hr, fun _ user e' huser' hent => ?_⟩
          fun hhalf => hhalf.nick.1 hnick
        obtain rfl := Option.some.inj (huser.symm.trans huser')
        obtain rfl := Option.some.inj (h.symm.trans hent)
        refine ⟨_, hprefs, ⟨hstores.tty, hstores.beep, hstores.mode, hstores.fd, ?_⟩, rfl, rfl⟩
        intro nick hn
        rw [hnick] at hn
        simp at hn
    | some nick =>
        dsimp only
        split
        · rename_i hmem
          refine iff_of_true ⟨fun hr => by simp at hr, fun _ user e' huser' hent => ?_⟩
            fun hhalf => by simp [hhalf.nick.2] at hmem
          obtain rfl := Option.some.inj (huser.symm.trans huser')
          obtain rfl := Option.some.inj (h.symm.trans hent)
          refine ⟨_, Udata.udataGet_modify_self hprefs,
            ⟨hstores.tty, hstores.beep, hstores.mode, hstores.fd, ?_⟩, rfl, rfl⟩
          intro nick' hn
          rw [hnick] at hn
          exact hn
        · -- -1 is returned, with the fields in front of the nick written
          rename_i hmem
          have hsame : u.updatePrefs e.user arg = u ↔ e.Stores { arg with nick := none } := by
            rw [← withPrefs_eq_iff]
            exact modify_eq_iff h rfl
          constructor
          · intro hwhole hhalf
            exact hhalf.changes (hsame.mp (hwhole.nothing rfl))
          · intro hhalf
            refine ⟨fun _ => hsame.mpr ?_, fun hr => by simp at hr⟩
            by_contra hchanges
            refine hhalf ⟨⟨huser, h⟩, ⟨by simp [hnick], by simpa using hmem⟩, ?_, hchanges⟩
            intro hsome
            simpa [Option.isSome_iff_ne_none, hsome] using htty

/--
**Updates are all or nothing, unless one is left half done.**  `udata_add` always is all
or nothing, and so is `udata_update` if it makes an entry; of an entry that is there it
may have written some fields when there is no memory for the nick.
-/
theorem whole_iff (alloc : Alloc) (u : Udata) (arg : UdataArg) :
    u.Whole arg (u.udataAdd alloc arg) ∧ u.Whole arg (u.udataUpdate alloc arg) ↔
      ∀ e, ¬ Udata.HalfDone alloc u arg e := by
  rw [and_iff_right (whole_udataAdd alloc u arg)]
  by_cases hknown : ∃ e, arg.user = some e.user ∧ u.udataGet (some e.user) = some e
  · obtain ⟨e, huser, hent⟩ := hknown
    rw [whole_udataUpdate_known huser hent]
    refine ⟨fun hno e' hhalf => ?_, fun hno => hno e⟩
    obtain ⟨huser', hent'⟩ := hhalf.entry
    rw [← Option.some.inj (huser.symm.trans huser'), hent, Option.some.injEq] at hent'
    exact hno (hent' ▸ hhalf)
  · refine iff_of_true (whole_udataUpdate_new fun user huser => ?_) fun e hhalf =>
      hknown ⟨e, hhalf.entry⟩
    refine Option.eq_none_iff_forall_ne_some.mpr fun e hent => hknown ⟨e, ?_⟩
    obtain ⟨-, rfl⟩ := Udata.udataGet_some hent
    exact ⟨huser, hent⟩

theorem nulFree_a : (0 : UInt8) ∉ [97] := by decide

/-- The user `a`, who was in chat on connection 4 as `a`. -/
def wasA : UdataEnt := ⟨⟨[97], nulFree_a⟩, ttysetUnset, -1, -1, .null, 4, some ⟨[97], nulFree_a⟩, 0⟩

/-- It joins as `b` on connection 5, without memory for the nick: the descriptor is changed. -/
theorem not_whole_rejoin : ∃ (alloc : Alloc) (u : Udata) (arg : UdataArg), ¬ (u.Whole arg (u.udataAdd alloc arg) ∧
    u.Whole arg (u.udataUpdate alloc arg)) := by
  refine ⟨fun site => decide (site ≠ .updateNick), ⟨[wasA], List.nodup_singleton _⟩,
    { udataDefEntry with user := some ⟨[97], by decide⟩, fd := 5, nick := some ⟨[98], by decide⟩ },
    fun hwhole => ?_⟩
  have hfd := congrArg (fun u => u.ents.map (·.fd)) (hwhole.2.nothing rfl)
  revert hfd
  decide

/-! ### `CHATDOOR` -/

section

variable {mem : Memory} {hist : List ServerStep} {s s' : Server} {i : Slot} {c : NetCmd} {env : Env}
  {out : List Effect}

/-- A `CHATDOOR` of `user` as `nick` on slot `i` went through as a whole, or not at all. -/
structure DoorWhole (s : Server) (i : Slot) (user nick : CString) (s' : Server)
    (out : List Effect) : Prop where
  acked : .send (s.clients i).fd (.set .ack) ∈ out →
    ∃ e ∈ s'.udata.ents, e.user = user ∧ e.has udcFlagPresent ∧ e.nick = some nick ∧
      e.fd = (s.clients i).fd ∧
      ∀ e' ∈ s'.udata.ents, e'.has udcFlagPresent → e'.nick = some nick → e' = e
  refused : ∀ reason, .send (s.clients i).fd ((NetCmd.set .nak).add reason) ∈ out →
    ∀ e ∈ s.udata.ents, e.Kept s'.udata

/-- The command lets `user` in, but there is no memory for the nick and the old one is another. -/
structure Server.KeepsOldNick (s : Server) (i : Slot) (c : NetCmd) (env : Env)
    (user nick : CString) : Prop where
  joins : (s.call i c env).Joins user nick
  memory : env.alloc .updateNick = false
  old : s.udata.nickOf user ≠ some nick

theorem door_form {user anick : Bytes} {more : List Bytes} (hargs : c.args = user :: anick :: more)
    (hanick : anick ≠ []) : c.leaves = false ∧ c.doorUser = some (cstr (user ++ [0])) ∧
      c.doorNick = some (cstr (anick ++ [0])) := by
  have hlen : anick.length ≠ 0 := fun h => hanick (List.length_eq_zero_iff.mp h)
  refine ⟨?_, ?_, ?_⟩
  · simp [NetCmd.leaves, NetCmd.getnumargs, NetCmd.fetch, hargs, Arg.blk, hlen]
  · simp [NetCmd.doorUser, NetCmd.fetch, hargs]
  · simp [NetCmd.doorNick, NetCmd.fetch, hargs]

/-- What a refused `CHATDOOR` leaves as it is. -/
theorem kept_enrol {alloc : Alloc} {u : Udata} {user : CString} {e : UdataEnt} (he : e ∈ u.ents) :
    e.Kept (enrol alloc u (some user)) := by
  rw [kept_iff]
  have hroom := Udata.room_of_mem he
  rcases enrol_cases alloc u (some user) with h | ⟨v, hv, hnew, hmem⟩
  · rw [h, hroom]
  · obtain rfl : user = v := Option.some.inj hv
    have hne : e.user ≠ user := by
      intro hu
      rw [← hu, hroom] at hnew
      simp at hnew
    rw [enrol_new hnew hmem, Room.set_ne _ hne, hroom]

theorem mem_settle_send {o : Outcome} {fd : Int} {m : NetCmd} :
    .send fd m ∈ (s.settle o).2 ↔ .send fd m ∈ o.effects := by
  have hkick : .send fd m ∉ s.kickEffects o.retval := by
    unfold Server.kickEffects
    split <;> simp
  rw [Server.settle, List.mem_append, or_iff_left hkick]

/-- Nothing of what is sent for a join is a `NAK`. -/
theorem join_not_nak {x : Call} {u : Udata} {nick : Option CString} {reason : Bytes} {fd : Int} :
    .send fd ((NetCmd.set .nak).add reason) ∉
      distribute 1 x.clients u (doorMsg 1 nick) (some x.cl) ++ [x.reply (.set .ack)] := by
  intro h
  rcases List.mem_append.mp h with h | h
  · obtain ⟨k, -, hk⟩ := List.mem_filterMap.mp h
    rw [sendPresent_eq] at hk
    split at hk
    · split at hk
      · simp [doorMsg, NetCmd.set, NetCmd.add] at hk
      · simp at hk
    · simp at hk
  · simp [Call.reply, NetCmd.set, NetCmd.add] at h

/-- The entry behind a join that stored the nick. -/
theorem entry_joined {u u' : Udata} {user nick : CString} {fd : Int}
    (hfree : u.room.FreeNick nick) (hpos : ∀ v t, u.room v = some t → t.present → 0 ≤ t.fd)
    (hroom : u'.room = u.room.set user ⟨fd, some nick, udcFlagPresent⟩) :
    ∃ e ∈ u'.ents, e.user = user ∧ e.has udcFlagPresent ∧ e.nick = some nick ∧ e.fd = fd ∧
      ∀ e' ∈ u'.ents, e'.has udcFlagPresent → e'.nick = some nick → e' = e := by
  have hseat : u'.room user = some ⟨fd, some nick, udcFlagPresent⟩ := by
    rw [hroom, Room.set_self]
  obtain ⟨e, he, huser, hes⟩ := Udata.room_iff.mp hseat
  obtain ⟨hfd, hnick, hflags⟩ := (Seat.mk.injEq ..).mp hes
  refine ⟨e, he, huser, ?_, hnick, hfd, fun e' he' hpres hnick' => ?_⟩
  · rw [UdataEnt.has, hflags]
    decide
  · have huser' : e'.user = user := by
      by_contra hne
      have hold : u.room e'.user = some e'.seat := by
        rw [← Udata.room_of_mem he', hroom, Room.set_ne _ hne]
      exact hfree e'.user e'.seat hold hpres (hpos _ _ hold hpres) hnick'
    exact List.inj_on_of_nodup_map u'.nodup he' he (huser'.trans huser.symm)

/-- The nick that is stored is the one that was asked for, unless the old one is kept. -/
theorem Call.Joins.stored_iff {user nick : CString} (hj : (s.call i c env).Joins user nick) :
    (s.call i c env).joinNick user nick = some nick ↔ ¬ s.KeepsOldNick i c env user nick := by
  have hdef : (s.call i c env).joinNick user nick
      = if env.alloc .updateNick then some nick else s.udata.nickOf user := rfl
  rw [hdef]
  cases hmem : env.alloc .updateNick with
  | true => exact iff_of_true rfl fun hkeeps => by simp [hkeeps.memory] at hmem
  | false =>
      constructor
      · intro hold hkeeps
        exact hkeeps.old hold
      · intro hno
        by_contra hold
        exact hno ⟨hj, hmem, hold⟩

/-- A `CHATDOOR` with a nick that does not let the user in is refused. -/
theorem door_refused {user nick : CString} {o : Outcome} (hop : c.op = .chatdoor)
    (huser : c.doorUser = some user) (hnick : c.doorNick = some nick) (hform : c.leaves = false)
    (hj : ¬ (s.call i c env).Joins user nick)
    (hcall : lsHandleNetcmd (s.call i c env) = .ok o) :
    ∃ reason, o = (s.call i c env).nak (enrol env.alloc s.udata (some user)) reason := by
  rw [lsHandleNetcmd_chatdoor (x := s.call i c env) hop, Except.ok.injEq] at hcall
  rcases chatdoor_cases (x := s.call i c env) hop huser with ⟨t, hl⟩ | ⟨nick', hj'⟩ | ⟨reason, hnak⟩
  · have hleave : c.leaves = true := hl.form
    rw [hform] at hleave
    simp at hleave
  · obtain rfl := Option.some.inj (hnick.symm.trans hj'.asked)
    exact absurd hj' hj
  · exact ⟨reason, by rw [← hcall, hnak]; rfl⟩

/--
**A `CHATDOOR` with a nick goes through as a whole or not at all, unless the old nick is
kept**: the user is let in, but there is no memory for the nick, which is not the one
that the user had before.
-/
theorem door_whole_iff {user anick : Bytes} {more : List Bytes} (h : Run (server mem) hist s)
    (hop : c.op = .chatdoor) (hargs : c.args = user :: anick :: more) (hanick : anick ≠ [])
    (hstep : (server mem).step s (.netcmd i c env) = some (s', out)) :
    DoorWhole s i (cstr (user ++ [0])) (cstr (anick ++ [0])) s' out ↔
      ¬ s.KeepsOldNick i c env (cstr (user ++ [0])) (cstr (anick ++ [0])) := by
  have hs := run_ok h
  obtain ⟨hform, huser, hnick⟩ := door_form hargs hanick
  obtain ⟨hlive, -, o, hcall, hset⟩ := step_netcmd hstep
  have hfd : 0 ≤ (s.clients i).fd := le_of_lt (hs.fd_pos hlive)
  have hudata : s'.udata = o.udata := by rw [← s.settle_udata o, hset]
  have hsent : ∀ m, .send (s.clients i).fd m ∈ out ↔ .send (s.clients i).fd m ∈ o.effects := by
    intro m
    rw [← mem_settle_send (s := s), hset]
  by_cases hj : (s.call i c env).Joins (cstr (user ++ [0])) (cstr (anick ++ [0]))
  · obtain ⟨stored, -, -, heff, -⟩ := hj.handled hfd hcall
    have hroom := (does_join hj hfd).2
    rw [lsHandleNetcmd_chatdoor hj.op, Except.ok.injEq] at hcall
    rw [hcall, ← hudata] at hroom
    rw [← hj.stored_iff]
    constructor
    · intro hwhole
      have hack : .send (s.clients i).fd (.set .ack) ∈ out := by
        rw [hsent, heff]
        exact List.mem_append_right _ List.mem_cons_self
      obtain ⟨e, he, heuser, -, henick, -⟩ := hwhole.acked hack
      have hseat := Udata.room_of_mem he
      rw [hroom, heuser, Act.apply, Room.set_self, Option.some.injEq] at hseat
      rw [← henick]
      exact congrArg Seat.nick hseat
    · intro hstored
      refine ⟨fun _ => ?_, fun reason hnak => ?_⟩
      · refine entry_joined hj.free (fun v t ht hpres => ?_) (hroom.trans (by rw [hstored]; rfl))
        exact le_of_lt (lt_of_le_of_lt hs.servfd (hs.seats v t ht hpres))
      · rw [hsent, heff] at hnak
        exact absurd hnak join_not_nak
  · obtain ⟨reason, rfl⟩ := door_refused hop huser hnick hform hj hcall
    refine iff_of_true ⟨fun hack => ?_, fun _ _ e he => ?_⟩ fun hkeeps => hj hkeeps.joins
    · rw [hsent] at hack
      simp [Call.nak, Call.done, Call.reply, NetCmd.set, NetCmd.add] at hack
    · rw [hudata]
      exact kept_enrol he

/-- The user `a` joins as `b`, leaves, and joins as `b` again when there is no memory for the
nick: it still has it from the first time. -/
theorem door_whole_again : ∃ hist s s' out e env, Run (server .any) hist s ∧
    env.alloc .updateNick = false ∧
    (server .any).step s (.netcmd 0 ⟨.chatdoor, [[97], [98]]⟩ env) = some (s', out) ∧
    .send (s.clients 0).fd (.set .ack) ∈ out ∧ (∀ e ∈ s.udata.ents, e.has udcFlagPresent = false) ∧
    e ∈ s'.udata.ents ∧ e.has udcFlagPresent ∧ e.nick = some (cstr [98, 0]) := by
  have hrun : (exec (server .any) (.initial 3)
      [arrives 4, enters 0 [97] [98], .netcmd 0 ⟨.chatdoor, [[97]]⟩ .bare] []).any (fun r =>
        decide (r.2.udata.nickOf (cstr [97, 0]) = some (cstr [98, 0]) ∧
          ∀ e ∈ r.2.udata.ents, e.has udcFlagPresent = false) &&
        ((server .any).step r.2 (.netcmd 0 ⟨.chatdoor, [[97], [98]]⟩
          { Env.bare with alloc := fun site => decide (site ≠ .updateNick) })).any fun p =>
            decide (.send (r.2.clients 0).fd (.set .ack) ∈ p.2)) = true := by
    decide +kernel
  simp only [Option.any_eq_true, Bool.and_eq_true, decide_eq_true_eq] at hrun
  obtain ⟨⟨hist, s⟩, hexec, ⟨hold, hnobody⟩, ⟨s', out⟩, hstep, hack⟩ := hrun
  have h : Run (server .any) hist s := run_of_exec hexec
  have hwhole := (door_whole_iff h rfl rfl (by simp) hstep).mpr fun hkeeps => hkeeps.old hold
  obtain ⟨e, he, -, hpres, hnick, -⟩ := hwhole.acked hack
  exact ⟨hist, s, s', out, e, _, h, rfl, hstep, hack, hnobody, he, hpres, hnick⟩

/-- Without memory for the nick, `a` is in chat without one. -/
theorem not_door_whole : ∃ hist s s' out env, Run (server .any) hist s ∧
    (server .any).step s (.netcmd 0 ⟨.chatdoor, [[97], [98]]⟩ env) = some (s', out) ∧
    ¬ DoorWhole s 0 (cstr [97, 0]) (cstr [98, 0]) s' out := by
  have hrun : (exec (server .any) (.initial 3) [arrives 4] []).any (fun r =>
      ((server .any).step r.2 (.netcmd 0 ⟨.chatdoor, [[97], [98]]⟩
        { Env.bare with alloc := fun site => decide (site ≠ .updateNick) })).any fun p =>
          decide (.send (r.2.clients 0).fd (.set .ack) ∈ p.2 ∧ ∀ e ∈ p.1.udata.ents, e.nick = none))
      = true := by
    decide +kernel
  simp only [Option.any_eq_true, decide_eq_true_eq] at hrun
  obtain ⟨⟨hist, s⟩, hexec, ⟨s', out⟩, hstep, hack, hnone⟩ := hrun
  refine ⟨hist, s, s', out, _, run_of_exec hexec, hstep, fun hwhole => ?_⟩
  obtain ⟨e, he, -, -, hnick, -⟩ := hwhole.acked hack
  rw [hnone e he] at hnick
  simp at hnick

end

end Smsg
