/-
Membership: who is told that somebody comes or goes.

Everybody who is in chat before and after an event hears of the change in the roster
that the event is, and of nothing else (`Turn.heard`): one message for somebody who
joins, leaves, hangs up or is thrown out.  The four places that send it leave
different people out, and each of them is right, as long as nobody joins on a used
connection and nobody takes out the user of somebody else (`membership_told`).

What is heard is enough to keep a list of the nicks in chat.
-/
import Smsg.Proofs.Identity
import Smsg.Roster

namespace Smsg

open Machines

/-! ### Acts and the roster -/

section

variable {User Nick : Type*} [DecidableEq User] {r : Room User Nick} {user v : User} {fd : Int}
  {act : Act User Nick}

omit [DecidableEq User] in
theorem Room.roster_some {s : Seat Nick} (h : r v = some s) (hpres : s.present) :
    r.roster v = some s.nick := by
  have hbit : s.has udcFlagPresent = true := hpres
  simp [Room.roster, h, Option.filter, hbit]

omit [DecidableEq User] in
theorem Room.roster_none (h : ∀ s, r v = some s → ¬ s.present) : r.roster v = none := by
  cases hs : r v with
  | none => simp [Room.roster, hs]
  | some s =>
      have hbit : s.has udcFlagPresent = false := by simpa [Seat.present] using h s hs
      simp [Room.roster, hs, Option.filter, hbit]

omit [DecidableEq User] in
theorem Room.roster_iff {nick : Option Nick} :
    r.roster v = some nick ↔ ∃ s, r v = some s ∧ s.present ∧ s.nick = nick := by
  constructor
  · intro h
    cases hs : r v with
    | none => simp [Room.roster, hs] at h
    | some s =>
        by_cases hpres : s.present
        · rw [Room.roster_some hs hpres, Option.some.injEq] at h
          exact ⟨s, rfl, hpres, h⟩
        · rw [Room.roster_none] at h
          · simp at h
          · intro s' hs'
            rw [hs, Option.some.injEq] at hs'
            rw [← hs']
            exact hpres
  · intro h
    obtain ⟨s, hs, hpres, hnick⟩ := h
    rw [Room.roster_some hs hpres, hnick]

/-- Writing one seat writes one line of the roster. -/
theorem roster_set (r : Room User Nick) (user : User) (s : Seat Nick) :
    (r.set user s).roster
      = Function.update r.roster user (if s.present then some s.nick else none) := by
  funext v
  by_cases hv : v = user
  · subst hv
    rw [Function.update_self]
    by_cases hpres : s.present
    · rw [if_pos hpres, Room.roster_some (r.set_self v s) hpres]
    · rw [if_neg hpres, Room.roster_none]
      intro s' hs'
      rw [r.set_self, Option.some.injEq] at hs'
      rw [← hs']
      exact hpres
  · rw [Function.update_of_ne hv, Room.roster, Room.set_ne _ hv]
    rfl

/-- Flags that do not say who is present do not matter. -/
theorem roster_flags {f : Flags → Flags}
    (h : ∀ g, f g &&& udcFlagPresent = g &&& udcFlagPresent) :
    (r.modify user (·.mapFlags f)).roster = r.roster := by
  funext v
  by_cases hv : v = user
  · subst hv
    cases hs : r v with
    | none => simp [Room.roster, hs]
    | some s =>
        have hbit : (s.mapFlags f).has udcFlagPresent = s.has udcFlagPresent := by
          rw [Seat.has, Seat.mapFlags_flags, h, Seat.has]
        simp [Room.roster, hs, Option.filter, hbit]
  · simp [Room.roster, hv]

theorem setFlags_other {b : Flags} (hb : b &&& udcFlagPresent = 0) (g : Flags) :
    setFlags b g &&& udcFlagPresent = g &&& udcFlagPresent := by
  rw [setFlags, BitVec.and_or_distrib_right, hb]
  exact BitVec.or_zero

theorem clearFlags_other {b : Flags} (hb : ~~~b &&& udcFlagPresent = udcFlagPresent) (g : Flags) :
    clearFlags b g &&& udcFlagPresent = g &&& udcFlagPresent := by
  rw [clearFlags, BitVec.and_assoc, hb]

theorem toggleAway_other (g : Flags) :
    toggleAway g &&& udcFlagPresent = g &&& udcFlagPresent := by
  unfold toggleAway
  split
  · exact clearFlags_other (by decide) g
  · exact setFlags_other (by decide) g

/-- Who has left is off the roster. -/
theorem roster_left (hact : act = .leave user ∨ act = .kick user ∨ act = .ban user) :
    (act.apply fd r).roster = Function.update r.roster user none := by
  have hsub : ∀ {v}, v ≠ user → act.apply fd r v = r v := by
    intro v hv
    refine Act.apply_ne ?_
    rcases hact with rfl | rfl | rfl <;> simpa [Act.subject] using hv.symm
  funext v
  by_cases hv : v = user
  · subst hv
    rw [Function.update_self]
    exact Room.roster_none fun s hs => Act.apply_left hact hs
  · rw [Function.update_of_ne hv, Room.roster, hsub hv]
    rfl

/-- **What an act does to the room it does to the roster.** -/
theorem roster_apply (hp : act.permits fd r) :
    (act.apply fd r).roster = act.onRoster r.roster := by
  cases act with
  | idle => rfl
  | enrol user =>
      have hnew : r user = none := hp
      show (r.set user .unused).roster = r.roster
      rw [roster_set, if_neg Seat.not_present_unused]
      refine Function.update_eq_self_iff.mpr ?_
      rw [Room.roster_none]
      simp [hnew]
  | join user nick =>
      have hin : (⟨fd, nick, udcFlagPresent⟩ : Seat Nick).present := by
        simp [Seat.present, Seat.has, udcFlagPresent]
      rw [Act.apply, roster_set, if_pos hin, Act.onRoster]
  | leave user => exact roster_left (Or.inl rfl)
  | kick user => exact roster_left (Or.inr (Or.inl rfl))
  | ban user => exact roster_left (Or.inr (Or.inr rfl))
  | rename user nick =>
      obtain ⟨s, hs, hpres, -⟩ := hp
      have hin : ({ s with nick := some nick } : Seat Nick).present := hpres
      rw [Act.apply, Room.modify_eq_set hs, roster_set, if_pos hin, Act.onRoster]
  | away user => exact roster_flags toggleAway_other
  | oper user => exact roster_flags (setFlags_other (by decide))
  | op user => exact roster_flags (setFlags_other (by decide))
  | deop user => exact roster_flags (clearFlags_other (by decide))
  | unban user => exact roster_flags (clearFlags_other (by decide))

end

/-! ### The roster of the store -/

section

variable {u u' : Udata} {user v : CString} {nick : Option CString}

theorem Udata.roster_iff : u.room.roster v = some nick ↔
    ∃ e ∈ u.ents, e.has udcFlagPresent = true ∧ e.user = v ∧ e.nick = nick := by
  rw [Room.roster_iff]
  constructor
  · intro h
    obtain ⟨s, hs, hpres, hnick⟩ := h
    obtain ⟨e, he, hv, rfl⟩ := Udata.room_iff.mp hs
    exact ⟨e, he, hpres, hv, hnick⟩
  · intro h
    obtain ⟨e, he, hpres, rfl, hnick⟩ := h
    exact ⟨e.seat, Udata.room_of_mem he, hpres, hnick⟩

theorem Udata.mem_present :
    v ∈ u.present ↔ ∃ e ∈ u.ents, e.has udcFlagPresent = true ∧ e.user = v := by
  simp [Udata.present, and_assoc]

theorem Udata.mem_present_iff : v ∈ u.present ↔ u.room.roster v ≠ none := by
  rw [Udata.mem_present, Option.ne_none_iff_exists']
  constructor
  · intro h
    obtain ⟨e, he, hpres, hv⟩ := h
    exact ⟨e.nick, Udata.roster_iff.mpr ⟨e, he, hpres, hv, rfl⟩⟩
  · intro h
    obtain ⟨nick, hnick⟩ := h
    obtain ⟨e, he, hpres, hv, -⟩ := Udata.roster_iff.mp hnick
    exact ⟨e, he, hpres, hv⟩

theorem Udata.nickOf_of_roster (h : u.room.roster v = some nick) : u.nickOf v = nick := by
  obtain ⟨s, hs, -, hnick⟩ := Room.roster_iff.mp h
  rw [nickOf_eq u v hs, hnick]

/-- The nicks, user by user. -/
theorem Udata.nicks_eq (u : Udata) :
    u.nicks = u.present.val.map fun v => xstr (u.nickOf v) := by
  have hnodup : ((u.ents.filter fun e => e.has udcFlagPresent).map (·.user)).Nodup :=
    u.nodup.sublist (List.filter_sublist.map _)
  rw [Udata.present, List.toFinset_val, List.dedup_eq_self.mpr hnodup, Multiset.map_coe,
    List.map_map, Udata.nicks]
  refine congrArg Multiset.ofList (List.map_congr_left fun e he => ?_)
  have hmem := (List.mem_filter.mp he).1
  rw [Function.comp, Udata.nickOf, Udata.udataGet_of_mem hmem]
  rfl

end

/-! ### Messages and the roster -/

section

variable {m : NetCmd} {nick : Bytes} {names : Nicks}

/-- The messages that a roster is kept with. -/
def rosterOps : List NCMDOp := [.cDoor, .cKick, .cBan, .cNick]

theorem plain_of_op (h : m.op ∉ rosterOps) : m.Plain := by
  simp only [rosterOps, List.mem_cons, List.not_mem_nil, or_false, not_or] at h
  obtain ⟨hdoor, hkick, hban, hnick⟩ := h
  refine ⟨by simp [NetCmd.isMembership, hdoor, hkick, hban], fun names => ?_⟩
  unfold Nicks.update
  split <;> first | contradiction | rfl

/-- Answers to those who have asked for something are too short. -/
theorem plain_of_short (hop : m.op ≠ .cDoor) (hargs : m.args.length < 2) : m.Plain := by
  refine ⟨?_, fun names => ?_⟩
  · have hlen : m.args.length ≠ 2 := by omega
    simp [NetCmd.isMembership, hop, hlen]
  · unfold Nicks.update
    split
    case h_1 hdoor _ => exact absurd hdoor hop
    case h_5 => rfl
    all_goals
      rename_i hlist
      simp [hlist] at hargs

theorem plain_sameNick (a : Bytes) : NetCmd.Plain ⟨.cNick, [a, a]⟩ := by
  refine ⟨rfl, fun names => ?_⟩
  show (if a ∈ names then a ::ₘ names.erase a else names) = names
  by_cases ha : a ∈ names
  · rw [if_pos ha, Multiset.cons_erase ha]
  · rw [if_neg ha]

theorem plainOps_not_roster : ∀ op ∈ plainOps, op ∉ rosterOps := by
  decide

theorem Quiet.plain {x : Call} {fd : Int} (hq : Quiet x (.send fd m)) : m.Plain := by
  rcases hq with hop | ⟨-, hreply⟩ | ⟨a, rfl⟩
  · exact plain_of_op (plainOps_not_roster _ hop)
  · have hdoor : ∀ op ∈ modeOps, op ≠ .cDoor := by decide
    cases hreply with
    | nickInUse => exact plain_of_short (by decide) (by decide)
    | ownNick => exact plain_of_short (by simp [NetCmd.set, NetCmd.add]) (by simp [NetCmd.set, NetCmd.add])
    | wrongPassword => exact plain_of_short (by decide) (by decide)
    | notOperator hop => exact plain_of_short (hdoor _ hop) (by simp [NetCmd.set])
    | absent hop => exact plain_of_short (hdoor _ hop) (by simp [NetCmd.set, NetCmd.add])
  · exact plain_sameNick a

theorem membership_left (h : m.TellsLeft nick) : m.isMembership = true := by
  rcases h with ⟨hop, -⟩ | ⟨hop, oper, hargs⟩
  · simp [NetCmd.isMembership, hop]
  · rcases hop with hop | hop <;> simp [NetCmd.isMembership, hop, hargs]

theorem update_entered (names : Nicks) (nick : Option CString) :
    names.update (doorMsg 1 nick) = xstr nick ::ₘ names := rfl

theorem update_left (h : m.TellsLeft nick) : names.update m = names.erase nick := by
  obtain ⟨op, args⟩ := m
  rcases h with ⟨hop, more, hargs⟩ | ⟨hop, oper, hargs⟩
  · obtain rfl : op = .cDoor := hop
    obtain rfl : args = [0] :: nick :: more := hargs
    rfl
  · obtain rfl : args = [nick, oper] := hargs
    rcases hop with hop | hop
    · obtain rfl : op = .cKick := hop
      rfl
    · obtain rfl : op = .cBan := hop
      rfl

theorem update_renamed {new old : Bytes} (h : old ∈ names) :
    names.update ⟨.cNick, [new, old]⟩ = new ::ₘ names.erase old := if_pos h

end

/-! ### What is heard of an event -/

/-- The user is in chat on `fd` before and after. -/
def Stays (u u' : Udata) (fd : Int) : Prop := ∃ v, u.room.Sits v fd ∧ u'.room.Sits v fd

/-- The one change in the roster, and what those who stay are sent. -/
inductive Heard (u u' : Udata) (out : List Effect) : Prop
  | plain (hroster : u'.room.roster = u.room.roster) (hout : ∀ fd m, .send fd m ∈ out → m.Plain)
  | entered {user : CString} {nick : Option CString} (hout : u.room.roster user = none)
      (hroster : u'.room.roster = Function.update u.room.roster user (some nick))
      (hsent : ∀ fd, Stays u u' fd → sentTo fd out = [doorMsg 1 nick])
  | left {user : CString} {nick : Option CString} {m : NetCmd}
      (hin : u.room.roster user = some nick)
      (hroster : u'.room.roster = Function.update u.room.roster user none)
      (hm : m.TellsLeft (xstr nick)) (hsent : ∀ fd, Stays u u' fd → sentTo fd out = [m])
  | renamed {user new old : CString} (hin : u.room.roster user = some (some old))
      (hroster : u'.room.roster = Function.update u.room.roster user (some (some new)))
      (hout : ∀ fd m, .send fd m ∈ out → m = ⟨.cNick, [new.chars, old.chars]⟩)
      (hsent : ∀ fd, Stays u u' fd → sentTo fd out = [⟨.cNick, [new.chars, old.chars]⟩])

section

variable {mem : Memory} {hist : List ServerStep} {s s' : Server} {i : Slot} {c : NetCmd} {env : Env}
  {o : Outcome} {act : Act CString CString} {v : CString} {fd : Int}

/-- A message that is handed out reaches everybody in chat, unless their slot is left out. -/
theorem Seated.sentTo_sits (hs : s.Ok) (hseated : Seated hist s) {low : Int} (hlow : low ≤ 1)
    {u : Udata} (msg : NetCmd) {excl : Option Slot} (hbefore : s.udata.room.Sits v fd)
    (hin : u.room.Sits v fd) (hexcl : ∀ k, excl = some k → (s.clients k).fd ≠ fd) :
    sentTo fd (distribute low s.clients u msg excl) = [msg] := by
  obtain ⟨t, ht, hpres, htfd⟩ := hbefore
  obtain ⟨k, hlive, hkfd, -⟩ := hseated.session v t ht hpres
  obtain ⟨t', ht', hpres', htfd'⟩ := hin
  have hfd : (s.clients k).fd = fd := hkfd.trans htfd
  have hone := sentTo_distribute hs hlive low hlow msg excl
    (udataGetByFd_of_seat ht' hpres' (htfd'.trans hfd.symm))
  have hk : some k ≠ excl := fun hk => hexcl k hk.symm hfd
  rw [hfd, if_neg hk] at hone
  exact hone

/-- Nobody but the one who leaves is on the connection of the leave. -/
theorem Call.Leaves.alone (hapart : s.udata.room.Apart) {user : CString} {t : Seat CString}
    (hl : (s.call i c env).Leaves user t) (hforeign : ¬ s.LeavesForeign i c)
    (hv : s.udata.room.Sits v fd) (hne : v ≠ user) : fd ≠ (s.clients i).fd := by
  intro hfd
  have ht : s.udata.room user = some t := hl.seat
  obtain ⟨tv, htv, hpres, htvfd⟩ := hv
  obtain ⟨e, he, heuser, rfl⟩ := Udata.room_iff.mp ht
  have hown : e.fd = (s.clients i).fd := by
    by_contra hne'
    exact hforeign ⟨hl.op, hl.form, e, he, hl.present, hne', by rw [heuser]; exact hl.named⟩
  exact hne (hapart v user tv e.seat htv ht hpres hl.present (by rw [htvfd, hfd]; exact hown.symm))

theorem plain_dist {clients : Slot → Client} {u : Udata} {msg : NetCmd} (h : msg.Plain) :
    ∀ fd m, .send fd m ∈ lcsDistNcmd clients u msg none → m.Plain := by
  intro fd m hm
  obtain ⟨fd', hsend⟩ := mem_distribute hm
  rw [(Effect.send.inj hsend).2]
  exact h

/-- A message that is handed out to the others reaches each of them, whatever else is sent to
the one who is left out. -/
theorem Seated.sentTo_others (hs : s.Ok) (hseated : Seated hist s) {u : Udata} (msg : NetCmd)
    {more : List Effect} (hbefore : s.udata.room.Sits v fd) (hin : u.room.Sits v fd)
    (hne : fd ≠ (s.clients i).fd) (hmore : sentTo fd more = []) :
    sentTo fd (distribute 1 s.clients u msg (some i) ++ more) = [msg] := by
  rw [sentTo_append, hmore, List.append_nil]
  refine hseated.sentTo_sits hs (le_refl 1) _ hbefore hin fun k hk => ?_
  rw [← Option.some.inj hk]
  exact hne.symm

/-- What is heard of a command that an operator gives about another user. -/
theorem Heard.mode {t : UdataEnt} {tnick : CString} (hs : s.Ok) (hseated : Seated hist s)
    (htin : s.udata.room.roster t.user = some t.nick)
    (hroom : o.udata.room = act.apply fd s.udata.room)
    (hroster : o.udata.room.roster = act.onRoster s.udata.room.roster)
    (hact : modeAct c.op t.user = some act)
    (heff : o.effects = lcsDistNcmd s.clients o.udata ⟨c.op, [xstr t.nick, tnick.chars]⟩ none) :
    Heard s.udata o.udata o.effects := by
  have hleft : c.op = .cKick ∨ c.op = .cBan → act = .kick t.user ∨ act = .ban t.user →
      Heard s.udata o.udata o.effects := by
    intro hop hact
    have hgone : act = .leave t.user ∨ act = .kick t.user ∨ act = .ban t.user := Or.inr hact
    refine .left (m := ⟨c.op, [xstr t.nick, tnick.chars]⟩) htin ?_
      (Or.inr ⟨hop, tnick.chars, rfl⟩) fun fd hstays => ?_
    · rw [hroom]
      exact roster_left hgone
    · obtain ⟨v, hbefore, hafter⟩ := hstays
      rw [heff]
      exact hseated.sentTo_sits hs (by decide) _ hbefore hafter (by simp)
  have hplain : c.op ∉ rosterOps → act.onRoster s.udata.room.roster = s.udata.room.roster →
      Heard s.udata o.udata o.effects := by
    intro hop hsame
    refine .plain (hroster.trans hsame) ?_
    rw [heff]
    exact plain_dist (plain_of_op hop)
  cases hop : c.op <;> rw [hop] at hact <;>
    simp only [modeAct, reduceCtorEq, Option.some.injEq] at hact <;> subst hact
  case cBan => exact hleft (Or.inr hop) (Or.inr rfl)
  case cKick => exact hleft (Or.inl hop) (Or.inl rfl)
  case cDeop => exact hplain (by rw [hop]; decide) rfl
  case cOp => exact hplain (by rw [hop]; decide) rfl
  case cUnban => exact hplain (by rw [hop]; decide) rfl

/-- **What is heard of a command.** -/
theorem Does.heard (hs : s.Ok) (hseated : Seated hist s) (hfd : 0 ≤ (s.clients i).fd)
    (h : Does (s.call i c env) o act)
    (hjoins : ∀ user nick, (s.call i c env).Joins user nick →
      s.udata.udataGetByFd (s.clients i).fd = none)
    (hforeign : ¬ s.LeavesForeign i c) : Heard s.udata o.udata o.effects := by
  obtain ⟨hdeed, hroom⟩ := h
  have hroster : o.udata.room.roster = act.onRoster s.udata.room.roster := by
    rw [hroom]
    exact roster_apply (hdeed.permits hfd)
  have hack : ∀ {fd}, fd ≠ (s.clients i).fd →
      sentTo fd [(s.call i c env).reply (.set .ack)] = [] := by
    intro fd hne
    rw [Call.reply, sentTo_send]
    exact if_neg fun h => hne h.symm
  have hin : ∀ {e : UdataEnt}, e ∈ s.udata.ents → e.has udcFlagPresent = true →
      s.udata.room.roster e.user = some e.nick :=
    fun he hpres => Udata.roster_iff.mpr ⟨_, he, hpres, rfl, rfl⟩
  cases hdeed with
  | idle _ hq => exact .plain hroster fun fd m hm => (hq _ hm).plain
  | enrol _ _ hq => exact .plain hroster fun fd m hm => (hq _ hm).plain
  | @join user anick nick hj _ _ heff =>
      refine .entered ?_ hroster fun fd hstays => ?_
      · refine Room.roster_none fun t ht hpres => (hj.seat t ht).2 hpres
      · obtain ⟨v, hbefore, hafter⟩ := hstays
        have hne : fd ≠ (s.clients i).fd := by
          intro hsame
          obtain ⟨t, ht, hpres, htfd⟩ := hbefore
          exact udataGetByFd_of_seat ht hpres (htfd.trans hsame) (hjoins user anick hj)
        rw [heff]
        exact hseated.sentTo_others hs _ hbefore hafter hne (hack hne)
  | @leave user t more hl _ heff =>
      refine .left (m := ⟨.cDoor, [0] :: xstr t.nick :: more⟩)
        (Room.roster_some hl.seat hl.present) hroster (Or.inl ⟨rfl, more, rfl⟩) fun fd hstays => ?_
      obtain ⟨v, hbefore, hafter⟩ := hstays
      have hne : v ≠ user := by
        intro hv
        obtain ⟨t', ht', hpres', -⟩ := hafter
        rw [hroom, hv] at ht'
        exact Act.apply_left (Or.inl rfl) ht' hpres'
      have hfd' := hl.alone hseated.apart hforeign hbefore hne
      rw [heff]
      exact hseated.sentTo_others hs _ hbefore hbefore hfd' (hack hfd')
  | @rename e new old hse _ _ _ hold _ heff =>
      obtain ⟨hmem, -, hepres⟩ := Udata.udataGetByFd_some hse
      refine .renamed ((hin hmem hepres).trans (by rw [hold])) hroster ?_ fun fd hstays => ?_
      · intro fd m hm
        rw [heff] at hm
        obtain ⟨fd', hsend⟩ := mem_distribute hm
        exact (Effect.send.inj hsend).2
      · obtain ⟨v, hbefore, hafter⟩ := hstays
        rw [heff]
        exact hseated.sentTo_sits hs (by decide) _ hbefore hafter (by simp)
  | away _ _ _ heff =>
      refine .plain hroster ?_
      rw [heff]
      exact plain_dist (plain_of_op (by simp [rosterOps]))
  | oper _ _ _ _ heff =>
      refine .plain hroster ?_
      rw [heff]
      exact plain_dist (plain_of_op (by simp [rosterOps]))
  | mode _ _ _ ht hact _ heff =>
      obtain ⟨hmem, -, -, -, htpres⟩ := Udata.udataGetByNick_some ht
      exact .mode hs hseated (hin hmem htpres) hroom hroster hact heff

/-- **What is heard of an event.** -/
theorem Turn.heard {ev : Event} {out : List Effect} (hs : s.Ok) (hseated : Seated hist s)
    (hturn : Turn mem s ev s' out) (hjoins : ¬ s.JoinsTwice ev)
    (hforeign : ∀ i c env, ev = .netcmd i c env → ¬ s.LeavesForeign i c) :
    Heard s.udata s'.udata out := by
  have hsilent : ∀ (fds : List Int) {fd m},
      .send fd m ∈ fds.map Effect.close → NetCmd.Plain m := by
    intro fds fd m hm
    obtain ⟨fd', -, hclose⟩ := List.mem_map.mp hm
    cases hclose
  cases hturn with
  | refused => exact .plain rfl fun fd m hm => hsilent [_] hm
  | accepted => exact .plain (by rw [Server.accept_udata]) fun fd m hm => hsilent [] hm
  | recvError => exact .plain rfl fun fd m hm => hsilent [] hm
  | closed => exact .plain rfl fun fd m hm => hsilent [_] hm
  | @hungUp k alloc e hlive hent =>
      obtain ⟨hmem, hefd, hepres⟩ := Udata.udataGetByFd_some hent
      have hroom := room_hungUp alloc hent
      have hgone : (removeFromChat alloc s.udata e.user).room.roster
          = Function.update s.udata.room.roster e.user none := by
        rw [hroom]
        exact roster_left (Or.inl rfl)
      refine .left (m := (doorMsg 0 e.nick).add errorChatPeerclose)
        (Udata.roster_iff.mpr ⟨e, hmem, hepres, rfl, rfl⟩) hgone
        (Or.inl ⟨rfl, [errorChatPeerclose], rfl⟩) fun fd hstays => ?_
      obtain ⟨v, hbefore, hafter⟩ := hstays
      have hne : fd ≠ (s.clients k).fd := by
        intro hfd
        obtain ⟨t, ht, hpres, htfd⟩ := hbefore
        have hv : v = e.user := hseated.apart v e.user t e.seat ht (Udata.room_of_mem hmem) hpres
          hepres (by rw [htfd, hfd, UdataEnt.seat_fd, hefd])
        obtain ⟨t', ht', hpres', -⟩ := hafter
        have hleft : (Act.leave e.user).apply (s.clients k).fd s.udata.room e.user = some t' := by
          rw [← hroom]
          rw [hv] at ht'
          exact ht'
        exact Act.apply_left (Or.inl rfl) hleft hpres'
      exact hseated.sentTo_others hs _ hbefore hbefore hne rfl
  | @netcmd k c env o act hlive hmem hcall hdoes =>
      have hheard := hdoes.heard hs hseated (le_of_lt (hs.fd_pos hlive))
        (fun user nick hj => by
          by_contra hused
          exact hjoins ⟨k, c, env, user, nick, rfl, hj, hused⟩)
        (hforeign k c env rfl)
      have hsent : ∀ fd, sentTo fd (s.settle o).2 = sentTo fd o.effects := sentTo_settle s o
      have hmem : ∀ {fd m}, .send fd m ∈ (s.settle o).2 → .send fd m ∈ o.effects := by
        intro fd m hm
        rw [← mem_sentTo, hsent, mem_sentTo] at hm
        exact hm
      rw [Server.settle_udata]
      cases hheard with
      | plain hroster hout => exact .plain hroster fun fd m hm => hout fd m (hmem hm)
      | entered hout hroster hall =>
          exact .entered hout hroster fun fd h => by rw [hsent, hall fd h]
      | left hin hroster hm hall =>
          exact .left hin hroster hm fun fd h => by rw [hsent, hall fd h]
      | renamed hin hroster hout hall =>
          exact .renamed hin hroster (fun fd m hm => hout fd m (hmem hm))
            fun fd h => by rw [hsent, hall fd h]

end

/-! ### Being told, and keeping a roster -/

section

variable {u u' : Udata} {out : List Effect} {user v : CString} {nick : Option CString} {fd : Int}

/-- Somebody is put on the roster. -/
theorem present_entered (h : u'.room.roster = Function.update u.room.roster user (some nick)) :
    u'.present = insert user u.present ∧ u'.nickOf user = nick := by
  have hself : u'.room.roster user = some nick := by rw [h, Function.update_self]
  refine ⟨?_, Udata.nickOf_of_roster hself⟩
  ext v
  rw [Finset.mem_insert, Udata.mem_present_iff, Udata.mem_present_iff]
  by_cases hv : v = user
  · subst hv
    simp [hself]
  · rw [h, Function.update_of_ne hv]
    simp [hv]

theorem present_left (h : u'.room.roster = Function.update u.room.roster user none) :
    u'.present = u.present.erase user := by
  ext v
  rw [Finset.mem_erase, Udata.mem_present_iff, Udata.mem_present_iff, h]
  by_cases hv : v = user
  · subst hv
    simp
  · rw [Function.update_of_ne hv]
    simp [hv]

theorem present_same (h : u'.room.roster = u.room.roster) : u'.present = u.present := by
  ext v
  rw [Udata.mem_present_iff, Udata.mem_present_iff, h]

/-- The nicks of the others. -/
def Udata.otherNicks (u : Udata) (user : CString) : Nicks :=
  (u.present.erase user).val.map fun v => xstr (u.nickOf v)

theorem nicks_of_present (h : u.room.roster user = some nick) :
    u.nicks = xstr nick ::ₘ u.otherNicks user := by
  have hin : user ∈ u.present := by
    rw [Udata.mem_present_iff, h]
    simp
  rw [Udata.nicks_eq, ← Multiset.cons_erase (Finset.mem_val.mpr hin), Multiset.map_cons,
    Udata.nickOf_of_roster h, Udata.otherNicks, Finset.erase_val]

theorem nicks_of_absent (h : u.room.roster user = none) : u.nicks = u.otherNicks user := by
  have hout : user ∉ u.present := by
    rw [Udata.mem_present_iff, h]
    simp
  rw [Udata.nicks_eq, Udata.otherNicks, Finset.erase_eq_of_notMem hout]

/-- Rosters that differ in one user show the same nicks of the others. -/
theorem otherNicks_congr {line : Option (Option CString)}
    (h : u'.room.roster = Function.update u.room.roster user line) :
    u'.otherNicks user = u.otherNicks user := by
  have hother : ∀ v, v ≠ user → u'.room.roster v = u.room.roster v := by
    intro v hv
    rw [h, Function.update_of_ne hv]
  have hset : u'.present.erase user = u.present.erase user := by
    ext v
    rw [Finset.mem_erase, Finset.mem_erase, Udata.mem_present_iff, Udata.mem_present_iff]
    refine and_congr_right fun hv => ?_
    rw [hother v hv]
  rw [Udata.otherNicks, Udata.otherNicks, hset]
  refine Multiset.map_congr rfl fun v hv => ?_
  obtain ⟨hne, hmem⟩ := Finset.mem_erase.mp (Finset.mem_val.mp hv)
  obtain ⟨nick, hnick⟩ := Option.ne_none_iff_exists'.mp (Udata.mem_present_iff.mp hmem)
  rw [Udata.nickOf_of_roster hnick, Udata.nickOf_of_roster ((hother v hne).trans hnick)]

theorem nicks_same (h : u'.room.roster = u.room.roster) : u'.nicks = u.nicks := by
  rw [Udata.nicks_eq, Udata.nicks_eq, present_same h]
  refine Multiset.map_congr rfl fun v hv => ?_
  obtain ⟨nick, hnick⟩ :=
    Option.ne_none_iff_exists'.mp (Udata.mem_present_iff.mp (Finset.mem_val.mp hv))
  rw [Udata.nickOf_of_roster hnick, Udata.nickOf_of_roster (by rw [h, hnick])]

theorem foldl_plain {l : List NetCmd} (h : ∀ m ∈ l, m.Plain) (names : Nicks) :
    l.foldl Nicks.update names = names := by
  induction l with
  | nil => rfl
  | cons m l ih =>
      rw [List.foldl_cons, (h m List.mem_cons_self).update names]
      exact ih fun m' hm' => h m' (List.mem_cons_of_mem _ hm')

/-- **What is heard keeps a list of the nicks right.** -/
theorem Heard.nicks (h : Heard u u' out) (hstays : Stays u u' fd) :
    (sentTo fd out).foldl Nicks.update u.nicks = u'.nicks := by
  have hself : ∀ {user : CString} {line : Option (Option CString)},
      u'.room.roster = Function.update u.room.roster user line → u'.room.roster user = line := by
    intro user line hroster
    rw [hroster, Function.update_self]
  cases h with
  | plain hroster hout =>
      rw [nicks_same hroster]
      exact foldl_plain (fun m hm => hout fd m (mem_sentTo.mp hm)) _
  | entered hout hroster hsent =>
      rw [hsent fd hstays, List.foldl_cons, List.foldl_nil, update_entered, nicks_of_absent hout,
        nicks_of_present (hself hroster), otherNicks_congr hroster]
  | left hin hroster hm hsent =>
      rw [hsent fd hstays, List.foldl_cons, List.foldl_nil, update_left hm, nicks_of_present hin,
        Multiset.erase_cons_head, nicks_of_absent (hself hroster), otherNicks_congr hroster]
  | @renamed user new old hin hroster _ hsent =>
      have hmem : old.chars ∈ u.nicks := by
        rw [nicks_of_present hin]
        exact Multiset.mem_cons_self _ _
      rw [hsent fd hstays, List.foldl_cons, List.foldl_nil, update_renamed hmem,
        nicks_of_present hin, xstr_some, Multiset.erase_cons_head, nicks_of_present (hself hroster),
        xstr_some, otherNicks_congr hroster]

/-- **A change is told once to everybody who stays, and nothing else is told.** -/
theorem Heard.told (h : Heard u u' out)
    (hkept : ∀ v fd, u.room.Sits v fd → v ∈ u'.present → u'.room.Sits v fd) : Told u u' out := by
  have hstays : ∀ e ∈ u.ents, e.has udcFlagPresent → e.user ∈ u'.present → Stays u u' e.fd := by
    intro e he hpres hin
    have hsits : u.room.Sits e.user e.fd := ⟨e.seat, Udata.room_of_mem he, hpres, rfl⟩
    exact ⟨e.user, hsits, hkept e.user e.fd hsits hin⟩
  cases h with
  | plain hroster hout =>
      exact ⟨fun hne => absurd (present_same hroster) hne,
        fun _ fd m hm => (hout fd m hm).membership⟩
  | @entered user nick hout hroster hsent =>
      obtain ⟨hpresent, hnick⟩ := present_entered hroster
      have hnew : user ∉ u.present := by
        rw [Udata.mem_present_iff, hout]
        simp
      refine ⟨fun _ => ⟨doorMsg 1 nick, .entered hnew hpresent (by rw [hnick]), ?_⟩, ?_⟩
      · intro e he hpres hin
        rw [hsent e.fd (hstays e he hpres hin)]
        rfl
      · intro hsame
        rw [hpresent] at hsame
        exact absurd (Finset.insert_eq_self.mp hsame) hnew
  | @left user nick m hin hroster hm hsent =>
      have hpresent := present_left hroster
      have hmem : user ∈ u.present := by
        rw [Udata.mem_present_iff, hin]
        simp
      have hmsg : m.TellsLeft (xstr (u.nickOf user)) := by
        rw [Udata.nickOf_of_roster hin]
        exact hm
      refine ⟨fun _ => ⟨m, .left hmem hpresent hmsg, ?_⟩, ?_⟩
      · intro e he hpres hin
        rw [hsent e.fd (hstays e he hpres hin), List.filter_cons, membership_left hm]
        rfl
      · intro hsame
        rw [hpresent] at hsame
        exact absurd hmem (Finset.erase_eq_self.mp hsame)
  | @renamed user new old hin hroster hout hsent =>
      have hmem : user ∈ u.present := by
        rw [Udata.mem_present_iff, hin]
        simp
      have hsame : u'.present = u.present := by
        rw [(present_entered hroster).1, Finset.insert_eq_self.mpr hmem]
      refine ⟨fun hne => absurd hsame hne, fun _ fd m hm => ?_⟩
      rw [hout fd m hm]
      rfl

end

section

variable {mem : Memory} {hist : List ServerStep} {s s' : Server} {v : CString} {fd : Int}

/-- Who is in chat before and after an event has kept the connection. -/
theorem Turn.sits {ev : Event} {out : List Effect} (hs : s.Ok) (hturn : Turn mem s ev s' out)
    (hsits : s.udata.room.Sits v fd) (hin : v ∈ s'.udata.present) : s'.udata.room.Sits v fd := by
  obtain ⟨act_fd, act, hp, -, hroom, -⟩ := hturn.act hs
  obtain ⟨t, ht, hpres, htfd⟩ := hsits
  obtain ⟨e, he, hpres', rfl⟩ := Udata.mem_present.mp hin
  have hseat := Udata.room_of_mem he
  refine ⟨e.seat, hseat, hpres', ?_⟩
  rw [hroom] at hseat
  rcases Act.apply_present hseat hpres' with ⟨nick, rfl, -⟩ | ⟨t₀, ht₀, -, hfd⟩
  · exact absurd hpres (hp.2 t ht).2
  · rw [ht, Option.some.injEq] at ht₀
    rw [hfd, ← ht₀, htfd]

/-- Nobody takes out the user of somebody else in this step. -/
def ServerStep.LeavesOwn (st : ServerStep) : Prop :=
  ∀ i c env, st.ev = .netcmd i c env → ¬ st.pre.LeavesForeign i c

/-- A test for it. -/
def ServerStep.leavesOwn (st : ServerStep) : Bool :=
  st.commandIs fun i c => !c.leaves || st.pre.udata.ents.all fun e =>
    decide (e.fd = (st.pre.clients i).fd) || decide (c.doorUser ≠ some e.user)

theorem leavesOwn_of_test (h : hist.all ServerStep.leavesOwn = true) :
    ∀ st ∈ hist, st.LeavesOwn := by
  intro st hst i c env hev hforeign
  obtain ⟨-, hform, e, he, -, hfd, huser⟩ := hforeign
  have hown := List.all_eq_true.mp h st hst
  simp only [ServerStep.leavesOwn, ServerStep.commandIs, hev, hform, Bool.not_true, Bool.false_or, List.all_eq_true,
    Bool.or_eq_true, decide_eq_true_eq] at hown
  rcases hown e he with hsame | hother
  · exact hfd hsame
  · exact hother huser

/-- What is heard of the steps of a run. -/
theorem heard_run (h : Run (server mem) hist s) (hjoins : ∀ st ∈ hist, ¬ st.pre.JoinsTwice st.ev)
    (hleaves : ∀ st ∈ hist, st.LeavesOwn) : ∀ st ∈ hist,
      Heard st.pre.udata st.post.udata st.out ∧
        ∀ v fd, st.pre.udata.room.Sits v fd → v ∈ st.post.udata.present →
          st.post.udata.room.Sits v fd := by
  intro st hst
  obtain ⟨later, earlier, rfl⟩ := List.append_of_mem hst
  obtain ⟨hrun, hstep, -⟩ := h.split
  have hs := run_ok hrun
  have hseated := seated_run hrun fun st' hst' => hjoins st' (by simp [hst'])
  have hturn := step_turn hs hstep
  exact ⟨hturn.heard hs hseated (hjoins st hst) (hleaves st hst), fun v fd => hturn.sits hs⟩

/-- What was sent to a connection in some steps, oldest first. -/
def heardOn (fd : Int) (steps : List ServerStep) : List NetCmd :=
  steps.reverse.flatMap fun st => sentTo fd st.out

/-- Who stays in chat keeps a roster right, step by step. -/
theorem roster_kept {s₀ : Server} {steps : List ServerStep} (hx : Exec (server mem) s₀ steps s)
    (hheard : ∀ st ∈ steps, Heard st.pre.udata st.post.udata st.out ∧
      ∀ v fd, st.pre.udata.room.Sits v fd → v ∈ st.post.udata.present →
        st.post.udata.room.Sits v fd)
    (hsits : s₀.udata.room.Sits v fd) (hstays : ∀ st ∈ steps, v ∈ st.post.udata.present) :
    s.udata.room.Sits v fd ∧
      (heardOn fd steps).foldl Nicks.update s₀.udata.nicks = s.udata.nicks := by
  induction hx with
  | nil => exact ⟨hsits, rfl⟩
  | @snoc steps s s' ev out _ _ ih =>
      obtain ⟨hbefore, hnicks⟩ := ih (fun st hst => hheard st (List.mem_cons_of_mem _ hst))
        fun st hst => hstays st (List.mem_cons_of_mem _ hst)
      obtain ⟨hheard, hkept⟩ := hheard _ List.mem_cons_self
      have hafter := hkept v fd hbefore (hstays _ List.mem_cons_self)
      refine ⟨hafter, ?_⟩
      have hsplit : heardOn fd (⟨s, ev, s', out⟩ :: steps) = heardOn fd steps ++ sentTo fd out := by
        simp [heardOn]
      rw [hsplit, List.foldl_append, hnicks]
      exact hheard.nicks ⟨v, hbefore, hafter⟩

end

end Smsg
