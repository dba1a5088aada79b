/-
What the sidebar of a client is kept right by.

The names that are listed change with little that happens: somebody comes or goes, takes
another nick, steps away, or gets to be or ceases to be an operator.  All of that is told
by a message that makes a client ask for the list again, but for a ban.  `Refreshed` says
so of one event.
-/
import Smsg.Chatroom
import Smsg.Proofs.Departed
import Smsg.Proofs.Membership
import Smsg.Proofs.Posts
import Smsg.Proofs.Dispatch

namespace Smsg

open Machines

/-! ### Names -/

/-- The name of somebody on the seat, as it is listed. -/
def Seat.sayName (t : Seat CString) : Bytes :=
  (if t.has udcFlagAway then text "&" else []) ++
    (if t.has udcFlagOperator then text "@" else []) ++ xstr t.nick

/-- The name of a user in the room. -/
def Room.sayName (r : Room CString CString) (v : CString) : Option Bytes :=
  ((r v).filter fun t => t.has udcFlagPresent).map Seat.sayName

section

variable {u u' : Udata} {r r' : Room CString CString} {v : CString}

theorem Room.sayName_ne_none : r.sayName v ≠ none ↔ r.roster v ≠ none := by
  simp [Room.sayName, Room.roster]

/-- The names, user by user. -/
theorem Udata.sayNames_eq (u : Udata) :
    u.sayNames = u.present.val.map fun v => (u.room.sayName v).getD [] := by
  have hnodup : (u.chatting.map (·.user)).Nodup := u.nodup.sublist (List.filter_sublist.map _)
  have hpresent : u.present.val = Multiset.ofList (u.chatting.map (·.user)) := by
    rw [Udata.present, List.toFinset_val]
    exact congrArg Multiset.ofList (List.dedup_eq_self.mpr hnodup)
  rw [hpresent, Multiset.map_coe, List.map_map, Udata.sayNames]
  refine congrArg Multiset.ofList (List.map_congr_left fun e he => ?_)
  obtain ⟨hmem, hpres⟩ := List.mem_filter.mp he
  have hseat : u.room e.user = some e.seat := Udata.room_of_mem hmem
  have hhere : e.seat.has udcFlagPresent = true := hpres
  simp only [Function.comp, Room.sayName, hseat, Option.filter_some, hhere, if_true,
    Option.map_some, Option.getD_some]
  rfl

theorem Udata.sayNames_congr (h : ∀ v, u'.room.sayName v = u.room.sayName v) :
    u'.sayNames = u.sayNames := by
  have hpresent : u'.present = u.present := by
    refine Finset.ext fun v => ?_
    rw [Udata.mem_present_iff, Udata.mem_present_iff, ← Room.sayName_ne_none,
      ← Room.sayName_ne_none, h]
  rw [Udata.sayNames_eq, Udata.sayNames_eq, hpresent]
  exact Multiset.map_congr rfl fun v _ => by rw [h]

theorem Room.sayName_enrol (h : r v = none) (w : CString) :
    (r.set v .unused).sayName w = r.sayName w := by
  by_cases hw : w = v
  · subst hw
    simp [Room.sayName, h, Seat.unused, Seat.has]
  · simp [Room.sayName, hw]

/-- A ban that is lifted is not seen. -/
theorem Room.sayName_unban (r : Room CString CString) (v w : CString) :
    (r.modify v (·.mapFlags (clearFlags udcFlagBanned))).sayName w = r.sayName w := by
  have hflag : ∀ (t : Seat CString) {b : Flags}, ~~~udcFlagBanned &&& b = b →
      (t.mapFlags (clearFlags udcFlagBanned)).has b = t.has b := by
    intro t b hb
    rw [Seat.has, Seat.mapFlags_flags, clearFlags, BitVec.and_assoc, hb, Seat.has]
  by_cases hw : w = v
  · subst hw
    cases hr : r w with
    | none => simp [Room.sayName, hr]
    | some t =>
        have hpres := hflag t (show ~~~udcFlagBanned &&& udcFlagPresent = udcFlagPresent by decide)
        have hname : (t.mapFlags (clearFlags udcFlagBanned)).sayName = t.sayName := by
          rw [Seat.sayName, hflag t (by decide), hflag t (by decide)]
          rfl
        simp only [Room.sayName, Room.modify_self, hr, Option.map_some, Option.filter_some, hpres]
        split
        · rw [Option.map_some, Option.map_some, hname]
        · rfl
  · simp [Room.sayName, hw]

end

/-! ### What is noticed of an event -/

/-- The names are as they were, or those who stay are told by a message that makes them ask. -/
inductive Refreshed (u u' : Udata) (out : List Effect) : Prop
  | same (hnames : u'.sayNames = u.sayNames)
  | told (hsent : ∀ fd, Stays u u' fd → ∃ m, sentTo fd out = [m] ∧ reqWho m.op = true)

section

variable {mem : Memory} {hist : List ServerStep} {s s' : Server} {i j : Slot} {c : NetCmd}
  {env : Env} {ev : Event} {out : List Effect} {o : Outcome} {act : Act CString CString}
  {v : CString} {fd : Int}

/-- Nobody is in chat on the connection in the slot. -/
def Server.NobodyOn (s : Server) (i : Slot) : Prop := s.udata.udataGetByFd (s.clients i).fd = none

/-- Commands as those send them who are in chat with this client, and those who are not:
nobody joins twice, leaves for somebody else, or bans. -/
structure Server.Mannered (s : Server) (ev : Event) : Prop where
  joins : ∀ i c env, ev = .netcmd i c env → c.op = .chatdoor → c.leaves = false → s.NobodyOn i
  leaves : ∀ i c env, ev = .netcmd i c env → ¬ s.LeavesForeign i c
  bans : ∀ i c env, ev = .netcmd i c env → c.op = .cBan → s.NobodyOn i

theorem Server.Mannered.apart (h : s.Mannered ev) : ¬ s.JoinsTwice ev := by
  intro htwice
  obtain ⟨i, c, env, user, nick, hev, hj, hused⟩ := htwice
  exact hused (h.joins i c env hev hj.op hj.form)

/-- What good manners are for a command. -/
theorem mannered_netcmd (hjoin : c.op = .chatdoor → c.leaves = false → s.NobodyOn i)
    (hleave : ¬ s.LeavesForeign i c) (hban : c.op = .cBan → s.NobodyOn i) : s.Mannered (.netcmd i c env) where
  joins := by
    rintro k c' env' ⟨⟩
    exact hjoin
  leaves := by
    rintro k c' env' ⟨⟩
    exact hleave
  bans := by
    rintro k c' env' ⟨⟩
    exact hban

theorem mannered_of_not_netcmd (h : ∀ i c env, ev ≠ .netcmd i c env) : s.Mannered ev where
  joins i c env hev := absurd hev (h i c env)
  leaves i c env hev := absurd hev (h i c env)
  bans i c env hev := absurd hev (h i c env)

/-- **What is noticed of a command.** -/
theorem Does.refreshed (hs : s.Ok) (hseated : Seated hist s)
    (hmann : s.Mannered (.netcmd i c env)) (h : Does (s.call i c env) o act) :
    Refreshed s.udata o.udata o.effects := by
  obtain ⟨hdeed, hroom⟩ := h
  have hroom' : o.udata.room = act.apply (s.clients i).fd s.udata.room := hroom
  have hack : ∀ {fd}, fd ≠ (s.clients i).fd →
      sentTo fd [(s.call i c env).reply (.set .ack)] = [] := by
    intro fd hne
    rw [Call.reply, sentTo_send]
    exact if_neg fun h => hne h.symm
  have hdist : ∀ {msg : NetCmd}, reqWho msg.op = true →
      o.effects = lcsDistNcmd s.clients o.udata msg none →
      Refreshed s.udata o.udata o.effects := by
    intro msg hmsg heff
    refine .told fun fd hstays => ⟨msg, ?_, hmsg⟩
    obtain ⟨v, hbefore, hafter⟩ := hstays
    rw [heff]
    exact hseated.sentTo_sits hs (by decide) _ hbefore hafter (by simp)
  cases hdeed with
  | idle => exact .same (Udata.sayNames_congr fun v => by rw [hroom']; rfl)
  | enrol hnew =>
      refine .same (Udata.sayNames_congr fun v => ?_)
      rw [hroom']
      exact Room.sayName_enrol hnew v
  | @join user anick nick hj _ _ heff =>
      refine .told fun fd hstays => ⟨doorMsg 1 nick, ?_, rfl⟩
      obtain ⟨v, hbefore, hafter⟩ := hstays
      have hne : fd ≠ (s.clients i).fd := by
        intro hsame
        obtain ⟨t, ht, hpres, htfd⟩ := hbefore
        exact udataGetByFd_of_seat ht hpres (htfd.trans hsame)
          (hmann.joins i c env rfl hj.op hj.form)
      rw [heff]
      exact hseated.sentTo_others hs _ hbefore hafter hne (hack hne)
  | @leave user t more hl _ heff =>
      refine .told fun fd hstays => ⟨⟨.cDoor, [0] :: xstr t.nick :: more⟩, ?_, rfl⟩
      obtain ⟨v, hbefore, hafter⟩ := hstays
      have hne : v ≠ user := by
        intro hv
        obtain ⟨t', ht', hpres', -⟩ := hafter
        rw [hroom, hv] at ht'
        exact Act.apply_left (Or.inl rfl) ht' hpres'
      have hfd' := hl.alone hseated.apart (hmann.leaves i c env rfl) hbefore hne
      rw [heff]
      exact hseated.sentTo_others hs _ hbefore hbefore hfd' (hack hfd')
  | rename _ _ _ _ _ _ heff => exact hdist rfl heff
  | away _ _ _ heff => exact hdist rfl heff
  | oper _ _ _ _ heff => exact hdist rfl heff
  | @mode e t tnick _ hse _ _ _ hact _ heff =>
      have hop : c.op ≠ .cBan := by
        intro hban
        have hnobody : s.udata.udataGetByFd (s.clients i).fd = none :=
          hmann.bans i c env rfl hban
        have hsender : s.udata.udataGetByFd (s.clients i).fd = some e := hse
        rw [hnobody] at hsender
        simp at hsender
      have hact' : modeAct c.op t.user = some act := hact
      have heff' : o.effects = lcsDistNcmd s.clients o.udata ⟨c.op, [xstr t.nick, tnick.chars]⟩
        none := heff
      cases hcop : c.op <;> rw [hcop] at hact' heff' hop <;>
        simp only [modeAct, reduceCtorEq, Option.some.injEq] at hact' <;> subst hact'
      case cBan => exact absurd rfl hop
      case cUnban =>
        refine .same (Udata.sayNames_congr fun v => ?_)
        rw [hroom']
        exact Room.sayName_unban s.udata.room t.user v
      case cDeop => exact hdist rfl heff'
      case cKick => exact hdist rfl heff'
      case cOp => exact hdist rfl heff'

/-- **What is noticed of an event.** -/
theorem Turn.refreshed (hs : s.Ok) (hseated : Seated hist s) (hturn : Turn mem s ev s' out)
    (hmann : s.Mannered ev) : Refreshed s.udata s'.udata out := by
  cases hturn with
  | refused => exact .same rfl
  | accepted => exact .same (by rw [Server.accept_udata])
  | recvError => exact .same rfl
  | closed => exact .same rfl
  | @hungUp k alloc e hlive hent =>
      obtain ⟨hmem, hefd, hepres⟩ := Udata.udataGetByFd_some hent
      refine .told fun fd hstays => ⟨(doorMsg 0 e.nick).add errorChatPeerclose, ?_, rfl⟩
      obtain ⟨v, hbefore, hafter⟩ := hstays
      have hne : fd ≠ (s.clients k).fd := by
        intro hfd
        obtain ⟨t, ht, hpres, htfd⟩ := hbefore
        have hv : v = e.user := hseated.apart v e.user t e.seat ht (Udata.room_of_mem hmem) hpres
          hepres (by rw [htfd, hfd, UdataEnt.seat_fd, hefd])
        obtain ⟨t', ht', hpres', -⟩ := hafter
        have hleft : (Act.leave e.user).apply (s.clients k).fd s.udata.room e.user = some t' := by
          rw [← room_hungUp alloc hent]
          rw [hv] at ht'
          exact ht'
        exact Act.apply_left (Or.inl rfl) hleft hpres'
      exact hseated.sentTo_others hs _ hbefore hbefore hne rfl
  | @netcmd k c env o act hlive hmem hcall hdoes =>
      rw [Server.settle_udata]
      cases hdoes.refreshed hs hseated hmann with
      | same hnames => exact .same hnames
      | told hsent => exact .told fun fd h => by rw [sentTo_settle]; exact hsent fd h

/-! ### Who is on a connection -/

/-- A connection that stays open is the one it was. -/
theorem Turn.client_kept (hturn : Turn mem s ev s' out) (hj : s.live j) (hj' : s'.live j) :
    s'.clients j = s.clients j := by
  cases hturn with
  | refused => rfl
  | recvError => rfl
  | @accepted newfd peer k hfresh hslot =>
      have hne : j ≠ k := by
        intro hjk
        rw [hjk] at hj
        exact Server.not_live_acceptSlot hslot hj
      rw [Server.accept_clients hslot, if_neg hne]
  | closed => exact Server.closeSlot_ne _ ((Server.live_closeSlot_iff _ _ j).mp hj').1
  | hungUp => exact Server.closeSlot_ne _ ((Server.live_closeSlot_iff _ _ j).mp hj').1
  | netcmd => exact Server.settle_client s hj'

/-- Who is not taken out of the chat stays on the connection. -/
theorem Turn.sits_unless (hs : s.Ok) (hturn : Turn mem s ev s' out) {act : Act CString CString}
    {actfd : Int} (hp : act.permits actfd s.udata.room)
    (hroom : s'.udata.room = act.apply actfd s.udata.room) (hact : act.removes ≠ some v)
    (hsits : s.udata.room.Sits v fd) : s'.udata.room.Sits v fd := by
  have hin : s.udata.room.roster v ≠ none := by
    obtain ⟨t, ht, hpres, -⟩ := hsits
    rw [Room.roster_some ht hpres]
    simp
  have hroster : act.onRoster s.udata.room.roster v ≠ none := by
    cases act with
    | join user nick => by_cases hv : v = user <;> simp [Act.onRoster, hv, hin]
    | rename user nick => by_cases hv : v = user <;> simp [Act.onRoster, hv, hin]
    | leave user | kick user | ban user =>
        have hv : v ≠ user := fun hv => hact (by rw [hv]; rfl)
        simp [Act.onRoster, hv, hin]
    | _ => exact hin
  refine hturn.sits hs hsits (Udata.mem_present_iff.mpr ?_)
  rw [hroom, roster_apply hp]
  exact hroster

/-- Who is taken out by a command leaves, or is thrown out. -/
theorem Deed.takes {x : Call} (h : Deed x o act) (hact : act.removes = some v) :
    (∃ t, x.Leaves v t) ∨
      ∃ t, x.Target t ∧ t.user = v ∧ o.retval = kickSlot x.clients t.fd := by
  cases h with
  | leave hl =>
      obtain rfl := Option.some.inj hact
      exact Or.inl ⟨_, hl⟩
  | @mode e t tnick _ _ _ _ ht hmode hret =>
      have hthrown : (x.cmd.op = .cBan ∨ x.cmd.op = .cKick) ∧ t.user = v := by
        cases hop : x.cmd.op <;> rw [hop] at hmode <;>
          simp only [modeAct, reduceCtorEq, Option.some.injEq] at hmode <;>
          subst hmode <;> simp_all [Act.removes]
      refine Or.inr ⟨t, ht, hthrown.2, ?_⟩
      rw [hret, if_pos hthrown.1]
  | _ => simp [Act.removes] at hact

/-- A kick closes the connection of who is kicked out. -/
theorem kicked_closes (hs : s.Ok) {t : UdataEnt} (hret : o.retval = kickSlot s.clients t.fd)
    (hj : s.live j) (hfd : (s.clients j).fd = t.fd) : ¬ (s.settle o).1.live j := by
  intro hj'
  refine ((Server.live_settle_iff s o j).mp hj').1 ?_
  rw [hret]
  cases hk : Server.kicked (kickSlot s.clients t.fd) with
  | none =>
      rw [Server.kicked_kickSlot, List.find?_eq_none] at hk
      exact absurd (beq_iff_eq.mpr hfd) (hk j (List.mem_finRange j))
  | some r =>
      have hr : (s.clients r).fd = (s.clients j).fd := (Server.kicked_kickSlot_some hk).trans hfd.symm
      rw [hs.eq_of_fd hj hr]

/-- **With good manners, who is on a connection stays on it while it is open.** -/
theorem Turn.stays (hs : s.Ok) (hturn : Turn mem s ev s' out)
    (hmann : s.Mannered ev) (hj : s.live j) (hj' : s'.live j)
    (hown : ∀ c env, ev = .netcmd j c env → c.op ≠ .chatdoor)
    (hsits : s.udata.room.Sits v (s.clients j).fd) : s'.udata.room.Sits v (s.clients j).fd := by
  have hkept : s'.udata = s.udata → s'.udata.room.Sits v (s.clients j).fd := by
    intro h
    rw [h]
    exact hsits
  -- whoever has the descriptor of the slot is the one that sits there
  have hsame : ∀ {e : UdataEnt}, e ∈ s.udata.ents → e.has udcFlagPresent = true →
      e.user = v → e.fd = (s.clients j).fd := by
    intro e he hpres hv
    obtain ⟨t, ht, htpres, htfd⟩ := hsits
    rw [← hv, Udata.room_of_mem he, Option.some.injEq] at ht
    rw [← htfd, ← ht]
    rfl
  cases hturn with
  | refused => exact hkept rfl
  | recvError => exact hkept rfl
  | closed => exact hkept rfl
  | accepted => exact hkept (Server.accept_udata _ _ _)
  | @hungUp k alloc e hlive hent =>
      obtain ⟨hmem, hefd, hepres⟩ := Udata.udataGetByFd_some hent
      have hne : e.user ≠ v := by
        intro hv
        have hkj : k = j := hs.eq_of_fd hj (hefd.symm.trans (hsame hmem hepres hv))
        rw [hkj] at hj'
        exact Server.not_live_closeSlot _ j hj'
      have hleft : Turn mem s (.closed k alloc) _ _ := .hungUp hlive hent
      have hnot : (Act.leave e.user : Act CString CString).removes ≠ some v := fun hv => hne (Option.some.inj hv)
      refine Turn.sits_unless hs hleft ?_ (room_hungUp alloc hent) hnot hsits
      obtain ⟨t, ht, hpres, -⟩ := Udata.udataGetByFd_sits hent
      exact ⟨t, ht, hpres⟩
  | @netcmd k c env o act hlive hmem hcall hdoes =>
      refine Turn.sits_unless hs (.netcmd hlive hmem hcall hdoes)
        (hdoes.1.permits (le_of_lt (hs.fd_pos hlive))) hdoes.2 ?_ hsits
      intro hact
      rcases hdoes.1.takes hact with ⟨t, hl⟩ | ⟨t, ht, hv, hret⟩
      · obtain ⟨e, he, heuser, rfl⟩ := Udata.room_iff.mp hl.seat
        have hkj : k = j := by
          by_contra hne
          refine hmann.leaves k c env rfl ⟨hl.op, hl.form, e, he, hl.present, ?_, ?_⟩
          · intro hfd
            exact hne (hs.eq_of_fd hj (hfd.symm.trans (hsame he hl.present heuser)))
          · rw [heuser]
            exact hl.named
        subst hkj
        exact hown c env rfl hl.op
      · obtain ⟨hmem', -, -, -, hpres⟩ := Udata.udataGetByNick_some ht
        exact kicked_closes hs hret hj (hsame hmem' hpres hv).symm hj'

/-- Nobody is in chat on a connection that nobody joins on. -/
theorem Turn.nobody (hs : s.Ok) (hseated : Seated hist s) (hturn : Turn mem s ev s' out)
    (hnobody : s.NobodyOn j)
    (hown : ∀ c env v anick, ev = .netcmd j c env → ¬ (s.call j c env).Joins v anick) :
    s'.NobodyOn j := by
  refine Udata.udataGetByFd_nobody fun e he hpres hfd => ?_
  rcases hturn.on_cases hs hseated (Udata.room_of_mem he) hpres hfd with hold | hnew
  · obtain ⟨t, ht, hpres, htfd, -⟩ := hold
    exact udataGetByFd_of_seat ht hpres htfd hnobody
  · obtain ⟨c, env, anick, hev, hjoin⟩ := hnew
    exact hown c env _ anick hev hjoin

/-! ### What the sidebar is sent -/

theorem sidebarKind_plain {m : NetCmd} (hop : m.op ≠ .cWho) :
    sidebarKind m = if reqWho m.op then .stale else .other := by
  unfold sidebarKind
  split
  · rfl
  · rw [if_neg fun h => hop h.1]

/-- **A change of the names is told to the sidebar of everybody who stays.** -/
theorem Refreshed.sidebar {u u' : Udata} (h : Refreshed u u' out) (hstays : Stays u u' fd)
    (hlists : ∀ m ∈ sentTo fd out, m.op ≠ .cWho) :
    .stale ∈ (sentTo fd out).map sidebarKind ∨
      (u'.sayNames = u.sayNames ∧ ∀ k ∈ (sentTo fd out).map sidebarKind, k.Keeps u.sayNames) := by
  by_cases hstale : ∃ m ∈ sentTo fd out, reqWho m.op = true
  · obtain ⟨m, hm, hreq⟩ := hstale
    refine Or.inl (List.mem_map.mpr ⟨m, hm, ?_⟩)
    rw [sidebarKind, if_pos hreq]
  · right
    cases h with
    | same hnames =>
        refine ⟨hnames, fun k hk => ?_⟩
        obtain ⟨m, hm, rfl⟩ := List.mem_map.mp hk
        rw [sidebarKind_plain (hlists m hm), if_neg fun hreq => hstale ⟨m, hm, hreq⟩]
        exact Or.inl rfl
    | told hsent =>
        obtain ⟨m, hm, hreq⟩ := hsent fd hstays
        exact absurd ⟨m, by rw [hm]; exact List.mem_singleton_self m, hreq⟩ hstale

/-- A list goes to who has asked for one. -/
theorem Turn.lists (hs : s.Ok) (hturn : Turn mem s ev s' out) {m : NetCmd}
    (hm : m ∈ sentTo (s.clients j).fd out) (hop : m.op = .cWho) :
    ∃ c env, ev = .netcmd j c env ∧ c.op = .cWho := by
  cases hturn with
  | hungUp hlive hent =>
      rw [sentTo_append, List.mem_append] at hm
      rcases hm with hm | hm
      · obtain ⟨fd, hsend⟩ := mem_distribute (mem_sentTo.mp hm)
        rw [(Effect.send.inj hsend).2] at hop
        cases hop
      · simp [sentTo] at hm
  | @netcmd i c env o act hlive hmem hcall hdoes =>
      rw [sentTo_settle, mem_sentTo] at hm
      have hpos : 0 ≤ (s.call i c env).fd := le_of_lt (hs.fd_pos hlive)
      obtain ⟨hfd, hask⟩ := (post_lsHandleNetcmd hpos hcall).who hm hop
      obtain rfl : j = i := hs.eq_of_fd hlive hfd
      exact ⟨c, env, rfl, hask⟩
  | _ => simp [sentTo] at hm

/-- Who is not in chat is sent nothing because of somebody else. -/
theorem Turn.outside (hs : s.Ok) (hturn : Turn mem s ev s' out)
    (hbefore : s.NobodyOn j) (hafter : s'.udata.udataGetByFd (s.clients j).fd = none)
    (hother : ∀ c env, ev ≠ .netcmd j c env) : sentTo (s.clients j).fd out = [] := by
  cases hturn with
  | hungUp hlive hent =>
      rw [sentTo_append, sentTo_distribute_none _ _ _ _ hbefore]
      rfl
  | @netcmd i c env o act hlive hmem hcall hdoes =>
      have hpos : 0 ≤ (s.call i c env).fd := le_of_lt (hs.fd_pos hlive)
      rw [sentTo_settle]
      refine (post_lsHandleNetcmd hpos hcall).outside ?_ hbefore hafter
      intro hfd
      rw [hs.eq_of_fd hlive hfd] at hother
      exact hother c env rfl
  | _ => simp [sentTo]

/-! ### The list -/

/-- A request for a list as this client sends it. -/
def NetCmd.ListAsked (c : NetCmd) : Prop :=
  c.op = .cWho ∧ (c.args = [] ∨ ∃ b : UInt8, c.args = [[b]] ∧ b < 3)

theorem length_flatMap_even {α β : Type*} {f : α → List β} (l : List α)
    (hf : ∀ a, (f a).length = 2) : (l.flatMap f).length % 2 = 0 := by
  induction l with
  | nil => rfl
  | cons a l ih =>
      rw [List.flatMap_cons, List.length_append, hf]
      omega

/-- A listing is made of pairs. -/
theorem length_listed (x : Call) (t : Int) : (x.listed t).length % 2 = 0 := by
  have hsys : (x.sysList t).length % 2 = 0 := by
    unfold Call.sysList
    split
    · rfl
    · exact length_flatMap_even _ fun l => rfl
  have hchat : (x.chatList (whoTag t)).length % 2 = 0 := length_flatMap_even _ fun p => rfl
  unfold Call.listed
  rw [List.length_append]
  split
  · split
    · omega
    · simpa using hchat
  · split
    · simpa using hsys
    · rfl

/-- The list of the chat is what the sidebar is filled with. -/
theorem sidebarKind_list {head : List Bytes} (hhead : head = [] ∨ head = [[0]])
    (clients : Slot → Client) (l : List (UdataEnt × Slot)) :
    sidebarKind ⟨.cWho, head ++ l.flatMap (whoPair clients)⟩
      = .fresh (Multiset.ofList (l.map fun p => p.1.sayName)) := by
  have hlen : head.length ≤ 1 := by
    rcases hhead with rfl | rfl <;> simp
  have hfirst := whoFirst_pairs hlen clients l
  have htype : whoItype ⟨.cWho, head ++ l.flatMap (whoPair clients)⟩ = 0 := by
    rw [whoItype, hfirst]
    rcases hhead with rfl | rfl <;> rfl
  rw [sidebarKind, if_neg (by simp [reqWho]), if_pos ⟨rfl, htype⟩, hfirst, List.drop_left,
    whoNames_pairs]

/-- The other lists are not. -/
theorem sidebarKind_other {b : UInt8} (hb : b = 1 ∨ b = 2) {l : List Bytes}
    (hl : l.length % 2 = 0) : sidebarKind ⟨.cWho, [b] :: l⟩ = .other := by
  have hfirst : whoFirst ⟨.cWho, [b] :: l⟩ = 1 := by
    simp only [whoFirst, NetCmd.getnumargs, List.length_cons]
    omega
  have htype : whoItype ⟨.cWho, [b] :: l⟩ ≠ 0 := by
    rw [whoItype, hfirst]
    rcases hb with rfl | rfl
    · exact (by decide : (1 : Int) ≠ 0)
    · exact (by decide : (2 : Int) ≠ 0)
  rw [sidebarKind, if_neg (by simp [reqWho]), if_neg fun h => htype h.2]

/-- **What comes back for it to somebody in chat.** -/
theorem Turn.listed (hs : s.Ok) (hseated : Seated hist s)
    (hturn : Turn mem s (.netcmd j c env) s' out)
    (hnicks : ∀ e ∈ s.udata.ents, e.has udcFlagPresent → e.nick ≠ none)
    (hin : ¬ s.NobodyOn j) (hask : c.ListAsked) :
    s'.udata = s.udata ∧ ∃ m, sentTo (s.clients j).fd out = [m] ∧
      (c.AsksChat → sidebarKind m = .fresh s.udata.sayNames) ∧
      (¬ c.AsksChat → sidebarKind m = .other) := by
  obtain ⟨hop, hargs⟩ := hask
  cases hturn with
  | @netcmd _ _ _ o act hlive hmem hcall hdoes =>
      have hgate : (s.call j c env).WhoGate := by
        obtain ⟨e, he⟩ := Option.ne_none_iff_exists'.mp hin
        refine Or.inr ?_
        rw [Call.inChat, show (s.call j c env).udata.udataGetByFd (s.call j c env).fd = some e from he]
        exact (Udata.udataGetByFd_some he).2.2
      have hgoers : ∀ p ∈ (s.call j c env).goers, p.1.nick ≠ none := by
        intro p hp
        obtain ⟨k, -, hat⟩ := List.mem_filterMap.mp hp
        obtain ⟨he, -, hpres⟩ := Udata.udataGetByFd_some (whoAt_some hat).1
        exact hnicks p.1 he hpres
      rw [((lsHandleNetcmd_who (x := s.call j c env) hop).1 hgate),
        chatWho_listed fun h => h.2.elim fun p hp => hgoers p hp.1 hp.2] at hcall
      obtain rfl := Except.ok.inj hcall
      refine ⟨Server.settle_udata _ _, ⟨.cWho, (s.call j c env).echo ++
        (s.call j c env).listed (whoType (s.call j c env))⟩, ?_, ?_⟩
      · rw [sentTo_settle]
        show sentTo (s.call j c env).fd ((s.call j c env).whoPast ++ [_]) = _
        rw [sentTo_append, sentTo_past, List.nil_append]
        exact sentTo_reply _ _
      · have hlists := goes_slots hs (seated_iff_bound.mp hseated)
        have hfresh : whoType (s.call j c env) = 0 →
            (s.call j c env).echo = [] ∨ (s.call j c env).echo = [[0]] →
            sidebarKind ⟨.cWho, (s.call j c env).echo ++
              (s.call j c env).listed (whoType (s.call j c env))⟩ = .fresh s.udata.sayNames := by
          intro htype hecho
          have hnames : s.udata.sayNames = Multiset.ofList
              ((s.call j c env).goers.map fun p => p.1.sayName) := by
            have hperm := hlists.once.map (·.sayName)
            rw [List.map_map] at hperm
            exact (Multiset.coe_eq_coe.mpr hperm).symm
          rw [htype, listed_zero, hnames]
          exact sidebarKind_list hecho _ _
        rcases hargs with hargs | ⟨b, hargs, hb⟩
        · have hbyte : whoByte (s.call j c env) = none := by
            rw [whoByte, show (s.call j c env).cmd.args = [] from hargs]
            rfl
          refine ⟨fun _ => hfresh (whoType_none hbyte) (Or.inl ?_), fun hno => ?_⟩
          · rw [Call.echo, hbyte]
            rfl
          · exact absurd ⟨hop, Or.inl hargs⟩ hno
        · have hbyte : whoByte (s.call j c env) = some b := by
            rw [whoByte, show (s.call j c env).cmd.args = [[b]] from hargs]
            rfl
          have hecho : (s.call j c env).echo = [[b]] := by
            rw [Call.echo, hbyte]
            rfl
          have hcases : b = 0 ∨ b = 1 ∨ b = 2 := by
            have hlt : b.toNat < 3 := hb
            have h012 : b.toNat = 0 ∨ b.toNat = 1 ∨ b.toNat = 2 := by omega
            rcases h012 with h | h | h
            · exact Or.inl (UInt8.toNat_inj.mp h)
            · exact Or.inr (Or.inl (UInt8.toNat_inj.mp h))
            · exact Or.inr (Or.inr (UInt8.toNat_inj.mp h))
          rcases hcases with rfl | hb12
          · have htype : whoType (s.call j c env) = 0 := by rw [whoType, hbyte]; rfl
            refine ⟨fun _ => hfresh htype (Or.inr hecho), fun hno => ?_⟩
            exact absurd ⟨hop, Or.inr hargs⟩ hno
          · refine ⟨fun hasks => ?_, fun _ => ?_⟩
            · rcases hasks.2 with hnil | hzero
              · rw [hargs] at hnil
                simp at hnil
              · rw [hargs] at hzero
                rcases hb12 with rfl | rfl <;> simp at hzero
            · rw [hecho]
              exact sidebarKind_other hb12 (length_listed _ _)

end

end Smsg
