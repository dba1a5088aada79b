/-
What a client makes of what it is sent.

A client tells what concerns itself by comparing nicks with its own copy.  That works,
for a message about a change goes to everybody in chat at the moment of the change, and
as nicks are unique then, it is taken by the user it is about and by no other: whoever
had what the server has stored has it again after reading (`Turn.follows`).
-/
import Smsg.Chatter
import Smsg.Proofs.Delivery

namespace Smsg

open Machines

/-! ### The handlers of the client -/

/-- The flags that a client keeps. -/
def chatBits : Flags := udcFlagAway ||| udcFlagOperator

/-- A client has what the server has stored. -/
def Agrees (d : Identity) (t : Seat CString) : Prop :=
  t.nick = some d.nick ∧ d.flags &&& chatBits = t.flags &&& chatBits

theorem setFlags_bits {f g : Flags} (b : Flags) (h : f &&& chatBits = g &&& chatBits) :
    setFlags b f &&& chatBits = setFlags b g &&& chatBits := by
  rw [setFlags, setFlags, BitVec.and_or_distrib_right, BitVec.and_or_distrib_right, h]

theorem clearFlags_bits {f g : Flags} (b : Flags) (h : f &&& chatBits = g &&& chatBits) :
    clearFlags b f &&& chatBits = clearFlags b g &&& chatBits := by
  rw [clearFlags, clearFlags, BitVec.and_assoc, BitVec.and_assoc, BitVec.and_comm (~~~b),
    ← BitVec.and_assoc, ← BitVec.and_assoc, h]

/-- The commands that change who somebody is. -/
def identityOps : List NCMDOp := [.cAway, .cOper, .cNick, .cDeop, .cOp]

theorem handle_plain (d : Identity) {m : NetCmd} (h : m.op ∉ identityOps) :
    d.handle m = some d := by
  unfold Identity.handle
  dsimp only
  split
  case h_6 => rfl
  all_goals
    rename_i hop
    rw [show m.op = _ from hop] at h
    simp [identityOps] at h

theorem str_arg (s : CString) : (Arg.blk (s.chars ++ [0])).str = some s := by
  rw [Arg.str_blk, cstr_terminated]

theorem handle_away (d : Identity) (b : UInt8) (who : CString) (more : List Bytes) :
    d.handle ⟨.cAway, [b] :: who.chars :: more⟩ = some (if who = d.nick then
      { d with flags := if b = 0 then clearFlags udcFlagAway d.flags
                        else setFlags udcFlagAway d.flags } else d) := by
  simp only [Identity.handle, NetCmd.get, NetCmd.fetch, List.getElem?_cons_zero,
    List.getElem?_cons_succ, str_arg]
  rfl

theorem handle_oper (d : Identity) (who : CString) : d.handle ⟨.cOper, [who.chars]⟩
    = some (if who = d.nick then { d with flags := setFlags udcFlagOperator d.flags } else d) := by
  simp only [Identity.handle, NetCmd.get, NetCmd.fetch, List.getElem?_cons_zero, str_arg]
  rfl

theorem handle_nick (d : Identity) (new who : CString) :
    d.handle ⟨.cNick, [new.chars, who.chars]⟩
      = some (if who = d.nick then { d with nick := new } else d) := by
  simp only [Identity.handle, NetCmd.get, NetCmd.fetch, List.getElem?_cons_zero,
    List.getElem?_cons_succ, str_arg]
  rfl

theorem handle_deop (d : Identity) (who tnick : CString) :
    d.handle ⟨.cDeop, [who.chars, tnick.chars]⟩ = some (if who = d.nick then
      { d with flags := clearFlags udcFlagOperator d.flags } else d) := by
  simp only [Identity.handle, NetCmd.get, NetCmd.fetch, List.getElem?_cons_zero, str_arg]
  rfl

theorem handle_op (d : Identity) (who tnick : CString) :
    d.handle ⟨.cOp, [who.chars, tnick.chars]⟩ = some (if who = d.nick then
      { d with flags := setFlags udcFlagOperator d.flags } else d) := by
  simp only [Identity.handle, NetCmd.get, NetCmd.fetch, List.getElem?_cons_zero, str_arg]
  rfl

theorem handleAll_append (l₁ l₂ : List NetCmd) (d : Identity) :
    d.handleAll (l₁ ++ l₂) = (d.handleAll l₁).bind (Identity.handleAll l₂) :=
  List.foldlM_append

theorem handleAll_single (m : NetCmd) (d : Identity) : d.handleAll [m] = d.handle m := by
  simp [Identity.handleAll]

theorem handleAll_idle {d : Identity} {l : List NetCmd} (h : ∀ m ∈ l, d.handle m = some d) :
    d.handleAll l = some d := by
  induction l with
  | nil => rfl
  | cons m l ih =>
      rw [Identity.handleAll, List.foldlM_cons, h m List.mem_cons_self]
      exact ih fun m' hm' => h m' (List.mem_cons_of_mem _ hm')

/-! ### What one command sends to a client -/

section

variable {s : Server} {i j : Slot} {c : NetCmd} {env : Env} {o : Outcome}
  {act : Act CString CString} {v : CString} {t t' : Seat CString} {d : Identity}

/-- Whose nick it is. -/
theorem nick_iff {r : Room CString CString} (hr : r.NicksUnique) (ht : r v = some t)
    (hpres : t.present) (hd : Agrees d t) {w who : CString} {u : Seat CString}
    (hu : r w = some u) (hupres : u.present) (hwho : u.nick = some who) :
    who = d.nick ↔ v = w := by
  constructor
  · intro h
    exact hr.unique v w t u ht hu hpres hupres (by rw [hd.1, hwho, h])
  · intro h
    rw [h, hu, Option.some.injEq] at ht
    rw [ht] at hwho
    exact Option.some.inj (hwho.symm.trans hd.1)

theorem plainOps_plain : ∀ op ∈ plainOps, op ∉ identityOps := by
  decide

theorem handle_sameNick (d : Identity) (a : Bytes) : d.handle ⟨.cNick, [a, a]⟩ = some d := by
  simp only [Identity.handle, NetCmd.get, NetCmd.fetch, List.getElem?_cons_zero,
    List.getElem?_cons_succ, Arg.str_blk]
  by_cases hwho : cstr (a ++ [0]) = d.nick
  · simp [hwho, NetCmd.getnumargs]
  · simp [hwho, NetCmd.getnumargs]

/-- A quiet message leaves a client as it is. -/
theorem quiet_handle (hapart : s.udata.room.Apart)
    (ht : s.udata.room v = some t) (hpres : t.present) (hd : Agrees d t) {m : NetCmd}
    (hq : Quiet (s.call i c env) (.send t.fd m)) : d.handle m = some d := by
  rcases hq with hop | ⟨hfd, hreply⟩ | ⟨a, rfl⟩
  · exact handle_plain d (plainOps_plain _ hop)
  · cases hreply with
    | nickInUse => rfl
    | wrongPassword => rfl
    | @ownNick e hs =>
        -- the nick of the one on this connection, which is the client itself
        obtain ⟨hmem, hefd, hepres⟩ := Udata.udataGetByFd_some hs
        have hroom : s.udata.room e.user = some e.seat := Udata.room_of_mem hmem
        have huser : v = e.user :=
          hapart v e.user t e.seat ht hroom hpres hepres (hfd.trans hefd.symm)
        rw [huser, hroom, Option.some.injEq] at ht
        have hnick : e.nick = some d.nick := by
          rw [← UdataEnt.seat_nick, ht]
          exact hd.1
        rw [hnick, xstr_some]
        simp only [Identity.handle, NetCmd.get, NetCmd.fetch, NetCmd.add, NetCmd.set,
          List.nil_append, List.getElem?_cons_zero, str_arg]
        rfl
    | @notOperator op hop =>
        have hcases : op ∉ identityOps ∨ op = .cDeop ∨ op = .cOp := by
          revert op
          decide
        rcases hcases with hop' | rfl | rfl
        · exact handle_plain d hop'
        · rfl
        · rfl
    | @absent op hop a =>
        have hcases : op ∉ identityOps ∨ op = .cDeop ∨ op = .cOp := by
          revert op
          decide
        rcases hcases with hop' | rfl | rfl
        · exact handle_plain d hop'
        · rfl
        · rfl
  · exact handle_sameNick d a

/-- The news of who comes and goes do not concern a client, and neither does an answer. -/
theorem door_handle (d : Identity) {fd low : Int} {clients : Slot → Client} {u : Udata}
    {msg : NetCmd} {excl : Option Slot} {tail : List Effect} (hmsg : msg.op ∉ identityOps)
    (htail : ∀ m ∈ sentTo fd tail, m.op ∉ identityOps) :
    d.handleAll (sentTo fd (distribute low clients u msg excl ++ tail)) = some d := by
  refine handleAll_idle fun m hm => handle_plain d ?_
  rw [sentTo_append] at hm
  rcases List.mem_append.mp hm with hm | hm
  · obtain ⟨fd', hsend⟩ := mem_distribute (mem_sentTo.mp hm)
    rw [Effect.send.injEq] at hsend
    rw [hsend.2]
    exact hmsg
  · exact htail m hm

theorem ack_plain (x : Call) (fd : Int) :
    ∀ m ∈ sentTo fd [x.reply (.set .ack)], m.op ∉ identityOps := by
  intro m hm
  have hsend := mem_sentTo.mp hm
  simp only [Call.reply, List.mem_singleton, Effect.send.injEq] at hsend
  rw [hsend.2]
  decide

theorem follows_dist (hs : s.Ok) (hj : s.live j) {u : Udata} (ht' : u.room v = some t')
    (hpres' : t'.present) (hfd' : t'.fd = (s.clients j).fd) {msg : NetCmd} {d' : Identity}
    (hmsg : d.handle msg = some d') :
    d.handleAll (sentTo (s.clients j).fd (lcsDistNcmd s.clients u msg none)) = some d' := by
  have hone := sentTo_distribute hs hj 0 (by decide) msg none (udataGetByFd_of_seat ht' hpres' hfd')
  rw [lcsDistNcmd, hone, if_neg (by simp), handleAll_single, hmsg]

/--
A change that everybody in chat is told: the one it is about takes it for its own, and
nobody else does.
-/
theorem follows_told (hs : s.Ok) (hr : s.udata.room.NicksUnique) (hj : s.live j)
    (ht : s.udata.room v = some t) (hpres : t.present) (hd : Agrees d t) {u : Udata}
    (ht' : u.room v = some t') (hpres' : t'.present) (hfd' : t'.fd = (s.clients j).fd)
    {w nick : CString} {tw : Seat CString} (hw : s.udata.room w = some tw) (hwpres : tw.present)
    (hnick : tw.nick = some nick) {f : Seat CString → Seat CString}
    (hroom : u.room = s.udata.room.modify w f) {msg : NetCmd} {dw : Identity}
    (hmsg : d.handle msg = some (if nick = d.nick then dw else d)) (hdw : v = w → Agrees dw (f t)) :
    ∃ d', d.handleAll (sentTo (s.clients j).fd (lcsDistNcmd s.clients u msg none)) = some d' ∧
      Agrees d' t' := by
  have hiff := nick_iff hr ht hpres hd hw hwpres hnick
  refine ⟨_, follows_dist hs hj ht' hpres' hfd' hmsg, ?_⟩
  rw [hroom] at ht'
  by_cases hv : v = w
  · rw [← hv, Room.modify_self, ht, Option.map_some, Option.some.injEq] at ht'
    rw [if_pos (hiff.mpr hv), ← ht']
    exact hdw hv
  · rw [Room.modify_ne _ hv, ht, Option.some.injEq] at ht'
    rw [if_neg fun hwho => hv (hiff.mp hwho), ← ht']
    exact hd

/-- An operator's command does what everybody is told. -/
theorem follows_mode (hs : s.Ok) (hr : s.udata.room.NicksUnique) (hj : s.live j)
    (ht : s.udata.room v = some t) (hpres : t.present) (hd : Agrees d t) {u : Udata}
    (ht' : u.room v = some t') (hpres' : t'.present) (hfd' : t'.fd = (s.clients j).fd)
    {w nick tnick : CString} {tw : Seat CString} (hw : s.udata.room w = some tw)
    (hwpres : tw.present) (hnick : tw.nick = some nick) {op : NCMDOp} {fd : Int}
    (hact : modeAct op w = some act) (hroom : u.room = act.apply fd s.udata.room) :
    ∃ d', d.handleAll (sentTo (s.clients j).fd
        (lcsDistNcmd s.clients u ⟨op, [nick.chars, tnick.chars]⟩ none)) = some d' ∧
      Agrees d' t' := by
  have hout : act = .kick w ∨ act = .ban w → v ≠ w := by
    intro hleft hv
    rw [hroom, hv] at ht'
    exact Act.apply_left (Or.inr hleft) ht' hpres'
  have hignored : ∀ {op : NCMDOp} {args : List Bytes}, op ∉ identityOps →
      d.handle ⟨op, args⟩ = some (if nick = d.nick then d else d) := by
    intro op args hm
    rw [ite_self]
    exact handle_plain d hm
  cases op <;> simp only [modeAct, reduceCtorEq, Option.some.injEq] at hact <;> subst hact
  case cBan =>
      exact follows_told hs hr hj ht hpres hd ht' hpres' hfd' hw hwpres hnick hroom
        (hignored (by decide)) fun hv => absurd hv (hout (Or.inr rfl))
  case cKick =>
      exact follows_told hs hr hj ht hpres hd ht' hpres' hfd' hw hwpres hnick hroom
        (hignored (by decide)) fun hv => absurd hv (hout (Or.inl rfl))
  case cDeop =>
      exact follows_told hs hr hj ht hpres hd ht' hpres' hfd' hw hwpres hnick hroom
        (handle_deop d nick tnick) fun _ => ⟨hd.1, clearFlags_bits _ hd.2⟩
  case cOp =>
      exact follows_told hs hr hj ht hpres hd ht' hpres' hfd' hw hwpres hnick hroom
        (handle_op d nick tnick) fun _ => ⟨hd.1, setFlags_bits _ hd.2⟩
  case cUnban =>
      refine follows_told hs hr hj ht hpres hd ht' hpres' hfd' hw hwpres hnick hroom
        (hignored (by decide)) fun _ => ⟨hd.1, ?_⟩
      rw [Seat.mapFlags_flags, clearFlags, BitVec.and_assoc,
        show ~~~udcFlagBanned &&& chatBits = chatBits by decide]
      exact hd.2

/-- Somebody goes away or comes back; the message says the opposite of what the flag was. -/
theorem follows_away (hs : s.Ok) (hr : s.udata.room.NicksUnique) (hj : s.live j)
    (ht : s.udata.room v = some t) (hpres : t.present) (hd : Agrees d t) {u : Udata}
    (ht' : u.room v = some t') (hpres' : t'.present) (hfd' : t'.fd = (s.clients j).fd)
    {e : UdataEnt} {nick : CString} (he : s.udata.room e.user = some e.seat)
    (hepres : e.seat.present) (hnick : e.nick = some nick)
    (hroom : u.room = s.udata.room.modify e.user (·.mapFlags toggleAway)) {more : List Bytes} :
    ∃ d', d.handleAll (sentTo (s.clients j).fd (lcsDistNcmd s.clients u
        ⟨.cAway, (if e.has udcFlagAway then [0] else [1]) :: nick.chars :: more⟩ none)) = some d' ∧
      Agrees d' t' := by
  have hbit : (if e.has udcFlagAway then [0] else [1] : Bytes)
      = [if e.has udcFlagAway then 0 else 1] := by
    split <;> rfl
  rw [hbit]
  refine follows_told hs hr hj ht hpres hd ht' hpres' hfd' he hepres hnick hroom
    (handle_away d _ nick more) fun hv => ⟨hd.1, ?_⟩
  rw [hv, he, Option.some.injEq] at ht
  rw [← ht] at hd ⊢
  rw [Seat.mapFlags_toggleAway, UdataEnt.seat_has]
  by_cases haway : e.has udcFlagAway = true
  · rw [if_pos haway, if_pos haway]
    exact clearFlags_bits _ hd.2
  · rw [if_neg haway, if_neg haway]
    exact setFlags_bits _ hd.2

/-- Who stays in chat is not the one that has come in or gone. -/
theorem Deed.other {x : Call} (h : Deed x o act) (ht : x.udata.room v = some t) (hpres : t.present)
    {fd : Int} (ht' : act.apply fd x.udata.room v = some t') (hpres' : t'.present) {user : CString}
    (hact : act = .enrol user ∨ (∃ nick, act = .join user nick) ∨ act = .leave user) : user ≠ v := by
  rintro rfl
  rcases hact with rfl | ⟨nick, rfl⟩ | rfl
  · cases h with
    | enrol hnew =>
        have hnone : x.udata.room user = none := hnew
        rw [ht] at hnone
        simp at hnone
    | @mode e w tnick _ _ _ _ _ hact => cases hop : x.cmd.op <;> simp [modeAct, hop] at hact
  · cases h with
    | join hjoin => exact (hjoin.seat t ht).2 hpres
    | mode _ _ _ _ hact => exact absurd hact modeAct_ne_join
  · exact Act.apply_left (Or.inl rfl) ht' hpres'

theorem Call.Sender.seated {x : Call} {e : UdataEnt} (h : x.Sender e) :
    x.udata.room e.user = some e.seat ∧ e.seat.present := by
  obtain ⟨hmem, -, hepres⟩ := Udata.udataGetByFd_some h
  exact ⟨Udata.room_of_mem hmem, hepres⟩

/-- **A client follows what a command does to its user.** -/
theorem Does.follows (hs : s.Ok) (hr : s.udata.room.NicksUnique) (hapart : s.udata.room.Apart)
    (hj : s.live j) (h : Does (s.call i c env) o act) (ht : s.udata.room v = some t)
    (hpres : t.present) (hfd : t.fd = (s.clients j).fd) (ht' : o.udata.room v = some t')
    (hpres' : t'.present) (hfd' : t'.fd = (s.clients j).fd) (hd : Agrees d t) :
    ∃ d', d.handleAll (sentTo (s.clients j).fd o.effects) = some d' ∧ Agrees d' t' := by
  obtain ⟨hdeed, hroom⟩ := h
  have hroom' : o.udata.room = act.apply (s.clients i).fd s.udata.room := hroom
  have hv : act.apply (s.clients i).fd s.udata.room v = some t' := hroom' ▸ ht'
  have hsame : act.subject ≠ some v → t' = t := by
    intro hsub
    rw [Act.apply_ne hsub, ht, Option.some.injEq] at hv
    exact hv.symm
  have hother : ∀ {user : CString},
      act = .enrol user ∨ (∃ nick, act = .join user nick) ∨ act = .leave user → user ≠ v :=
    fun hact => hdeed.other ht hpres hv hpres' hact
  have hquiet : (∀ ef ∈ o.effects, Quiet (s.call i c env) ef) →
      d.handleAll (sentTo (s.clients j).fd o.effects) = some d := by
    intro hq
    refine handleAll_idle fun m hm => ?_
    have hqm := hq _ (mem_sentTo.mp hm)
    rw [← hfd] at hqm
    exact quiet_handle hapart ht hpres hd hqm
  have hnick : ∀ {e : UdataEnt}, s.udata.room e.user = some e.seat → e.seat.present →
      ∃ nick, e.nick = some nick :=
    fun hroom hp => Option.ne_none_iff_exists'.mp (hr.nick _ _ hroom hp)
  cases hdeed with
  | idle _ hq =>
      rw [hsame (by simp [Act.subject])]
      exact ⟨d, hquiet hq, hd⟩
  | @enrol user _ _ hq =>
      rw [hsame fun hsub => hother (Or.inl rfl) (Option.some.inj hsub)]
      exact ⟨d, hquiet hq, hd⟩
  | @join user anick nick _ _ _ heff =>
      rw [hsame fun hsub => hother (Or.inr (Or.inl ⟨_, rfl⟩)) (Option.some.inj hsub), heff]
      exact ⟨d, door_handle d (by simp [doorMsg, identityOps]) (ack_plain _ _), hd⟩
  | @leave user _ _ _ _ heff =>
      rw [hsame fun hsub => hother (Or.inr (Or.inr rfl)) (Option.some.inj hsub), heff]
      exact ⟨d, door_handle d (by simp [identityOps]) (ack_plain _ _), hd⟩
  | @rename e new old hse _ _ _ hold _ heff =>
      obtain ⟨heroom, hepres⟩ := hse.seated
      rw [heff]
      exact follows_told hs hr hj ht hpres hd ht' hpres' hfd' heroom hepres hold hroom'
        (handle_nick d new old) fun _ => ⟨rfl, hd.2⟩
  | @away e more hse _ _ heff =>
      obtain ⟨heroom, hepres⟩ := hse.seated
      obtain ⟨nick, hnick⟩ := hnick heroom hepres
      rw [heff, hnick, xstr_some]
      exact follows_away hs hr hj ht hpres hd ht' hpres' hfd' heroom hepres hnick hroom'
  | @oper e hse _ _ _ heff =>
      obtain ⟨heroom, hepres⟩ := hse.seated
      obtain ⟨nick, hnick⟩ := hnick heroom hepres
      rw [heff, hnick, xstr_some]
      exact follows_told hs hr hj ht hpres hd ht' hpres' hfd' heroom hepres hnick hroom'
        (handle_oper d nick) fun _ => ⟨hd.1, setFlags_bits _ hd.2⟩
  | @mode e u tnick _ _ _ _ hu hact _ heff =>
      obtain ⟨humem, -, -, -, hupres⟩ := Udata.udataGetByNick_some hu
      have huroom : s.udata.room u.user = some u.seat := Udata.room_of_mem humem
      obtain ⟨nick, hnick⟩ := hnick huroom hupres
      rw [heff, hnick, xstr_some]
      exact follows_mode hs hr hj ht hpres hd ht' hpres' hfd' huroom hupres hnick hact hroom'

end

/-! ### What one event sends to a client -/

section

variable {mem : Memory} {s s' : Server} {ev : Event} {out : List Effect} {hist : List ServerStep}
  {j : Slot}
  {v : CString} {t t' : Seat CString}

theorem sentTo_settle (s : Server) (o : Outcome) (fd : Int) :
    sentTo fd (s.settle o).2 = sentTo fd o.effects := by
  have hkick : sentTo fd (s.kickEffects o.retval) = [] := by
    unfold Server.kickEffects
    split <;> rfl
  rw [Server.settle, sentTo_append, hkick, List.append_nil]

/-- **A client follows what an event does to its user.** -/
theorem Turn.follows {d : Identity} (hs : s.Ok) (hr : s.udata.room.NicksUnique)
    (hapart : s.udata.room.Apart) (hturn : Turn mem s ev s' out) (hj : s.live j)
    (hfdj : (s'.clients j).fd = (s.clients j).fd) (ht : s.udata.room v = some t)
    (hpres : t.present) (hfd : t.fd = (s.clients j).fd) (ht' : s'.udata.room v = some t')
    (hpres' : t'.present) (hfd' : t'.fd = (s'.clients j).fd) (hd : Agrees d t) :
    ∃ d', d.handleAll (sentTo (s.clients j).fd out) = some d' ∧ Agrees d' t' := by
  have hsame : s'.udata.room v = s.udata.room v → t' = t := by
    intro h
    rw [ht', ht] at h
    exact Option.some.inj h
  cases hturn with
  | refused => exact ⟨d, rfl, by rw [hsame rfl]; exact hd⟩
  | accepted => exact ⟨d, rfl, by rw [hsame (by rw [Server.accept_udata])]; exact hd⟩
  | recvError => exact ⟨d, rfl, by rw [hsame rfl]; exact hd⟩
  | closed => exact ⟨d, rfl, by rw [hsame rfl]; exact hd⟩
  | @hungUp i alloc e hlive hent =>
      have hroom : (removeFromChat alloc s.udata e.user).room v = some t' := ht'
      rw [room_hungUp alloc hent] at hroom
      have hne : (Act.leave e.user : Act CString CString).subject ≠ some v := by
        intro hv
        rw [Option.some.inj hv] at hroom
        exact Act.apply_left (Or.inl rfl) hroom hpres'
      rw [Act.apply_ne hne, ht, Option.some.injEq] at hroom
      rw [← hroom]
      exact ⟨d, door_handle d (by simp [doorMsg, identityOps]) (by simp [sentTo]), hd⟩
  | @netcmd i c env o act hlive hmem hcall hdoes =>
      rw [sentTo_settle]
      exact hdoes.follows hs hr hapart hj ht hpres hfd ht' hpres' (hfd'.trans hfdj) hd

/-- Who is in chat was there before, or has just joined on this connection. -/
theorem Turn.on_cases (hs : s.Ok) (hseated : Seated hist s) (hturn : Turn mem s ev s' out)
    (ht' : s'.udata.room v = some t') (hpres' : t'.present) (hfd' : t'.fd = (s'.clients j).fd) :
    (∃ t, s.udata.room v = some t ∧ t.present ∧ t.fd = (s.clients j).fd ∧ s.live j ∧
      (s'.clients j).fd = (s.clients j).fd) ∨
      ∃ c env anick, ev = .netcmd j c env ∧ (s.call j c env).Joins v anick := by
  have hs' := hturn.ok hs
  obtain ⟨fd, act, -, -, hroom, hjoin⟩ := hturn.act hs
  have hsplit := ht'
  rw [hroom] at hsplit
  rcases Act.apply_present hsplit hpres' with ⟨nick, hact, hseat⟩ | ⟨t, ht, hpres, hfd⟩
  · obtain ⟨i, c, env, anick, rfl, hlive, hifd, hj⟩ := hjoin v nick hact
    cases hturn with
    | @netcmd _ _ _ o _ _ _ hcall _ =>
        have hkept := live_of_joins hcall hj hlive (le_of_lt (hs.fd_pos hlive))
        have hfdi : t'.fd = ((s.settle o).1.clients i).fd := by
          rw [hseat, Server.settle_client s hkept]
          exact hifd.symm
        obtain rfl : j = i := hs'.eq_of_fd hkept (by rw [← hfd', hfdi])
        exact Or.inr ⟨c, env, anick, rfl, hj⟩
  · obtain ⟨k, hlive, hkfd, -⟩ := hseated.session v t ht hpres
    obtain ⟨hlive', hkfd', -⟩ :=
      hturn.live_kept hs hseated.apart ht hpres ht' hpres' hlive hkfd
    have hjk : j = k := hs'.eq_of_fd hlive' (by rw [hkfd', hkfd, ← hfd, hfd'])
    subst hjk
    exact Or.inl ⟨t, ht, hpres, hkfd.symm, hlive, hkfd'⟩

theorem sentTo_reply (x : Call) (m : NetCmd) : sentTo x.fd [x.reply m] = [m] := by
  rw [Call.reply, sentTo_send, if_pos rfl]

theorem chatterJoin_user (user nick : CString) : (chatterJoin user nick).doorUser = some user :=
  str_arg user

theorem chatterJoin_nick (user nick : CString) : (chatterJoin user nick).doorNick = some nick :=
  str_arg nick

/-- A client that is in chat behind its join has been told so, and is right about itself. -/
theorem Turn.joined {user nick : CString} {env : Env} (hs : s.Ok) (hseated : Seated hist s)
    (hturn : Turn mem s (.netcmd j (chatterJoin user nick) env) s' out)
    (hmem : s.StoresNick (.netcmd j (chatterJoin user nick) env))
    (hout : ∀ v t, s.udata.room v = some t → t.present → t.fd ≠ (s.clients j).fd)
    (ht' : s'.udata.room v = some t') (hpres' : t'.present) (hfd' : t'.fd = (s'.clients j).fd) :
    v = user ∧ Agrees ⟨nick, 0⟩ t' ∧ sentTo (s.clients j).fd out = [.set .ack] := by
  rcases hturn.on_cases hs hseated ht' hpres' hfd' with hold | hnew
  · obtain ⟨t, ht, hpres, hfd, -⟩ := hold
    exact absurd hfd (hout v t ht hpres)
  · obtain ⟨c, env', anick, hev, hj⟩ := hnew
    obtain ⟨-, rfl, rfl⟩ := Event.netcmd.inj hev
    obtain rfl : v = user := Option.some.inj (hj.named.symm.trans (chatterJoin_user user nick))
    obtain rfl : anick = nick := Option.some.inj (hj.asked.symm.trans (chatterJoin_nick _ nick))
    cases hturn with
    | @netcmd _ _ _ o act hlive _ hcall hdoes =>
        obtain ⟨stored, hstored, -, heff, hroom⟩ := hj.handled (le_of_lt (hs.fd_pos hlive)) hcall
        have hnick : stored = some anick := by
          refine hstored.resolve_right fun hfail => ?_
          have hfail' : env.alloc .updateNick = false := hfail
          rw [hmem j _ env v anick rfl hj] at hfail'
          simp at hfail'
        rw [Server.settle_udata] at ht'
        have hseat := ht'
        rw [hroom, Room.set_self, Option.some.injEq] at hseat
        have hon : o.udata.udataGetByFd (s.clients j).fd ≠ none :=
          udataGetByFd_of_seat ht' hpres' (by rw [← hseat]; rfl)
        have hzero : (0 : Flags) &&& chatBits = udcFlagPresent &&& chatBits := by decide
        refine ⟨rfl, ?_, ?_⟩
        · rw [← hseat, hnick]
          exact ⟨rfl, hzero⟩
        · have hdist := sentTo_distribute hs hlive 1 (le_refl 1) (doorMsg 1 stored) (some j) hon
          rw [if_pos rfl] at hdist
          rw [sentTo_settle, heff, sentTo_append]
          exact congrArg₂ (· ++ ·) hdist (sentTo_reply (s.call j (chatterJoin v anick) env) _)

/-- Nobody is in chat on a connection that has just arrived. -/
theorem Turn.accepted_alone {newfd : Int} {peer : InAddr} (hseated : Seated hist s)
    (hturn : Turn mem s (.accept newfd peer) s' out) (hslot : s.acceptSlot = some j)
    (ht : s'.udata.room v = some t) (hpres : t.present) : t.fd ≠ (s'.clients j).fd := by
  cases hturn with
  | refused _ hnone =>
      rw [hslot] at hnone
      simp at hnone
  | accepted hfresh _ =>
      rw [Server.accept_udata] at ht
      obtain ⟨k, hlive, hkfd, -⟩ := hseated.session v t ht hpres
      rw [Server.accept_clients hslot, if_pos rfl, ← hkfd]
      exact hfresh.2 k hlive

/-- A message that leaves every client as it is. -/
def NoNews (m : NetCmd) : Prop := ∀ d : Identity, d.handle m = some d

/-- To those who are not in chat a command of somebody else is no news. -/
theorem Does.unheard {i : Slot} {c : NetCmd} {env : Env} {o : Outcome}
    {act : Act CString CString} (h : Does (s.call i c env) o act) {fd : Int}
    (hne : fd ≠ (s.clients i).fd)
    (hout : ∀ v t, s.udata.room v = some t → t.present → t.fd ≠ fd) :
    ∀ m ∈ sentTo fd o.effects, NoNews m := by
  obtain ⟨hdeed, hroom⟩ := h
  have hroom' : o.udata.room = act.apply (s.clients i).fd s.udata.room := hroom
  have hnone : ∀ {u : Udata}, (∀ v t, u.room v = some t → t.present → t.fd ≠ fd) →
      u.udataGetByFd fd = none := by
    intro u hu
    refine Udata.udataGetByFd_nobody fun e he hp => ?_
    exact hu e.user e.seat (Udata.room_of_mem he) hp
  have hbefore := hnone hout
  have hafter : o.udata.udataGetByFd fd = none := by
    refine hnone fun v t' ht' hpres' => ?_
    rw [hroom'] at ht'
    rcases Act.apply_present ht' hpres' with ⟨nick, -, hseat⟩ | ⟨t, ht, hpres, hfd⟩
    · rw [hseat]
      exact hne.symm
    · rw [hfd]
      exact hout v t ht hpres
  have hquiet : (∀ ef ∈ o.effects, Quiet (s.call i c env) ef) →
      ∀ m ∈ sentTo fd o.effects, NoNews m := by
    intro hq m hm d
    rcases hq _ (mem_sentTo.mp hm) with hop | ⟨hfd, -⟩ | ⟨a, rfl⟩
    · exact handle_plain d (plainOps_plain _ hop)
    · exact absurd hfd hne
    · exact handle_sameNick d a
  have hdist : ∀ {low : Int} {clients : Slot → Client} {u : Udata} {msg : NetCmd}
      {excl : Option Slot}, u.udataGetByFd fd = none →
      ∀ m ∈ sentTo fd (distribute low clients u msg excl), NoNews m := by
    intro low clients u msg excl hu m hm
    rw [sentTo_distribute_none low clients msg excl hu] at hm
    simp at hm
  have hreply : ∀ {l : List Effect}, (∀ m ∈ sentTo fd l, NoNews m) →
      ∀ m ∈ sentTo fd (l ++ [(s.call i c env).reply (.set .ack)]), NoNews m := by
    intro l hl m hm
    rw [sentTo_append, Call.reply, sentTo_send, if_neg fun h => hne h.symm, List.append_nil] at hm
    exact hl m hm
  cases hdeed with
  | idle _ hq => exact hquiet hq
  | enrol _ _ hq => exact hquiet hq
  | join _ _ _ heff =>
      rw [heff]
      exact hreply (hdist hafter)
  | leave _ _ heff =>
      rw [heff]
      exact hreply (hdist hbefore)
  | rename _ _ _ _ _ _ heff =>
      rw [heff]
      exact hdist hafter
  | away _ _ _ heff =>
      rw [heff]
      exact hdist hafter
  | oper _ _ _ _ heff =>
      rw [heff]
      exact hdist hafter
  | mode _ _ _ _ _ _ heff =>
      rw [heff]
      exact hdist hafter

/-- The same for every event. -/
theorem Turn.unheard (hs : s.Ok) (hturn : Turn mem s ev s' out)
    (hother : ∀ c env, ev ≠ .netcmd j c env)
    (hout : ∀ v t, s.udata.room v = some t → t.present → t.fd ≠ (s.clients j).fd) :
    ∀ m ∈ sentTo (s.clients j).fd out, NoNews m := by
  cases hturn with
  | refused => simp [sentTo]
  | accepted => simp [sentTo]
  | recvError => simp [sentTo]
  | closed => simp [sentTo]
  | @hungUp i alloc e hlive hent =>
      intro m hm d
      refine handle_plain d ?_
      rw [sentTo_append, List.mem_append] at hm
      rcases hm with hm | hm
      · obtain ⟨fd, hsend⟩ := mem_distribute (mem_sentTo.mp hm)
        rw [(Effect.send.inj hsend).2]
        simp [doorMsg, identityOps]
      · simp [sentTo] at hm
  | @netcmd i c env o act hlive hmem hcall hdoes =>
      rw [sentTo_settle]
      refine hdoes.unheard ?_ hout
      intro hfd
      rw [hs.eq_of_fd hlive hfd] at hother
      exact hother c env rfl

end

end Smsg
