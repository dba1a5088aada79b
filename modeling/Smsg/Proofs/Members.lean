/-
What those in chat send, and what they do with what they are sent.

A line that the user has entered is sent as one of a few commands (`NetCmd.Entered`), of
which a join, a leave and a ban are none.  A message from the server puts names into the
sidebar, or makes the client ask for them, or does not matter to it (`chatterFunc_sidebar`).
The join that a `chatter` begins with lets its user in or is refused, and the leave that it
ends with takes its user out.
-/
import Smsg.Proofs.Sidebar
import Smsg.Proofs.Decode
import Smsg.Proofs.Lines

namespace Smsg

open Machines

/-! ### What a line is sent as -/

/-- The commands that a line can be sent as. -/
def lineOps : List NCMDOp :=
  [.cPsay, .cSay, .cMe, .cAway, .cWho, .cBeep, .cDeop, .cKick, .cNick, .cOp, .cOper]

/-- A command as a client inside `chatter_func` sends it. -/
structure NetCmd.Entered (c : NetCmd) : Prop where
  op : c.op ∈ lineOps
  list : c.op = .cWho → c.ListAsked

theorem entered_plain {c : NetCmd} (op : NCMDOp) (hop : c.op = op) (h : op ∈ lineOps ∧ op ≠ .cWho) :
    c.Entered := by
  rw [← hop] at h
  exact ⟨h.1, fun hwho => absurd hwho h.2⟩

theorem entered_who : (NetCmd.set .cWho).Entered := ⟨by decide, fun _ => ⟨rfl, Or.inl rfl⟩⟩

section

variable {v : LineVars} {p : Option Bytes} {sbuf : Bytes} {c m : NetCmd}

theorem restWho_lt {itype : UInt8} (h : restWho p = some itype) : itype < 3 := by
  unfold restWho at h
  split at h
  · rw [← Option.some.inj h]
    decide
  · split_ifs at h <;> rw [← Option.some.inj h] <;> decide

/-- What a command asks for is one of them. -/
theorem commandAsks_entered {op : NCMDOp} (h : (commandAsks v op p).2 = some m) : m.Entered := by
  have hplain : ∀ {op args}, op ∈ lineOps ∧ op ≠ .cWho → some (NetCmd.mk op args) = some m →
      m.Entered := by
    intro op args hop hm
    exact entered_plain op (congrArg NetCmd.op (Option.some.inj hm)).symm hop
  cases op with
  | cPsay =>
      obtain ⟨args, -, rfl⟩ := Option.map_eq_some_iff.mp h
      exact entered_plain .cPsay rfl (by decide)
  | cWho =>
      obtain ⟨itype, hwho, rfl⟩ := Option.map_eq_some_iff.mp h
      have hop : NCMDOp.cWho ∈ lineOps := by decide
      exact ⟨hop, fun _ => ⟨rfl, Or.inr ⟨itype, rfl, restWho_lt hwho⟩⟩⟩
  | cSay => exact hplain (by decide) h
  | cMe => exact hplain (by decide) h
  | cAway => exact hplain (by decide) h
  | cBeep => exact hplain (by decide) h
  | cDeop => exact hplain (by decide) h
  | cKick => exact hplain (by decide) h
  | cNick => exact hplain (by decide) h
  | cOp => exact hplain (by decide) h
  | cOper => exact hplain (by decide) h
  | _ => cases h

theorem lineAsks_entered {t : Bytes} (h : (lineAsks v t).2 = some m) : m.Entered := by
  unfold lineAsks at h
  split at h
  · split at h
    · exact commandAsks_entered h
    · simp at h
  · exact commandAsks_entered h

theorem wholeCmd_encode (hcount : m.args.length < 2 ^ 16)
    (hshort : ∀ a ∈ m.args, a.length < 2 ^ 31) : wholeCmd m.encode = some m := by
  have hdecode := decode_encode hcount hshort []
  rw [List.append_nil] at hdecode
  rw [wholeCmd, hdecode, Option.filter_some, if_pos (decide_eq_true rfl)]

theorem wholeCmd_op (h : wholeCmd m.encode = some c) : c.op = m.op := by
  rw [wholeCmd, Option.filter_eq_some_iff] at h
  rw [← ncmdGet_encode, of_decide_eq_true h.2, ncmdGet_encode]

/-- One whole command is like the one that was sent. -/
theorem wholeCmd_entered (h : wholeCmd m.encode = some c) (hent : m.Entered) : c.Entered := by
  have hop := wholeCmd_op h
  refine ⟨hop ▸ hent.op, fun hwho => ?_⟩
  have hlist := hent.list (hop.symm.trans hwho)
  have hsame : c = m := by
    have hwhole : wholeCmd m.encode = some m := by
      rcases hlist.2 with hargs | ⟨b, hargs, -⟩ <;>
        exact wholeCmd_encode (by rw [hargs]; simp) (by rw [hargs]; simp)
    exact Option.some.inj (h.symm.trans hwhole)
  rw [hsame]
  exact hlist

end

/-! ### What a client does with a message -/

/-- Writing to the window sends nothing. -/
def Mute (acts : Option (List ChatterAct)) : Prop := ∀ said, acts = some said → chatterSends said = []

theorem mute_some {said : List ChatterAct} (h : chatterSends said = []) : Mute (some said) := by
  intro said' hsaid
  rw [← Option.some.inj hsaid]
  exact h

theorem mute_bind {α : Type} {a : Option α} {f : α → Option (List ChatterAct)}
    (h : ∀ x, Mute (f x)) : Mute (a.bind f) := by
  intro said hsaid
  obtain ⟨x, -, hx⟩ := Option.bind_eq_some_iff.mp hsaid
  exact h x said hx

theorem mute_ite {q : Prop} [Decidable q] {a b : Option (List ChatterAct)} (ha : Mute a)
    (hb : Mute b) : Mute (if q then a else b) := by
  split
  · exact ha
  · exact hb

section

variable {m : NetCmd} {v v' : ChatterVars} {acts : List ChatterAct}

theorem mute_clDoor : Mute (clDoor m) := by
  refine mute_bind fun r => mute_bind fun direction => mute_bind fun who => ?_
  refine mute_ite (mute_some rfl) (mute_ite ?_ (mute_some rfl))
  exact mute_bind fun reason => mute_some rfl

theorem mute_clAway : Mute (clAway m) := by
  refine mute_bind fun state => mute_bind fun who => mute_ite ?_ (mute_some ?_)
  · refine mute_bind fun reason => mute_some ?_
    split <;> rfl
  · split <;> rfl

theorem mute_clPsay : Mute (clPsay m) := by
  unfold clPsay
  dsimp only
  split
  · exact mute_bind fun who => mute_some rfl
  · exact mute_bind fun who => mute_bind fun msg => mute_some rfl
  · exact mute_bind fun who => mute_bind fun whom => mute_bind fun msg => mute_some rfl
  · exact mute_some rfl

theorem mute_clNick : Mute (clNick m) := by
  unfold clNick
  refine mute_ite (mute_some rfl) (mute_ite ?_ (mute_ite ?_ (mute_some rfl)))
  · exact mute_bind fun nick => mute_some rfl
  · exact mute_bind fun new => mute_bind fun old => mute_some rfl

theorem mute_clMode (t : ModeTexts) : Mute (clMode t m) := by
  unfold clMode
  refine mute_ite (mute_some rfl) (mute_ite ?_ ?_)
  · exact mute_bind fun who => mute_some rfl
  · exact mute_bind fun who => mute_bind fun oper => mute_some rfl

theorem mute_clWho : chatterSends (clWho m) = [] := by
  have hlines : ∀ args : List Bytes, chatterSends (whoLines args) = [] := by
    intro args
    induction args using whoLines.induct with
    | case1 name info rest ih => exact ih
    | case2 args h =>
        unfold whoLines
        split
        · exact absurd rfl (h _ _ _)
        · rfl
  unfold clWho
  dsimp only
  split
  · split
    · rfl
    · split <;> rfl
  · rw [chatterSends, List.filterMap_append]
    refine List.append_eq_nil_iff.mpr ⟨?_, hlines _⟩
    split
    · rfl
    · split <;> rfl

theorem mute_chatterSays : Mute (chatterSays m) := by
  unfold chatterSays
  split
  case h_1 => exact mute_clDoor
  case h_2 => exact mute_clAway
  case h_3 => exact mute_bind fun who => mute_bind fun msg => mute_some rfl
  case h_4 => exact mute_ite (mute_bind fun who => mute_some rfl) (mute_some rfl)
  case h_5 => exact mute_clPsay
  case h_6 => exact mute_clNick
  case h_7 => exact mute_bind fun who => mute_bind fun msg => mute_some rfl
  case h_8 => exact mute_clMode _
  case h_9 => exact mute_ite (mute_some rfl) (mute_bind fun who => mute_some rfl)
  case h_10 => exact mute_clMode _
  case h_11 => exact mute_clMode _
  case h_12 => exact mute_clMode _
  case h_13 => exact mute_clMode _
  case h_14 => exact mute_some mute_clWho
  case h_15 => exact mute_some rfl

/-- **What a message does to the sidebar, and what is sent because of it.** -/
theorem chatterFunc_sidebar (h : chatterFunc v m = some (v', acts)) :
    v'.sidebar = (sidebarKind m).keep v.sidebar ∧
      chatterSends acts = if reqWho m.op then [.set .cWho] else [] := by
  simp only [chatterFunc, Option.bind_eq_bind, Option.bind_eq_some_iff, Option.some.injEq,
    Prod.mk.injEq] at h
  obtain ⟨said, hsaid, identity, -, rfl, rfl⟩ := h
  have hsends : chatterSends (said ++ if reqWho m.get then [ChatterAct.send (.set .cWho)] else [])
      = if reqWho m.op then [.set .cWho] else [] := by
    have hmute : chatterSends said = [] := mute_chatterSays said hsaid
    rw [chatterSends, List.filterMap_append, ← chatterSends, hmute, List.nil_append]
    show List.filterMap _ (if reqWho m.op = true then _ else _) = _
    split <;> rfl
  refine ⟨?_, hsends⟩
  by_cases hwho : m.op = .cWho
  · have hculist : chatterCulist v m = clCulist m v.culist := by
      rw [chatterCulist, show m.get = .cWho from hwho]
    have hreq : reqWho m.op = false := by rw [hwho]; rfl
    rw [sidebarKind, hreq, if_neg Bool.false_ne_true, ChatterVars.sidebar, hculist, clCulist]
    by_cases htype : whoItype m = 0
    · rw [if_pos htype, if_pos ⟨hwho, htype⟩]
      rfl
    · rw [if_neg htype, if_neg fun h => htype h.2]
      rfl
  · have hculist : chatterCulist v m = v.culist := by
      unfold chatterCulist
      split
      · rename_i hget
        exact absurd hget hwho
      · rfl
    rw [sidebarKind_plain hwho, ChatterVars.sidebar, hculist]
    split <;> rfl

end

/-! ### Joining and leaving -/

section

variable {mem : Memory} {hist : List ServerStep} {s s' : Server} {j : Slot} {env : Env}
  {out : List Effect} {user nick : CString} {reason : Option Bytes}

/-- Somebody is in chat on the connection in the slot. -/
def Server.On (s : Server) (i : Slot) (v : CString) : Prop := s.udata.room.Sits v (s.clients i).fd

theorem Server.On.not_nobody {v : CString} (h : s.On j v) : ¬ s.NobodyOn j := by
  obtain ⟨t, ht, hpres, hfd⟩ := h
  exact udataGetByFd_of_seat ht hpres hfd

/-- With a nick it asks to join. -/
theorem chatterJoin_asks (hnick : nick.chars ≠ []) : (chatterJoin user nick).leaves = false := by
  have hlen : ((chatterJoin user nick).fetch .null 1).aplen = nick.chars.length + 1 := by
    show (nick.chars ++ [0]).length = _
    rw [List.length_append]
    rfl
  have hpos : 0 < nick.chars.length := List.length_pos_of_ne_nil hnick
  have hone : (nick.chars.length + 1 == 1) = false := by
    rw [beq_eq_false_iff_ne]
    omega
  rw [NetCmd.leaves, hlen, hone]
  rfl

theorem chatterLeave_op : (chatterLeave user reason).op = .chatdoor := by
  cases reason <;> rfl

theorem chatterLeave_leaves : (chatterLeave user reason).leaves = true := by
  cases reason <;> rfl

theorem chatterLeave_user : (chatterLeave user reason).doorUser = some user := by
  cases reason with
  | none => exact str_arg user
  | some reason => exact str_arg user

/-- **A join is acknowledged, and the user is in chat, or it is refused.** -/
theorem Turn.join_served (hs : s.Ok) (hseated : Seated hist s)
    (hturn : Turn mem s (.netcmd j (chatterJoin user nick) env) s' out)
    (hnick : nick.chars ≠ []) (hnobody : s.NobodyOn j) :
    ∃ m, sentTo (s.clients j).fd out = [m] ∧ ((m.op = .nak ∧ s'.NobodyOn j) ∨
      (m.op = .ack ∧ s'.udata.room.Sits user (s.clients j).fd)) := by
  have hafter := @Turn.nobody mem hist s s' j _ out hs hseated hturn hnobody
  cases hturn with
  | @netcmd _ _ _ o act hlive hmem hcall hdoes =>
      have hpos : 0 ≤ (s.call j (chatterJoin user nick) env).fd := le_of_lt (hs.fd_pos hlive)
      rw [sentTo_settle]
      have hdoor := hcall
      rw [lsHandleNetcmd_chatdoor rfl, Except.ok.injEq] at hdoor
      rcases chatdoor_cases (x := s.call j (chatterJoin user nick) env) rfl
        (chatterJoin_user user nick) with ⟨t, hl⟩ | ⟨anick, hj⟩ | ⟨reason, hrefused⟩
      · have hform : (chatterJoin user nick).leaves = true := hl.form
        rw [chatterJoin_asks hnick] at hform
        simp at hform
      · obtain ⟨stored, -, -, heff, hroom⟩ := hj.handled hpos hcall
        have hsits : (s.settle o).1.udata.room.Sits user (s.clients j).fd := by
          rw [Server.settle_udata, hroom]
          exact ⟨_, Room.set_self _ _ _, by simp [Seat.present, Seat.has, udcFlagPresent], rfl⟩
        refine ⟨.set .ack, ?_, Or.inr ⟨rfl, hsits⟩⟩
        obtain ⟨t, ht, hpres, htfd⟩ := hsits
        have hdist := sentTo_distribute hs hlive 1 (le_refl 1) (doorMsg 1 stored) (some j)
          (udataGetByFd_of_seat ht hpres htfd)
        rw [if_pos rfl] at hdist
        rw [heff, sentTo_append]
        exact congrArg₂ (· ++ ·) hdist (sentTo_reply (s.call j (chatterJoin user nick) env) _)
      · have heff : o.effects = [(s.call j (chatterJoin user nick) env).reply
            ((NetCmd.set .nak).add reason)] := by
          rw [← hdoor, hrefused]
          rfl
        refine ⟨(NetCmd.set .nak).add reason, ?_, Or.inl ⟨rfl, hafter ?_⟩⟩
        · rw [heff]
          exact sentTo_reply _ _
        · intro c env' v anick hev hj
          obtain ⟨-, rfl, rfl⟩ := Event.netcmd.inj hev
          obtain ⟨stored, -, -, hack, -⟩ := hj.handled hpos hcall
          have hlast := congrArg List.getLast? (heff.symm.trans hack)
          simp [Call.reply, NetCmd.set, NetCmd.add] at hlast

/-- **Who leaves is not in chat any more.** -/
theorem Turn.leave_served (hs : s.Ok) (hseated : Seated hist s)
    (hturn : Turn mem s (.netcmd j (chatterLeave user reason) env) s' out) (hon : s.On j user) :
    s'.NobodyOn j := by
  refine Udata.udataGetByFd_nobody fun e he hpres hfd => ?_
  have hno : ∀ c env' v anick, Event.netcmd j (chatterLeave user reason) env = .netcmd j c env' →
      ¬ (s.call j c env').Joins v anick := by
    intro c env' v anick hev hj
    obtain ⟨-, rfl, -⟩ := Event.netcmd.inj hev
    have hform : (chatterLeave user reason).leaves = false := hj.form
    rw [chatterLeave_leaves] at hform
    simp at hform
  rcases hturn.on_cases hs hseated (Udata.room_of_mem he) hpres hfd with hold | hnew
  · obtain ⟨t, ht, htpres, htfd, -⟩ := hold
    obtain ⟨tu, htu, htupres, htufd⟩ := hon
    have huser : e.user = user := hseated.apart _ _ t tu ht htu htpres htupres (htfd.trans htufd.symm)
    cases hturn with
    | @netcmd _ _ _ o act hlive hmem hcall hdoes =>
        have hl : (s.call j (chatterLeave user reason) env).Leaves user tu :=
          ⟨chatterLeave_op, chatterLeave_leaves, chatterLeave_user, htu, htupres⟩
        have hroom := (does_leave hl).2
        rw [lsHandleNetcmd_chatdoor chatterLeave_op, Except.ok.injEq] at hcall
        rw [hcall] at hroom
        have hseat : o.udata.room e.user = some e.seat := Udata.room_of_mem he
        rw [hroom, huser] at hseat
        exact Act.apply_left (Or.inl rfl) hseat hpres
  · obtain ⟨c, env', anick, hev, hj⟩ := hnew
    exact hno c env' _ anick hev hj

end

end Smsg
