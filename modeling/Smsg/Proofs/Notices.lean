/-
The notice of a kick or a ban.

`C_KICK` and `C_BAN` clear the flags of the user first and hand out the notice
afterwards, to those who have `PRESENT` set.  The one user the notice is about is not
among them any more: its connection is closed without a word (`kick_unnoticed`).
-/
import Smsg.Proofs.Membership

namespace Smsg

open Machines

/-! ### Who is to be told -/

/-- An operator on slot `i` sends `C_KICK` or `C_BAN` with the nick of somebody in chat. -/
structure Server.ThrowsOut (s : Server) (i : Slot) (c : NetCmd) (e t : UdataEnt) : Prop where
  op : c.get = .cKick ∨ c.get = .cBan
  sender : s.udata.udataGetByFd (s.clients i).fd = some e
  operator : e.has udcFlagOperator = true
  target : t ∈ s.udata.ents
  present : t.has udcFlagPresent = true
  named : t.nick ≠ none ∧ c.str0 = t.nick

/-- The notice with two arguments: the nick of who goes, and of the operator. -/
def outNotice (c : NetCmd) (t e : UdataEnt) : NetCmd := ⟨c.get, [xstr t.nick, xstr e.nick]⟩

/-- `m` is sent once to everybody in chat, and before their connection is closed. -/
def Noticed (u : Udata) (m : NetCmd) (out : List Effect) : Prop :=
  ∀ e ∈ u.ents, e.has udcFlagPresent → (sentTo e.fd out).count m = 1 ∧
    m ∈ sentTo e.fd (out.takeWhile fun ef => decide (ef ≠ .close e.fd))

/-! ### Who is told -/

variable {mem : Memory} {hist : List ServerStep} {s s' : Server} {i : Slot} {c : NetCmd} {env : Env}
  {e t : UdataEnt} {o : Outcome}

theorem Server.kickEffects_kickSlot (s : Server) {k : Slot} {fd : Int} (h : (s.clients k).fd = fd) :
    s.kickEffects (kickSlot s.clients fd) = [.close fd] := by
  obtain ⟨r, hr⟩ : ∃ r, Server.kicked (kickSlot s.clients fd) = some r := by
    rw [Server.kicked_kickSlot]
    refine Option.isSome_iff_exists.mp (List.find?_isSome.mpr ⟨k, List.mem_finRange k, ?_⟩)
    simp [h]
  have hfd := Server.kicked_kickSlot_some hr
  simp only [Server.kickEffects, hr, hfd]

/-- Whoever has the nick first is thrown out. -/
theorem Server.ThrowsOut.found (h : s.ThrowsOut i c e t) (hs : s.Ok) (hbound : Bound hist s) :
    ∃ gone, s.udata.udataGetByNick c.str0 = some gone ∧ gone.nick = t.nick := by
  obtain ⟨nick, hnick⟩ := Option.ne_none_iff_exists'.mp h.named.1
  obtain ⟨k, hlive, hfd, -⟩ := hbound.session t h.target h.present
  have hpos := hs.fd_pos hlive
  have hstr : c.str0 = some nick := h.named.2.trans hnick
  cases hget : s.udata.udataGetByNick c.str0 with
  | none =>
      rw [hstr] at hget
      exact absurd hnick (Udata.udataGetByNick_none hget t h.target h.present (by omega))
  | some gone =>
      obtain ⟨-, hsame, -⟩ := Udata.udataGetByNick_some hget
      exact ⟨gone, rfl, by rw [← hsame, h.named.2]⟩

/-- A kick or a ban of `gone`: the room without it, and the notice to those who are left. -/
theorem Server.ThrowsOut.outcome (h : s.ThrowsOut i c e t) {gone : UdataEnt}
    (hgone : s.udata.udataGetByNick c.str0 = some gone) (hnick : gone.nick = t.nick)
    (hcall : lsHandleNetcmd (s.call i c env) = .ok o) :
    (∀ v, v ≠ gone.user → o.udata.room v = s.udata.room v) ∧
      (∀ seat, o.udata.room gone.user = some seat → ¬ seat.present) ∧
      o.effects = lcsDistNcmd s.clients o.udata (outNotice c t e) none ∧
      o.retval = kickSlot s.clients gone.fd := by
  have hmode : handleChatcmd (s.call i c env) = chatMode (s.call i c env) := by
    rcases h.op with hop | hop <;> rw [handleChatcmd, show (s.call i c env).cmd.get = _ from hop]
  have hops : c.op.isChatcmd = true ∧ c.op ∈ modeOps := by
    rcases h.op with hop | hop <;> rw [show c.op = _ from hop] <;> decide
  rw [lsHandleNetcmd_present hops.1 h.sender, hmode] at hcall
  obtain ⟨act, hact, hdeed, hroom⟩ := does_mode (x := s.call i c env) hops.2 h.sender h.operator
    hgone hcall
  have hout : act = .kick gone.user ∨ act = .ban gone.user := by
    have hact' : modeAct c.get gone.user = some act := hact
    rcases h.op with hop | hop <;> rw [hop] at hact'
    · exact Or.inl (Option.some.inj hact').symm
    · exact Or.inr (Option.some.inj hact').symm
  refine ⟨?_, ?_, ?_⟩
  · intro v hv
    rw [hroom]
    refine Act.apply_ne ?_
    rcases hout with rfl | rfl <;> simpa [Act.subject] using hv.symm
  · intro seat hseat
    rw [hroom] at hseat
    exact Act.apply_left (Or.inr hout) hseat
  · have hkick : (s.call i c env).cmd.op = .cBan ∨ (s.call i c env).cmd.op = .cKick := h.op.symm
    cases hdeed with
    | @mode e' gone' tnick _ hs hoper he ht _ hret heff =>
        obtain rfl : e = e' := Option.some.inj (h.sender.symm.trans hs)
        obtain rfl : gone = gone' := Option.some.inj (hgone.symm.trans ht)
        rw [if_pos hkick] at hret
        refine ⟨?_, hret⟩
        rw [heff, outNotice, he, ← hnick]
        rfl
    | _ => simp at hout

/--
**Who is thrown out is not told.**  When an operator kicks or bans somebody in chat, in
a run in which nobody joins on a used connection, the notice never gets to everybody it
is for: the others are sent it once each, and the connection of who goes is closed
without anything sent to it.
-/
theorem kick_unnoticed (h : Run (server mem) hist s)
    (hjoins : ∀ st ∈ hist, ¬ st.pre.JoinsTwice st.ev) (hout : s.ThrowsOut i c e t) :
    (¬ ∃ s' out, (server mem).step s (.netcmd i c env) = some (s', out) ∧
        Noticed s.udata (outNotice c t e) out) ∧
      ∀ s' out, (server mem).step s (.netcmd i c env) = some (s', out) →
        ∃ gone ∈ s.udata.ents, gone.has udcFlagPresent ∧ gone.nick = t.nick ∧
          sentTo gone.fd out = [] ∧ .close gone.fd ∈ out ∧
          ∀ e' ∈ s.udata.ents, e'.has udcFlagPresent → e' ≠ gone →
            sentTo e'.fd out = [outNotice c t e] := by
  have hs := run_ok h
  have hseated := seated_run h hjoins
  have hbound := seated_iff_bound.mp hseated
  obtain ⟨gone, hgone, hnick⟩ := hout.found hs hbound
  obtain ⟨hmem, -, -, -, hpres⟩ := Udata.udataGetByNick_some hgone
  have hmain : ∀ s' out, (server mem).step s (.netcmd i c env) = some (s', out) →
      sentTo gone.fd out = [] ∧ .close gone.fd ∈ out ∧
        ∀ e' ∈ s.udata.ents, e'.has udcFlagPresent → e' ≠ gone →
          sentTo e'.fd out = [outNotice c t e] := by
    intro s' out hstep
    obtain ⟨-, -, o, hcall, hset⟩ := step_netcmd hstep
    obtain ⟨hothers, hleft, heff, hret⟩ := hout.outcome hgone hnick hcall
    obtain rfl : (s.settle o).2 = out := by rw [hset]
    refine ⟨?_, ?_, ?_⟩
    · -- the flags are cleared before the notice is handed out
      rw [sentTo_settle, heff]
      refine sentTo_distribute_none 0 s.clients _ none (Udata.udataGetByFd_nobody ?_)
      intro e' he' hpres' hfd
      have hroom : o.udata.room e'.user = some e'.seat := Udata.room_of_mem he'
      by_cases huser : e'.user = gone.user
      · exact hleft e'.seat (by rw [← huser]; exact hroom) hpres'
      · rw [hothers e'.user huser] at hroom
        exact huser (hseated.apart e'.user gone.user e'.seat gone.seat hroom
          (Udata.room_of_mem hmem) hpres' hpres hfd)
    · obtain ⟨k, -, hfd, -⟩ := hbound.session gone hmem hpres
      refine List.mem_append_right _ ?_
      rw [hret, s.kickEffects_kickSlot hfd]
      exact List.mem_singleton_self _
    · intro e' he' hpres' hne
      have huser : e'.user ≠ gone.user := fun h =>
        hne (List.inj_on_of_nodup_map s.udata.nodup he' hmem h)
      have hsits : s.udata.room.Sits e'.user e'.fd := ⟨e'.seat, Udata.room_of_mem he', hpres', rfl⟩
      have hafter : o.udata.room.Sits e'.user e'.fd := by
        rw [Room.Sits, hothers e'.user huser]
        exact hsits
      rw [sentTo_settle, heff]
      exact hseated.sentTo_sits hs (by decide) _ hsits hafter (by simp)
  refine ⟨?_, fun s' out hstep => ⟨gone, hmem, hpres, hnick, hmain s' out hstep⟩⟩
  intro hnoticed
  obtain ⟨s', out, hstep, hnotice⟩ := hnoticed
  have hcount := (hnotice gone hmem hpres).1
  rw [(hmain s' out hstep).1] at hcount
  simp at hcount

/-- The operator `a` kicks `b`. -/
theorem run_kick : ∃ hist s s' out e t, Run (server .enough) hist s ∧
    (∀ st ∈ hist, ¬ st.pre.JoinsTwice st.ev) ∧ s.ThrowsOut 0 ⟨.cKick, [[98]]⟩ e t ∧
    (server .enough).step s (.netcmd 0 ⟨.cKick, [[98]]⟩ .bare) = some (s', out) ∧
    sentTo t.fd out = [] := by
  have hrun : (exec (server .enough) (.initial 3)
      (twoUsers ++ [.netcmd 0 ⟨.cOper, [lcsOperPassword.chars]⟩ .bare]) []).any (fun r =>
        r.1.all ServerStep.joinsApart &&
        ((r.2.udata.udataGetByFd (r.2.clients 0).fd).any fun e => e.has udcFlagOperator) &&
        (r.2.udata.ents.any fun t => t.has udcFlagPresent &&
          decide (t.nick = some ⟨[98], by decide⟩) &&
          ((server .enough).step r.2 (.netcmd 0 ⟨.cKick, [[98]]⟩ .bare)).any fun p =>
            decide (sentTo t.fd p.2 = []))) = true := by
    decide +kernel
  simp only [Option.any_eq_true, Bool.and_eq_true, decide_eq_true_eq, List.any_eq_true] at hrun
  obtain ⟨⟨hist, s⟩, hexec, ⟨hapart, e, he, hoper⟩, t, ht, ⟨hpres, hnick⟩, ⟨s', out⟩, hstep,
    hsent⟩ := hrun
  have h : Run (server .enough) hist s := run_of_exec hexec
  refine ⟨hist, s, s', out, e, t, h, not_joinsTwice hapart, ?_, hstep, hsent⟩
  exact ⟨Or.inl rfl, he, hoper, ht, hpres, by rw [hnick]; exact ⟨by simp, rfl⟩⟩

theorem kick_unnoticed_two : ∃ hist s c e t, Run (server .enough) hist s ∧
    s.ThrowsOut 0 c e t ∧ ¬ ∃ s' out, (server .enough).step s (.netcmd 0 c .bare) = some (s', out) ∧
      Noticed s.udata (outNotice c t e) out := by
  obtain ⟨hist, s, -, -, e, t, h, hjoins, hout, -, -⟩ := run_kick
  exact ⟨hist, s, _, e, t, h, hout, (kick_unnoticed h hjoins hout).1⟩

/-- Nothing is sent to `b`. -/
theorem not_noticed : ∃ hist s s' out c e t, Run (server .enough) hist s ∧
    (∀ st ∈ hist, ¬ st.pre.JoinsTwice st.ev) ∧ s.ThrowsOut 0 c e t ∧
    (server .enough).step s (.netcmd 0 c .bare) = some (s', out) ∧
    ¬ Noticed s.udata (outNotice c t e) out := by
  obtain ⟨hist, s, s', out, e, t, h, hjoins, hout, hstep, hsent⟩ := run_kick
  refine ⟨hist, s, s', out, _, e, t, h, hjoins, hout, hstep, fun hnoticed => ?_⟩
  have hcount := (hnoticed t hout.target hout.present).1
  rw [hsent] at hcount
  simp at hcount

end Smsg
