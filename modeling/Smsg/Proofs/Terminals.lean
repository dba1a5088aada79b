/-
A `MSG` and the terminals it gets to.

`MsgFate` goes through the exits of the handler once and says for each what was done.
That a `MSG` is answered exactly once and that the terminal is one that the user lets be
written to follows from it, and so does where the handler falls short: a `MSG` with
fewer than three arguments is not refused, a preference is compared with the utmp file
behind its first five bytes only, and that comparison comes before the one with `none`.
-/
import Smsg.Terminals
import Smsg.Proofs.Uses

namespace Smsg

open Machines Udata

variable {x : Call} {o : Outcome} {user tty : CString} {who : Option CString} {line : Bytes}
  {mem : Memory} {hist : List ServerStep} {s : Server} {st : ServerStep}

/-! ### The exits of the handler -/

/-- What has happened before a terminal is looked at. -/
def Call.past (x : Call) (user : CString) : List Effect := ttyOverread (x.udata.udataGet (some user))

/-- The bell, if the user has not turned it off. -/
def Call.bell (x : Call) (user tty : CString) : List Effect :=
  if (x.udata.pref user).beep = 1 ∨ (x.udata.pref user).beep = -1 then [.print tty [7]] else []

/-- What becomes of a `MSG` to `who`, with `line` for the terminal. -/
inductive MsgFate (x : Call) (who : Option CString) (line : Bytes) (o : Outcome) : Prop
  | unknown (m : NetCmd) (hno : ∀ user, who = some user → ¬ x.Known user)
      (hnak : m.IsNak) (heff : o.effects = [x.reply m])
  | shut (user : CString) (m : NetCmd) (huser : who = some user)
      (hknown : x.Known user) (hno : ∀ tty, ¬ x.Opens user tty) (hnak : m.IsNak)
      (heff : o.effects = x.past user ++ [x.reply m])
  | failed (user tty : CString) (m : NetCmd) (huser : who = some user)
      (hopens : x.Opens user tty) (hno : ¬ x.Delivers user tty) (hnak : m.IsNak)
      (heff : o.effects = x.past user ++ [.openTty tty, x.reply m])
  | delivered (user tty : CString) (huser : who = some user)
      (hdel : x.Delivers user tty)
      (heff : o.effects = x.past user ++ [.openTty tty, .print tty line] ++
        x.bell user tty ++ [x.reply (.set .ack)])

/-- A fetch that finds nothing leaves the string of the one before. -/
theorem fetch_str (c : NetCmd) (t : Arg) (k : Nat) : (c.fetch t k).str = (c.strArg k).or t.str := by
  unfold NetCmd.fetch NetCmd.strArg
  cases c.args[k]? with
  | none => rfl
  | some a => rfl

/-- The number -1 stands for the default, which is to beep. -/
theorem beeps_iff (b : Int8) : (if b = -1 then 1 else b) = 1 ↔ b = 1 ∨ b = -1 := by
  by_cases h : b = -1
  · simp [h]
  · simp [h]

/-- Writing to the terminal `tty`. -/
theorem msgWrite_fate (hknown : x.Known user) (hterm : x.terminal user = some tty)
    (hdup : x.env.dupTty = true) (u : Udata) (sender msg : Option CString) :
    MsgFate x (some user) (x.lineOf sender msg)
      (msgWrite x u (x.past user) (x.udata.pref user).beep tty sender msg) := by
  unfold msgWrite
  dsimp only
  split
  · rename_i hw
    refine .shut user _ rfl hknown ?_ ⟨errorMesgNo, rfl⟩ (by simp [Call.done])
    intro tty' hopens
    obtain rfl : tty = tty' := Option.some.inj (hterm.symm.trans hopens.terminal)
    rw [hopens.writable] at hw
    simp at hw
  · rename_i hw
    have hopens : x.Opens user tty := ⟨hknown, hterm, hdup, by simpa using hw⟩
    -- the three ways in which the terminal turns out not to be one
    have hfailed : ¬ x.Delivers user tty → MsgFate x (some user) (x.lineOf sender msg)
        (x.done u (x.past user ++ [.openTty tty] ++
          [x.reply ((NetCmd.set .nak).add errorTtyOpen)])) := fun hno =>
      .failed user tty _ rfl hopens hno ⟨errorTtyOpen, rfl⟩ (by simp [Call.done])
    split
    · rename_i hopen
      refine hfailed fun hdel => ?_
      rw [hdel.opened] at hopen
      simp at hopen
    · rename_i hopen
      split
      · rename_i htty
        refine hfailed fun hdel => ?_
        rw [hdel.isatty] at htty
        simp at htty
      · rename_i htty
        split
        · rename_i hfd
          refine hfailed fun hdel => ?_
          rw [hdel.fdopen] at hfd
          simp at hfd
        · rename_i hfd
          refine .delivered user tty rfl
            ⟨hopens, by simpa using hopen, by simpa using htty, by simpa using hfd⟩ ?_
          simp only [Call.done, Call.lineOf, Call.bell, beeps_iff]

theorem noTty_fate (hknown : x.Known user)
    (hno : ∀ tty, x.terminal user = some tty → x.env.dupTty = false) (u : Udata) (reason : Bytes)
    (line : Bytes) : MsgFate x (some user) line
      (x.done u (x.past user ++ [x.reply ((NetCmd.set .nak).add reason)])) := by
  refine .shut user _ rfl hknown ?_ ⟨reason, rfl⟩ rfl
  intro tty hopens
  have hdup := hno tty hopens.terminal
  rw [hopens.dup] at hdup
  simp at hdup

/-- Without a preference that counts, the first terminal of the user is taken. -/
theorem firstTty_fate (hknown : x.Known user) (hpref : x.preferred user = none) (u : Udata)
    (sender msg : Option CString) : MsgFate x (some user) (x.lineOf sender msg)
      (match getUserlist x.env.userlist (some user) with
      | none => x.done u (x.past user ++ [x.reply ((NetCmd.set .nak).add errorListGet)])
      | some l =>
          if x.env.dupTty then
            msgWrite x u (x.past user) (x.udata.pref user).beep ((l.head?.map (·.tty)).getD .empty)
              sender msg
          else x.done u (x.past user ++ [x.reply ((NetCmd.set .nak).add errorStringDup)])) := by
  have hterm : x.terminal user = x.firstTty user := by rw [Call.terminal, hpref]
  cases hlist : getUserlist x.env.userlist (some user) with
  | none =>
      refine noTty_fate hknown ?_ u _ _
      intro tty htty
      rw [hterm, Call.firstTty, hlist] at htty
      simp at htty
  | some l =>
      have hfirst : x.terminal user = some ((l.head?.map (·.tty)).getD .empty) := by
        rw [hterm, Call.firstTty, hlist, Option.map_some]
      dsimp only
      split
      · rename_i hdup
        exact msgWrite_fate hknown hfirst hdup u sender msg
      · rename_i hdup
        exact noTty_fate hknown (fun _ _ => by simpa using hdup) u _ _

/-- Looking for a terminal of the user. -/
theorem msgTty_fate (hknown : x.Known user) (sender msg : Option CString) :
    MsgFate x (some user) (x.lineOf sender msg) (msgTty x user sender msg) := by
  have hfirst := @firstTty_fate x user hknown
  unfold msgTty
  cases hent : x.udata.udataGet (some user) with
  | none =>
      have hbeep : (x.udata.pref user).beep = -1 := by rw [Udata.pref_none hent]; rfl
      rw [Call.past, hent, hbeep] at hfirst
      refine hfirst ?_ _ sender msg
      rw [Call.preferred, hent]
      rfl
  | some e =>
      have hbeep : (x.udata.pref user).beep = e.beep := by rw [Udata.pref_some hent]; rfl
      rw [Call.past, hent, hbeep] at hfirst
      have hpref : x.preferred user
          = ((Option.some e).filter fun e => isontty x.env user e.tty && e.tty != ttysetUnset).map
            (·.tty) := by
        rw [Call.preferred, hent]
      dsimp only
      by_cases hon : isontty x.env user e.tty = true
      · by_cases hset : (e.tty != ttysetUnset) = true
        · -- the preference counts
          have hterm : x.terminal user = some e.tty := by
            rw [Call.terminal, hpref, Option.filter_some, if_pos (by rw [hon, hset]; rfl)]
            rfl
          rw [Option.filter_some, if_pos hon, Option.filter_some, if_pos hset]
          dsimp only
          split
          · rename_i hdup
            have hw := msgWrite_fate hknown hterm hdup x.udata sender msg
            rw [Call.past, hent, hbeep] at hw
            exact hw
          · rename_i hdup
            have hno := noTty_fate hknown (fun _ _ => by simpa using hdup) x.udata
              errorStringDup (x.lineOf sender msg)
            rw [Call.past, hent] at hno
            exact hno
        · rw [Option.filter_some, if_pos hon, Option.filter_some, if_neg hset]
          refine hfirst ?_ _ sender msg
          rw [hpref, Option.filter_some, if_neg (by simp_all)]
          rfl
      · rw [Option.filter_some, if_neg hon]
        refine hfirst ?_ _ sender msg
        rw [hpref, Option.filter_some, if_neg (by simp_all)]
        rfl

/-- **The exits of `MSG`.** -/
theorem msgFor_fate (x : Call) (who sender msg : Option CString) :
    MsgFate x who (x.lineOf sender msg) (msgFor x who sender msg) := by
  unfold msgFor
  cases who with
  | none => exact .unknown _ (by simp) ⟨_, rfl⟩ rfl
  | some user =>
      have hno : ¬ x.Known user → ∀ reason,
          MsgFate x (some user) (x.lineOf sender msg) (x.nak x.udata reason) := by
        intro hno reason
        refine .unknown _ (fun v hv => ?_) ⟨reason, rfl⟩ rfl
        rwa [← Option.some.inj hv]
      dsimp only
      split
      · rename_i hempty
        exact hno (fun hk => hk.given hempty) _
      · rename_i hgiven
        split
        · rename_i hpw
          exact hno (fun hk => by simp [hk.passwd] at hpw) _
        · rename_i hpw
          split
          · rename_i hin
            exact hno (fun hk => by simp [hk.loggedin] at hin) _
          · rename_i hin
            exact msgTty_fate ⟨hgiven, by simpa using hpw, by simpa using hin⟩ sender msg

/-- What the handler writes: it prints the second argument if there is no third one. -/
def Call.written (x : Call) : Bytes :=
  x.lineOf ((x.cmd.strArg 0).or x.cmd.addressee) ((x.cmd.strArg 2).or (x.cmd.strArg 1))

theorem msg_fate (x : Call) : MsgFate x x.cmd.addressee x.written (handleMsg x) := by
  have haddr : (x.cmd.fetch (x.cmd.fetch .null 0) 1).str = x.cmd.addressee := by
    simp only [fetch_str, Arg.str_null, Option.or_none, NetCmd.addressee]
  have h := msgFor_fate x x.cmd.addressee ((x.cmd.strArg 0).or x.cmd.addressee)
    ((x.cmd.strArg 2).or (x.cmd.strArg 1))
  rw [← haddr] at h ⊢
  simpa only [handleMsg, Call.written, fetch_str, haddr, Arg.str_null, Option.or_none] using h

/-! ### What was done -/

@[simp] theorem prints_append (l₁ l₂ : List Effect) : prints (l₁ ++ l₂) = prints l₁ ++ prints l₂ :=
  List.filterMap_append

@[simp] theorem opens_append (l₁ l₂ : List Effect) : opens (l₁ ++ l₂) = opens l₁ ++ opens l₂ :=
  List.filterMap_append

/-- Comparing a terminal does nothing that anybody sees. -/
theorem past_unseen (x : Call) (user : CString) :
    prints (x.past user) = [] ∧ opens (x.past user) = [] ∧ ∀ fd, sentTo fd (x.past user) = [] := by
  have h : x.past user = [] ∨ x.past user = [.overread] := by
    unfold Call.past ttyOverread
    cases x.udata.udataGet (some user) with
    | none => exact Or.inl rfl
    | some e =>
        dsimp only
        split
        · exact Or.inr rfl
        · exact Or.inl rfl
  rcases h with h | h <;> rw [h] <;> exact ⟨rfl, rfl, fun _ => rfl⟩

/-- What the bell adds to what was written. -/
def Call.ring (x : Call) (user tty : CString) : List (CString × Bytes) :=
  if (x.udata.pref user).beep = 1 ∨ (x.udata.pref user).beep = -1 then [(tty, [7])] else []

theorem bell_unseen (x : Call) (user tty : CString) :
    prints (x.bell user tty) = x.ring user tty ∧ opens (x.bell user tty) = [] ∧
      ∀ fd, sentTo fd (x.bell user tty) = [] := by
  unfold Call.bell Call.ring
  split <;> exact ⟨rfl, rfl, fun _ => rfl⟩

theorem sentTo_replied (x : Call) (m : NetCmd) (fd : Int) :
    sentTo fd [x.reply m] = if fd = x.fd then [m] else [] := by
  rw [Call.reply, sentTo_send]
  by_cases h : fd = x.fd
  · rw [if_pos h, if_pos h.symm]
  · rw [if_neg h, if_neg (Ne.symm h)]

/-- How a `MSG` was answered. -/
inductive MsgAnswered (x : Call) (who : Option CString) (line : Bytes) (o : Outcome) (m : NetCmd) :
    Prop
  | refused (hnak : m.IsNak) (hprints : prints o.effects = [])
      (hno : ∀ user tty, who = some user → ¬ x.Delivers user tty)
  | written (user tty : CString) (hack : m = .set .ack) (huser : who = some user)
      (hdel : x.Delivers user tty)
      (hprints : prints o.effects = (tty, line) :: x.ring user tty)

theorem Call.Opens.unique {tty' : CString} (h : x.Opens user tty) (h' : x.Opens user tty') :
    tty' = tty :=
  Option.some.inj (h'.terminal.symm.trans h.terminal)

/-- **There is one answer, and it tells whether something was written.** -/
theorem MsgFate.answered (h : MsgFate x who line o) :
    ∃ m, (∀ fd, sentTo fd o.effects = if fd = x.fd then [m] else []) ∧
      MsgAnswered x who line o m := by
  cases h with
  | unknown m hno hnak heff =>
      refine ⟨m, ?_, .refused hnak (by rw [heff]; rfl) fun user tty huser hdel =>
        hno user huser hdel.known⟩
      intro fd
      rw [heff, sentTo_replied]
  | shut user m huser hknown hno hnak heff =>
      obtain ⟨hprints, -, hsent⟩ := past_unseen x user
      refine ⟨m, ?_, .refused hnak ?_ ?_⟩
      · intro fd
        rw [heff, sentTo_append, hsent, sentTo_replied, List.nil_append]
      · rw [heff, prints_append, hprints]
        rfl
      · intro v tty hv hdel
        rw [huser, Option.some.injEq] at hv
        exact hno tty (hv ▸ hdel.toOpens)
  | failed user tty m huser hopens hno hnak heff =>
      obtain ⟨hprints, -, hsent⟩ := past_unseen x user
      refine ⟨m, ?_, .refused hnak ?_ ?_⟩
      · intro fd
        rw [heff, sentTo_append, hsent, List.nil_append, ← sentTo_replied]
        rfl
      · rw [heff, prints_append, hprints]
        rfl
      · intro v tty' hv hdel
        rw [huser, Option.some.injEq] at hv
        subst hv
        exact hno (hopens.unique hdel.toOpens ▸ hdel)
  | delivered user tty huser hdel heff =>
      obtain ⟨hprints, -, hsent⟩ := past_unseen x user
      obtain ⟨hring, -, hbell⟩ := bell_unseen x user tty
      refine ⟨.set .ack, ?_, .written user tty rfl huser hdel ?_⟩
      · intro fd
        rw [heff, sentTo_append, sentTo_append, sentTo_append, hsent, hbell, sentTo_replied]
        rfl
      · rw [heff, prints_append, prints_append, prints_append, hprints, hring]
        exact List.append_nil _

/-- **What is opened.** -/
theorem MsgFate.opens_iff (h : MsgFate x who line o) (path : CString) :
    path ∈ opens o.effects ↔ ∃ user, who = some user ∧ x.Opens user path := by
  have hiff : ∀ {user tty : CString}, who = some user → x.Opens user tty →
      opens o.effects = [tty] →
      (path ∈ opens o.effects ↔ ∃ user, who = some user ∧ x.Opens user path) := by
    intro user tty huser hopens hpaths
    rw [hpaths, List.mem_singleton]
    constructor
    · rintro rfl
      exact ⟨user, huser, hopens⟩
    · intro hex
      obtain ⟨v, hv, hopens'⟩ := hex
      rw [huser, Option.some.injEq] at hv
      subst hv
      exact hopens.unique hopens'
  cases h with
  | unknown m hno hnak heff =>
      rw [heff]
      refine iff_of_false (by simp [opens, Call.reply]) ?_
      intro hex
      obtain ⟨user, huser, hopens⟩ := hex
      exact hno user huser hopens.known
  | shut user m huser hknown hno hnak heff =>
      rw [heff, opens_append, (past_unseen x user).2.1]
      refine iff_of_false (by simp [opens, Call.reply]) ?_
      intro hex
      obtain ⟨v, hv, hopens⟩ := hex
      rw [huser, Option.some.injEq] at hv
      subst hv
      exact hno path hopens
  | failed user tty m huser hopens hno hnak heff =>
      refine hiff huser hopens ?_
      rw [heff, opens_append, (past_unseen x user).2.1]
      rfl
  | delivered user tty huser hdel heff =>
      refine hiff huser hdel.toOpens ?_
      rw [heff, opens_append, opens_append, opens_append, (past_unseen x user).2.1,
        (bell_unseen x user tty).2.1]
      rfl

/-! ### Replies -/

theorem NetCmd.IsNak.ne_ack {m : NetCmd} (h : m.IsNak) : m ≠ .set .ack := by
  obtain ⟨reason, rfl⟩ := h
  intro hack
  simpa using congrArg NetCmd.op hack

theorem lineOf_ne_bell (x : Call) (sender msg : Option CString) : x.lineOf sender msg ≠ [7] := by
  intro h
  have hlen := congrArg List.length h
  have htext : (text "\nmessage from ").length = 14 := by decide
  simp only [Call.lineOf, List.length_append, htext, List.length_singleton] at hlen
  omega

theorem letter_ne_bell (x : Call) (sender msg : CString) : x.letter sender msg ≠ [7] :=
  lineOf_ne_bell x (some sender) (some msg)

theorem mem_ring {p : CString × Bytes} (h : p ∈ x.ring user tty) : p = (tty, [7]) := by
  unfold Call.ring at h
  split at h
  · exact List.mem_singleton.mp h
  · simp at h

/--
**Replies to `MSG`.**  Whatever the utmp file, the terminals and the memory are like, there
is one reply, an `ACK` if the message was written to a terminal and a `NAK` if nothing was;
the bell goes with the message unless the user has turned it off.
-/
theorem msg_disciplined (x : Call) (sender user msg : Bytes) : ∃ o m,
    lsHandleNetcmd { x with cmd := ⟨.msg, [sender, user, msg]⟩ } = .ok o ∧
      MsgDisciplined { x with cmd := ⟨.msg, [sender, user, msg]⟩ } (cstr (sender ++ [0]))
        (cstr (user ++ [0])) (cstr (msg ++ [0])) o.effects m := by
  generalize hx : ({ x with cmd := ⟨.msg, [sender, user, msg]⟩ } : Call) = y
  have hcmd : y.cmd = ⟨.msg, [sender, user, msg]⟩ := by rw [← hx]
  have haddr : y.cmd.addressee = some (cstr (user ++ [0])) := by rw [hcmd]; rfl
  have hwritten : y.written = y.letter (cstr (sender ++ [0])) (cstr (msg ++ [0])) := by
    rw [Call.written, hcmd]
    rfl
  have hok : lsHandleNetcmd y = .ok (handleMsg y) := by
    rw [lsHandleNetcmd, show y.cmd.get = .msg by rw [hcmd]; rfl]
  obtain ⟨m, hreply, hans⟩ := (msg_fate y).answered
  refine ⟨handleMsg y, m, hok, ?_⟩
  cases hans with
  | refused hnak hprints hno =>
      have hack := hnak.ne_ack
      refine ⟨hreply, Or.inr hnak, ?_, ?_, ?_, fun _ => hprints, ?_⟩
      · rw [hprints]
        simp [hack]
      · simp [hprints]
      · simp [hprints]
      · rw [hprints]
        simp [hack]
  | written v tty hack hv hdel hprints =>
      obtain rfl : cstr (user ++ [0]) = v := Option.some.inj (haddr.symm.trans hv)
      have hpath : ∀ p ∈ prints (handleMsg y).effects, p.1 = tty := by
        intro p hp
        rw [hprints] at hp
        rcases List.mem_cons.mp hp with rfl | hp
        · rfl
        · rw [mem_ring hp]
      refine ⟨hreply, Or.inl hack, iff_of_true hack ⟨tty, ?_⟩, ?_, ?_, fun hno => absurd hack hno, ?_⟩
      · rw [hprints, hwritten]
        exact List.mem_cons_self
      · intro p hp q hq
        rw [hpath p hp, hpath q hq]
      · intro p hp
        rw [hpath p hp]
        have hw := hdel.writable
        unfold iswritabletty at hw
        split at hw
        · simp at hw
        · rename_i mode hmode
          exact ⟨mode, hmode, by simpa using hw⟩
      · rw [and_iff_right hack, hprints, hwritten]
        constructor
        · intro h
          obtain ⟨path, hmem⟩ := h
          rcases List.mem_cons.mp hmem with heq | hmem
          · exact absurd (congrArg Prod.snd heq).symm (letter_ne_bell _ _ _)
          · by_contra hno
            rw [Call.ring, if_neg hno] at hmem
            simp at hmem
        · intro hbeep
          refine ⟨tty, List.mem_cons_of_mem _ ?_⟩
          rw [Call.ring, if_pos hbeep]
          exact List.mem_cons_self

/-! ### Arguments -/

/-- In a run, what a `MSG` did is what the handler does. -/
theorem handles_msg (h : Run (server mem) hist s) (hst : st ∈ hist) (hx : Handles st x)
    (hop : x.cmd.get = .msg) : st.out = (handleMsg x).effects := by
  obtain ⟨-, hturn⟩ := turn_of_mem h hst
  obtain ⟨pre, ev, post, out⟩ := st
  obtain ⟨i, c, env, rfl, rfl⟩ := hx
  dsimp only at hturn hop ⊢
  cases hturn with
  | netcmd _ _ hcall hdoes =>
      rw [lsHandleNetcmd, hop, Except.ok.injEq] at hcall
      subst hcall
      have hkick : (handleMsg (pre.call i c env)).retval < 0 := by
        rcases hdoes.1.kicks with hret | ⟨t, -, hact, -⟩
        · exact hret
        · have hmem : (pre.call i c env).cmd.op ∈ prefOps := by
            rw [show (pre.call i c env).cmd.op = .msg from hop]
            decide
          rcases hdoes.1.of_prefOps hmem with rfl | ⟨_, -, rfl⟩ <;> simp at hact
      have hnone : Server.kicked (handleMsg (pre.call i c env)).retval = none :=
        Server.kicked_neg hkick
      simp only [Server.settle, Server.kickEffects, hnone, List.append_nil]

/-- The handler over pointers, for what it gets hold of. -/
theorem result_msg (m : Grants) (hop : x.cmd.get = .msg) : (lsHandleNetcmdPtr m x).result =
    .ok (msgFor x (x.heldUser m) (x.heldSender m) (x.heldText m)) := by
  have huser : (x.getarg m 2 (x.getarg m 0 .null 0).2 1).2.str = x.heldUser m := by
    rw [str_getarg, str_first]
    rfl
  have hsender : (x.getarg m 3 (x.getarg m 2 (x.getarg m 0 .null 0).2 1).2 0).2.str
      = x.heldSender m := by
    rw [str_getarg, huser]
    rfl
  have htext : (x.getarg m 4 (x.getarg m 1 .null 1).2 2).2.str = x.heldText m := by
    rw [str_getarg, str_first]
    rfl
  rw [lsHandleNetcmdPtr, hop, ← huser, ← hsender, ← htext]
  exact result_handleMsgPtr m x

theorem strArg_isSome {c : NetCmd} (k : Nat) (h : k < c.getnumargs) : ∃ s, c.strArg k = some s := by
  rw [NetCmd.strArg, List.getElem?_eq_getElem h]
  exact ⟨_, rfl⟩

theorem lineOf_inj {sender msg msg' : Option CString} :
    x.lineOf sender msg = x.lineOf sender msg' ↔ printStr msg = printStr msg' := by
  constructor
  · intro h
    exact List.append_cancel_left (List.append_cancel_right h)
  · intro h
    rw [Call.lineOf, h]
    rfl

/-- A run that ends with a `MSG` on this system. -/
theorem run_onPts (evs : List Event) (c : NetCmd) (hop : c.get = .msg) (P : Server → Prop)
    [DecidablePred P]
    (h : (exec (server .enough) (.initial 3) evs []).any
      (fun r => decide (r.2.live 0 ∧ P r.2)) = true) :
    ∃ hist s st, Run (server .enough) hist s ∧ st ∈ hist ∧
      Handles st (st.pre.call 0 c .onPts) ∧ P st.pre := by
  obtain ⟨⟨hist, s⟩, hexec, hP⟩ := (Option.any_eq_true _ _).mp h
  obtain ⟨hlive, hP⟩ := of_decide_eq_true hP
  have hrun : Run (server .enough) hist s := run_of_exec hexec
  have hcall : lsHandleNetcmd (s.call 0 c .onPts) = .ok (handleMsg (s.call 0 c .onPts)) := by
    rw [lsHandleNetcmd, show (s.call 0 c .onPts).cmd.get = .msg from hop]
  have hstep : (server .enough).step s (.netcmd 0 c .onPts)
      = some (s.settle (handleMsg (s.call 0 c .onPts))) := by
    simp only [server, Server.step, if_pos (And.intro hlive (by decide :
      Memory.enough.allows Env.onPts.alloc = true)), Server.handle, hcall]
  exact ⟨_, _, _, hrun.snoc hstep, List.mem_cons_self, ⟨0, c, .onPts, rfl, rfl⟩, hP⟩

/-- What comes of a `MSG`, if it is handled. -/
def msgEffects (m : Grants) (x : Call) : List Effect :=
  match (lsHandleNetcmdPtr m x).result with
  | .ok o => o.effects
  | .error _ => []

/-- A message to `a` from `b`. -/
def greeting : NetCmd := ⟨.msg, [[98], [97], [99]]⟩

/-- The record is one of those that are counted for the user. -/
def Utmp.CountsFor (r : Utmp) (user : CString) : Prop :=
  r.userProcess = true ∧ r.user.chars ≠ [] ∧ r.user = user

/-- The entry was made for a record of the user. -/
def UserlistEnt.MadeFor (e : UserlistEnt) (recs : List Utmp) (user : CString) : Prop :=
  e.name = user ∧ ∃ r ∈ recs, r.user = user ∧ e.tty.chars = text "/dev/" ++ r.line.chars

theorem cstr_append {a : Bytes} (ha : (0 : UInt8) ∉ a) (b : Bytes) :
    (cstr (a ++ b)).chars = a ++ (cstr b).chars := by
  refine List.takeWhile_append_of_pos fun c hc => ?_
  have hne : c ≠ 0 := fun h0 => ha (h0 ▸ hc)
  simpa using hne

/-- One record: nothing happens to the list, an entry is counted again, or there is a new one. -/
theorem userlistRec_cases {room : Nat → Bool} {list list' : List UserlistEnt} {r : Utmp}
    (h : userlistRec room (some user) list r = some list') :
    (¬ r.CountsFor user ∧ list' = list) ∨
      (r.CountsFor user ∧ list ≠ [] ∧
        list' = list.map fun e => if e.name = user then { e with count := e.count + 1 } else e) ∨
      (r.CountsFor user ∧ ∃ e, e.name = user ∧ e.tty.chars = text "/dev/" ++ r.line.chars ∧
        list' = list ++ [e]) := by
  unfold userlistRec at h
  dsimp only at h
  split at h
  · rename_i hskip
    refine Or.inl ⟨?_, (Option.some.inj h).symm⟩
    intro hc
    simp only [Bool.or_eq_true, Bool.not_eq_true', beq_iff_eq] at hskip
    rcases hskip with hskip | hskip
    · rw [hc.1] at hskip
      simp at hskip
    · exact hc.2.1 hskip
  · rename_i hcount
    simp only [Bool.or_eq_true, Bool.not_eq_true', beq_iff_eq, not_or, Bool.not_eq_false] at hcount
    split at h
    · rename_i hother
      refine Or.inl ⟨?_, (Option.some.inj h).symm⟩
      intro hc
      simp only [Option.isSome_some, Bool.true_and, bne_iff_ne, ne_eq, Option.some.injEq] at hother
      exact hother hc.2.2.symm
    · rename_i hsame
      simp only [Option.isSome_some, Bool.true_and, bne_iff_ne, ne_eq, Option.some.injEq,
        not_not] at hsame
      have hc : r.CountsFor user := ⟨hcount.1, hcount.2, hsame.symm⟩
      split at h
      · rename_i hany
        refine Or.inr (Or.inl ⟨hc, ?_, ?_⟩)
        · rintro rfl
          simp at hany
        · rw [← Option.some.inj h, hsame]
      · split at h
        · refine Or.inr (Or.inr ⟨hc, _, hsame.symm, ?_, (Option.some.inj h).symm⟩)
          exact cstr_append (by decide) _
        · simp at h

/-- The list of one user has an entry if and only if there is a record of the user. -/
theorem userlist_fold {room : Nat → Bool} {all : List Utmp} (recs : List Utmp) :
    ∀ list list' : List UserlistEnt, recs ⊆ all → (∀ e ∈ list, e.MadeFor all user) →
      recs.foldlM (userlistRec room (some user)) list = some list' →
      (∀ e ∈ list', e.MadeFor all user) ∧
        (list' = [] ↔ list = [] ∧ ∀ r ∈ recs, ¬ r.CountsFor user) := by
  induction recs with
  | nil =>
      intro list list' _ hmade h
      obtain rfl := Option.some.inj h
      exact ⟨hmade, by simp⟩
  | cons r recs ih =>
      intro list list' hsub hmade h
      rw [List.foldlM_cons, Option.bind_eq_bind, Option.bind_eq_some_iff] at h
      obtain ⟨list₁, hrec, hrest⟩ := h
      have hr : r ∈ all := hsub List.mem_cons_self
      have hih := fun hmade₁ => ih list₁ list' (fun _ hq => hsub (List.mem_cons_of_mem _ hq))
        hmade₁ hrest
      rcases userlistRec_cases hrec with ⟨hno, rfl⟩ | ⟨hc, hne, rfl⟩ | ⟨hc, e, hname, htty, rfl⟩
      · obtain ⟨hall, hempty⟩ := hih hmade
        exact ⟨hall, by rw [hempty, List.forall_mem_cons]; simp [hno]⟩
      · have hmade₁ : ∀ e ∈ list.map fun e => if e.name = user then
            { e with count := e.count + 1 } else e, e.MadeFor all user := by
          intro e he
          obtain ⟨e₀, he₀, rfl⟩ := List.mem_map.mp he
          split <;> exact hmade e₀ he₀
        obtain ⟨hall, hempty⟩ := hih hmade₁
        exact ⟨hall, by rw [hempty, List.forall_mem_cons]; simp [hne, hc]⟩
      · have hmade₁ : ∀ e' ∈ list ++ [e], e'.MadeFor all user := by
          intro e' he'
          rcases List.mem_append.mp he' with he' | he'
          · exact hmade e' he'
          · rw [List.mem_singleton.mp he']
            exact ⟨hname, r, hr, hc.2.2, htty⟩
        obtain ⟨hall, hempty⟩ := hih hmade₁
        exact ⟨hall, by rw [hempty, List.forall_mem_cons]; simp [hc]⟩

/-- What `get_userlist` returns for one user. -/
theorem getUserlist_user {pass : UtmpPass} {l : List UserlistEnt}
    (h : getUserlist pass (some user) = some l) : ∃ list,
      l = list ++ [⟨.empty, .empty, 0, 0⟩] ∧ (∀ e ∈ list, e.MadeFor pass.recs user) ∧
        (list = [] ↔ ∀ r ∈ pass.recs, ¬ r.CountsFor user) := by
  rw [getUserlist, Option.bind_eq_bind, Option.bind_eq_some_iff] at h
  obtain ⟨list, hfold, hlast⟩ := h
  obtain ⟨hall, hempty⟩ := userlist_fold _ _ _ (List.Subset.refl _) (by simp) hfold
  refine ⟨list, ?_, hall, by simpa using hempty⟩
  split at hlast
  · exact (Option.some.inj hlast).symm
  · simp at hlast

/-- Somebody who is logged in has a record, and a name that fits one. -/
theorem isloggedin_record {env : Env} (h : isloggedin env user = true) :
    ∃ r ∈ env.loggedin.recs, r.CountsFor user := by
  by_contra hno
  have hnone : ∀ r ∈ env.loggedin.recs, ¬ r.CountsFor user := fun r hr hc => hno ⟨r, hr, hc⟩
  unfold isloggedin at h
  split at h
  · rename_i e l hlist
    obtain ⟨list, hl, -, hempty⟩ := getUserlist_user hlist
    rw [hempty.mpr hnone, List.nil_append] at hl
    obtain ⟨rfl, -⟩ := List.cons.inj hl
    simp at h
  · simp at h

/-- The first terminal of somebody who is logged in is one of the user. -/
theorem firstTty_own {recs : List Utmp} (hutmp : x.env.Steady recs) (hknown : x.Known user)
    (h : x.firstTty user = some tty) :
    ∃ r ∈ recs, r.user = user ∧ tty.chars = text "/dev/" ++ r.line.chars := by
  obtain ⟨l, hlist, htty⟩ := Option.map_eq_some_iff.mp h
  obtain ⟨list, rfl, hmade, hempty⟩ := getUserlist_user hlist
  obtain ⟨r, hr, hc⟩ := isloggedin_record hknown.loggedin
  cases list with
  | nil =>
      rw [hutmp.loggedin, ← hutmp.userlist] at hr
      exact absurd hc (hempty.mp rfl r hr)
  | cons e list =>
      obtain ⟨-, r, hr, huser, hline⟩ := hmade e List.mem_cons_self
      rw [hutmp.userlist] at hr
      refine ⟨r, hr, huser, ?_⟩
      rw [← htty]
      exact hline

theorem takeWhile_take {b : Bytes} (hb : (0 : UInt8) ∉ b) (n : Nat) :
    (b.take n).takeWhile (· != 0) = b.take n := by
  refine List.takeWhile_eq_self_iff.mpr fun c hc => ?_
  have hne : c ≠ 0 := fun h0 => hb (h0 ▸ List.mem_of_mem_take hc)
  simpa using hne

theorem cstr_field (b : Bytes) (n : Nat) : (cstr (b.take n ++ [0])).chars
    = (b.take n).takeWhile (· != 0) := by
  have h : ∀ l : Bytes, (l ++ [0]).takeWhile (· != 0) = l.takeWhile (· != 0) := by
    intro l
    induction l with
    | nil => rfl
    | cons c l ih =>
        rw [List.cons_append, List.takeWhile_cons, List.takeWhile_cons, ih]
  exact h _

theorem length_field (b : Bytes) (n : Nat) : (cstr (b.take n ++ [0])).chars.length ≤ n := by
  rw [cstr_field]
  exact (List.takeWhile_sublist _).length_le.trans (List.length_take_le _ _)

theorem known_length (hknown : x.Known user) : user.chars.length ≤ utxUsersize := by
  obtain ⟨r, -, -, -, rfl⟩ := isloggedin_record hknown.loggedin
  exact length_field _ _

/-- A device that the user is on. -/
theorem isontty_own {recs : List Utmp} (hutmp : x.env.Steady recs) (hknown : x.Known user)
    (hdev : tty.isDevice) (h : isontty x.env user tty = true) :
    ∃ r ∈ recs, r.user = user ∧ tty.chars = text "/dev/" ++ r.line.chars := by
  obtain ⟨⟨rest, hrest⟩, hlen⟩ := hdev
  have hdevlen : (text "/dev/").length = 5 := by decide
  have hnul : (0 : UInt8) ∉ rest := fun h0 =>
    tty.nulFree (hrest ▸ List.mem_append_right _ h0)
  have hrestlen : rest.length ≤ utxLinesize := by
    rw [← hrest, List.length_append, hdevlen] at hlen
    omega
  have hskip : (tty.chars ++ 0 :: x.env.beyond).drop 5 = rest ++ 0 :: x.env.beyond := by
    rw [← hrest, List.append_assoc, ← hdevlen, List.drop_left]
  have hread : cstr (rest ++ 0 :: x.env.beyond) = ⟨rest, hnul⟩ :=
    cstr_terminated ⟨rest, hnul⟩ x.env.beyond
  unfold isontty at h
  rw [hskip, hread] at h
  dsimp only at h
  rw [List.take_of_length_le hrestlen] at h
  split at h
  · simp at h
  · rename_i utUser hget
    obtain ⟨r, hr, hline, rfl⟩ := hutmp.getutxline _ _ hget
    refine ⟨r, hr, CString.ext ?_, ?_⟩
    · have hname : user.chars.length ≤ utxLinesize := known_length hknown
      rw [strncmpEq, beq_iff_eq, takeWhile_take user.nulFree, List.take_of_length_le hname] at h
      rw [Utmp.user, cstr_field]
      exact h
    · rw [strncmpEq, beq_iff_eq, takeWhile_take hnul, List.take_of_length_le hrestlen] at hline
      rw [← hrest, Utmp.line, cstr_field, hline]

theorem isDevice_line {r : Utmp} (h : tty.chars = text "/dev/" ++ r.line.chars) : tty.isDevice := by
  have hdevlen : (text "/dev/").length = 5 := by decide
  have hline : r.line.chars.length ≤ utxLinesize := length_field _ _
  refine ⟨⟨r.line.chars, h.symm⟩, ?_⟩
  rw [h, List.length_append, hdevlen]
  omega

/-- A preference counts if the user is on it. -/
theorem preferred_isontty (h : x.preferred user = some tty) : isontty x.env user tty = true := by
  obtain ⟨e, he, rfl⟩ := Option.map_eq_some_iff.mp h
  rw [Option.filter_eq_some_iff, Bool.and_eq_true] at he
  exact he.2.1

/--
**Which terminals `MSG` opens.**  With a utmp file that stays the same, they are terminals
of the user if and only if a preference that is opened is the path of a device.
-/
theorem msg_opens_iff (h : Run (server mem) hist s) (hst : st ∈ hist) (hx : Handles st x)
    (hop : x.cmd.get = .msg) (huser : x.cmd.addressee = some user) {recs : List Utmp}
    (hutmp : x.env.Steady recs) :
    OpensOwn recs user st.out ↔
      ∀ tty, x.preferred user = some tty → x.Opens user tty → tty.isDevice := by
  have hopens : ∀ path, path ∈ opens st.out ↔ x.Opens user path := by
    intro path
    rw [handles_msg h hst hx hop, (msg_fate x).opens_iff, huser]
    simp
  constructor
  · intro hown tty _ hopen
    obtain ⟨r, -, -, hline⟩ := hown tty ((hopens tty).mpr hopen)
    exact isDevice_line hline
  · intro hdev path hpath
    have hopen := (hopens path).mp hpath
    cases hpref : x.preferred user with
    | none =>
        have hfirst := hopen.terminal
        rw [Call.terminal, hpref] at hfirst
        exact firstTty_own hutmp hopen.known hfirst
    | some tty =>
        have hterm := hopen.terminal
        rw [Call.terminal, hpref] at hterm
        obtain rfl : tty = path := Option.some.inj hterm
        exact isontty_own hutmp hopen.known (hdev tty hpref hopen) (preferred_isontty hpref)

theorem onPts_steady : Env.onPts.Steady [.onPts] := by
  refine ⟨rfl, rfl, ?_⟩
  intro line user hget
  change (if line = text "pts/0" then some [97] else none) = some user at hget
  split at hget
  · rename_i hline
    rw [hline]
    exact ⟨_, List.mem_singleton_self _, by decide, Option.some.inj hget⟩
  · simp at hget

theorem greeting_addressee : greeting.addressee = some ⟨[97], by decide⟩ := by decide

/-- A message for somebody who has asked for `/dev/pts/0`. -/
theorem msg_opens_device : ∃ hist s st x, Run (server .enough) hist s ∧ st ∈ hist ∧
    Handles st x ∧ x.cmd = greeting ∧ opens st.out = [cstr (text "/dev/pts/0")] ∧
    OpensOwn [.onPts] ⟨[97], by decide⟩ st.out := by
  obtain ⟨hist, s, st, h, hst, hx, hpref, hopens⟩ := run_onPts
    [arrives 4,
      .netcmd 0 (setprefCmd ⟨[97], by decide⟩ ⟨text "/dev/pts/0", by decide⟩ 1 1) .onPts] greeting rfl
    (fun s => (s.call 0 greeting .onPts).preferred ⟨[97], by decide⟩ = some (cstr (text "/dev/pts/0"))
      ∧ opens (handleMsg (s.call 0 greeting .onPts)).effects = [cstr (text "/dev/pts/0")])
    (by decide +kernel)
  refine ⟨hist, s, st, _, h, hst, hx, rfl, ?_,
    (msg_opens_iff h hst hx rfl greeting_addressee onPts_steady).mpr ?_⟩
  · rw [handles_msg h hst hx rfl, hopens]
  · intro tty htty _
    obtain rfl := Option.some.inj (hpref.symm.trans htty)
    exact ⟨⟨text "pts/0", by decide⟩, by decide⟩

/-- A user sets a terminal that is compared with `pts/0` and is another one. -/
theorem not_msg_opens : ∃ hist s st x, Run (server .enough) hist s ∧ st ∈ hist ∧
    Handles st x ∧ x.cmd = greeting ∧ x.env.Steady [.onPts] ∧
    ¬ OpensOwn [.onPts] ⟨[97], by decide⟩ st.out := by
  obtain ⟨hist, s, st, h, hst, hx, hopens⟩ := run_onPts
    [arrives 4,
      .netcmd 0 (setprefCmd ⟨[97], by decide⟩ ⟨text "/tmp/pts/0", by decide⟩ 1 1) .onPts] greeting rfl
    (fun s => opens (handleMsg (s.call 0 greeting .onPts)).effects = [cstr (text "/tmp/pts/0")])
    (by decide +kernel)
  refine ⟨hist, s, st, _, h, hst, hx, rfl, onPts_steady, fun hown => ?_⟩
  rw [handles_msg h hst hx rfl] at hown
  obtain ⟨r, hr, -, hline⟩ := hown (cstr (text "/tmp/pts/0")) (by rw [hopens]; simp)
  obtain rfl := List.mem_singleton.mp hr
  exact absurd hline (by decide)

/-! ### Short terminals -/

/-- **What is read behind the end.** -/
theorem MsgFate.overread_iff (h : MsgFate x who line o) : .overread ∈ o.effects ↔
    ∃ user, who = some user ∧ x.Known user ∧ .overread ∈ x.past user := by
  have hiff : ∀ {user : CString}, who = some user → x.Known user →
      ∀ more, o.effects = x.past user ++ more → .overread ∉ more →
      (.overread ∈ o.effects ↔
        ∃ user, who = some user ∧ x.Known user ∧ .overread ∈ x.past user) := by
    intro user huser hknown more heff hmore
    rw [heff, List.mem_append, or_iff_left hmore]
    constructor
    · intro hpast
      exact ⟨user, huser, hknown, hpast⟩
    · intro hex
      obtain ⟨v, hv, -, hpast⟩ := hex
      rw [huser, Option.some.injEq] at hv
      exact hv ▸ hpast
  cases h with
  | unknown m hno hnak heff =>
      rw [heff]
      refine iff_of_false (by simp [Call.reply]) ?_
      intro hex
      obtain ⟨user, huser, hknown, -⟩ := hex
      exact hno user huser hknown
  | shut user m huser hknown hno hnak heff =>
      exact hiff huser hknown _ heff (by simp [Call.reply])
  | failed user tty m huser hopens hno hnak heff =>
      exact hiff huser hopens.known _ heff (by simp [Call.reply])
  | delivered user tty huser hdel heff =>
      rw [List.append_assoc, List.append_assoc] at heff
      refine hiff huser hdel.known _ heff ?_
      unfold Call.bell
      split <;> simp [Call.reply]

/--
**How far a terminal is read.**  For a user with an entry, the terminal of the entry is
read from a place behind its NUL if and only if the user is known and the terminal has
fewer than five characters, as `none` has.
-/
theorem tty_read_iff (h : Run (server mem) hist s) (hst : st ∈ hist) (hx : Handles st x)
    (hop : x.cmd.get = .msg) (huser : x.cmd.addressee = some user) {e : UdataEnt}
    (hent : x.udata.udataGet (some user) = some e) :
    .overread ∉ st.out ↔ ¬ x.Known user ∨ 5 ≤ e.tty.chars.length := by
  have hpast : .overread ∈ x.past user ↔ e.tty.chars.length < 5 := by
    rw [Call.past, hent, ttyOverread, skipsNul]
    split <;> simp_all
  rw [handles_msg h hst hx hop, (msg_fate x).overread_iff, huser]
  simp only [Option.some.injEq, exists_eq_left', hpast, not_and_or, not_lt]

/-- A longer terminal is read inside. -/
theorem tty_read_long : ∃ hist s st x e, Run (server .enough) hist s ∧ st ∈ hist ∧
    Handles st x ∧ x.cmd = greeting ∧ x.udata.udataGet (some ⟨[97], by decide⟩) = some e ∧
    .overread ∉ st.out := by
  obtain ⟨hist, s, st, h, hst, hx, htty⟩ := run_onPts
    [arrives 4,
      .netcmd 0 (setprefCmd ⟨[97], by decide⟩ ⟨text "/dev/pts/0", by decide⟩ 1 1) .onPts] greeting rfl
    (fun s => (s.udata.udataGet (some ⟨[97], by decide⟩)).map (·.tty.chars.length) = some 10)
    (by decide +kernel)
  obtain ⟨e, he, hlen⟩ := Option.map_eq_some_iff.mp htty
  refine ⟨hist, s, st, _, e, h, hst, hx, rfl, he,
    (tty_read_iff h hst hx rfl greeting_addressee he).mpr (Or.inr ?_)⟩
  rw [hlen]
  decide

/-- The terminal `none` of somebody who has joined the chat is not. -/
theorem not_tty_read : ∃ hist s st x e, Run (server .enough) hist s ∧ st ∈ hist ∧
    Handles st x ∧ x.cmd = greeting ∧ x.udata.udataGet (some ⟨[97], by decide⟩) = some e ∧
    e.tty = ttysetUnset ∧ .overread ∈ st.out := by
  obtain ⟨hist, s, st, h, hst, hx, htty, hread⟩ := run_onPts
    [arrives 4, enters 0 [97] [97]] greeting rfl
    (fun s => (s.udata.udataGet (some ⟨[97], by decide⟩)).map (·.tty) = some ttysetUnset ∧
      Effect.overread ∈ (handleMsg (s.call 0 greeting .onPts)).effects)
    (by decide +kernel)
  obtain ⟨e, he, htty⟩ := Option.map_eq_some_iff.mp htty
  refine ⟨hist, s, st, _, e, h, hst, hx, rfl, he, htty, ?_⟩
  rw [handles_msg h hst hx rfl]
  exact hread

end Smsg
