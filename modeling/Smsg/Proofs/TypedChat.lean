/-
What is typed is said, and seen.

A chat with keyboards is a chat in which the lines have been typed: a character is no step
of it, or the one that enters a line (`typedChat_exec`).  So whatever is known of the chat
holds here as well.  And what a user enters are the lines that the reference editor makes of
the characters (`AtKeyboard.run`), each of them once.

So from the characters on, nothing that somebody says is lost, said twice, or said in
another order (`typed_is_said`), up to what the others have on their screens
(`typed_is_shown`).
-/
import Smsg.Proofs.Conversation
import Smsg.Proofs.Typing

namespace Smsg

open Machines Lines Tokens

/-! ### Steps -/

/-- The variables of a client that is inside. -/
def Member.vars : Member → Option LineVars
  | .inside _ _ l => some l
  | _ => none

/-- The names in its sidebar. -/
def Member.culist : Member → List CString
  | .inside _ v _ => v.culist
  | _ => []

/-- The line that a character enters. -/
def TypedChat.entered (histlen : Nat) (y : TypedChat) (i : Slot) (ch : Int) : Option InputLine :=
  match (y.room.peer i).member with
  | .inside _ v l =>
      match typeChar histlen (y.ed i) l.backspaceChar (v.culist, ch) with
      | .error _ => none
      | .ok (_, line) => line
  | _ => none

/-- What a step is in the chat without keyboards, where it is one. -/
def asChat (histlen : Nat) (st : TypedStep) : Option ChatroomStep :=
  match st.ev with
  | .chat e => some ⟨st.pre.room, e, st.post.room, st.out⟩
  | .key i ch =>
      (st.pre.entered histlen i ch).map fun line => ⟨st.pre.room, .line i line, st.post.room, st.out⟩

/-- A character that is typed at slot `i`. -/
def charBy (i : Slot) (st : TypedStep) : Option Typed :=
  match st.ev with
  | .chat _ => none
  | .key j ch => if j = i then some ((st.pre.room.peer i).member.culist, ch) else none

/-- The characters in some steps, oldest first. -/
def typedBy (i : Slot) (steps : List TypedStep) : List Typed := steps.reverse.filterMap (charBy i)

section

variable {histlen : Nat} {y y' : TypedChat} {e : ChatroomEvent} {i j : Slot} {ch : Int}
  {heard : Option (Slot × NetCmd)}

theorem asChat_some {st : TypedStep} {st' : ChatroomStep} (h : asChat histlen st = some st') :
    st'.pre = st.pre.room ∧ st'.post = st.post.room := by
  unfold asChat at h
  split at h
  · rw [← Option.some.inj h]
    exact ⟨rfl, rfl⟩
  · obtain ⟨line, -, rfl⟩ := Option.map_eq_some_iff.mp h
    exact ⟨rfl, rfl⟩

theorem inside_asChat {i : Slot} {later : List TypedStep}
    (h : ∀ st ∈ later, st.pre.room.Inside i ∧ st.post.room.Inside i) :
    ∀ st ∈ later.filterMap (asChat histlen), st.pre.Inside i ∧ st.post.Inside i := by
  intro st hst
  obtain ⟨st', hst', hsome⟩ := List.mem_filterMap.mp hst
  obtain ⟨hpre, hpost⟩ := asChat_some hsome
  rw [hpre, hpost]
  exact h st' hst'

/-- Something of the chat: only `chatter_func` makes a new editor, when it starts. -/
theorem TypedChat.chatStep_some (h : y.chatStep e = some (y', heard)) :
    y.room.step e = some (y'.room, heard) ∧ (∀ j line, e ≠ .line j line) ∧
      ((∀ more, e ≠ .answered i more) → y'.ed i = y.ed i) := by
  simp only [TypedChat.chatStep, Option.bind_eq_bind, Option.bind_eq_some_iff] at h
  obtain ⟨⟨room, heard'⟩, hstep, h⟩ := h
  rw [hstep]
  cases e with
  | line j line => cases h
  | answered j more =>
      obtain ⟨rfl, rfl⟩ := Prod.mk.inj (Option.some.inj h)
      refine ⟨rfl, by simp, fun hne => if_neg ?_⟩
      rintro rfl
      exact hne more rfl
  | _ =>
      obtain ⟨rfl, rfl⟩ := Prod.mk.inj (Option.some.inj h)
      exact ⟨rfl, by simp, fun _ => rfl⟩

/-- A character: it edits the line, or enters one. -/
theorem TypedChat.keyStep_some (h : y.keyStep histlen i ch = some (y', heard)) :
    ∃ user v l ed line, (y.room.peer i).member = .inside user v l ∧ l.exitloop = false ∧
      typeChar histlen (y.ed i) l.backspaceChar (v.culist, ch) = .ok (ed, line) ∧
      (∀ j, y'.ed j = if j = i then ed else y.ed j) ∧ y.entered histlen i ch = line ∧
      ((line = none ∧ y'.room = y.room) ∨
        ∃ t, line = some t ∧ y.room.step (.line i t) = some (y'.room, heard)) := by
  unfold TypedChat.keyStep at h
  split at h
  · rename_i user v l hmember
    split at h
    · cases h
    · rename_i hgoes
      have hentered : ∀ {ed line}, typeChar histlen (y.ed i) l.backspaceChar (v.culist, ch)
          = .ok (ed, line) → y.entered histlen i ch = line := by
        intro ed line htype
        simp only [TypedChat.entered, hmember, htype]
      split at h
      · cases h
      · rename_i ed htype
        obtain ⟨rfl, -⟩ := Prod.mk.inj (Option.some.inj h)
        exact ⟨user, v, l, ed, none, hmember, Bool.eq_false_of_not_eq_true hgoes, htype,
          fun _ => rfl, hentered htype, Or.inl ⟨rfl, rfl⟩⟩
      · rename_i ed line htype
        simp only [Option.bind_eq_bind, Option.bind_eq_some_iff] at h
        obtain ⟨⟨room, heard'⟩, hstep, h⟩ := h
        obtain ⟨rfl, rfl⟩ := Prod.mk.inj (Option.some.inj h)
        exact ⟨user, v, l, ed, some line, hmember, Bool.eq_false_of_not_eq_true hgoes, htype,
          fun _ => rfl, hentered htype, Or.inr ⟨line, rfl, hstep⟩⟩
  · cases h

/-- **A chat with keyboards is a chat.** -/
theorem typedChat_exec {later : List TypedStep} (hx : Exec (typedChat histlen) y later y') :
    Exec chatroom y.room (later.filterMap (asChat histlen)) y'.room := by
  refine hx.seen TypedChat.room (asChat histlen) ?_ ?_
  · rintro ⟨y, ev, y', heard⟩ hstep hnone
    cases ev with
    | chat e => cases hnone
    | key i ch =>
        obtain ⟨user, v, l, ed, line, -, -, -, -, hentered, hline⟩ := TypedChat.keyStep_some hstep
        rcases hline with ⟨-, hroom⟩ | ⟨t, rfl, -⟩
        · exact hroom
        · simp [asChat, hentered] at hnone
  · rintro ⟨y, ev, y', heard⟩ st' hstep hsome
    cases ev with
    | chat e =>
        obtain rfl := Option.some.inj hsome
        exact ⟨rfl, rfl, (TypedChat.chatStep_some (i := 0) hstep).1⟩
    | key i ch =>
        obtain ⟨user, v, l, ed, line, -, -, -, -, hentered, hline⟩ := TypedChat.keyStep_some hstep
        simp only [asChat, hentered, Option.map_eq_some_iff] at hsome
        obtain ⟨t, rfl, rfl⟩ := hsome
        rcases hline with ⟨hnone, -⟩ | ⟨t', ht, hroom⟩
        · cases hnone
        · obtain rfl := Option.some.inj ht
          exact ⟨rfl, rfl, hroom⟩

theorem typedChat_run {hist : List TypedStep} (h : Run (typedChat histlen) hist y) :
    Run chatroom (hist.filterMap (asChat histlen)) y.room := by
  obtain ⟨y₀, hinit, hx⟩ := h
  exact ⟨y₀.room, hinit, typedChat_exec hx⟩

end

/-! ### What concerns a keyboard -/

section

variable {y y' : Chatroom} {e : ChatroomEvent} {i : Slot} {heard : Option (Slot × NetCmd)}

theorem Chatroom.step_line {line : InputLine} (h : y.step (.line i line) = some (y', heard)) :
    ∃ p, (y.peer i).line line = some p ∧ y' = y.setPeer i p := by
  cases Chatroom.turn h with
  | line hline => exact ⟨_, hline, rfl⟩

theorem Chatroom.step_answered {more : Nat} (h : y.step (.answered i more) = some (y', heard)) :
    ∃ p, (y.peer i).answered more = some p ∧ y' = y.setPeer i p := by
  cases Chatroom.turn h with
  | answered hanswer => exact ⟨_, hanswer, rfl⟩

/-- Only its own lines change the variables of a client that is inside. -/
theorem Chatroom.step_vars (h : y.step e = some (y', heard)) (hi : y.Inside i) (hi' : y'.Inside i)
    (hline : ∀ line, e ≠ .line i line) :
    (y'.peer i).member.vars = (y.peer i).member.vars ∧ ∀ more, e ≠ .answered i more := by
  obtain ⟨user, v, l, hmember⟩ := Member.of_isInside hi.2
  obtain ⟨user', v', l', hmember'⟩ := Member.of_isInside hi'.2
  have htell : ∀ {ev : Event} {y₀ y₁ : Chatroom}, y₀.tell ev = some y₁ →
      (y₁.peer i).member = (y₀.peer i).member := by
    intro ev y₀ y₁ ht
    obtain ⟨out, -, hpeer⟩ := Chatroom.tell_some ht
    rw [hpeer, Peer.hear]
  have hkeeps : ∀ {k : Slot} {y₀ : Chatroom} {p : Peer},
      (k = i → p.member.vars = (y₀.peer k).member.vars) →
      ((y₀.setPeer k p).peer i).member.vars = (y₀.peer i).member.vars :=
    fun hp => Chatroom.setPeer_keeps (fun p => p.member.vars) hp
  have hout : ∀ {k : Slot} {y₀ : Chatroom} {p : Peer}, ((y₀.setPeer k p).peer i).member
      = .inside user' v' l' → p.member.isInside = false → k ≠ i := by
    rintro k y₀ p hpeer hp rfl
    rw [Chatroom.setPeer_self] at hpeer
    rw [hpeer] at hp
    cases hp
  cases Chatroom.turn h with
  | visit harrive =>
      obtain ⟨y₁, htold, -, hpeer⟩ := Chatroom.arrive_free harrive hi.1
      exact ⟨by rw [hpeer, htell htold], by simp⟩
  | chatter hnick harrive =>
      obtain ⟨y₁, htold, -, hpeer⟩ := Chatroom.arrive_free harrive hi.1
      exact ⟨by rw [hpeer, htell htold], by simp⟩
  | recvError htold => exact ⟨by rw [htell htold], by simp⟩
  | closed htold =>
      have hki := hout hmember' rfl
      rw [hkeeps fun hk => absurd hk hki, htell htold]
      exact ⟨rfl, by simp⟩
  | serve hup htold =>
      rw [htell htold, hkeeps (by rintro rfl; rfl)]
      exact ⟨rfl, by simp⟩
  | request => exact ⟨hkeeps (by rintro rfl; rfl), by simp⟩
  | @line k line p hline' =>
      exact ⟨hkeeps (by rintro rfl; exact absurd rfl (hline line)), by simp⟩
  | @answered k more p hanswer =>
      have hki : k ≠ i := by
        rintro rfl
        simp [Peer.answered, hmember] at hanswer
      refine ⟨hkeeps fun hk => absurd hk hki, fun more' heq => ?_⟩
      exact hki (ChatroomEvent.answered.inj heq).1
  | read hread =>
      refine ⟨hkeeps ?_, by simp⟩
      rintro rfl
      unfold Peer.read at hread
      split at hread
      · rename_i hin hdown
        simp only [Option.bind_eq_bind, Option.bind_eq_some_iff, Option.some.injEq,
          Prod.mk.injEq] at hread
        obtain ⟨⟨v', acts⟩, -, rfl, -⟩ := hread
        rw [hin]
        rfl
      · simp at hread
  | quit hquit =>
      have hki := hout hmember' (Peer.quit_finished hquit)
      exact ⟨hkeeps fun hk => absurd hk hki, by simp⟩
  | hangup hdown hdead =>
      have hki := hout hmember' rfl
      exact ⟨hkeeps fun hk => absurd hk hki, by simp⟩

end

/-! ### What a line says -/

section

variable {v l : LineVars} {op : NCMDOp} {p : Option Bytes} {t : Bytes} {c m : NetCmd}

/-- What is said is what was behind the name of the command, or less. -/
theorem commandAsks_said (h : (commandAsks v op p).2 = some m) (hop : m.op = .cSay ∨ m.op = .cMe) :
    ∃ a, m.args = [a] ∧ a.length ≤ (p.getD []).length := by
  have hshort : (restText p).length ≤ (p.getD []).length := by
    cases p with
    | none => exact Nat.le_refl 0
    | some s => exact (List.dropWhile_suffix _).length_le
  have hsame := commandAsks_op h
  rcases hop with hop | hop
  all_goals
    rw [hop] at hsame
    rw [← hsame] at h
    rw [← Option.some.inj h]
    exact ⟨_, rfl, hshort⟩

theorem lineAsks_said (h : (lineAsks v t).2 = some m) (hop : m.op = .cSay ∨ m.op = .cMe) :
    ∃ a, m.args = [a] ∧ a.length ≤ t.length := by
  have hprefix : (t.takeWhile (· != 0)).length ≤ t.length := (List.takeWhile_prefix _).length_le
  unfold lineAsks at h
  split at h
  · rename_i s hline
    split at h
    · obtain ⟨a, hargs, hle⟩ := commandAsks_said h hop
      have hrest : ((rest isspace s).getD []).length ≤ s.length := by
        cases hr : rest isspace s with
        | none => exact Nat.zero_le _
        | some r => exact (rest_suffix hr).length_le
      rw [hline, List.length_cons] at hprefix
      exact ⟨a, hargs, by omega⟩
    · cases h
  · obtain ⟨a, hargs, hle⟩ := commandAsks_said h hop
    exact ⟨a, hargs, Nat.le_trans hle hprefix⟩

/-- A command that says something gets to the server as it is. -/
theorem wholeCmd_saying (h : (lineAsks v t).2 = some m) (ht : t.length < 2 ^ 31)
    (hc : wholeCmd m.encode = some c) : saying [c] = saying [m] := by
  by_cases hop : m.op = .cSay ∨ m.op = .cMe
  · obtain ⟨a, hargs, hle⟩ := lineAsks_said h hop
    have hwhole : wholeCmd m.encode = some m := by
      refine wholeCmd_encode ?_ fun a' ha' => ?_
      · rw [hargs, List.length_singleton]
        omega
      · rw [hargs, List.mem_singleton] at ha'
        rw [ha']
        omega
    rw [Option.some.inj (hc.symm.trans hwhole)]
  · have hop' : ¬ (c.op = .cSay ∨ c.op = .cMe) := by rwa [wholeCmd_op hc]
    rw [saying_none hop, saying_none hop']

/-- **A line says what it asks to be said.** -/
theorem Peer.line_asks {p p' : Peer} {user : CString} {w : ChatterVars} {line : InputLine}
    (h : p.line line = some p') (hmember : p.member = .inside user w l) :
    p'.member.vars = some (lineAsks l line.chars).1 ∧
      saying (p'.up.drop p.up.length) = saying (lineAsks l line.chars).2.toList := by
  simp only [Peer.line, hmember, chatterLine_asks] at h
  split at h
  · cases h
  · cases hasks : (lineAsks l line.chars).2 with
    | none =>
        simp only [hasks, Option.map_none, Option.some.injEq] at h
        rw [← h]
        exact ⟨rfl, by rw [List.drop_length]; rfl⟩
    | some m =>
        simp only [hasks, Option.map_some, Option.bind_eq_bind, Option.bind_eq_some_iff,
          Option.some.injEq] at h
        obtain ⟨c, hc, rfl⟩ := h
        refine ⟨rfl, ?_⟩
        rw [List.drop_left]
        exact wholeCmd_saying hasks line.fits hc

end

/-! ### The keyboard of a client -/

/-- The key that erases, for a `chatter` that waits to get in. -/
def Member.eraseKey : Member → Option Int
  | .joining _ _ eraseKey => some eraseKey
  | _ => none

/-- The keyboard of a client inside has come to where the reference is. -/
structure AtKeyboard (y : TypedChat) (i : Slot) (r : RefTyping) : Prop where
  line : ∃ v, OnLine (y.ed i) v r.ed
  vars : (y.room.peer i).member.vars = some r.vars

section

variable {histlen : Nat} {y y' : TypedChat} {i : Slot} {r : RefTyping}

/-- `chatter_func` begins with a new line, and nothing has been said. -/
theorem TypedChat.begins {eraseKey : Int} {more : Nat} {heard : Option (Slot × NetCmd)}
    (hy : y.room.Fine) (h : y.chatStep (.answered i more) = some (y', heard))
    (hjoin : (y.room.peer i).member.eraseKey = some eraseKey) (hin : y'.room.Inside i) :
    AtKeyboard y' i (.start eraseKey) ∧ saying (y'.room.peer i).up = [] := by
  simp only [TypedChat.chatStep, Option.bind_eq_bind, Option.bind_eq_some_iff] at h
  obtain ⟨⟨room, heard'⟩, hstep, h⟩ := h
  obtain ⟨rfl, -⟩ := Prod.mk.inj (Option.some.inj h)
  obtain ⟨p, hp, rfl⟩ := Chatroom.step_answered hstep
  have hself : (y.room.setPeer i p).peer i = p := Chatroom.setPeer_self _ _ _
  have hfine := hy.peers i hin.1
  obtain ⟨user, v, l, hmember⟩ := Member.of_isInside hin.2
  change ((y.room.setPeer i p).peer i).member = _ at hmember
  rw [hself] at hmember
  unfold Peer.answered at hp
  split at hp
  · rename_i user' nick eraseKey' rbuf down hjoining hdown
    rw [hjoining] at hjoin
    obtain rfl := Option.some.inj hjoin
    simp only [Peer.Fine, hjoining] at hfine
    have hjoined : saying (y.room.peer i).up = [] := by
      rcases hfine.2 with hup | hup <;> rw [hup.1] <;> rfl
    split at hp
    · rw [← Option.some.inj hp] at hmember
      cases hmember
    · refine ⟨⟨⟨fun _ => none, ?_⟩, ?_⟩, ?_⟩
      · show OnLine (if i = i then Editor.init else y.ed i) _ _
        rw [if_pos rfl]
        exact (Typing.at_start eraseKey').line
      · show ((y.room.setPeer i p).peer i).member.vars = _
        rw [hself, ← Option.some.inj hp]
        rfl
      · show saying ((y.room.setPeer i p).peer i).up = _
        rw [hself, ← Option.some.inj hp, saying_append, hjoined]
        rfl
  · cases hp

theorem enteredBy_quiet {z z' : Chatroom} {e : ChatroomEvent} {heard : Option (Slot × NetCmd)}
    (h : ∀ line, e ≠ .line i line) : enteredBy i ⟨z, e, z', heard⟩ = [] := by
  cases e with
  | line j line =>
      refine if_neg ?_
      rintro rfl
      exact h line rfl
  | _ => rfl

/-- A character is typed. -/
theorem AtKeyboard.key {ch : Int} {heard : Option (Slot × NetCmd)} (h : AtKeyboard y i r)
    (hpos : 0 < histlen) (hstep : y.keyStep histlen i ch = some (y', heard)) (hup : ch ≠ keyUpChar) :
    AtKeyboard y' i (r.press ((y.room.peer i).member.culist, ch)) ∧
      saying (r.press ((y.room.peer i).member.culist, ch)).sent = saying r.sent ++
        (asChat histlen ⟨y, .key i ch, y', heard⟩).toList.flatMap (enteredBy i) := by
  obtain ⟨user, w, l, ed, line, hmember, hgoes, htype, hed, hentered, hline⟩ :=
    TypedChat.keyStep_some hstep
  obtain ⟨v, hon⟩ := h.line
  have hvars : l = r.vars := by
    have hvars := h.vars
    rw [hmember] at hvars
    exact Option.some.inj hvars
  subst hvars
  have hculist : (y.room.peer i).member.culist = w.culist := by rw [hmember]; rfl
  have hself : y'.ed i = ed := by rw [hed, if_pos rfl]
  rw [hculist, RefTyping.press, if_neg (by rw [hgoes]; exact Bool.false_ne_true)]
  have hkey : keyOf r.vars.backspaceChar w.culist ch = r.keyFor (w.culist, ch) := rfl
  rcases hon.typeChar hpos (c := (w.culist, ch)) hup hkey with
    ⟨hover, -⟩ | ⟨hne, st', v', hok, hon'⟩ | ⟨henter, st', v', t, hok, htext, hon'⟩
  · rw [hover] at htype
    cases htype
  · obtain ⟨rfl, rfl⟩ := Prod.mk.inj (Except.ok.inj (hok.symm.trans htype))
    have hnone : asChat histlen ⟨y, .key i ch, y', heard⟩ = none := by
      simp [asChat, hentered]
    rcases hline with ⟨-, hroom⟩ | ⟨t, ht, -⟩
    · rw [if_neg hne, hnone]
      refine ⟨⟨⟨v', hself ▸ hon'⟩, ?_⟩, (List.append_nil _).symm⟩
      rw [hroom]
      exact h.vars
    · cases ht
  · obtain ⟨rfl, rfl⟩ := Prod.mk.inj (Except.ok.inj (hok.symm.trans htype))
    have hsome : asChat histlen ⟨y, .key i ch, y', heard⟩
        = some ⟨y.room, .line i t, y'.room, heard⟩ := by
      simp [asChat, hentered]
    rcases hline with ⟨hnone, -⟩ | ⟨t', ht, hroom⟩
    · cases hnone
    · obtain rfl := Option.some.inj ht
      obtain ⟨p, hp, hroom⟩ := Chatroom.step_line hroom
      have hpeer : y'.room.peer i = p := by rw [hroom, Chatroom.setPeer_self]
      obtain ⟨hvars', hsaid⟩ := Peer.line_asks hp hmember
      rw [if_pos henter, hsome]
      refine ⟨⟨⟨v', hself ▸ hon'⟩, ?_⟩, ?_⟩
      · rw [hpeer, hvars', htext]
        rfl
      · have hentered' : enteredBy i ⟨y.room, .line i t, y'.room, heard⟩
            = saying (p.up.drop (y.room.peer i).up.length) := by
          rw [← hpeer]
          exact if_pos rfl
        rw [RefTyping.enter, saying_append, ← htext, ← hsaid, Option.toList_some,
          List.flatMap_singleton, hentered']

/-- What a step does to the line that is being typed. -/
theorem AtKeyboard.step {st : TypedStep} (h : AtKeyboard st.pre i r) (hpos : 0 < histlen)
    (hstep : (typedChat histlen).step st.pre st.ev = some (st.post, st.out))
    (hi : st.pre.room.Inside i) (hi' : st.post.room.Inside i)
    (hup : ∀ c ∈ charBy i st, c.2 ≠ keyUpChar) :
    AtKeyboard st.post i (r.pressAll (charBy i st).toList) ∧
      saying (r.pressAll (charBy i st).toList).sent
        = saying r.sent ++ ((asChat histlen st).toList.flatMap (enteredBy i)) := by
  obtain ⟨y, ev, y', heard⟩ := st
  dsimp only at h hstep hi hi'
  cases ev with
  | chat e =>
      obtain ⟨hroom, hnoline, hed⟩ := TypedChat.chatStep_some (i := i) hstep
      obtain ⟨hvars, hnew⟩ := Chatroom.step_vars hroom hi hi' (hnoline i)
      refine ⟨⟨?_, hvars.trans h.vars⟩, ?_⟩
      · rw [hed hnew]
        exact h.line
      · show _ = _ ++ (enteredBy i ⟨y.room, e, y'.room, heard⟩ ++ [])
        rw [enteredBy_quiet (hnoline i), List.append_nil, List.append_nil]
        rfl
  | key j ch =>
      by_cases hji : j = i
      · subst hji
        simp only [charBy, if_pos] at hup ⊢
        exact h.key hpos hstep (hup _ rfl)
      · obtain ⟨user, w, l, ed, line, -, -, -, hed, hentered, hline⟩ :=
          TypedChat.keyStep_some hstep
        have hsame : y'.ed i = y.ed i := by rw [hed, if_neg (Ne.symm hji)]
        simp only [charBy, if_neg hji]
        rcases hline with ⟨rfl, hroom⟩ | ⟨t, rfl, hroom⟩
        · refine ⟨⟨by rw [hsame]; exact h.line, by rw [hroom]; exact h.vars⟩, ?_⟩
          simp [asChat, hentered, RefTyping.pressAll]
        · have hother : ∀ line, ChatroomEvent.line j t ≠ .line i line :=
            fun line heq => hji (ChatroomEvent.line.inj heq).1
          obtain ⟨hvars, -⟩ := Chatroom.step_vars hroom hi hi' hother
          refine ⟨⟨by rw [hsame]; exact h.line, hvars.trans h.vars⟩, ?_⟩
          simp [asChat, hentered, RefTyping.pressAll, enteredBy_quiet hother]

/-- **What a user types is what the reference makes of it**, and what it says is entered. -/
theorem AtKeyboard.run {later : List TypedStep} (h : AtKeyboard y i r) (hpos : 0 < histlen)
    (hx : Exec (typedChat histlen) y later y')
    (hinside : ∀ st ∈ later, st.pre.room.Inside i ∧ st.post.room.Inside i)
    (hup : ∀ c ∈ typedBy i later, c.2 ≠ keyUpChar) :
    AtKeyboard y' i (r.pressAll (typedBy i later)) ∧
      saying (r.pressAll (typedBy i later)).sent
        = saying r.sent ++ (later.filterMap (asChat histlen)).reverse.flatMap (enteredBy i) := by
  induction hx with
  | nil => exact ⟨h, (List.append_nil _).symm⟩
  | @snoc hist y y' e heard hx hstep ih =>
      have htyped : typedBy i (⟨y, e, y', heard⟩ :: hist)
          = typedBy i hist ++ (charBy i ⟨y, e, y', heard⟩).toList := by
        rw [typedBy, List.reverse_cons, List.filterMap_append]
        simp only [List.filterMap_cons, List.filterMap_nil, typedBy]
        cases charBy i ⟨y, e, y', heard⟩ <;> rfl
      rw [htyped] at hup ⊢
      obtain ⟨hat, hsaid⟩ := ih (fun st hst => hinside st (List.mem_cons_of_mem _ hst))
        fun c hc => hup c (List.mem_append_left _ hc)
      obtain ⟨hin, hin'⟩ := hinside _ List.mem_cons_self
      obtain ⟨hat', hsaid'⟩ := hat.step hpos hstep hin hin' fun c hc =>
        hup c (List.mem_append_right _ (Option.mem_toList.mpr hc))
      have hpress : r.pressAll (typedBy i hist ++ (charBy i ⟨y, e, y', heard⟩).toList)
          = (r.pressAll (typedBy i hist)).pressAll (charBy i ⟨y, e, y', heard⟩).toList :=
        List.foldl_append
      rw [hpress]
      refine ⟨hat', hsaid'.trans ?_⟩
      rw [hsaid, List.append_assoc, List.filterMap_cons]
      cases asChat histlen ⟨y, e, y', heard⟩ with
      | none => simp
      | some st => simp

/-- What is typed from when a client gets inside. -/
theorem TypedChat.exec_typed {later : List TypedStep} {y₀ : TypedChat} {eraseKey : Int} {more : Nat}
    {heard : Option (Slot × NetCmd)} (hpos : 0 < histlen) (hfine₀ : y₀.room.Fine)
    (hjoin : (y₀.room.peer i).member.eraseKey = some eraseKey)
    (hbegin : (typedChat histlen).step y₀ (.chat (.answered i more)) = some (y, heard))
    (hfine : y.room.Fine) (hin : y.room.Inside i) (hx : Exec (typedChat histlen) y later y')
    (hinside : ∀ st ∈ later, st.pre.room.Inside i ∧ st.post.room.Inside i)
    (hup : ∀ c ∈ typedBy i later, c.2 ≠ keyUpChar) :
    saying ((RefTyping.start eraseKey).pressAll (typedBy i later)).sent
        = (later.filterMap (asChat histlen)).reverse.flatMap (servedFor i)
          ++ saying (y'.room.peer i).up ∧
      List.Forall₂ SaidAs ((later.filterMap (asChat histlen)).reverse.flatMap (servedFor i))
        ((later.filterMap (asChat histlen)).reverse.flatMap (saidFor i)) := by
  obtain ⟨hat, hnothing⟩ := TypedChat.begins hfine₀ hbegin hjoin hin
  obtain ⟨-, hsaid⟩ := hat.run hpos hx hinside hup
  obtain ⟨hserved, htold⟩ := hfine.exec_said (typedChat_exec hx) (inside_asChat hinside)
  rw [hnothing] at hserved
  refine ⟨?_, htold⟩
  rw [hsaid, ← hserved]
  rfl

/--
**What is typed is said once.**  From when a client gets inside, as long as it is there and no
line is recalled at its keyboard, the reference makes lines of the characters, and what these
lines say is handled in this order or still under way in the end.  Each of what is handled is
told to everybody once, in this order, under a name and as it was typed but for the translation,
whatever the others type, say and do meanwhile.
-/
theorem typed_is_said {hist later : List TypedStep} {y₀ : TypedChat} {eraseKey : Int} {more : Nat}
    {heard : Option (Slot × NetCmd)} (hpos : 0 < histlen) (h : Run (typedChat histlen) hist y₀)
    (hjoin : (y₀.room.peer i).member.eraseKey = some eraseKey)
    (hbegin : (typedChat histlen).step y₀ (.chat (.answered i more)) = some (y, heard))
    (hin : y.room.Inside i) (hx : Exec (typedChat histlen) y later y')
    (hinside : ∀ st ∈ later, st.pre.room.Inside i ∧ st.post.room.Inside i)
    (hup : ∀ c ∈ typedBy i later, c.2 ≠ keyUpChar) :
    saying ((RefTyping.start eraseKey).pressAll (typedBy i later)).sent
        = (later.filterMap (asChat histlen)).reverse.flatMap (servedFor i)
          ++ saying (y'.room.peer i).up ∧
      List.Forall₂ SaidAs ((later.filterMap (asChat histlen)).reverse.flatMap (servedFor i))
        ((later.filterMap (asChat histlen)).reverse.flatMap (saidFor i)) :=
  TypedChat.exec_typed hpos (chatroom_fine (typedChat_run h)) hjoin hbegin
    (chatroom_fine (typedChat_run (h.snoc hbegin))) hin hx hinside hup

end

/-! ### What is seen -/

/-- What `chatter_func` writes for a message. -/
def NetCmd.onScreen (m : NetCmd) : List ChatterAct := (chatterSays m).getD []

/-- The command is shown with a name, and as it was said but for the translation. -/
def ShownAs (c : NetCmd) (acts : List ChatterAct) : Prop :=
  ∃ (name : CString) (t : Bytes), (t = c.text 0 ∨ t = (c.text 0).map translateByte) ∧
    ((c.op = .cSay ∧ acts = [.asay 0 (text "[") [], .asay 0 (text "%s") [.str name],
        .asay 0 (text "]") [], .asay 0 (text " %s\n") [.str (cstr (t ++ [0]))]]) ∨
      (c.op = .cMe ∧ acts = [.asay 0 (text " --") [],
        .asay 0 (text "%s %s") [.str name, .str (cstr (t ++ [0]))], .asay 0 (text "\n") []]))

/-- What the client in slot `k` shows of the messages that it takes. -/
def shownBy (k : Slot) (st : ChatroomStep) : List (List ChatterAct) :=
  (heardBy k st.out).map NetCmd.onScreen

theorem SaidAs.shown {c m : NetCmd} (h : SaidAs c m) (hop : c.op = .cSay ∨ c.op = .cMe) :
    ShownAs c m.onScreen := by
  have hshown : ∀ {name t : Bytes}, (t = c.text 0 ∨ t = (c.text 0).map translateByte) →
      ShownAs c (NetCmd.onScreen ⟨c.op, [name, t]⟩) := by
    intro name t ht
    refine ⟨cstr (name ++ [0]), t, ht, ?_⟩
    have hname : (NetCmd.fetch ⟨c.op, [name, t]⟩ .null 0).printed = some (.str (cstr (name ++ [0]))) :=
      printed_arg rfl _
    have htext : (NetCmd.fetch ⟨c.op, [name, t]⟩ .null 1).printed = some (.str (cstr (t ++ [0]))) :=
      printed_arg rfl _
    rcases hop with hop | hop
    · refine Or.inl ⟨hop, ?_⟩
      rw [hop] at hname htext ⊢
      show (clSay _).getD [] = _
      rw [clSay, hname, htext]
      rfl
    · refine Or.inr ⟨hop, ?_⟩
      rw [hop] at hname htext ⊢
      show (clMe _).getD [] = _
      rw [clMe, hname, htext]
      rfl
  obtain ⟨name, rfl | rfl⟩ := h
  · exact hshown (Or.inl rfl)
  · exact hshown (Or.inr rfl)

theorem servedFor_op {i : Slot} {st : ChatroomStep} {c : NetCmd} (h : c ∈ servedFor i st) :
    c.op = .cSay ∨ c.op = .cMe := by
  unfold servedFor at h
  split at h
  · split at h
    · exact mem_saying h
    · cases h
  · cases h

theorem saidFor_sublist (i : Slot) (st : ChatroomStep) :
    (saidFor i st).Sublist (st.pre.told st.ev) := by
  unfold saidFor
  split
  · split
    · exact List.filter_sublist
    · exact List.nil_sublist _
  · exact List.nil_sublist _

section

variable {histlen : Nat} {y y' : TypedChat} {i k : Slot}

/--
**What is typed is seen.**  From when a client gets inside, as long as it and a client that
looks on are there and no line is recalled at its keyboard, what its lines say is handled in
this order or still under way in the end.  The client that looks on shows each of what is
handled once, in this order, with a name and as it was typed but for the translation, or it is
still on its way to it in the end.
-/
theorem typed_is_shown {hist later : List TypedStep} {y₀ : TypedChat} {eraseKey : Int} {more : Nat}
    {heard : Option (Slot × NetCmd)} (hpos : 0 < histlen) (h : Run (typedChat histlen) hist y₀)
    (hjoin : (y₀.room.peer i).member.eraseKey = some eraseKey)
    (hbegin : (typedChat histlen).step y₀ (.chat (.answered i more)) = some (y, heard))
    (hin : y.room.Inside i) (hx : Exec (typedChat histlen) y later y')
    (hinside : ∀ st ∈ later, st.pre.room.Inside i ∧ st.post.room.Inside i)
    (hlook : ∀ st ∈ later, st.pre.room.Inside k ∧ st.post.room.Inside k)
    (hup : ∀ c ∈ typedBy i later, c.2 ≠ keyUpChar) :
    ∃ served shown,
      saying ((RefTyping.start eraseKey).pressAll (typedBy i later)).sent
        = served ++ saying (y'.room.peer i).up ∧
      List.Forall₂ ShownAs served shown ∧
      shown.Sublist ((later.filterMap (asChat histlen)).reverse.flatMap (shownBy k)
        ++ (y'.room.peer k).down.map NetCmd.onScreen) := by
  have hfine := chatroom_fine (typedChat_run (h.snoc hbegin))
  obtain ⟨hserved, hsaid⟩ := TypedChat.exec_typed hpos (chatroom_fine (typedChat_run h)) hjoin
    hbegin hfine hin hx hinside hup
  have hread := hfine.exec_told (typedChat_exec hx) (inside_asChat hlook)
  generalize later.filterMap (asChat histlen) = chat at hserved hsaid hread ⊢
  refine ⟨_, (chat.reverse.flatMap (saidFor i)).map NetCmd.onScreen, hserved, ?_, ?_⟩
  · have hops : ∀ c ∈ chat.reverse.flatMap (servedFor i), c.op = .cSay ∨ c.op = .cMe := by
      intro c hc
      obtain ⟨st, -, hst⟩ := List.mem_flatMap.mp hc
      exact servedFor_op hst
    rw [List.forall₂_map_right_iff]
    exact ((List.forall₂_and_left _ _).mpr ⟨hops, hsaid⟩).imp fun c m hcm => hcm.2.shown hcm.1
  · have htold : (chat.reverse.flatMap (saidFor i)).Sublist
        (chat.reverse.flatMap fun st => st.pre.told st.ev) :=
      List.Sublist.flatMap_right _ fun st _ => saidFor_sublist i st
    have hcome : (chat.reverse.flatMap fun st => st.pre.told st.ev).Sublist
        (chat.reverse.flatMap (fun st => publicly (heardBy k st.out))
          ++ publicly (y'.room.peer k).down) := by
      rw [← hread]
      exact List.sublist_append_right _ _
    have htaken : (chat.reverse.flatMap fun st => publicly (heardBy k st.out)).Sublist
        (chat.reverse.flatMap fun st => heardBy k st.out) :=
      List.Sublist.flatMap_right _ fun st _ => List.filter_sublist
    have hshown : chat.reverse.flatMap (shownBy k)
        = (chat.reverse.flatMap fun st => heardBy k st.out).map NetCmd.onScreen :=
      List.map_flatMap.symm
    rw [hshown, ← List.map_append]
    exact ((htold.trans hcome).trans (htaken.append List.filter_sublist)).map _

/-- Two users join, and the answer to the second one's join is there. -/
def typedJoins : List TypedEvent :=
  [.chat (.chatter 4 ⟨127, 0, 0, 1⟩ (cstr [97]) (cstr [97]) 8),
    .chat (.chatter 5 ⟨127, 0, 0, 1⟩ (cstr [98]) (cstr [98]) 8), .chat (.serve 1 .bare),
    .chat (.answered 1 0), .chat (.serve 0 .bare)]

/-- They both type a line, the second one is handled first, and one of them reads. -/
def typedBoth : List TypedEvent :=
  [.chat (.serve 0 .bare), .key 0 104, .key 1 111, .chat (.serve 1 .bare), .key 0 105, .key 1 13,
    .key 0 10, .chat (.serve 1 .bare), .chat (.serve 0 .bare), .chat (.read 1), .chat (.read 1),
    .chat (.read 1), .chat (.read 1)]

/-- What the first of two users types is all handled, and the other one has read everything. -/
theorem typing_two : ∃ hist later y₀ y y' heard, Run (typedChat 3) hist y₀ ∧
    (typedChat 3).step y₀ (.chat (.answered 0 0)) = some (y, heard) ∧
    Exec (typedChat 3) y later y' ∧
    (y₀.room.peer 0).member.eraseKey = some 8 ∧ y.room.Inside 0 ∧
    (∀ st ∈ later, ∀ k ≤ 1, st.pre.room.Inside k ∧ st.post.room.Inside k) ∧
    (∀ c ∈ typedBy 0 later, c.2 ≠ keyUpChar) ∧ (typedBy 0 later).map (·.2) = [104, 105, 10] ∧
    (y'.room.peer 0).up.length = 0 ∧ (y'.room.peer 1).down.length = 0 ∧
    saying ((RefTyping.start 8).pressAll (typedBy 0 later)).sent = [⟨.cSay, [text "hi"]⟩] := by
  have hrun : (exec (typedChat 3) ⟨.initial 3, fun _ => .init⟩ typedJoins []).any (fun r =>
      ((typedChat 3).step r.2 (.chat (.answered 0 0))).any fun b =>
        (exec (typedChat 3) b.1 typedBoth []).any fun r' : List TypedStep × TypedChat =>
          decide ((r.2.room.peer 0).member.eraseKey = some 8) && decide (b.1.room.Inside 0) &&
          decide (∀ st ∈ r'.1, ∀ k ≤ 1, st.pre.room.Inside k ∧ st.post.room.Inside k) &&
          decide (∀ c ∈ typedBy 0 r'.1, c.2 ≠ keyUpChar) &&
          decide ((typedBy 0 r'.1).map (·.2) = [104, 105, 10]) &&
          decide ((r'.2.room.peer 0).up.length = 0) &&
          decide ((r'.2.room.peer 1).down.length = 0) &&
          decide (saying ((RefTyping.start 8).pressAll (typedBy 0 r'.1)).sent
            = [⟨.cSay, [text "hi"]⟩])) = true := by
    decide +kernel
  obtain ⟨⟨hist, y₀⟩, hexec, hrest⟩ := (Option.any_eq_true _ _).mp hrun
  obtain ⟨⟨y, heard⟩, hbegin, hrest⟩ := (Option.any_eq_true _ _).mp hrest
  obtain ⟨⟨later, y'⟩, hexec', hproj⟩ := (Option.any_eq_true _ _).mp hrest
  simp only [Bool.and_eq_true, decide_eq_true_eq, and_assoc] at hproj
  exact ⟨hist, later, y₀, y, y', heard, ⟨_, ⟨3, by decide, rfl⟩, exec_sound _ .nil hexec⟩, hbegin,
    exec_sound _ .nil hexec', hproj⟩

/-- What the first of two users types is told. -/
theorem typed_is_said_two : ∃ hist later y, Run (typedChat 3) hist y ∧ ∃ y',
    Exec (typedChat 3) y later y' ∧ (typedBy 0 later).map (·.2) = [104, 105, 10] ∧
    ∃ m, SaidAs ⟨.cSay, [text "hi"]⟩ m ∧
      (later.filterMap (asChat 3)).reverse.flatMap (saidFor 0) = [m] := by
  obtain ⟨hist, later, y₀, y, y', heard, h, hbegin, hx, hjoin, hin, hinside, hup, htyped, hempty, -,
    hsent⟩ := typing_two
  obtain ⟨hserved, hsaid⟩ := typed_is_said (by decide) h hjoin hbegin hin hx
    (fun st hst => hinside st hst 0 (by decide)) hup
  have hnone : saying (y'.room.peer 0).up = [] := by
    rw [List.length_eq_zero_iff.mp hempty]
    rfl
  rw [hsent, hnone, List.append_nil] at hserved
  rw [← hserved] at hsaid
  obtain ⟨m, l, hm, hnil, hl⟩ := List.forall₂_cons_left_iff.mp hsaid
  obtain rfl := List.forall₂_nil_left_iff.mp hnil
  exact ⟨_, later, y, h.snoc hbegin, y', hx, htyped, m, hm, hl⟩

/-- And the second one has it on the screen. -/
theorem typed_is_shown_two : ∃ hist later y, Run (typedChat 3) hist y ∧ ∃ y',
    Exec (typedChat 3) y later y' ∧ (typedBy 0 later).map (·.2) = [104, 105, 10] ∧
    ∃ acts ∈ (later.filterMap (asChat 3)).reverse.flatMap (shownBy 1),
      ShownAs ⟨.cSay, [text "hi"]⟩ acts := by
  obtain ⟨hist, later, y₀, y, y', heard, h, hbegin, hx, hjoin, hin, hinside, hup, htyped, hempty,
    hread, hsent⟩ := typing_two
  obtain ⟨served, shown, hserved, hshown, hseen⟩ := typed_is_shown (by decide) h hjoin hbegin hin hx
    (fun st hst => hinside st hst 0 (by decide)) (fun st hst => hinside st hst 1 (by decide)) hup
  rw [List.length_eq_zero_iff.mp hread, List.map_nil, List.append_nil] at hseen
  have hnone : saying (y'.room.peer 0).up = [] := by
    rw [List.length_eq_zero_iff.mp hempty]
    rfl
  rw [hsent, hnone, List.append_nil] at hserved
  rw [← hserved] at hshown
  obtain ⟨acts, l, hacts, hnil, rfl⟩ := List.forall₂_cons_left_iff.mp hshown
  exact ⟨_, later, y, h.snoc hbegin, y', hx, htyped, acts, hseen.subset List.mem_cons_self, hacts⟩

end

end Smsg
