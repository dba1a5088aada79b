/-
What is typed is what is sent.

`RefTyping` is what the keyboard of a client is for: a line is edited, and when it is
entered it is read as `lineAsks` has it, word by word, and the next line is a new one.  The
code does this with a history of buffers that are moved, freed and allocated again, and
with pointers that are moved over a copy of the line.

As long as no line is recalled there are no copies in the history (`Plain`), and the
fresh line is the one that the cursor is in.  So every character does to the fresh line
what the reference does (`Follow.press`), and a whole session is followed
(`typed_is_sent`); a key that recalls a line ends that.
-/
import Smsg.Typing
import Smsg.Proofs.History
import Smsg.Proofs.Lines

namespace Smsg

open Heaps Lines

/-! ### The reference -/

/-- A line that is edited, the variables, and the commands that have been asked for. -/
structure RefTyping where
  ed : RefEditor
  vars : LineVars
  sent : List NetCmd

namespace RefTyping

def start (eraseKey : Int) : RefTyping := ⟨⟨Line.empty, true⟩, ⟨eraseKey, none, false⟩, []⟩

/-- What a character means. -/
def keyFor (r : RefTyping) (c : Typed) : Key := keyOf r.vars.backspaceChar c.1 c.2

/-- Entering the line. -/
def enter (r : RefTyping) : RefTyping where
  ed := { r.ed with line := Line.empty }
  vars := (lineAsks r.vars r.ed.line.text).1
  sent := r.sent ++ (lineAsks r.vars r.ed.line.text).2.toList

/-- One character. -/
def press (r : RefTyping) (c : Typed) : RefTyping :=
  if r.vars.exitloop then r
  else if r.keyFor c = .keyEnter then r.enter
  else { r with ed := r.ed.key (r.keyFor c) }

/-- One character after the other. -/
def pressAll (r : RefTyping) (cs : List Typed) : RefTyping := cs.foldl press r

/-- Each character finds a line that is short enough for the computations with `int`. -/
def Short (r : RefTyping) : List Typed → Prop
  | [] => True
  | c :: cs =>
      (r.vars.exitloop = true ∨ r.ed.line.text.length + 110 ≤ intMax
        ∧ r.ed.line.text.length + (r.ed.written (r.keyFor c)).length ≤ intMax)
        ∧ (r.press c).Short cs

end RefTyping

/-- Looking at the characters one after the other. -/
def RefTyping.decShort (r : RefTyping) : (cs : List Typed) → Decidable (r.Short cs)
  | [] => .isTrue trivial
  | c :: cs =>
      have : Decidable ((r.press c).Short cs) := decShort (r.press c) cs
      inferInstanceAs (Decidable (_ ∧ (r.press c).Short cs))

instance (r : RefTyping) (cs : List Typed) : Decidable (r.Short cs) := r.decShort cs

/-- `KEY_UP`, which recalls a line where there is one. -/
def keyUpChar : Int := 0o403

theorem else_of {α : Type} {p : Prop} [Decidable p] {a b c : α} (h : (if p then a else b) = c)
    (hne : a ≠ c) : b = c := by
  by_cases hp : p
  · rw [if_pos hp] at h
    exact absurd h hne
  · rwa [if_neg hp] at h

theorem keyOf_up {backspaceChar ch : Int} {culist : List CString}
    (h : keyOf backspaceChar culist ch = .keyUp) : ch = keyUpChar := by
  unfold keyOf at h
  by_cases hb : ch = backspaceChar
  · rw [if_pos hb] at h
    change Key.keyBackspace = Key.keyUp at h
    cases h
  · rw [if_neg hb] at h
    by_contra hch
    have htab := else_of h (by simp)
    have hhome := else_of htab (by simp)
    have hend := else_of hhome (by simp)
    have hleft := else_of hend (by simp)
    have hright := else_of hleft (by simp)
    have hdc := else_of hright (by simp)
    have hback := else_of hdc (by simp)
    have hctrlU := else_of hback (by simp)
    have hic := else_of hctrlU (by simp)
    rw [if_neg (show ch ≠ 0o403 from hch)] at hic
    have hdown := else_of hic (by simp)
    have hother := else_of hdown (by simp)
    have henter := else_of hother (by simp)
    cases henter

/-! ### The fresh line -/

section

variable {histlen : Nat} {st st' : Editor} {v : Cell → Option (List (Option UInt8))} {r : RefEditor}

/-- What a line was entered in is gone, and the next line is a new one. -/
theorem keyEnter_fresh {line : Option Bytes} (hq : st.ibqi = 0)
    (h : keyEnter histlen st = .ok (st', line)) :
    FreshLine st' ∧ st'.insertmode = st.insertmode := by
  have htake : takeEntered st = .ok st := if_neg (not_not.mpr hq)
  rw [keyEnter, shiftHistory, htake] at h
  cases hshown : shownLine st with
  | error e =>
      rw [hshown] at h
      cases h
  | ok bufcopy =>
      rw [hshown] at h
      cases hdrop : dropOldest histlen st with
      | error e =>
          simp only [bind, Except.bind, hdrop] at h
          cases h
      | ok st₁ =>
          simp only [bind, Except.bind, hdrop] at h
          obtain ⟨rfl, -⟩ := Prod.mk.inj (Except.ok.inj h)
          simp only [dropOldest, bind, Except.bind] at hdrop
          split at hdrop
          · cases hdrop
          · split at hdrop
            · cases hdrop
            · split at hdrop
              · cases hdrop
              · obtain rfl := Except.ok.inj hdrop
                exact ⟨⟨rfl, by simp, rfl⟩, rfl⟩

/-- The editor in a session without recalling, on the line of the reference. -/
structure OnLine (st : Editor) (v : Cell → Option (List (Option UInt8))) (r : RefEditor) : Prop where
  plain : Plain st v
  line : LineIn v (0, 0) (st.iqueue (0, 0)) r.line.text
  cursor : st.ibufPos = r.line.cursor
  mode : st.insertmode = r.insertmode

theorem OnLine.lineState (h : OnLine st v r) :
    LineState (fun c => (st.iqueue c).ibuf) v st r where
  owns := h.plain.owns
  ptr := rfl
  line := by
    rw [h.plain.ibqi]
    exact h.line
  cursor := h.cursor
  mode := h.mode

/-- The fresh line has been changed. -/
theorem OnLine.changed (h : OnLine st v r) {bs : Ibuf} {r' : RefEditor}
    (hqueue : st'.iqueue = Function.update st.iqueue (0, 0) bs)
    (hc : Changed st.heap (fun c => (st.iqueue c).ibuf) v (0, 0) st'.heap bs r'.line.text)
    (hq : st'.ibqi = 0) (hcursor : st'.ibufPos = r'.line.cursor)
    (hmode : st'.insertmode = r'.insertmode) :
    ∃ b, OnLine st' (Function.update v (0, 0) (some b)) r' ∧ TextIn bs b r'.line.text := by
  obtain ⟨b, ht, hp⟩ := h.plain.changed hqueue hc hq (by rw [hcursor]; exact r'.line.inside)
  have hself : st'.iqueue (0, 0) = bs := by rw [hqueue, Function.update_self]
  refine ⟨b, ⟨hp, Or.inr ⟨b, Function.update_self .., ?_⟩, hcursor, hmode⟩, ht⟩
  rw [hself]
  exact ht

/-- A key that edits the line. -/
theorem OnLine.edit (h : OnLine st v r) (histlen : Nat) {key : Key} (hkey : key.isEdit = true) :
    (chatterKey histlen st key = .error .overflow
        ∧ (intMax < r.line.text.length + 110
          ∨ intMax < r.line.text.length + (r.written key).length))
      ∨ ∃ st' v', chatterKey histlen st key = .ok (st', none) ∧ OnLine st' v' (r.key key) := by
  rcases edit_refines histlen h.lineState key hkey with hover | ⟨st', hok, hedited⟩
  · exact .inl hover
  · obtain ⟨bs, hqueue, hc⟩ := hedited.queue
    rw [h.plain.ibqi] at hqueue hc
    obtain ⟨b, h', -⟩ := h.changed hqueue hc (hedited.ibqi.trans h.plain.ibqi) hedited.cursor
      hedited.mode
    exact .inr ⟨st', _, hok, h'⟩

/-- The state in which the switch finds the editor: the same line, with room behind it. -/
theorem OnLine.room (h : OnLine st v r) (histlen : Nat) (key : Key) :
    (chatterKey histlen st key = .error .overflow ∧ intMax < r.line.text.length + 110)
      ∨ ∃ st' v' b, chatterKey histlen st key = switchKey histlen st' key ∧ OnLine st' v' r
        ∧ v' (0, 0) = some b ∧ TextIn (st'.iqueue (0, 0)) b r.line.text
        ∧ (st'.iqueue (0, 0)).ulen + 10 < (st'.iqueue (0, 0)).ttlen := by
  rcases makeRoom_spec h.plain.owns rfl h.line with ⟨hover, hlong⟩ | ⟨heap, bs, hok, hc, hslack⟩
  · rw [← h.plain.ibqi] at hover
    exact .inl ⟨chatterKey_room key hover, hlong⟩
  · rw [← h.plain.ibqi] at hok
    have hswitch := chatterKey_switch histlen key hok
    generalize hst : ({ st with
        heap := heap, iqueue := Function.update st.iqueue (st.ibqi, 0) bs } : Editor) = st' at hswitch
    have hqueue : st'.iqueue = Function.update st.iqueue (0, 0) bs := by rw [← hst, h.plain.ibqi]
    have hself : st'.iqueue (0, 0) = bs := by rw [hqueue, Function.update_self]
    obtain ⟨b, h', ht⟩ := h.changed hqueue (by rw [← hst]; exact hc)
      (by rw [← hst]; exact h.plain.ibqi) (by rw [← hst]; exact h.cursor)
      (by rw [← hst]; exact h.mode)
    exact .inr ⟨st', _, b, hswitch, h', Function.update_self .., by rwa [hself], by rwa [hself]⟩

/-- The line is entered. -/
theorem OnLine.enter (h : OnLine st v r) (hpos : 0 < histlen) :
    (chatterKey histlen st .keyEnter = .error .overflow ∧ intMax < r.line.text.length + 110)
      ∨ ∃ st' v', chatterKey histlen st .keyEnter = .ok (st', some r.line.text)
        ∧ OnLine st' v' { r with line := Line.empty } := by
  rcases h.room histlen .keyEnter with hover | ⟨st₁, v₁, b, hswitch, h₁, hb, ht, hslack⟩
  · exact .inl hover
  · obtain ⟨st', v', henter, hp'⟩ := h₁.plain.enter hpos hb ht hslack
    obtain ⟨hfresh, hmode⟩ := keyEnter_fresh h₁.plain.ibqi henter
    refine .inr ⟨st', v', ?_, hp', Or.inl ⟨hfresh.ibuf, rfl⟩, hfresh.pos, hmode.trans h₁.mode⟩
    rw [hswitch]
    exact henter

/-- The keys that do nothing when no line is recalled. -/
theorem OnLine.idle (h : OnLine st v r) (histlen : Nat) {key : Key} (hkey : key = .keyDown ∨ key = .other) :
    (chatterKey histlen st key = .error .overflow ∧ intMax < r.line.text.length + 110)
      ∨ ∃ st' v', chatterKey histlen st key = .ok (st', none) ∧ OnLine st' v' r := by
  rcases h.room histlen key with hover | ⟨st', v', b, hswitch, h', -⟩
  · exact .inl hover
  · refine .inr ⟨st', v', ?_, h'⟩
    rw [hswitch]
    rcases hkey with rfl | rfl
    · rw [switchKey, keyDown, if_neg (by rw [h'.plain.ibqi]; omega)]
      rfl
    · exact switchKey_other

/-- **One character**, unless it recalls a line. -/
theorem OnLine.typeChar (h : OnLine st v r) (hpos : 0 < histlen) {backspaceChar : Int} {c : Typed}
    (hup : c.2 ≠ keyUpChar) {key : Key} (hkey : keyOf backspaceChar c.1 c.2 = key) :
    (typeChar histlen st backspaceChar c = .error .overflow
        ∧ (intMax < r.line.text.length + 110
          ∨ intMax < r.line.text.length + (r.written key).length))
      ∨ (key ≠ .keyEnter ∧ ∃ st' v', typeChar histlen st backspaceChar c = .ok (st', none)
          ∧ OnLine st' v' (r.key key))
      ∨ (key = .keyEnter ∧ ∃ st' v' line, typeChar histlen st backspaceChar c = .ok (st', some line)
          ∧ line.chars = r.line.text ∧ OnLine st' v' { r with line := Line.empty }) := by
  have hnone : ∀ {st'}, chatterKey histlen st key = .ok (st', none) →
      Smsg.typeChar histlen st backspaceChar c = .ok (st', none) := by
    intro st' hok
    simp only [Smsg.typeChar, hkey, hok, bind, Except.bind]
  have herror : chatterKey histlen st key = .error .overflow →
      Smsg.typeChar histlen st backspaceChar c = .error .overflow := by
    intro herr
    simp only [Smsg.typeChar, hkey, herr, bind, Except.bind]
  by_cases henter : key = .keyEnter
  · rw [henter] at hkey herror
    rcases h.enter hpos with ⟨hover, hlong⟩ | ⟨st', v', hok, h'⟩
    · exact .inl ⟨herror hover, Or.inl hlong⟩
    · by_cases hfits : r.line.text.length < 2 ^ 31
      · refine .inr (.inr ⟨henter, st', v', ⟨r.line.text, hfits⟩, ?_, rfl, h'⟩)
        simp only [Smsg.typeChar, hkey, hok, bind, Except.bind, dif_pos hfits]
      · refine .inl ⟨?_, Or.inl ?_⟩
        · simp only [Smsg.typeChar, hkey, hok, bind, Except.bind, dif_neg hfits]
        · rw [intMax]
          omega
  · by_cases hedit : key.isEdit = true
    · rcases h.edit histlen hedit with ⟨hover, hlong⟩ | ⟨st', v', hok, h'⟩
      · exact .inl ⟨herror hover, hlong⟩
      · exact .inr (.inl ⟨henter, st', v', hnone hok, h'⟩)
    · have hidle : key = .keyDown ∨ key = .other := by
        cases key with
        | keyUp => exact absurd (keyOf_up hkey) hup
        | keyDown => exact Or.inl rfl
        | keyEnter => exact absurd rfl henter
        | other => exact Or.inr rfl
        | _ => exact absurd rfl hedit
      have hsame : r.key key = r := by
        rcases hidle with rfl | rfl <;> rfl
      rcases h.idle histlen hidle with ⟨hover, hlong⟩ | ⟨st', v', hok, h'⟩
      · exact .inl ⟨herror hover, Or.inl hlong⟩
      · exact .inr (.inl ⟨henter, st', v', hnone hok, by rwa [hsame]⟩)

end

/-! ### A session -/

section

variable {histlen : Nat} {ty : Typing} {v : Cell → Option (List (Option UInt8))} {r : RefTyping}

/-- The session has come to where the reference is. -/
structure Typing.At (ty : Typing) (v : Cell → Option (List (Option UInt8))) (r : RefTyping) :
    Prop where
  line : OnLine ty.ed v r.ed
  vars : ty.vars = r.vars
  sent : ty.sent = r.sent.map NetCmd.encode

theorem Typing.at_start (eraseKey : Int) :
    (Typing.start eraseKey).At (fun _ => none) (.start eraseKey) :=
  ⟨⟨plain_init, Or.inl ⟨rfl, rfl⟩, rfl, rfl⟩, rfl, rfl⟩

/-- **A character does what the reference does**, unless it recalls a line. -/
theorem Typing.At.press (h : ty.At v r) (hpos : 0 < histlen) {c : Typed} (hup : c.2 ≠ keyUpChar)
    (cs : List Typed) :
    (ty.press histlen c = .error .overflow ∧ ¬ r.Short (c :: cs))
      ∨ ∃ ty' v', ty.press histlen c = .ok ty' ∧ ty'.At v' (r.press c) := by
  by_cases hexit : r.vars.exitloop = true
  · refine .inr ⟨ty, v, ?_, ?_⟩
    · rw [Typing.press, h.vars, if_pos hexit]
    · rw [RefTyping.press, if_pos hexit]
      exact h
  · have hkey : keyOf ty.vars.backspaceChar c.1 c.2 = r.keyFor c := by
      rw [h.vars]
      rfl
    have hgoes : ¬ ty.vars.exitloop = true := by rwa [h.vars]
    rw [Typing.press, if_neg hgoes, RefTyping.press, if_neg hexit]
    rcases h.line.typeChar hpos hup hkey with
      ⟨hover, hlong⟩ | ⟨hne, st', v', hok, hline⟩ | ⟨henter, st', v', line, hok, htext, hline⟩
    · refine .inl ⟨by rw [hover]; rfl, fun hshort => ?_⟩
      have hfits := hshort.1.resolve_left hexit
      omega
    · rw [if_neg hne, hok]
      exact .inr ⟨{ ty with ed := st' }, v', rfl, hline, h.vars, h.sent⟩
    · rw [if_pos henter, hok]
      refine .inr ⟨⟨st', (chatterLine ty.vars line).1, ty.sent ++ (chatterLine ty.vars line).2.toList⟩,
        v', rfl, hline, ?_, ?_⟩
      · rw [chatterLine_asks, htext, h.vars]
        rfl
      · rw [chatterLine_asks, htext, h.vars, h.sent, RefTyping.enter, List.map_append]
        cases (lineAsks r.vars r.ed.line.text).2 <;> rfl

/-- So does one character after the other. -/
theorem Typing.At.pressAll (hpos : 0 < histlen) (cs : List Typed) : ∀ {ty : Typing}
    {v : Cell → Option (List (Option UInt8))} {r : RefTyping}, ty.At v r →
      (∀ c ∈ cs, c.2 ≠ keyUpChar) →
      (ty.pressAll histlen cs = .error .overflow ∧ ¬ r.Short cs)
        ∨ ∃ ty' v', ty.pressAll histlen cs = .ok ty' ∧ ty'.At v' (r.pressAll cs) := by
  induction cs with
  | nil =>
      intro ty v r h _
      exact .inr ⟨ty, v, rfl, h⟩
  | cons c cs ih =>
      intro ty v r h hup
      have hcons : ty.pressAll histlen (c :: cs)
          = (ty.press histlen c).bind fun ty => ty.pressAll histlen cs := by
        rw [Typing.pressAll, List.foldlM_cons]
        rfl
      rw [hcons]
      rcases h.press hpos (hup c List.mem_cons_self) cs with
        ⟨herr, hlong⟩ | ⟨ty₁, v₁, hok, h₁⟩
      · exact .inl ⟨by rw [herr]; rfl, hlong⟩
      · rw [hok]
        rcases ih h₁ fun c hc => hup c (List.mem_cons_of_mem _ hc) with
          ⟨herr, hlong⟩ | ⟨ty', v', hrest, h'⟩
        · exact .inl ⟨herr, fun hshort => hlong hshort.2⟩
        · exact .inr ⟨ty', v', hrest, h'⟩

/--
**What is typed is what is sent.**  Whatever characters are typed, with whatever names in the
sidebar, as long as no line is recalled: where the session gets to, the line is that of the
reference, with the cursor in the same place, and what has been sent are the commands that the
entered lines ask for, in their order.  Memory is never used wrongly; the session stops nowhere
but at an `int` that overflows, and not there as long as the lines are short.
-/
theorem typed_is_sent (hpos : 0 < histlen) (eraseKey : Int) (cs : List Typed)
    (hup : ∀ c ∈ cs, c.2 ≠ keyUpChar) :
    (∀ ty, (Typing.start eraseKey).pressAll histlen cs = .ok ty →
        freshText ty.ed = .ok ((RefTyping.start eraseKey).pressAll cs).ed.line.text
          ∧ ty.ed.ibufPos = ((RefTyping.start eraseKey).pressAll cs).ed.line.cursor
          ∧ ty.vars = ((RefTyping.start eraseKey).pressAll cs).vars
          ∧ ty.sent = ((RefTyping.start eraseKey).pressAll cs).sent.map NetCmd.encode)
      ∧ (∀ e, (Typing.start eraseKey).pressAll histlen cs = .error e → e = .overflow)
      ∧ ((RefTyping.start eraseKey).Short cs →
        ∃ ty, (Typing.start eraseKey).pressAll histlen cs = .ok ty) := by
  rcases (Typing.at_start eraseKey).pressAll hpos cs hup with
    ⟨herr, hlong⟩ | ⟨ty', v', hok, h'⟩
  · rw [herr]
    refine ⟨fun ty hty => by (cases hty), fun e he => ?_, fun hshort => absurd hshort hlong⟩
    exact (Except.error.inj he).symm
  · rw [hok]
    refine ⟨fun ty hty => ?_, fun e he => by (cases he), fun _ => ⟨ty', rfl⟩⟩
    obtain rfl := Except.ok.inj hty
    exact ⟨freshText_eq h'.line.plain.owns rfl h'.line.line, h'.line.cursor, h'.vars, h'.sent⟩

/-- `hi`, with an `o` that is taken back by the key that `/bs` has made of `#`. -/
def typedHi : List Typed := ([47, 98, 115, 32, 35, 10, 104, 111, 35, 105, 13] : List Int).map ([], ·)

theorem typed_is_sent_hi : ∃ ty, (Typing.start 127).pressAll 3 typedHi = .ok ty
    ∧ ty.vars.backspaceChar = 35 ∧ ty.sent = [(⟨.cSay, [text "hi"]⟩ : NetCmd).encode] := by
  have hall := typed_is_sent (show 0 < 3 by decide) 127 typedHi (by decide)
  obtain ⟨ty, hok⟩ := hall.2.2 (by decide +kernel)
  obtain ⟨-, -, hvars, hsent⟩ := hall.1 ty hok
  have hkey : ((RefTyping.start 127).pressAll typedHi).vars.backspaceChar = 35 := by
    decide +kernel
  have hhi : ((RefTyping.start 127).pressAll typedHi).sent = [⟨.cSay, [text "hi"]⟩] := by
    decide +kernel
  exact ⟨ty, hok, by rw [hvars, hkey], by rw [hsent, hhi]; rfl⟩

end

end Smsg
