/-
What the completion of a nick leaves in front of the cursor.

The sidebar has the names as `lcs_compose_name` composes them, and the tabulator completes
to such a name: it keeps what has been typed, in the case it was typed in, and adds what is
missing.  `udata_get_by_nick` compares nicks as they are.  The two agree for somebody who is
neither away nor an operator, when what has been typed is the start of the nick itself.
-/
import Smsg.Proofs.Editor
import Smsg.Proofs.Who

namespace Smsg

open Heaps Machines

/-! ### Words -/

/-- The last word of a text, which white space may follow; none is the empty one. -/
def lastWord (t : Bytes) : Bytes := (t.rdropWhile isspace).rtakeWhile fun c => !isspace c

/-- What is in front of the word in front of the cursor. -/
def frontOf (l : Lines.Line UInt8) : Bytes := l.before.rdropWhile fun c => !RefEditor.endsWord c

section

variable {l : Lines.Line UInt8} {t w : Bytes} {c : UInt8}

theorem before_eq (l : Lines.Line UInt8) : l.before = frontOf l ++ RefEditor.wordBefore l :=
  List.rdropWhile_append_rtakeWhile.symm

theorem isspace_wordBefore (hc : c ∈ RefEditor.wordBefore l) : isspace c = false := by
  have hend := List.mem_rtakeWhile_imp hc
  simp only [RefEditor.endsWord, Bool.not_eq_true', Bool.or_eq_false_iff] at hend
  exact hend.2

theorem isspace_lastWord (hc : c ∈ lastWord t) : isspace c = false := by
  simpa using List.mem_rtakeWhile_imp hc

/-- A word and a space at the end of a text; the word may have started before. -/
theorem lastWord_concat (hw : w ≠ []) (hspace : ∀ c ∈ w, isspace c = false) (t : Bytes) :
    lastWord (t ++ w ++ [32]) = (t.rtakeWhile fun c => !isspace c) ++ w := by
  have hlast : (t ++ w).rdropWhile isspace = t ++ w := by
    rw [List.rdropWhile_eq_self_iff]
    intro hne
    rw [List.getLast_append_of_ne_nil _ hw, hspace _ (List.getLast_mem hw)]
    exact Bool.false_ne_true
  have hall : ∀ c ∈ w.reverse, (!isspace c) = true := by
    intro c hc
    rw [hspace c (List.mem_reverse.mp hc)]
    rfl
  rw [lastWord, List.rdropWhile_concat_pos _ _ _ (by decide), hlast, List.rtakeWhile,
    List.reverse_append, List.takeWhile_append_of_pos hall, List.reverse_append,
    List.reverse_reverse, List.rtakeWhile]

/-- White space ends the text in front of a word, or a NUL, which is no white space. -/
theorem rtakeWhile_frontOf (l : Lines.Line UInt8) :
    ((frontOf l).rtakeWhile fun c => !isspace c) = [] ↔ (frontOf l).getLast? ≠ some 0 := by
  rw [List.rtakeWhile_eq_nil_iff]
  by_cases hne : frontOf l = []
  · simp [hne]
  · have hend : RefEditor.endsWord ((frontOf l).getLast hne) = true := by
      simpa [frontOf] using List.rdropWhile_last_not (fun c => !RefEditor.endsWord c) l.before hne
    rw [List.getLast?_eq_some_getLast hne]
    rw [RefEditor.endsWord, Bool.or_eq_true, beq_iff_eq] at hend
    constructor
    · intro h hzero
      have hspace := h hne
      rw [Option.some.inj hzero] at hspace
      exact hspace (by decide)
    · intro h _
      rcases hend with hzero | hspace
      · exact absurd (congrArg some hzero) h
      · simpa using hspace

end

/-! ### The tabulator -/

/-- The line is in the buffer, and the cursor where it should be. -/
structure HoldsLine (ed : Editing) (l : Lines.Line UInt8) : Prop where
  text : ∃ b, ed.bs.ibuf.bind ed.heap.get = some b ∧ TextIn ed.bs b l.text
  cursor : ed.ipos = l.cursor

variable {ed : Editing} {l : Lines.Line UInt8} {u : Udata} {culist : List CString} {e : UdataEnt}

/-- The buffer as the only cell there is. -/
theorem HoldsLine.ready (h : HoldsLine ed l) : ∃ b, Ready (fun _ : Unit => ed.bs.ibuf)
    (fun _ => some b) () ed ⟨l, ed.insertmode⟩ b := by
  obtain ⟨b, hget, htext⟩ := h.text
  refine ⟨b, ⟨⟨?_, ?_, fun i j _ _ _ => rfl⟩, rfl, rfl, htext, h.cursor, rfl⟩⟩
  · intro _ p hp
    rw [hp] at hget
    exact ⟨b, rfl, hget⟩
  · intro _ hnone
    rw [hnone] at hget
    cases hget

/-- What is in front of the cursor can be read. -/
theorem HoldsLine.readText (h : HoldsLine ed l) :
    Smsg.readText ed.heap ed.bs.ibuf ed.ipos = .ok l.before := by
  obtain ⟨b, hr⟩ := h.ready
  have hroom := hr.text.room
  have hsize := hr.text.size
  have hused : ed.bs.ulen = l.text.length := hr.text.used
  have hin := l.inside
  have hcursor := h.cursor
  refine readText_owned (c := ()) hr.owns hr.ptr hr.block (by omega) ?_
  have htext : b.take ed.bs.ulen = l.text.map some := hr.text.text
  rw [Lines.Line.before, List.map_take, ← htext, List.take_take, ← hcursor, Nat.min_eq_left (by omega)]

theorem before_insert (l : Lines.Line UInt8) (data : Bytes) : (l.insert data).before = l.before ++ data := by
  have hlen : l.before.length = l.cursor := by
    rw [Lines.Line.before, List.length_take, Nat.min_eq_left l.inside]
  show (l.before ++ (data ++ l.behind)).take (l.cursor + data.length) = l.before ++ data
  rw [← hlen, ← List.append_assoc, ← List.length_append, List.take_left']
  rfl

/-- **The tabulator inserts what it completes**, if an `int` can hold the length. -/
theorem tabKey_completion (h : HoldsLine ed l) (hmode : ed.insertmode = true) {data : Bytes}
    (hdata : RefEditor.completion l culist = some data) :
    (tabKey ed culist = .error .overflow ∧ intMax < l.text.length + data.length)
      ∨ (l.text.length + data.length ≤ intMax
        ∧ ∃ ed', tabKey ed culist = .ok ed' ∧ HoldsLine ed' (l.insert data)) := by
  obtain ⟨b, hr⟩ := h.ready
  have hkey : tabKey ed culist = lccInputEditWizard ed data := by
    simp only [tabKey, h.readText, bind, Except.bind, tabData_eq, hdata]
  have hput : (RefEditor.put ⟨l, ed.insertmode⟩ data).line = l.insert data := by
    rw [RefEditor.put, if_pos hmode]
  have hused : ed.bs.ulen = l.text.length := hr.text.used
  rw [hkey, ← hused]
  by_cases hint : intMax < ed.bs.ulen + data.length
  · exact .inl ⟨wizard_overflow hint, hint⟩
  · obtain ⟨ed', hwizard, hfollows⟩ := wizard_spec hr (Nat.not_lt.mp hint)
    obtain ⟨b', htext, howns⟩ := hfollows.changed.block
    rw [hput] at htext
    refine .inr ⟨Nat.not_lt.mp hint, ed', hwizard, ⟨b', ?_, htext⟩, ?_⟩
    · exact howns.bind_get (i := ()) (Function.update_self ..) (Function.update_self ..)
    · rw [hfollows.cursor, hput]

/-! ### The only match -/

/--
The sidebar has the names of those in chat, what is in front of the cursor is no command,
and the tabulator finds a single name for it, which is that of `e`.
-/
structure OnlyMatch (u : Udata) (culist : List CString) (l : Lines.Line UInt8) (e : UdataEnt) :
    Prop where
  sidebar : (culist.map (·.chars)).Perm (u.chatting.map (·.sayName))
  word : ¬ ((RefEditor.wordBefore l).head? = some 47 ∧ (RefEditor.wordBefore l).length = l.cursor)
  chats : e ∈ u.chatting
  found : findMatch (RefEditor.wordBefore l) none (culist.map (·.chars)) = .one e.sayName

theorem OnlyMatch.filter (h : OnlyMatch u culist l e) :
    (culist.map (·.chars)).filter (RefEditor.Completes (RefEditor.wordBefore l)) = [e.sayName] := by
  have hfound := h.found
  rw [findMatch_eq, Option.toList_none, List.nil_append] at hfound
  split at hfound
  · cases hfound
  · next t heq => rw [heq, Matches.one.inj hfound]
  · cases hfound

/-- It is the name of nobody else. -/
theorem OnlyMatch.unique {e' : UdataEnt} (h : OnlyMatch u culist l e) (h' : OnlyMatch u culist l e') :
    e = e' := by
  have hperm := h.sidebar.filter (RefEditor.Completes (RefEditor.wordBefore l))
  rw [h.filter, List.filter_map] at hperm
  have hone : (u.chatting.filter
      (RefEditor.Completes (RefEditor.wordBefore l) ∘ (·.sayName))).length = 1 := by
    rw [← List.length_map (·.sayName), ← hperm.length_eq]
    rfl
  obtain ⟨x, hx⟩ := List.length_eq_one_iff.mp hone
  have hmem : ∀ y, OnlyMatch u culist l y → y = x := by
    intro y hy
    have hcompletes : RefEditor.Completes (RefEditor.wordBefore l) y.sayName = true := by
      have hsingle : y.sayName ∈ [y.sayName] := List.mem_singleton_self _
      rw [← hy.filter] at hsingle
      exact (List.mem_filter.mp hsingle).2
    have hin : y ∈ u.chatting.filter
        (RefEditor.Completes (RefEditor.wordBefore l) ∘ (·.sayName)) :=
      List.mem_filter.mpr ⟨hy.chats, hcompletes⟩
    rw [hx] at hin
    exact List.mem_singleton.mp hin
  rw [hmem e h, hmem e' h']

theorem OnlyMatch.completion (h : OnlyMatch u culist l e) :
    RefEditor.completion l culist
      = some (e.sayName.drop (RefEditor.wordBefore l).length ++ [32]) := by
  simp only [RefEditor.completion, RefEditor.candidates, if_neg h.word, h.filter]

theorem OnlyMatch.length_le (h : OnlyMatch u culist l e) :
    (RefEditor.wordBefore l).length ≤ e.sayName.length := by
  have hsingle : e.sayName ∈ [e.sayName] := List.mem_singleton_self _
  rw [← h.filter, List.mem_filter, RefEditor.Completes, List.isPrefixOf_iff_prefix] at hsingle
  simpa using hsingle.2.length_le

/-! ### The nick that is left -/

/-- The word in front of the cursor is a nick, and the server finds `e` by it. -/
def NickBefore (u : Udata) (ed : Editing) (e : UdataEnt) : Prop :=
  ∃ t, ∃ nick : CString, readText ed.heap ed.bs.ibuf ed.ipos = .ok t ∧
    nick.chars = lastWord t ∧ nick.chars ≠ [] ∧ u.udataGetByNick (some nick) = some e

/-- `e` has a connection, and nobody in front of it in the list is in chat with its nick. -/
def Udata.Findable (u : Udata) (e : UdataEnt) : Prop :=
  0 ≤ e.fd ∧ ∃ front back, u.ents = front ++ e :: back ∧
    ∀ x ∈ front, ¬ (0 ≤ x.fd ∧ x.has udcFlagPresent = true ∧ x.nick = e.nick)

/--
What a completion to the nick of `e` takes: it is neither away nor an operator, the word is
the start of its nick, which has no white space in it, no NUL stands in front of the word,
the server finds `e`, and the line does not become too long.
-/
structure Completable (u : Udata) (l : Lines.Line UInt8) (e : UdataEnt) : Prop where
  notAway : e.has udcFlagAway = false
  notOperator : e.has udcFlagOperator = false
  nick : ∃ nick : CString, e.nick = some nick ∧ nick.chars ≠ [] ∧
    (∀ c ∈ nick.chars, isspace c = false) ∧ RefEditor.wordBefore l <+: nick.chars
  front : (frontOf l).getLast? ≠ some 0
  findable : u.Findable e
  fits : l.text.length + (e.sayName.length - (RefEditor.wordBefore l).length + 1) ≤ intMax

theorem findable_iff (hchats : e ∈ u.chatting) {nick : CString} (hnick : e.nick = some nick) :
    u.Findable e ↔ u.udataGetByNick (some nick) = some e := by
  have hpresent : e.has udcFlagPresent = true := (List.mem_filter.mp hchats).2
  simp only [Udata.Findable, Udata.udataGetByNick, List.find?_eq_some_iff_append, hnick, hpresent,
    Bool.and_eq_true, decide_eq_true_eq, beq_self_eq_true, and_true, Bool.not_eq_true',
    Bool.and_eq_false_iff, decide_eq_false_iff_not, beq_eq_false_iff_ne, not_and_or, ne_eq,
    Bool.not_eq_true, or_assoc]

theorem findable_run {hist : List ServerStep} {s : Server} (h : Run (server .enough) hist s)
    (hchats : e ∈ s.udata.chatting) : s.udata.Findable e := by
  obtain ⟨hmem, hpresent⟩ := List.mem_filter.mp hchats
  have hnicks := run_nicks h (storesNick_of_enough h)
  have hroom := Udata.room_of_mem hmem
  obtain ⟨nick, hnick⟩ := Option.ne_none_iff_exists'.mp
    (hnicks.nick e.user e.seat hroom hpresent)
  exact (findable_iff hchats hnick).mpr (udataGetByNick_present hnicks hmem hpresent hnick)

/-- A composed name is the nick with marks in front of it, which the flags are shown by. -/
theorem sayName_marks {nick : CString} (hnick : e.nick = some nick) :
    ∃ marks, e.sayName = marks ++ nick.chars ∧ (∀ c ∈ marks, isspace c = false) ∧
      (marks = [] ↔ e.has udcFlagAway = false ∧ e.has udcFlagOperator = false) := by
  refine ⟨(if e.has udcFlagAway then text "&" else []) ++
    (if e.has udcFlagOperator then text "@" else []), ?_, ?_, ?_⟩
  · rw [UdataEnt.sayName, hnick, xstr_some]
  · cases e.has udcFlagAway <;> cases e.has udcFlagOperator <;> decide +kernel
  · cases e.has udcFlagAway <;> cases e.has udcFlagOperator <;> decide

/-- The word with the rest of the name of `e`. -/
def completed (l : Lines.Line UInt8) (e : UdataEnt) : Bytes :=
  RefEditor.wordBefore l ++ e.sayName.drop (RefEditor.wordBefore l).length

theorem OnlyMatch.length_completed (h : OnlyMatch u culist l e) :
    (completed l e).length = e.sayName.length := by
  have hle := h.length_le
  rw [completed, List.length_append, List.length_drop]
  omega

/-- **When the last word is the nick**: nothing comes in front of it, and it was typed as it is. -/
theorem OnlyMatch.lastWord_eq_iff (h : OnlyMatch u culist l e) {nick : CString}
    (hnick : e.nick = some nick) (hne : nick.chars ≠ [])
    (hspace : ∀ c ∈ nick.chars, isspace c = false) :
    lastWord (frontOf l ++ completed l e ++ [32]) = nick.chars
      ↔ (e.has udcFlagAway = false ∧ e.has udcFlagOperator = false)
        ∧ RefEditor.wordBefore l <+: nick.chars ∧ (frontOf l).getLast? ≠ some 0 := by
  obtain ⟨marks, hname, hmarks, hflags⟩ := sayName_marks hnick
  have hlen : (completed l e).length = marks.length + nick.chars.length := by
    rw [h.length_completed, hname, List.length_append]
  have hpos := List.length_pos_iff.mpr hne
  have hcne : completed l e ≠ [] := by
    rw [← List.length_pos_iff]
    omega
  have hcspace : ∀ c ∈ completed l e, isspace c = false := by
    intro c hc
    rcases List.mem_append.mp hc with hword | hrest
    · exact isspace_wordBefore hword
    · have hmem := List.mem_of_mem_drop hrest
      rw [hname] at hmem
      exact (List.mem_append.mp hmem).elim (hmarks c) (hspace c)
  rw [lastWord_concat hcne hcspace, ← hflags, ← rtakeWhile_frontOf]
  generalize (frontOf l).rtakeWhile _ = start
  constructor
  · intro heq
    have hsum := congrArg List.length heq
    rw [List.length_append, hlen] at hsum
    have hstart : start = [] := List.eq_nil_of_length_eq_zero (by omega)
    have hnone : marks = [] := List.eq_nil_of_length_eq_zero (by omega)
    rw [hstart, List.nil_append] at heq
    exact ⟨hnone, ⟨_, heq⟩, hstart⟩
  · rintro ⟨hnone, ⟨rest, hrest⟩, hstart⟩
    rw [hstart, List.nil_append, completed, hname, hnone, List.nil_append, ← hrest,
      List.drop_left]

/--
**When completion leaves a nick.**  Where the tabulator finds one name for what is in front
of the cursor, that of `e`, it leaves a word that the server finds `e` by exactly when the
word that was there can be completed to the nick of `e`.
-/
theorem completes_nick_iff (hline : HoldsLine ed l) (hmode : ed.insertmode = true)
    (hmatch : OnlyMatch u culist l e) :
    (∃ ed', tabKey ed culist = .ok ed' ∧ NickBefore u ed' e) ↔ Completable u l e := by
  have htab := tabKey_completion hline hmode hmatch.completion
  rw [List.length_append, List.length_drop, List.length_singleton] at htab
  have hread : ∀ ed', HoldsLine ed' (l.insert
      (e.sayName.drop (RefEditor.wordBefore l).length ++ [32])) →
      readText ed'.heap ed'.bs.ibuf ed'.ipos = .ok (frontOf l ++ completed l e ++ [32]) := by
    intro ed' hed'
    rw [hed'.readText, before_insert, before_eq]
    simp only [completed, List.append_assoc]
  constructor
  · rintro ⟨ed', hok, t, nick, hreads, hword, hne, hfound⟩
    rcases htab with ⟨hover, -⟩ | ⟨hfits, ed'', hok', hholds⟩
    · rw [hok] at hover
      cases hover
    · rw [hok] at hok'
      cases hok'
      rw [hread _ hholds] at hreads
      cases hreads
      have hnick : e.nick = some nick := (Udata.udataGetByNick_some hfound).2.1.symm
      have hspace : ∀ c ∈ nick.chars, isspace c = false := by
        intro c hc
        rw [hword] at hc
        exact isspace_lastWord hc
      obtain ⟨hflags, hprefix, hfront⟩ :=
        (hmatch.lastWord_eq_iff hnick hne hspace).mp hword.symm
      exact ⟨hflags.1, hflags.2, ⟨nick, hnick, hne, hspace, hprefix⟩, hfront,
        (findable_iff hmatch.chats hnick).mpr hfound, hfits⟩
  · intro h
    obtain ⟨nick, hnick, hne, hspace, hprefix⟩ := h.nick
    rcases htab with ⟨-, hover⟩ | ⟨-, ed', hok, hholds⟩
    · exact absurd h.fits (Nat.not_le.mpr hover)
    · have hword := (hmatch.lastWord_eq_iff hnick hne hspace).mpr
        ⟨⟨h.notAway, h.notOperator⟩, hprefix, h.front⟩
      exact ⟨ed', hok, _, nick, hread _ hholds, hword.symm, hne,
        (findable_iff hmatch.chats hnick).mp h.findable⟩

/-! ### Bob -/

/-- Bob, with the flags he may have. -/
def bobEnt (flags : Flags) : UdataEnt :=
  ⟨cstr (text "bob"), ttysetUnset, 0, 0, .null, 4, some (cstr (text "bob")), flags⟩

/-- There is nobody else. -/
def bobUdata (flags : Flags) : Udata := ⟨[bobEnt flags], List.nodup_singleton _⟩

/-- A line that has been typed. -/
def typedLine (typed : Bytes) : Lines.Line UInt8 := ⟨typed, typed.length, Nat.le_refl _⟩

/-- The line in a buffer. -/
def typedEditing (typed : Bytes) : Editing :=
  ⟨⟨[some (typed.map some ++ List.replicate 100 none)]⟩,
    ⟨some 0, typed.length + 100, typed.length⟩, typed.length, true⟩

theorem holdsLine_typed (typed : Bytes) : HoldsLine (typedEditing typed) (typedLine typed) := by
  refine ⟨⟨typed.map some ++ List.replicate 100 none, rfl, rfl, Nat.le_add_right _ _, ?_, ?_⟩, rfl⟩
  · rw [List.length_append, List.length_map, List.length_replicate]
    rfl
  · show (typed.map some ++ List.replicate 100 none).take typed.length = typed.map some
    rw [← List.length_map some, List.take_left]

theorem onlyMatch_bob : OnlyMatch (bobUdata udcFlagPresent) [cstr (text "bob")]
    (typedLine (text "hi b")) (bobEnt udcFlagPresent) :=
  ⟨by decide, by decide, by decide, by rfl⟩

theorem completes_nick_bob : ∃ ed', tabKey (typedEditing (text "hi b")) [cstr (text "bob")] = .ok ed'
    ∧ NickBefore (bobUdata udcFlagPresent) ed' (bobEnt udcFlagPresent) :=
  (completes_nick_iff (holdsLine_typed _) rfl onlyMatch_bob).mpr
    ⟨by decide, by decide,
      ⟨cstr (text "bob"), by decide, by decide, by decide +kernel, by decide⟩, by decide,
      ⟨by decide, [], [], rfl, by simp⟩, by decide⟩

/-- An operator is completed to a name that is nobody's nick. -/
theorem not_completes_nick :
    HoldsLine (typedEditing (text "@b")) (typedLine (text "@b")) ∧
    OnlyMatch (bobUdata (udcFlagPresent ||| udcFlagOperator)) [cstr (text "@bob")]
      (typedLine (text "@b")) (bobEnt (udcFlagPresent ||| udcFlagOperator)) ∧
    ¬ ∃ ed', tabKey (typedEditing (text "@b")) [cstr (text "@bob")] = .ok ed' ∧
      NickBefore (bobUdata (udcFlagPresent ||| udcFlagOperator)) ed'
        (bobEnt (udcFlagPresent ||| udcFlagOperator)) := by
  refine ⟨holdsLine_typed _, ⟨by decide, by decide, by decide, by rfl⟩, ?_⟩
  rintro ⟨ed', hok, t, nick, hreads, hword, -, hfound⟩
  have hrun : (tabKey (typedEditing (text "@b")) [cstr (text "@bob")] >>= fun ed =>
      readText ed.heap ed.bs.ibuf ed.ipos) = .ok (text "@bob ") := by rfl
  rw [hok] at hrun
  have ht : t = text "@bob " := Except.ok.inj (hreads.symm.trans hrun)
  have hnick : some nick = some (cstr (text "bob")) := (Udata.udataGetByNick_some hfound).2.1
  rw [Option.some.inj hnick, ht] at hword
  revert hword
  decide

end Smsg
