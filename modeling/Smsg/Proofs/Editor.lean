/-
The input line is a line with a cursor.

`RefEditor` is what the editor is for: a text, a cursor, and whether a character is
inserted or written over what is there.  `chatter_func` keeps the text in the front part
of a buffer.  `TextIn` is the invariant of that buffer, and every key keeps it and does to
the text what the reference does (`editKey_refines`).

Two things have to be seen.  A character is taken out by a move that is one byte longer
than the rest of the text; it stays inside of the buffer because `makeRoom` leaves eleven
bytes behind the text before every key.  And `lcc_input_edit_wizard` has a rule of its own
for growing, which leaves none.
-/
import Mathlib.Data.List.DropRight
import Smsg.Editor
import Smsg.Lib.Line
import Smsg.Proofs.Cmdline

namespace Smsg

open Heaps Lines

/-! ### The reference -/

/-- A line, and the mode it is edited in. -/
structure RefEditor where
  line : Line UInt8
  insertmode : Bool

namespace RefEditor

/-- White space ends a word, and so does a NUL. -/
def endsWord (c : UInt8) : Bool := c == 0 || isspace c

/-- The word in front of the cursor. -/
def wordBefore (l : Line UInt8) : Bytes := l.before.rtakeWhile fun c => !endsWord c

/-- What the word is to be completed to: at the start of the line, a `/` and a command. -/
def candidates (l : Line UInt8) (culist : List CString) : Bytes × List Bytes :=
  let word := wordBefore l
  if word.head? = some 47 ∧ word.length = l.cursor then (word.drop 1, commandNames)
  else (word, culist.map (·.chars))

/-- A name starts with a word, in any case. -/
def Completes (word name : Bytes) : Bool := (word.map tolower).isPrefixOf (name.map tolower)

/-- The rest of a name and a space, if only one name starts with the word. -/
def completion (l : Line UInt8) (culist : List CString) : Option Bytes :=
  let (word, names) := candidates l culist
  match names.filter (Completes word) with
  | [name] => some (name.drop word.length ++ [32])
  | _ => none

/-- What a key writes into the line. -/
def written (r : RefEditor) : Key → Bytes
  | .data cch => [cch]
  | .tab culist => (completion r.line culist).getD []
  | _ => []

/-- Writing at the cursor. -/
def put (r : RefEditor) (data : Bytes) : RefEditor :=
  { r with line := if r.insertmode then r.line.insert data else r.line.overwrite data }

/-- What a key does. -/
def key (r : RefEditor) : Key → RefEditor
  | .data cch => r.put [cch]
  | .tab culist =>
      match completion r.line culist with
      | some data => r.put data
      | none => r
  | .keyHome => { r with line := r.line.home }
  | .keyEnd => { r with line := r.line.toEnd }
  | .keyLeft => { r with line := r.line.left }
  | .keyRight => { r with line := r.line.right }
  | .keyDc => { r with line := r.line.delete }
  | .keyBackspace => { r with line := r.line.backspace }
  | .ctrlU => { r with line := Line.empty }
  | .keyIc => { r with insertmode := !r.insertmode }
  | _ => r

theorem key_data (r : RefEditor) (cch : UInt8) : r.key (.data cch) = r.put [cch] := rfl

theorem key_keyDc (r : RefEditor) : r.key .keyDc = { r with line := r.line.delete } := rfl

theorem key_keyBackspace (r : RefEditor) :
    r.key .keyBackspace = { r with line := r.line.backspace } := rfl

/-- One key after the other. -/
def keys (r : RefEditor) (ks : List Key) : RefEditor := ks.foldl key r

end RefEditor

/-- The keys that edit the line. -/
def Key.isEdit : Key → Bool
  | .keyUp | .keyDown | .keyEnter | .other => false
  | _ => true

/-! ### Reading and writing the block of a cell -/

/-- The front part of a block is a text, and the sizes are right. -/
structure TextIn (bs : Ibuf) (b : List (Option UInt8)) (t : Bytes) : Prop where
  used : bs.ulen = t.length
  room : bs.ulen ≤ bs.ttlen
  size : b.length = bs.ttlen
  text : b.take bs.ulen = t.map some

theorem settled_map (t : Bytes) : settled (t.map some) = some t := by
  induction t with
  | nil => rfl
  | cons c t ih => rw [List.map_cons, settled, ih]; rfl

section Cells

variable {ι : Type*} {h : Mem} {held : ι → Option Nat}
  {v : ι → Option (List (Option UInt8))} {c : ι} {p : Option Nat} {b b' : List (Option UInt8)}
  {n : Nat} {t : Bytes}

theorem memRead_owned (ho : Owns h held v) (hp : held c = p) (hb : v c = some b)
    (hn : n ≤ b.length) : memRead h p n = .ok (b.take n) := by
  simp only [memRead, ho.bind_get hp hb, if_pos hn]

theorem readText_owned (ho : Owns h held v) (hp : held c = p) (hb : v c = some b)
    (hn : n ≤ b.length) (ht : b.take n = t.map some) : readText h p n = .ok t := by
  simp only [readText, memRead_owned ho hp hb hn, ht, bind, Except.bind, settled_map]

/-- The cell's buffer holds the text of the reference. -/
structure Ready (held : ι → Option Nat) (v : ι → Option (List (Option UInt8))) (c : ι)
    (e : Editing) (r : RefEditor) (b : List (Option UInt8)) : Prop where
  owns : Owns e.heap held v
  ptr : held c = e.bs.ibuf
  block : v c = some b
  text : TextIn e.bs b r.line.text
  cursor : e.ipos = r.line.cursor
  mode : e.insertmode = r.insertmode

variable {bs : Ibuf} {e : Editing} {r : RefEditor} {data : Bytes}

/-! ### `lcc_input_edit_wizard` -/

theorem wizardNewlen_put (hr : Ready held v c e r b) (data : Bytes) :
    wizardNewlen e data.length = (r.put data).line.text.length := by
  have hused := hr.text.used
  have hin := r.line.inside
  rw [wizardNewlen, RefEditor.put, hr.mode, hr.cursor, hused]
  cases r.insertmode with
  | true =>
      rw [if_pos rfl, if_pos rfl, Line.length_insert]
      omega
  | false => rw [if_neg Bool.false_ne_true, if_neg Bool.false_ne_true, Line.length_overwrite]

/-- What the move and the copy make of the block. -/
theorem wizard_block (hr : Ready held v c e r b) (data : Bytes) {b₁ : List (Option UInt8)} {bs₁ : Ibuf}
    (ht : TextIn bs₁ b₁ r.line.text) (hroom : (r.put data).line.text.length ≤ bs₁.ttlen) :
    ∃ b₂ b₃, (if e.insertmode ∧ e.ipos < bs₁.ulen then
          Blocks.move b₁ (e.ipos + data.length) e.ipos (bs₁.ulen - e.ipos) else some b₁) = some b₂
      ∧ Blocks.copyIn b₂ e.ipos (data.map some) = some b₃
      ∧ b₃.length = b₁.length
      ∧ b₃.take (r.put data).line.text.length = (r.put data).line.text.map some := by
  have hin := r.line.inside
  have hused := ht.used
  have hle : bs₁.ulen ≤ b₁.length := by rw [ht.size]; exact ht.room
  have hmap : ∀ k, (r.line.text.map some).take k = (r.line.text.take k).map some :=
    fun k => List.map_take.symm
  rw [hr.mode, hr.cursor]
  by_cases hmove : r.insertmode = true ∧ r.line.cursor < bs₁.ulen
  · -- inserting in front of the end: a gap is made first
    have hput : (r.put data).line = r.line.insert data := by rw [RefEditor.put, if_pos hmove.1]
    rw [hput, Line.length_insert] at hroom
    obtain ⟨b₂, hopen⟩ : ∃ b₂, Blocks.move b₁ (r.line.cursor + data.length) r.line.cursor
        (bs₁.ulen - r.line.cursor) = some b₂ :=
      ⟨_, Blocks.move_inside (by omega) (by rw [ht.size]; omega)⟩
    have hlen := Blocks.length_move hopen
    obtain ⟨b₃, hcopy⟩ : ∃ b₃, Blocks.copyIn b₂ r.line.cursor (data.map some) = some b₃ :=
      ⟨_, Blocks.copyIn_inside (by rw [List.length_map, hlen, ht.size]; omega)⟩
    rw [if_pos hmove]
    refine ⟨b₂, b₃, hopen, hcopy, (Blocks.length_copyIn hcopy).trans hlen, ?_⟩
    have htake := Blocks.take_insert (i := r.line.cursor) (b := data.map some) ht.text hle (by omega)
      (by rw [List.length_map]; exact hopen) hcopy
    rw [List.length_map] at htake
    rw [hput, Line.length_insert, ← hused, htake, hmap]
    simp [Line.insert, Line.before, Line.behind]
  · -- overwriting, or inserting at the end, where there is no difference
    have hput : (r.put data).line = r.line.overwrite data := by
      rw [RefEditor.put]
      cases hmode : r.insertmode with
      | false => rfl
      | true =>
          rw [if_pos rfl]
          exact Line.insert_end (by rw [hmode] at hmove; simp at hmove; omega) data
    rw [hput, Line.length_overwrite] at hroom
    obtain ⟨b₃, hcopy⟩ : ∃ b₃, Blocks.copyIn b₁ r.line.cursor (data.map some) = some b₃ :=
      ⟨_, Blocks.copyIn_inside (by rw [List.length_map, ht.size]; omega)⟩
    rw [if_neg hmove]
    refine ⟨b₁, b₃, rfl, hcopy, Blocks.length_copyIn hcopy, ?_⟩
    have htake := Blocks.take_overwrite (b := data.map some) ht.text hle (by omega) hcopy
    rw [List.length_map] at htake
    rw [hput, Line.length_overwrite, ← hused, htake, hmap]
    simp [Line.overwrite, Line.before]

variable [DecidableEq ι]

/-- **Writing to the block of a cell.** -/
theorem memWrite_owned (ho : Owns h held v) (hp : held c = p) (hb : v c = some b)
    {f : List (Option UInt8) → Option (List (Option UInt8))} (hf : f b = some b') :
    ∃ h', memWrite h p f = .ok h' ∧ h.Later h' ∧ Owns h' held (Function.update v c (some b')) := by
  subst hp
  cases hc : held c with
  | none =>
      rw [ho.nothing c hc] at hb
      cases hb
  | some q =>
      have hget := ho.get hc hb
      refine ⟨h.put q b', ?_, Heap.later_set hget _, ho.put hc b'⟩
      simp only [memWrite, hget, hf]

/-- **Another size for the block of a cell.** -/
theorem cRealloc_owned (ho : Owns h held v) (hp : held c = p) (hb : v c = some b) (n : Nat) :
    ∃ h' p', cRealloc h p n = .ok (h', p') ∧ h.Later h'
      ∧ Owns h' (Function.update held c p') (Function.update v c (some (Heap.resize b n none))) := by
  subst hp
  cases hc : held c with
  | none =>
      rw [ho.nothing c hc] at hb
      cases hb
  | some q =>
      obtain ⟨h', p', hrealloc, hlater, ho'⟩ := ho.realloc hc hb n none
      exact ⟨h', some p', by simp only [cRealloc, hrealloc], hlater, ho'⟩

/-- What an operation on the buffer of cell `c` leaves: another block there, with a text. -/
structure Changed (h : Mem) (held : ι → Option Nat) (v : ι → Option (List (Option UInt8))) (c : ι)
    (h' : Mem) (bs' : Ibuf) (t' : Bytes) : Prop where
  later : h.Later h'
  block : ∃ b', TextIn bs' b' t'
    ∧ Owns h' (Function.update held c bs'.ibuf) (Function.update v c (some b'))

/-- The state of an operation on cell `c`, and what the reference has come to. -/
structure Follows (h : Mem) (held : ι → Option Nat) (v : ι → Option (List (Option UInt8))) (c : ι)
    (e : Editing) (r : RefEditor) : Prop where
  changed : Changed h held v c e.heap e.bs r.line.text
  cursor : e.ipos = r.line.cursor
  mode : e.insertmode = r.insertmode

theorem wizardEnlarge_spec (ho : Owns h held v) (hp : held c = bs.ibuf) (hb : v c = some b)
    (ht : TextIn bs b t) (newlen : Nat) (hnew : bs.ulen ≤ newlen) :
    ∃ h' bs' b', wizardEnlarge h bs newlen = .ok (h', bs') ∧ h.Later h' ∧ TextIn bs' b' t
      ∧ newlen ≤ bs'.ttlen
      ∧ Owns h' (Function.update held c bs'.ibuf) (Function.update v c (some b')) := by
  rw [wizardEnlarge]
  by_cases hlt : bs.ttlen < newlen
  · obtain ⟨h', p', hrealloc, hlater, ho'⟩ := cRealloc_owned ho hp hb newlen
    refine ⟨h', { bs with ibuf := p', ttlen := newlen }, _, ?_, hlater, ?_, Nat.le_refl _, ho'⟩
    · rw [if_pos hlt, hrealloc]
      rfl
    · have hle : bs.ulen ≤ b.length := by rw [ht.size]; exact ht.room
      exact ⟨ht.used, hnew, Heap.length_resize _ _ _, by
        rw [← ht.text]; exact Heap.take_resize hle hnew none⟩
  · refine ⟨h, bs, b, if_neg hlt, Heap.Later.refl h, ht, by omega, ?_⟩
    rwa [← hp, ← hb, Function.update_eq_self, Function.update_eq_self]

/-- **`lcc_input_edit_wizard` writes at the cursor**, if `ulen + datalen` is an `int`. -/
theorem wizard_spec (hr : Ready held v c e r b) (hint : e.bs.ulen + data.length ≤ intMax) :
    ∃ e', lccInputEditWizard e data = .ok e' ∧ Follows e.heap held v c e' (r.put data) := by
  have hnew := wizardNewlen_put hr data
  have hgrow : e.bs.ulen ≤ wizardNewlen e data.length := Nat.le_max_left _ _
  obtain ⟨h₁, bs₁, b₁, henlarge, hlater₁, ht₁, hroom, ho₁⟩ :=
    wizardEnlarge_spec hr.owns hr.ptr hr.block hr.text (wizardNewlen e data.length) hgrow
  rw [hnew] at hroom henlarge
  obtain ⟨b₂, b₃, hb₂, hb₃, hlen, htake⟩ := wizard_block hr data ht₁ hroom
  -- the move
  have hmove : ∃ h₂, wizardMove e h₁ bs₁ data.length = .ok h₂ ∧ h₁.Later h₂
      ∧ Owns h₂ (Function.update held c bs₁.ibuf) (Function.update v c (some b₂)) := by
    rw [wizardMove]
    by_cases hcond : e.insertmode = true ∧ e.ipos < bs₁.ulen
    · rw [if_pos hcond] at hb₂ ⊢
      obtain ⟨h₂, hwrite, hlater, ho₂⟩ := memWrite_owned (c := c) ho₁ (Function.update_self ..)
        (Function.update_self ..) (f := fun b => Blocks.move b _ _ _) hb₂
      rw [Function.update_idem] at ho₂
      exact ⟨h₂, hwrite, hlater, ho₂⟩
    · rw [if_neg hcond] at hb₂ ⊢
      obtain rfl := Option.some.inj hb₂
      exact ⟨h₁, rfl, Heap.Later.refl _, ho₁⟩
  obtain ⟨h₂, hmove, hlater₂, ho₂⟩ := hmove
  -- the copy
  obtain ⟨h₃, hcopy, hlater₃, ho₃⟩ := memWrite_owned (c := c) ho₂ (Function.update_self ..)
    (Function.update_self ..) (f := fun b => Blocks.copyIn b _ _) hb₃
  rw [Function.update_idem] at ho₃
  refine ⟨⟨h₃, { bs₁ with ulen := (r.put data).line.text.length }, e.ipos + data.length, e.insertmode⟩,
    ?_, ⟨(hlater₁.trans hlater₂).trans hlater₃, b₃, ?_, ho₃⟩, ?_, hr.mode⟩
  · simp only [lccInputEditWizard, if_neg (Nat.not_lt.mpr hint), hnew, henlarge, hmove, memcpy,
      hcopy, bind, Except.bind]
  · exact ⟨rfl, hroom, by rw [hlen]; exact ht₁.size, htake⟩
  · show e.ipos + data.length = (r.put data).line.cursor
    rw [hr.cursor, RefEditor.put]
    cases r.insertmode <;> rfl

/-- The sum is computed in both modes, and first. -/
theorem wizard_overflow (hint : intMax < e.bs.ulen + data.length) :
    lccInputEditWizard e data = .error .overflow := if_pos hint

/-! ### Taking a character out -/

theorem deleteMove_spec (hr : Ready held v c e r b) (hpos : e.ipos < e.bs.ulen)
    (hroom : e.bs.ulen < e.bs.ttlen) :
    ∃ h' b', deleteMove e = .ok h' ∧ e.heap.Later h' ∧ b'.length = b.length
      ∧ b'.take (e.bs.ulen - 1) = (r.line.text.eraseIdx r.line.cursor).map some
      ∧ Owns h' held (Function.update v c (some b')) := by
  have hused := hr.text.used
  have hsize := hr.text.size
  have herase : (r.line.text.eraseIdx r.line.cursor).map some
      = (r.line.text.map some).eraseIdx r.line.cursor := List.eraseIdx_map .. |>.symm
  rw [deleteMove, herase, ← hr.cursor]
  by_cases hlast : e.ipos < e.bs.ulen - 1
  · obtain ⟨b', hmove⟩ : ∃ b', Blocks.move b e.ipos (e.ipos + 1) (e.bs.ulen - e.ipos) = some b' :=
      ⟨_, Blocks.move_inside (by omega) (by omega)⟩
    obtain ⟨h', hwrite, hlater, ho⟩ := memWrite_owned (c := c) hr.owns hr.ptr hr.block
      (f := fun b => Blocks.move b _ _ _) hmove
    rw [if_pos hlast]
    exact ⟨h', b', hwrite, hlater, Blocks.length_move hmove,
      Blocks.take_delete hr.text.text hpos (by omega) hmove, ho⟩
  · rw [if_neg hlast]
    refine ⟨e.heap, b, rfl, Heap.Later.refl _, rfl, ?_, ?_⟩
    · have hlen : (r.line.text.map some).length = e.ipos + 1 := by rw [List.length_map]; omega
      rw [List.eraseIdx_eq_take_drop_succ, List.drop_of_length_le (by omega), List.append_nil,
        ← hr.text.text, List.take_take]
      congr 1
      omega
    · have ho := hr.owns
      rwa [← Function.update_eq_self c v, hr.block] at ho

/-- **The character at the cursor is taken out**, when there is a byte behind the text. -/
theorem deleteHere_spec (hr : Ready held v c e r b) (hpos : e.ipos < e.bs.ulen)
    (hroom : e.bs.ulen < e.bs.ttlen) :
    ∃ e', deleteHere e = .ok e'
      ∧ Follows e.heap held v c e' { r with line := r.line.delete } := by
  obtain ⟨h', b', hmove, hlater, hlen, htake, ho⟩ := deleteMove_spec hr hpos hroom
  have hused := hr.text.used
  have hdel : r.line.delete.text.length = e.bs.ulen - 1 := by
    rw [Line.length_delete (by rw [← hr.cursor]; omega), hused]
  refine ⟨{ e with heap := h', bs := { e.bs with ulen := e.bs.ulen - 1 } }, ?_,
    ⟨hlater, b', ⟨hdel.symm, ?_, hlen.trans hr.text.size, htake⟩, ?_⟩, hr.cursor, hr.mode⟩
  · rw [deleteHere, hmove]
    rfl
  · show e.bs.ulen - 1 ≤ e.bs.ttlen
    omega
  · show Owns h' (Function.update held c e.bs.ibuf) _
    rwa [← hr.ptr, Function.update_eq_self]

/-! ### Completion -/

theorem endsToken_eq : endsToken = RefEditor.endsWord := by
  funext x
  rw [endsToken, isDelim_eq, RefEditor.endsWord]

theorem tokenStart_le (buf : Bytes) (n : Nat) : tokenStart buf n ≤ n := by
  induction n with
  | zero => exact Nat.le_refl 0
  | succ n ih => rw [tokenStart]; split <;> omega

/-- **The loop finds the start of the word.** -/
theorem drop_tokenStart (buf : Bytes) (n : Nat) (hn : n ≤ buf.length) :
    (buf.take n).drop (tokenStart buf n)
      = (buf.take n).rtakeWhile fun x => !RefEditor.endsWord x := by
  induction n with
  | zero => rfl
  | succ n ih =>
      have hget : buf.getD n 0 = buf[n] := by rw [List.getD_eq_getElem?_getD, List.getElem?_eq_getElem]; rfl
      have hsnoc : buf.take (n + 1) = buf.take n ++ [buf[n]] := (List.take_append_getElem hn).symm
      rw [tokenStart, endsToken_eq, hget, hsnoc, List.rtakeWhile_concat]
      by_cases hend : RefEditor.endsWord buf[n] = true
      · rw [if_pos hend, if_neg (by simp [hend]), List.drop_of_length_le]
        simp
      · have hle := tokenStart_le buf n
        rw [if_neg hend, if_pos (by simpa using hend), ← ih (by omega),
          List.drop_append_of_le_length (by rw [List.length_take]; omega)]

theorem tabToken_eq (l : Line UInt8) (culist : List CString) :
    tabToken l.before culist = RefEditor.candidates l culist := by
  have hlen : l.before.length = l.cursor := by
    rw [Line.before, List.length_take, Nat.min_eq_left l.inside]
  have hword := drop_tokenStart l.before l.before.length (Nat.le_refl _)
  rw [List.take_length] at hword
  have hzero : tokenStart l.before l.before.length = 0
      ↔ (RefEditor.wordBefore l).length = l.cursor := by
    have hle := tokenStart_le l.before l.before.length
    have hwlen := congrArg List.length hword
    rw [List.length_drop] at hwlen
    rw [RefEditor.wordBefore, ← hwlen, ← hlen]
    omega
  rw [tabToken, RefEditor.candidates, hword, ← RefEditor.wordBefore]
  simp only [hzero]

theorem strncaseeq_completes (word name : Bytes) :
    strncaseeq word name word.length = RefEditor.Completes word name := by
  rw [Bool.eq_iff_iff, RefEditor.Completes, List.isPrefixOf_iff_prefix, List.prefix_iff_eq_take,
    strncaseeq, beq_iff_eq, List.take_length, List.length_map, List.map_take]

/-- **The search finds the only match.** -/
theorem findMatch_eq (word : Bytes) (names : List Bytes) (cusi : Option Bytes) :
    findMatch word cusi names
      = match cusi.toList ++ names.filter (RefEditor.Completes word) with
        | [] => .nothing
        | [t] => .one t
        | _ => .many := by
  induction names generalizing cusi with
  | nil => cases cusi <;> rfl
  | cons t names ih =>
      by_cases hm : RefEditor.Completes word t = true
      · rw [List.filter_cons_of_pos hm]
        cases cusi with
        | none =>
            rw [findMatch, strncaseeq_completes, if_pos hm]
            exact ih (some t)
        | some t' =>
            rw [findMatch, strncaseeq_completes, if_pos hm]
            rfl
      · rw [List.filter_cons_of_neg hm]
        cases cusi <;> rw [findMatch, strncaseeq_completes, if_neg hm] <;> exact ih _

theorem tabData_eq (l : Line UInt8) (culist : List CString) :
    tabData l.before culist = RefEditor.completion l culist := by
  simp only [tabData, RefEditor.completion, tabToken_eq, findMatch_eq, Option.toList_none,
    List.nil_append]
  generalize hfound : List.filter _ _ = found
  match found, hfound with
  | [], _ => rfl
  | [t], hfound =>
      have hpre : RefEditor.Completes (RefEditor.candidates l culist).1 t = true := by
        have : t ∈ [t] := List.mem_singleton_self t
        rw [← hfound] at this
        exact (List.mem_filter.mp this).2
      have hle : (RefEditor.candidates l culist).1.length ≤ t.length := by
        rw [RefEditor.Completes, List.isPrefixOf_iff_prefix] at hpre
        simpa using hpre.length_le
      show some ((t ++ [32]).drop _) = some (t.drop _ ++ [32])
      rw [List.drop_append_of_le_length hle]
  | _ :: _ :: _, _ => rfl

/-! ### A key -/

/-- Nothing has been done to memory. -/
theorem Ready.stays (hr : Ready held v c e r b) {e' : Editing} {r' : RefEditor}
    (hheap : e'.heap = e.heap) (hbs : e'.bs = e.bs) (htext : r'.line.text = r.line.text)
    (hcursor : e'.ipos = r'.line.cursor) (hmode : e'.insertmode = r'.insertmode) :
    Follows e.heap held v c e' r' := by
  refine ⟨⟨?_, b, ?_, ?_⟩, hcursor, hmode⟩
  · rw [hheap]
    exact Heap.Later.refl _
  · rw [hbs, htext]
    exact hr.text
  · have ho := hr.owns
    rw [hheap, hbs, ← hr.ptr, Function.update_eq_self]
    rwa [← Function.update_eq_self c v, hr.block] at ho

theorem wizard_or_overflow (hr : Ready held v c e r b) (data : Bytes) :
    (lccInputEditWizard e data = .error .overflow ∧ intMax < r.line.text.length + data.length)
      ∨ ∃ e', lccInputEditWizard e data = .ok e' ∧ Follows e.heap held v c e' (r.put data) := by
  rw [← hr.text.used]
  by_cases hint : intMax < e.bs.ulen + data.length
  · exact .inl ⟨wizard_overflow hint, hint⟩
  · exact .inr (wizard_spec hr (Nat.not_lt.mp hint))

/--
**A key does to the text what the reference does**, if there is room behind the text for
the move that is a byte too long.
-/
theorem editKey_refines (hr : Ready held v c e r b) (hroom : e.bs.ulen < e.bs.ttlen) (key : Key) :
    (editKey e key = .error .overflow
        ∧ intMax < r.line.text.length + (r.written key).length)
      ∨ ∃ e', editKey e key = .ok e' ∧ Follows e.heap held v c e' (r.key key) := by
  have hused := hr.text.used
  have hcursor := hr.cursor
  have hin := r.line.inside
  have hsame : Follows e.heap held v c e r := hr.stays rfl rfl rfl hcursor hr.mode
  cases key with
  | data cch => exact wizard_or_overflow hr [cch]
  | tab culist =>
      have hbefore : b.take e.ipos = r.line.before.map some := by
        rw [Line.before, List.map_take, ← hr.text.text, List.take_take, ← hcursor,
          Nat.min_eq_left (by omega)]
      have hread := readText_owned hr.owns hr.ptr hr.block
        (by rw [hr.text.size]; have := hr.text.room; omega) hbefore
      have htab : editKey e (.tab culist) = (match RefEditor.completion r.line culist with
          | some data => lccInputEditWizard e data
          | none => .ok e) := by
        rw [editKey_tab, tabKey, hread, ← tabData_eq]
        rfl
      rw [htab]
      show _ ∧ intMax < r.line.text.length + ((RefEditor.completion r.line culist).getD []).length
        ∨ ∃ e', _ ∧ Follows e.heap held v c e' (match RefEditor.completion r.line culist with
          | some data => r.put data
          | none => r)
      cases RefEditor.completion r.line culist with
      | some data => exact wizard_or_overflow hr data
      | none => exact .inr ⟨e, rfl, hsame⟩
  | keyHome => exact .inr ⟨_, rfl, hr.stays rfl rfl rfl rfl hr.mode⟩
  | keyEnd =>
      refine .inr ⟨_, rfl, hr.stays rfl rfl rfl ?_ hr.mode⟩
      show max e.ipos e.bs.ulen = r.line.text.length
      omega
  | keyLeft =>
      refine .inr ⟨_, rfl, hr.stays rfl rfl rfl ?_ hr.mode⟩
      show e.ipos - 1 = r.line.cursor - 1
      omega
  | keyRight =>
      refine .inr ⟨_, rfl, hr.stays rfl rfl rfl ?_ hr.mode⟩
      show (if e.ipos < e.bs.ulen then e.ipos + 1 else e.ipos) = min (r.line.cursor + 1) r.line.text.length
      split <;> omega
  | keyDc =>
      rw [editKey_keyDc]
      by_cases hpos : e.ipos < e.bs.ulen
      · rw [if_pos hpos]
        exact .inr (deleteHere_spec hr hpos hroom)
      · have hend : r.line.delete = r.line := Line.delete_end (by omega)
        rw [if_neg hpos, RefEditor.key_keyDc, hend]
        exact .inr ⟨e, rfl, hsame⟩
  | keyBackspace =>
      rw [editKey_keyBackspace, RefEditor.key_keyBackspace, Line.backspace]
      by_cases hpos : 0 < e.ipos
      · rw [if_pos hpos, if_neg (by omega)]
        have hleft : Ready held v c { e with ipos := e.ipos - 1 } { r with line := r.line.left } b :=
          ⟨hr.owns, hr.ptr, hr.block, hr.text, by rw [hcursor]; rfl, hr.mode⟩
        refine .inr (deleteHere_spec hleft ?_ hroom)
        show e.ipos - 1 < e.bs.ulen
        omega
      · rw [if_neg hpos, if_pos (by omega)]
        exact .inr ⟨e, rfl, hsame⟩
  | ctrlU =>
      refine .inr ⟨_, rfl, ⟨Heap.Later.refl _, b, ⟨rfl, Nat.zero_le _, hr.text.size, rfl⟩, ?_⟩, rfl,
        hr.mode⟩
      have ho := hr.owns
      rw [← Function.update_eq_self c held, ← Function.update_eq_self c v, hr.block, hr.ptr] at ho
      exact ho
  | keyIc =>
      refine .inr ⟨_, rfl, hr.stays rfl rfl rfl hcursor ?_⟩
      show (!e.insertmode) = !r.insertmode
      rw [hr.mode]
  | keyUp => exact .inr ⟨e, rfl, hsame⟩
  | keyDown => exact .inr ⟨e, rfl, hsame⟩
  | keyEnter => exact .inr ⟨e, rfl, hsame⟩
  | other => exact .inr ⟨e, rfl, hsame⟩

/-! ### Room before a key -/

/-- Nothing has been allocated for the line, which is empty then, or it is in its buffer. -/
def LineIn (v : ι → Option (List (Option UInt8))) (c : ι) (bs : Ibuf) (t : Bytes) : Prop :=
  (bs.ibuf = none ∧ t = []) ∨ ∃ b, v c = some b ∧ TextIn bs b t

theorem cMalloc_owned (ho : Owns h held v) (c : ι) (n : Nat) :
    h.Later (cMalloc h n).1
      ∧ Owns (cMalloc h n).1 (Function.update held c (cMalloc h n).2)
          (Function.update v c (some (List.replicate n none))) :=
  ⟨Heap.later_malloc _ _, ho.malloc c _⟩

/-- **Before a key there are eleven bytes of room**, unless the size overflows. -/
theorem makeRoom_spec (ho : Owns h held v) (hp : held c = bs.ibuf) (hline : LineIn v c bs t) :
    (makeRoom h bs = .error .overflow ∧ intMax < t.length + 110)
      ∨ ∃ h' bs', makeRoom h bs = .ok (h', bs') ∧ Changed h held v c h' bs' t
        ∧ bs'.ulen + 10 < bs'.ttlen := by
  cases hi : bs.ibuf with
  | none =>
      have ht : t = [] := by
        rcases hline with ⟨-, ht⟩ | ⟨b, hb, -⟩
        · exact ht
        · rw [ho.nothing c (hp.trans hi)] at hb
          cases hb
      obtain ⟨hlater, ho'⟩ := cMalloc_owned ho c lccBufAddLen
      refine .inr ⟨_, ⟨(cMalloc h lccBufAddLen).2, lccBufAddLen, 0⟩, by rw [makeRoom, hi],
        ⟨hlater, _, ?_, ho'⟩, by show 0 + 10 < 100; decide⟩
      subst ht
      exact ⟨rfl, Nat.zero_le _, List.length_replicate, rfl⟩
  | some p =>
      obtain ⟨b, hb, ht⟩ : ∃ b, v c = some b ∧ TextIn bs b t := by
        rcases hline with ⟨hnone, -⟩ | hb
        · rw [hi] at hnone
          cases hnone
        · exact hb
      have hused := ht.used
      rw [makeRoom, hi]
      simp only
      by_cases hfull : bs.ttlen ≤ bs.ulen + lccBufEnlargeZone
      · rw [if_pos hfull]
        rw [lccBufEnlargeZone] at hfull
        by_cases hint : intMax < bs.ttlen + lccBufAddLen
        · rw [if_pos hint]
          rw [lccBufAddLen] at hint
          exact .inl ⟨rfl, by omega⟩
        · rw [if_neg hint]
          obtain ⟨h', p', hrealloc, hlater, ho'⟩ := cRealloc_owned ho (hp.trans hi) hb
            (bs.ttlen + lccBufAddLen)
          have hle : bs.ulen ≤ b.length := by rw [ht.size]; exact ht.room
          have hroom := ht.room
          refine .inr ⟨h', { bs with ibuf := p', ttlen := bs.ttlen + lccBufAddLen }, ?_,
            ⟨hlater, _, ⟨hused, ?_, Heap.length_resize _ _ _, ?_⟩, ho'⟩, ?_⟩
          · rw [hrealloc]
            rfl
          · show bs.ulen ≤ bs.ttlen + lccBufAddLen
            omega
          · rw [← ht.text]
            exact Heap.take_resize hle (hroom.trans (Nat.le_add_right _ _)) none
          · show bs.ulen + 10 < bs.ttlen + lccBufAddLen
            rw [lccBufAddLen]
            omega
      · rw [if_neg hfull]
        rw [lccBufEnlargeZone] at hfull
        refine .inr ⟨h, bs, rfl, ⟨Heap.Later.refl _, b, ht, ?_⟩, by omega⟩
        have ho' := ho
        rwa [← Function.update_eq_self c held, ← Function.update_eq_self c v, hb, hp] at ho'

end Cells

/-! ### A key in `chatter_func` -/

section Keys

variable {held : Cell → Option Nat} {v : Cell → Option (List (Option UInt8))} {st st' : Editor}
  {r : RefEditor} {histlen : Nat}

/-- The line that the cursor is in, and the line of the reference. -/
structure LineState (held : Cell → Option Nat) (v : Cell → Option (List (Option UInt8)))
    (st : Editor) (r : RefEditor) : Prop where
  owns : Owns st.heap held v
  ptr : held (st.ibqi, 0) = (st.iqueue (st.ibqi, 0)).ibuf
  line : LineIn v (st.ibqi, 0) (st.iqueue (st.ibqi, 0)) r.line.text
  cursor : st.ibufPos = r.line.cursor
  mode : st.insertmode = r.insertmode

/-- What a key leaves that stays on its line. -/
structure Edited (held : Cell → Option Nat) (v : Cell → Option (List (Option UInt8)))
    (st st' : Editor) (r' : RefEditor) : Prop where
  ibqi : st'.ibqi = st.ibqi
  queue : ∃ bs, st'.iqueue = Function.update st.iqueue (st.ibqi, 0) bs
    ∧ Changed st.heap held v (st.ibqi, 0) st'.heap bs r'.line.text
  cursor : st'.ibufPos = r'.line.cursor
  mode : st'.insertmode = r'.insertmode

theorem chatterKey_room {e : EditFault} (key : Key)
    (hroom : makeRoom st.heap (st.iqueue (st.ibqi, 0)) = .error e) :
    chatterKey histlen st key = .error e := by
  rw [chatterKey, hroom]
  rfl

theorem chatterKey_switch (histlen : Nat) (key : Key) {h : Mem} {bs : Ibuf}
    (hroom : makeRoom st.heap (st.iqueue (st.ibqi, 0)) = .ok (h, bs)) :
    chatterKey histlen st key = switchKey histlen
      { st with heap := h, iqueue := Function.update st.iqueue (st.ibqi, 0) bs } key := by
  rw [chatterKey, hroom]
  rfl

theorem switchKey_edit (key : Key) (hkey : key.isEdit = true) :
    switchKey histlen st key = (stayOnLine st key).map (·, none) := by
  cases key <;> first | rfl | cases hkey

/-- The room, in the state of the reference. -/
theorem LineState.room (hl : LineState held v st r) :
    (makeRoom st.heap (st.iqueue (st.ibqi, 0)) = .error .overflow
        ∧ intMax < r.line.text.length + 110)
      ∨ ∃ h bs b, makeRoom st.heap (st.iqueue (st.ibqi, 0)) = .ok (h, bs) ∧ st.heap.Later h
        ∧ bs.ulen + 10 < bs.ttlen
        ∧ Ready (Function.update held (st.ibqi, 0) bs.ibuf)
          (Function.update v (st.ibqi, 0) (some b)) (st.ibqi, 0)
          ⟨h, bs, st.ibufPos, st.insertmode⟩ r b := by
  rcases makeRoom_spec hl.owns hl.ptr hl.line with hover | ⟨h, bs, hok, hchanged, hslack⟩
  · exact .inl hover
  · obtain ⟨b, ht, ho⟩ := hchanged.block
    exact .inr ⟨h, bs, b, hok, hchanged.later, hslack,
      ⟨ho, Function.update_self .., Function.update_self .., ht, hl.cursor, hl.mode⟩⟩

/-- **A key that edits the line**: what the reference does, or an `int` overflows. -/
theorem edit_refines (histlen : Nat) (hl : LineState held v st r) (key : Key) (hkey : key.isEdit = true) :
    (chatterKey histlen st key = .error .overflow
        ∧ (intMax < r.line.text.length + 110
          ∨ intMax < r.line.text.length + (r.written key).length))
      ∨ ∃ st', chatterKey histlen st key = .ok (st', none) ∧ Edited held v st st' (r.key key) := by
  rcases hl.room with ⟨hover, hint⟩ | ⟨h, bs, b, hok, hlater, hslack, hready⟩
  · exact .inl ⟨chatterKey_room key hover, .inl hint⟩
  · rw [chatterKey_switch histlen key hok, switchKey_edit key hkey, stayOnLine]
    simp only [Function.update_self, Function.update_idem]
    rcases editKey_refines hready (by show bs.ulen < bs.ttlen; omega) key with
      ⟨herr, hint⟩ | ⟨e, he, hfollows⟩
    · exact .inl ⟨by rw [herr]; rfl, .inr hint⟩
    · refine .inr ⟨⟨e.heap, Function.update st.iqueue (st.ibqi, 0) e.bs, st.ibqi, e.ipos, e.insertmode⟩,
        by rw [he]; rfl, rfl, ⟨e.bs, rfl, hlater.trans hfollows.changed.later, ?_⟩,
        hfollows.cursor, hfollows.mode⟩
      obtain ⟨b', ht', ho'⟩ := hfollows.changed.block
      rw [Function.update_idem, Function.update_idem] at ho'
      exact ⟨b', ht', ho'⟩

theorem Edited.lineState {r' : RefEditor} (h : Edited held v st st' r') :
    ∃ held' v', LineState held' v' st' r' := by
  obtain ⟨bs, hqueue, hchanged⟩ := h.queue
  obtain ⟨b, ht, ho⟩ := hchanged.block
  refine ⟨_, _, ho, ?_, ?_, h.cursor, h.mode⟩
  · rw [h.ibqi, hqueue, Function.update_self, Function.update_self]
  · rw [h.ibqi, hqueue, Function.update_self]
    exact .inr ⟨b, Function.update_self .., ht⟩

end Keys

/-! ### Runs of keys that edit -/

/-- A fresh line: nothing has been allocated for it. -/
structure FreshLine (st : Editor) : Prop where
  ibqi : st.ibqi = 0
  ibuf : (st.iqueue (0, 0)).ibuf = none
  pos : st.ibufPos = 0

/-- The reference on a fresh line. -/
def RefEditor.fresh (st : Editor) : RefEditor := ⟨Line.empty, st.insertmode⟩

/-- The buffer of the line is a block of `ttlen` bytes, and its front part is the text. -/
structure KeepsLine (st : Editor) (r : RefEditor) (b : List (Option UInt8)) : Prop where
  block : (st.iqueue (0, 0)).ibuf.bind st.heap.get = some b
  text : TextIn (st.iqueue (0, 0)) b r.line.text
  cursor : st.ibufPos = r.line.cursor
  inside : st.ibufPos ≤ (st.iqueue (0, 0)).ulen
  mode : st.insertmode = r.insertmode

/-- Each key finds a line that is short enough for the computations with `int`. -/
def ShortLines (r : RefEditor) : List Key → Prop
  | [] => True
  | key :: ks =>
      r.line.text.length + 110 ≤ intMax ∧ r.line.text.length + (r.written key).length ≤ intMax
        ∧ ShortLines (r.key key) ks

instance : (ks : List Key) → (r : RefEditor) → Decidable (ShortLines r ks)
  | [], _ => isTrue trivial
  | key :: ks, r =>
      have := instDecidableShortLines ks (r.key key)
      inferInstanceAs (Decidable (_ ∧ _ ∧ _))

theorem Edited.keepsLine {held : Cell → Option Nat} {v : Cell → Option (List (Option UInt8))}
    {st st' : Editor} {r' : RefEditor} (h : Edited held v st st' r') (hq : st.ibqi = 0) :
    ∃ b, KeepsLine st' r' b := by
  obtain ⟨bs, hqueue, hchanged⟩ := h.queue
  obtain ⟨b, ht, ho⟩ := hchanged.block
  rw [hq] at hqueue ho
  have hbs : st'.iqueue (0, 0) = bs := by rw [hqueue, Function.update_self]
  refine ⟨b, ?_, by rwa [hbs], h.cursor, ?_, h.mode⟩
  · rw [hbs]
    exact ho.bind_get (Function.update_self ..) (Function.update_self ..)
  · rw [h.cursor, hbs, ht.used]
    exact r'.line.inside

/-- The keys that characters mean, each with the names that `culist` has then. -/
def typedKeys (backspaceChar : Int) (chs : List (List CString × Int)) : List Key :=
  chs.map fun c => keyOf backspaceChar c.1 c.2

theorem pressAll_cons (histlen : Nat) (s : Session) (key : Key) (ks : List Key) :
    s.pressAll histlen (key :: ks) = (s.press histlen key).bind fun s => s.pressAll histlen ks := by
  rw [Session.pressAll, List.foldlM_cons]
  rfl

theorem pressAll_append (histlen : Nat) (s : Session) (ks ks' : List Key) :
    s.pressAll histlen (ks ++ ks') = (s.pressAll histlen ks).bind fun s => s.pressAll histlen ks' := by
  rw [Session.pressAll, List.foldlM_append]
  rfl

theorem pressAll_concat {histlen : Nat} {s s' : Session} {ks : List Key}
    (h : s.pressAll histlen ks = .ok s') (key : Key) :
    s.pressAll histlen (ks ++ [key]) = s'.press histlen key := by
  rw [pressAll_append, h]
  show s'.pressAll histlen [key] = _
  rw [pressAll_cons]
  cases s'.press histlen key <;> rfl

theorem pressAll_error {histlen : Nat} {s : Session} {ks : List Key} {e : EditFault}
    (h : s.pressAll histlen ks = .error e) (ks' : List Key) :
    s.pressAll histlen (ks ++ ks') = .error e := by
  rw [pressAll_append, h]
  rfl

theorem press_ok {histlen : Nat} {s : Session} {key : Key} {st : Editor} {line : Option Bytes}
    (h : chatterKey histlen s.ed key = .ok (st, line)) :
    s.press histlen key = .ok ⟨st, line.toList ++ s.entered⟩ := by
  rw [Session.press, h]
  rfl

theorem press_error {histlen : Nat} {s : Session} {key : Key} {e : EditFault}
    (h : chatterKey histlen s.ed key = .error e) : s.press histlen key = .error e := by
  rw [Session.press, h]
  rfl

/-- **A run of keys that edit**: the reference is followed until an `int` overflows. -/
theorem run_refines (histlen : Nat) (ks : List Key) :
    ∀ (s : Session) (r : RefEditor) held v, LineState held v s.ed r → s.ed.ibqi = 0 →
      (∀ k ∈ ks, k.isEdit = true) →
      (s.pressAll histlen ks = .error .overflow ∧ ¬ ShortLines r ks)
        ∨ ∃ s' held' v', s.pressAll histlen ks = .ok s' ∧ s'.ed.ibqi = 0
          ∧ s'.entered = s.entered ∧ LineState held' v' s'.ed (r.keys ks)
          ∧ (ks ≠ [] → ∃ b, KeepsLine s'.ed (r.keys ks) b) := by
  induction ks with
  | nil =>
      intro s r held v hl hq _
      exact .inr ⟨s, held, v, rfl, hq, rfl, hl, fun hne => absurd rfl hne⟩
  | cons key ks ih =>
      intro s r held v hl hq hedit
      rw [pressAll_cons, Session.press]
      rcases edit_refines histlen hl key (hedit key List.mem_cons_self) with
        ⟨herr, hint⟩ | ⟨st', hok, hedited⟩
      · refine .inl ⟨by rw [herr]; rfl, fun hshort => ?_⟩
        have := hshort.1
        have := hshort.2.1
        omega
      · rw [hok]
        obtain ⟨held', v', hl'⟩ := hedited.lineState
        have hq' : st'.ibqi = 0 := hedited.ibqi.trans hq
        rcases ih ⟨st', s.entered⟩ (r.key key) held' v' hl' hq'
          (fun k hk => hedit k (List.mem_cons_of_mem _ hk)) with
          ⟨herr, hlong⟩ | ⟨s', held'', v'', hrun, hq'', hent, hl'', hkeeps⟩
        · exact .inl ⟨herr, fun hshort => hlong hshort.2.2⟩
        · refine .inr ⟨s', held'', v'', hrun, hq'', hent, hl'', fun _ => ?_⟩
          by_cases hnil : ks = []
          · subst hnil
            obtain rfl : ⟨st', s.entered⟩ = s' := Except.ok.inj hrun
            exact hedited.keepsLine hq
          · exact hkeeps hnil

/--
**The input line is a line with a cursor.**  From a fresh line, whatever keys are pressed
that edit it: where the run gets to, the buffer holds the text of the reference, with the
cursor in the same place and no access outside of the `ttlen` bytes that are allocated; it
stops nowhere but at an `int` that overflows; and there is none as long as the line is short.
-/
theorem editor_refines (histlen : Nat) (backspaceChar : Int) (chs : List (List CString × Int))
    (st : Editor) (hst : FreshLine st)
    (hedit : ∀ k ∈ typedKeys backspaceChar chs, k.isEdit = true) (hne : chs ≠ []) :
    (∀ s, Session.pressAll histlen ⟨st, []⟩ (typedKeys backspaceChar chs) = .ok s →
        ∃ b, KeepsLine s.ed ((RefEditor.fresh st).keys (typedKeys backspaceChar chs)) b)
      ∧ (∀ e, Session.pressAll histlen ⟨st, []⟩ (typedKeys backspaceChar chs) = .error e →
        e = .overflow)
      ∧ (ShortLines (RefEditor.fresh st) (typedKeys backspaceChar chs) →
        ∃ s, Session.pressAll histlen ⟨st, []⟩ (typedKeys backspaceChar chs) = .ok s) := by
  have hl : LineState (fun _ => none) (fun _ => none) st (RefEditor.fresh st) := by
    refine ⟨Owns.empty _, ?_, ?_, hst.pos, rfl⟩
    · rw [hst.ibqi, hst.ibuf]
    · rw [hst.ibqi]
      exact .inl ⟨hst.ibuf, rfl⟩
  have hkeys : typedKeys backspaceChar chs ≠ [] := fun hnil => hne (List.map_eq_nil_iff.mp hnil)
  rcases run_refines histlen _ ⟨st, []⟩ _ _ _ hl hst.ibqi hedit with
    ⟨herr, hlong⟩ | ⟨s', _, _, hok, -, -, -, hkeeps⟩
  · rw [herr]
    refine ⟨fun s hs => by (cases hs), fun e he => ?_, fun hshort => absurd hshort hlong⟩
    cases he
    rfl
  · rw [hok]
    refine ⟨fun s hs => ?_, fun e he => by (cases he), fun _ => ⟨s', rfl⟩⟩
    obtain rfl := Except.ok.inj hs
    exact hkeeps hkeys

/-- `a`, `b`, a letter in front of the `b` that is taken back, Tab at the end with one name for
it, and a letter over the first one. -/
def abcChars : List (List CString × Int) :=
  [([], 97), ([], 98), ([], 0o404), ([], 120), ([], 127), ([], 0o550),
    ([⟨text "abc", by decide⟩, ⟨text "ad", by decide⟩], 9), ([], 0o513), ([], 0o406), ([], 88)]

theorem editor_refines_abc : ∃ s b,
    Session.pressAll 3 ⟨.init, []⟩ (typedKeys 127 abcChars) = .ok s ∧
      TextIn (s.ed.iqueue (0, 0)) b (text "Xbc ") ∧ s.ed.ibufPos = 1 ∧ s.ed.insertmode = false := by
  obtain ⟨hline, -, hshort⟩ :=
    editor_refines 3 127 abcChars .init ⟨rfl, rfl, rfl⟩ (by decide) (by decide)
  obtain ⟨s, hs⟩ := hshort (by decide)
  obtain ⟨b, hb⟩ := hline s hs
  refine ⟨s, b, hs, ?_, ?_, ?_⟩
  · have htext := hb.text
    rwa [show ((RefEditor.fresh .init).keys (typedKeys 127 abcChars)).line.text = text "Xbc "
      from by decide] at htext
  · rw [hb.cursor]
    decide
  · rw [hb.mode]
    decide

/-- A character more than an `int` can count. -/
theorem data_overflow {held : Cell → Option Nat} {v : Cell → Option (List (Option UInt8))}
    {st : Editor} {r : RefEditor} (histlen : Nat) (hl : LineState held v st r)
    (hlong : intMax ≤ r.line.text.length) (cch : UInt8) :
    chatterKey histlen st (.data cch) = .error .overflow := by
  rcases hl.room with ⟨hover, -⟩ | ⟨h, bs, b, hok, -, -, hready⟩
  · exact chatterKey_room _ hover
  · have hused : bs.ulen = r.line.text.length := hready.text.used
    have hwizard : lccInputEditWizard ⟨h, bs, st.ibufPos, st.insertmode⟩ [cch] = .error .overflow :=
      wizard_overflow (by show intMax < bs.ulen + 1; omega)
    rw [chatterKey_switch histlen _ hok, switchKey_edit _ rfl, stayOnLine]
    simp only [Function.update_self, editKey_data, hwizard]
    rfl

theorem length_keys_data (n : Nat) (cch : UInt8) (r : RefEditor) (hr : r.insertmode = true) :
    (r.keys (List.replicate n (.data cch))).line.text.length = r.line.text.length + n := by
  induction n generalizing r with
  | zero => rfl
  | succ n ih =>
      have hkey : r.key (.data cch) = { r with line := r.line.insert [cch] } := by
        rw [RefEditor.key_data, RefEditor.put, if_pos hr]
      rw [List.replicate_succ, RefEditor.keys, List.foldl_cons, ← RefEditor.keys, ih _ (by rw [hkey, hr]),
        hkey]
      show (r.line.insert [cch]).text.length + n = _
      rw [Line.length_insert, List.length_singleton]
      omega

/-- After `INT_MAX` characters, the sum `ulen + datalen` overflows. -/
theorem not_editor_refines : ¬ ∀ (histlen : Nat) (backspaceChar : Int)
    (chs : List (List CString × Int)) (st : Editor), FreshLine st →
      (∀ k ∈ typedKeys backspaceChar chs, k.isEdit = true) → chs ≠ [] →
      ∃ s, Session.pressAll histlen ⟨st, []⟩ (typedKeys backspaceChar chs) = .ok s
        ∧ ∃ b, KeepsLine s.ed ((RefEditor.fresh st).keys (typedKeys backspaceChar chs)) b := by
  intro hall
  have hkeys : ∀ n, typedKeys 127 (List.replicate n ([], 97)) = List.replicate n (.data 97) :=
    fun n => List.map_replicate
  have hedit : ∀ n, ∀ k ∈ List.replicate n (Key.data 97), k.isEdit = true := by
    intro n k hk
    rw [List.eq_of_mem_replicate hk]
    rfl
  obtain ⟨s, hs, -⟩ := hall 3 127 (List.replicate (intMax + 1) ([], 97)) .init ⟨rfl, rfl, rfl⟩
    (by rw [hkeys]; exact hedit _) (fun hnil => by rw [List.replicate_succ] at hnil; cases hnil)
  rw [hkeys, List.replicate_succ', pressAll_append] at hs
  have hl : LineState (fun _ => none) (fun _ => none) Editor.init (.fresh .init) :=
    ⟨Owns.empty _, rfl, .inl ⟨rfl, rfl⟩, rfl, rfl⟩
  rcases run_refines 3 (List.replicate intMax (.data 97)) ⟨.init, []⟩ _ _ _ hl rfl (hedit _) with
    ⟨herr, -⟩ | ⟨s', held, v, hok, -, -, hl', -⟩
  · rw [herr] at hs
    cases hs
  · have hlen := length_keys_data intMax 97 (.fresh .init) rfl
    have hover := data_overflow 3 hl' (by rw [hlen]; exact Nat.le_add_left _ _) 97
    have hlast : s'.pressAll 3 [.data 97] = .error .overflow := by
      rw [pressAll_cons, Session.press, hover]
      rfl
    rw [hok] at hs
    have hbad := hlast.symm.trans hs
    cases hbad

end Smsg
