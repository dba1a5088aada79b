/-
Mails are announced once.

Each time the mailbox has grown, `lcc_mboxchange` reads all of it again and tells of the
mails behind those that it has counted before.  As long as whole lines are appended, the
pieces that it has read stay what they are (`mailWatch_news`).  So each sender and each
subject that is appended is told at the next call, and at no other one, if whole mails are
appended and their lines fit the buffer (`mail_announced_once`).  A subject in front of the
first `"From "` of what is appended would not be told, and of a longer line each piece is
taken for a line.
-/
import Smsg.Proofs.Mailbox

namespace Smsg

open Pieces

/-! ### One scan -/

/-- What is told of a piece behind the mails that are known. -/
def mailPiece (buf : Bytes) : List ChatterAct :=
  (if startsMail buf then [sayRest (text " [%.*s]") buf 5 (text " \t\n\r")] else [])
    ++ (if subjectLine.isPrefixOf buf then [sayRest (text "<%.*s>") buf 9 (text "\n\r")] else [])

section

variable {changed m : Int} {n : Nat} {bufs : List Bytes}

theorem mailNews_eq (n : Nat) (buf : Bytes) :
    mailNews changed m n buf = if changed = 1 ∧ m ≠ -1 ∧ m < n then mailPiece buf else [] := rfl

/-- What comes first in a mailbox is scanned first. -/
theorem mboxScan_append {n' n'' : Nat} {bufs' : List Bytes} {said said' : List ChatterAct}
    (h : mboxScan changed m n bufs = .ok (n', said))
    (h' : mboxScan changed m n' bufs' = .ok (n'', said')) :
    mboxScan changed m n (bufs ++ bufs') = .ok (n'', said ++ said') := by
  induction bufs generalizing n said with
  | nil =>
      obtain ⟨rfl, rfl⟩ := Prod.mk.inj (Except.ok.inj h)
      exact h'
  | cons buf bufs ih =>
      rw [mboxScan] at h
      rw [List.cons_append, mboxScan]
      by_cases hmax : intMax < n + if fromLine.isPrefixOf buf then 1 else 0
      · rw [if_pos hmax] at h
        cases h
      · rw [if_neg hmax] at h ⊢
        cases hrest : mboxScan changed m (n + if fromLine.isPrefixOf buf then 1 else 0) bufs with
        | error f => rw [hrest] at h; cases h
        | ok r =>
            rw [hrest] at h
            obtain ⟨hn, rfl⟩ := Prod.mk.inj (Except.ok.inj h)
            have hr : r = (n', r.2) := Prod.ext hn rfl
            rw [hr] at hrest
            rw [ih hrest, List.append_assoc]
            rfl

/-- Where nothing is news, nothing is told. -/
theorem mboxScan_quiet (hmax : n + bufs.countP startsMail ≤ intMax)
    (hquiet : changed ≠ 1 ∨ ((n + bufs.countP startsMail : Nat) : Int) ≤ m) :
    mboxScan changed m n bufs = .ok (n + bufs.countP startsMail, []) := by
  induction bufs generalizing n with
  | nil => rfl
  | cons buf bufs ih =>
      have hcount : n + (buf :: bufs).countP startsMail
          = n + (if startsMail buf then 1 else 0) + bufs.countP startsMail := by
        rw [List.countP_cons]
        omega
      rw [hcount] at hmax hquiet ⊢
      have hnews : mailNews changed m (n + if startsMail buf then 1 else 0) buf = [] := by
        rw [mailNews_eq]
        refine if_neg fun h => ?_
        rcases hquiet with hno | hle
        · exact hno h.1
        · have := h.2.2
          omega
      rw [mboxScan, ← startsMail, if_neg (by omega), ih hmax hquiet, hnews]
      rfl

/-- Behind the mails that are known, everything is told. -/
theorem mboxScan_all (hmax : n + bufs.countP startsMail ≤ intMax) (hm : 0 ≤ m) (hnew : m < n) :
    mboxScan 1 m n bufs = .ok (n + bufs.countP startsMail, bufs.flatMap mailPiece) := by
  induction bufs generalizing n with
  | nil => rfl
  | cons buf bufs ih =>
      have hcount : n + (buf :: bufs).countP startsMail
          = n + (if startsMail buf then 1 else 0) + bufs.countP startsMail := by
        rw [List.countP_cons]
        omega
      rw [hcount] at hmax ⊢
      have hnews : mailNews 1 m (n + if startsMail buf then 1 else 0) buf = mailPiece buf := by
        rw [mailNews_eq]
        refine if_pos ⟨rfl, by omega, ?_⟩
        omega
      rw [mboxScan, ← startsMail, if_neg (by omega), ih hmax (by omega), hnews]
      rfl

/-- From the end of the known mails on, everything is told that belongs to a mail. -/
theorem mboxScan_new (hmax : n + bufs.countP startsMail ≤ intMax) :
    mboxScan 1 n n bufs = .ok (n + bufs.countP startsMail,
      (bufs.dropWhile fun buf => !startsMail buf).flatMap mailPiece) := by
  induction bufs with
  | nil => rfl
  | cons buf bufs ih =>
      by_cases hstart : startsMail buf = true
      · have hcount : n + (buf :: bufs).countP startsMail = n + 1 + bufs.countP startsMail := by
          rw [List.countP_cons, if_pos hstart]
          omega
        rw [hcount] at hmax ⊢
        have hnews : mailNews 1 n (n + 1) buf = mailPiece buf := by
          rw [mailNews_eq]
          exact if_pos ⟨rfl, by omega, by omega⟩
        rw [mboxScan, ← startsMail, if_pos hstart, if_neg (by omega),
          mboxScan_all hmax (by omega) (by omega), hnews,
          List.dropWhile_cons_of_neg (by simp [hstart])]
        rfl
      · have hcount : n + (buf :: bufs).countP startsMail = n + bufs.countP startsMail := by
          rw [List.countP_cons, if_neg hstart]
          omega
        rw [hcount] at hmax ⊢
        have hnews : mailNews 1 n n buf = [] := by
          rw [mailNews_eq]
          exact if_neg fun h => by omega
        rw [mboxScan, ← startsMail, if_neg hstart, Nat.add_zero, if_neg (by omega), ih hmax, hnews,
          List.dropWhile_cons_of_pos (by simp [hstart])]
        rfl

end

/-! ### One call after the other -/

/-- Calls of `lcc_mboxchange`, with what is appended to the mailbox before each of them. -/
def mailWatch (v : Mbox) (file : Bytes) : List Bytes → Except EditFault (Mbox × List ChatterAct)
  | [] => .ok (v, [])
  | new :: news => do
      let file := file ++ new
      let (_, v, said) ← lccMboxchange v (some file.length) (some file)
      let (v, more) ← mailWatch v file news
      .ok (v, said ++ more)

/-- What a call says for what has been appended. -/
def announcement (new : Bytes) : List ChatterAct :=
  if new = [] then []
  else [.asay 1 (text "%s mail!") [.str (cstr (text "Yay! More"))]]
    ++ ((fgetsAll new).dropWhile fun buf => !startsMail buf).flatMap mailPiece
    ++ [.asay 0 (text "\n") []]

/-- The mailbox has been read as it is. -/
structure Mbox.Knows (v : Mbox) (file : Bytes) : Prop where
  run : v.firstrun = false
  size : v.lastSize = file.length
  count : v.mailcount = (fgetsAll file).countP startsMail

theorem fgetsAll_append {file new : Bytes} (h : Whole 10 file) :
    fgetsAll (file ++ new) = fgetsAll file ++ fgetsAll new :=
  pieces_append (by decide) h new

section

variable {v : Mbox} {file new : Bytes}

/-- The first call only counts. -/
theorem lccMboxchange_first (hv : v.firstrun = true)
    (hmax : (fgetsAll file).countP startsMail ≤ intMax) :
    ∃ ret w, lccMboxchange v (some file.length) (some file) = .ok (ret, w, []) ∧ w.Knows file := by
  have hchanged : v.changed file.length = 2 := by rw [Mbox.changed, if_pos hv]
  have hscan : mboxScan 2 v.mailcount 0 (fgetsAll file)
      = .ok (0 + (fgetsAll file).countP startsMail, []) :=
    mboxScan_quiet (by omega) (Or.inl (by decide))
  refine ⟨1, ⟨false, file.length, (fgetsAll file).countP startsMail⟩, ?_, rfl, rfl, rfl⟩
  simp only [lccMboxchange, hchanged]
  rw [if_neg (by decide), hscan]
  simp [Except.bind, bind]

/-- A later call tells of what has been appended. -/
theorem lccMboxchange_grown (hv : v.Knows file) (hfile : Whole 10 file)
    (hmax : (fgetsAll (file ++ new)).countP startsMail ≤ intMax) :
    ∃ ret w, lccMboxchange v (some (file ++ new).length) (some (file ++ new))
      = .ok (ret, w, announcement new) ∧ w.Knows (file ++ new) := by
  have hsplit : fgetsAll (file ++ new) = fgetsAll file ++ fgetsAll new := fgetsAll_append hfile
  rw [hsplit, List.countP_append] at hmax
  by_cases hnew : new = []
  · subst hnew
    have hchanged : v.changed (file ++ []).length = 0 := by
      rw [List.append_nil, Mbox.changed, if_neg (by simp [hv.run]), if_neg (by simp [hv.size])]
    refine ⟨0, { v with firstrun := false, lastSize := (file ++ []).length }, ?_, rfl, rfl, ?_⟩
    · simp only [lccMboxchange, hchanged]
      rfl
    · rw [List.append_nil]
      exact hv.count
  · have hlt : file.length < (file ++ new).length := by
      have := List.length_pos_iff.mpr hnew
      rw [List.length_append]
      omega
    have hchanged : v.changed (file ++ new).length = 1 := by
      rw [Mbox.changed, if_neg (by simp [hv.run]), hv.size, if_pos (by omega), if_pos (by omega)]
    have hold : mboxScan 1 v.mailcount 0 (fgetsAll file)
        = .ok (0 + (fgetsAll file).countP startsMail, []) :=
      mboxScan_quiet (by omega) (Or.inr (by rw [hv.count]; omega))
    rw [Nat.zero_add] at hold
    have hnews := mboxScan_new hmax
    rw [← hv.count] at hnews
    have hscan := mboxScan_append hold hnews
    rw [← hsplit, List.nil_append] at hscan
    refine ⟨1, ⟨false, (file ++ new).length, (fgetsAll (file ++ new)).countP startsMail⟩, ?_, rfl,
      rfl, rfl⟩
    simp only [lccMboxchange, hchanged]
    rw [if_neg (by decide), hscan, hsplit, List.countP_append, announcement, if_neg hnew]
    rfl

/-- Calls after the first one tell of what is appended before each of them. -/
theorem mailWatch_news (news : List Bytes) : ∀ {v : Mbox} {file : Bytes}, v.Knows file →
    Whole 10 file → (∀ new ∈ news, Whole 10 new) →
    (fgetsAll (file ++ news.flatten)).countP startsMail ≤ intMax →
    ∃ w, mailWatch v file news = .ok (w, news.flatMap announcement) ∧
      w.Knows (file ++ news.flatten) := by
  induction news with
  | nil =>
      intro v file hv _ _ _
      rw [List.flatten_nil, List.append_nil]
      exact ⟨v, rfl, hv⟩
  | cons new news ih =>
      intro v file hv hfile hnews hmax
      rw [List.flatten_cons, ← List.append_assoc] at hmax ⊢
      have hwhole : Whole 10 (file ++ new) := hfile.append (hnews new List.mem_cons_self)
      have hpart : (fgetsAll (file ++ new)).countP startsMail ≤ intMax := by
        rw [fgetsAll_append hwhole, List.countP_append] at hmax
        omega
      obtain ⟨ret, w, hcall, hw⟩ := lccMboxchange_grown hv hfile hpart
      obtain ⟨w', hrest, hw'⟩ :=
        ih hw hwhole (fun new' hnew' => hnews new' (List.mem_cons_of_mem _ hnew')) hmax
      refine ⟨w', ?_, hw'⟩
      rw [mailWatch, hcall]
      change Except.bind (mailWatch w (file ++ new) news) _ = _
      rw [hrest]
      rfl

/-! ### What is told of the mails -/

/-- What there is to tell of a mail. -/
inductive MailItem
  | sender (name : Bytes)
  | subject (title : Bytes)
deriving DecidableEq

/-- What comes before a NUL and before any of `ends`. -/
def upTo (ends l : Bytes) : Bytes := l.takeWhile fun c => c != 0 && !ends.contains c

/-- What there is to tell of one line of a mailbox. -/
def mailItems (line : Bytes) : List MailItem :=
  if fromLine.isPrefixOf line then [.sender (upTo (text " \t\n\r") (line.drop 5))]
  else if subjectLine.isPrefixOf line then [.subject (upTo (text "\n\r") (line.drop 9))]
  else []

/-- What is read off the screen: `%.*s` shows no more of a string than it is told to. -/
def heard : ChatterAct → Option MailItem
  | .asay 0 format [.int n, .str s] =>
      if format = text " [%.*s]" then some (.sender (s.chars.take n.toNat))
      else if format = text "<%.*s>" then some (.subject (s.chars.take n.toNat))
      else none
  | _ => none

/-- Whole mails: the first line starts one, and `fgets` gets every line at once. -/
structure WholeMails (new : Bytes) : Prop where
  whole : Whole 10 new
  first : ∀ line ∈ (lines 10 new).head?, startsMail line = true
  short : ∀ line ∈ lines 10 new, line.length ≤ 254

theorem takeWhile_take_and {α : Type} (p q : α → Bool) (l : List α) :
    (l.takeWhile p).take (l.takeWhile fun c => p c && q c).length = l.takeWhile fun c => p c && q c := by
  induction l with
  | nil => rfl
  | cons c l ih =>
      cases hp : p c with
      | false => simp [hp]
      | true =>
          cases hq : q c with
          | false => simp [hp, hq]
          | true => simp [hp, hq, ih]

theorem shown_rest (rest reject : Bytes) :
    (cstr rest).chars.take (strcspn rest reject : Int).toNat = upTo reject rest :=
  takeWhile_take_and (· != 0) (fun c => !reject.contains c) rest

theorem subject_of_startsMail {line : Bytes} (h : fromLine.isPrefixOf line = true) :
    subjectLine.isPrefixOf line = false := by
  obtain ⟨rest, rfl⟩ := List.isPrefixOf_iff_prefix.mp h
  rfl

/-- A line tells what there is in it. -/
theorem heard_mailPiece (line : Bytes) : (mailPiece line).filterMap heard = mailItems line := by
  unfold mailPiece mailItems startsMail
  cases hfrom : fromLine.isPrefixOf line with
  | true =>
      rw [subject_of_startsMail hfrom]
      simp only [if_true, Bool.false_eq_true, if_false, List.append_nil]
      rw [← shown_rest]
      rfl
  | false =>
      cases hsubject : subjectLine.isPrefixOf line with
      | true =>
          simp only [if_true, Bool.false_eq_true, if_false, List.nil_append]
          rw [← shown_rest]
          rfl
      | false => rfl

/-- All of the mails that are appended is told. -/
theorem heard_announcement {new : Bytes} (h : WholeMails new) :
    (announcement new).filterMap heard = (lines 10 new).flatMap mailItems := by
  have hpieces : fgetsAll new = lines 10 new := pieces_short (by decide) h.short
  unfold announcement
  by_cases hnew : new = []
  · rw [if_pos hnew, hnew]
    rfl
  · have hkept : (lines 10 new).dropWhile (fun buf => !startsMail buf) = lines 10 new := by
      cases hlines : lines 10 new with
      | nil => rfl
      | cons line rest =>
          have hstart := h.first line (by rw [hlines]; rfl)
          rw [List.dropWhile_cons_of_neg (by simp [hstart])]
    rw [if_neg hnew, hpieces, hkept, List.filterMap_append, List.filterMap_append,
      List.filterMap_flatMap]
    simp only [heard_mailPiece]
    exact List.append_nil _

theorem heard_news {news : List Bytes} (hnews : ∀ new ∈ news, WholeMails new) :
    (news.flatMap announcement).filterMap heard = (lines 10 news.flatten).flatMap mailItems := by
  induction news with
  | nil => rfl
  | cons new news ih =>
      obtain ⟨hnew, hrest⟩ := List.forall_mem_cons.mp hnews
      rw [List.flatMap_cons, List.filterMap_append, heard_announcement hnew, ih hrest,
        List.flatten_cons, lines_append hnew.whole, List.flatMap_append]

/-- Whole mails one behind the other are read line by line. -/
theorem short_news {file : Bytes} {news : List Bytes} (hfile : Whole 10 file)
    (hshort : ∀ line ∈ lines 10 file, line.length ≤ 254) (hnews : ∀ new ∈ news, WholeMails new) :
    ∀ line ∈ lines 10 (file ++ news.flatten), line.length ≤ 254 := by
  have hrest : ∀ line ∈ lines 10 news.flatten, line.length ≤ 254 := by
    induction news with
    | nil => simp [lines]
    | cons new news ih =>
        obtain ⟨hnew, hmore⟩ := List.forall_mem_cons.mp hnews
        rw [List.flatten_cons, lines_append hnew.whole, List.forall_mem_append]
        exact ⟨hnew.short, ih hmore⟩
  rw [lines_append hfile, List.forall_mem_append]
  exact ⟨hshort, hrest⟩

/--
**Every mail is announced once.**  Take a mailbox, and the whole mails that are appended to
it between the calls of `lcc_mboxchange`.  The calls tell, in this order, of each sender
and each subject that has been appended since the first call, and of no other, and count
the mails right, as long as an `int` can hold their number.
-/
theorem mail_announced_once {file : Bytes} {news : List Bytes} (hfile : Whole 10 file)
    (hshort : ∀ line ∈ lines 10 file, line.length ≤ 254) (hnews : ∀ new ∈ news, WholeMails new)
    (hmax : mailLines (file ++ news.flatten) ≤ intMax) :
    ∃ w said, mailWatch .start [] (file :: news) = .ok (w, said) ∧
      said.filterMap heard = (lines 10 news.flatten).flatMap mailItems ∧
      w.mailcount = mailLines (file ++ news.flatten) := by
  have hlines : fgetsAll (file ++ news.flatten) = lines 10 (file ++ news.flatten) :=
    pieces_short (by decide) (short_news hfile hshort hnews)
  have hcount : (fgetsAll (file ++ news.flatten)).countP startsMail ≤ intMax := by
    rw [hlines]
    exact hmax
  have hpart : (fgetsAll file).countP startsMail ≤ intMax := by
    rw [fgetsAll_append hfile, List.countP_append] at hcount
    omega
  obtain ⟨ret, v, hcall, hv⟩ := lccMboxchange_first (v := .start) rfl hpart
  obtain ⟨w, hrest, hw⟩ :=
    mailWatch_news news hv hfile (fun new hnew => (hnews new hnew).whole) hcount
  refine ⟨w, news.flatMap announcement, ?_, heard_news hnews, ?_⟩
  · rw [mailWatch, List.nil_append, hcall]
    change Except.bind (mailWatch v file news) _ = _
    rw [hrest]
    rfl
  · rw [hw.count, hlines, mailLines]

/-- One mail is there, another one is appended with its subject, then nothing, then two more. -/
theorem mail_announced_once_four : ∃ w said, mailWatch .start []
      [text "From a\n", text "From b c\nSubject: x\n", [], text "From d\nFrom e\nSubject: y z\n"]
        = .ok (w, said) ∧
      said.filterMap heard = [.sender (text "b"), .subject (text "x"), .sender (text "d"),
        .sender (text "e"), .subject (text "y z")] ∧ w.mailcount = 4 := by
  have hnews : ∀ new ∈ [text "From b c\nSubject: x\n", [], text "From d\nFrom e\nSubject: y z\n"],
      WholeMails new := by
    simp only [List.mem_cons, List.not_mem_nil, or_false, forall_eq_or_imp, forall_eq]
    refine ⟨⟨Or.inr ⟨text "From b c\nSubject: x", by decide⟩, by decide, by decide⟩,
      ⟨Or.inl rfl, by decide, by decide⟩,
      ⟨Or.inr ⟨text "From d\nFrom e\nSubject: y z", by decide⟩, by decide +kernel, by decide +kernel⟩⟩
  have hfile : Whole 10 (text "From a\n") := Or.inr ⟨text "From a", by decide⟩
  obtain ⟨w, said, hwatch, hsaid, hcount⟩ :=
    mail_announced_once hfile (by decide) hnews (by decide +kernel)
  exact ⟨w, said, hwatch, hsaid.trans (by decide +kernel), hcount.trans (by decide +kernel)⟩

end

end Smsg
