/-
The mails that are counted.

`lcc_mboxchange` takes each piece that `fgets` returns for a line.  The count of mails is
right as long as no line goes on with `"From "` where a piece starts inside of it: at a
positive multiple of 254.
-/
import Smsg.Mailbox

namespace Smsg

/-! ### Lines of a mailbox -/

/-- The line starts a mail. -/
def startsMail (line : Bytes) : Bool := fromLine.isPrefixOf line

/-- The number of lines that start with `"From "`. -/
def mailLines (file : Bytes) : Nat := (Pieces.lines 10 file).countP startsMail

/-- `"From "` stands in a line where a piece of it starts, and is not its start. -/
def SplitsAtFrom (file : Bytes) : Prop :=
  ∃ line ∈ Pieces.lines 10 file, ∃ k, 0 < k ∧ 254 * k < line.length ∧
    startsMail (line.drop (254 * k)) = true

theorem startsMail_take (line : Bytes) : startsMail (line.take 254) = startsMail line := by
  have hlen : fromLine.length ≤ 254 := by decide
  rw [Bool.eq_iff_iff, startsMail, startsMail, List.isPrefixOf_iff_prefix,
    List.isPrefixOf_iff_prefix]
  exact List.prefix_take_iff.trans (and_iff_left hlen)

/-! ### The loop -/

/-- What the loop counts, if an `int` can hold it. -/
theorem mboxScan_spec (changed mailcount : Int) {n : Nat} (hn : n ≤ intMax) (bufs : List Bytes) :
    (n + bufs.countP startsMail ≤ intMax
        ∧ ∃ said, mboxScan changed mailcount n bufs = .ok (n + bufs.countP startsMail, said))
      ∨ (intMax < n + bufs.countP startsMail
        ∧ mboxScan changed mailcount n bufs = .error .overflow) := by
  induction bufs generalizing n with
  | nil => exact .inl ⟨hn, [], rfl⟩
  | cons buf bufs ih =>
      have hcount : n + (buf :: bufs).countP startsMail
          = n + (if startsMail buf then 1 else 0) + bufs.countP startsMail := by
        rw [List.countP_cons]
        omega
      rw [hcount, mboxScan, ← startsMail]
      by_cases hmax : intMax < n + if startsMail buf then 1 else 0
      · exact .inr ⟨by omega, if_pos hmax⟩
      · rw [if_neg hmax]
        rcases ih (Nat.le_of_not_lt hmax) with ⟨hle, said, hrest⟩ | ⟨hlt, hrest⟩
        · exact .inl ⟨hle, _, by rw [hrest]; rfl⟩
        · exact .inr ⟨hlt, by rw [hrest]; rfl⟩

/-- A call that finds the file changed and can open it reads it all. -/
theorem lccMboxchange_scan {v : Mbox} {size : Int} (hchanged : v.changed size ≠ 0) (file : Bytes) :
    ((fgetsAll file).countP startsMail ≤ intMax
        ∧ ∃ ret w said, lccMboxchange v (some size) (some file) = .ok (ret, w, said)
          ∧ w.mailcount = (fgetsAll file).countP startsMail)
      ∨ (intMax < (fgetsAll file).countP startsMail
        ∧ lccMboxchange v (some size) (some file) = .error .overflow) := by
  have hscan := mboxScan_spec (v.changed size) v.mailcount (Nat.zero_le intMax) (fgetsAll file)
  rw [Nat.zero_add] at hscan
  simp only [lccMboxchange, if_neg hchanged]
  rcases hscan with ⟨hle, said, heq⟩ | ⟨hlt, heq⟩
  · refine .inl ⟨hle, _, _, _, by rw [heq]; rfl, rfl⟩
  · exact .inr ⟨hlt, by rw [heq]; rfl⟩

theorem changed_ne_zero {v : Mbox} {size : Int} (h : v.firstrun = true ∨ size ≠ v.lastSize) :
    v.changed size ≠ 0 := by
  rw [Mbox.changed]
  rcases h with hfirst | hsize
  · rw [if_pos hfirst]
    decide
  · rw [if_pos hsize]
    split
    · decide
    · split <;> decide

/-! ### The count -/

/-- Pieces are counted where lines should be. -/
theorem count_fgetsAll (file : Bytes) :
    mailLines file ≤ (fgetsAll file).countP startsMail
      ∧ ((fgetsAll file).countP startsMail = mailLines file ↔ ¬ SplitsAtFrom file) := by
  have hpos : 0 < 254 := by decide
  constructor
  · rw [fgetsAll, Pieces.countP_pieces hpos startsMail_take]
    exact Nat.le_add_right _ _
  · rw [fgetsAll, mailLines, Pieces.countP_pieces_eq_iff hpos startsMail_take, SplitsAtFrom]
    push Not
    simp only [ne_eq, Bool.not_eq_true]

/-- The mailbox is counted as it should be. -/
def CountsMail (v : Mbox) (size : Int) (file : Bytes) : Prop :=
  ∃ ret w said, lccMboxchange v (some size) (some file) = .ok (ret, w, said)
    ∧ w.mailcount = mailLines file

/--
**When the mails are counted.**  A call that reads the file leaves the number of its lines
that start with `"From "` exactly when no line has it where a later piece starts, and an
`int` can hold the number.
-/
theorem counts_mail_iff (v : Mbox) (size : Int)
    (hscan : v.firstrun = true ∨ size ≠ v.lastSize) (file : Bytes) :
    CountsMail v size file ↔ ¬ SplitsAtFrom file ∧ mailLines file ≤ intMax := by
  obtain ⟨hle, hiff⟩ := count_fgetsAll file
  rw [← hiff]
  rcases lccMboxchange_scan (changed_ne_zero hscan) file with
    ⟨hmax, ret, w, said, heq, hcount⟩ | ⟨hmax, heq⟩
  · constructor
    · rintro ⟨ret', w', said', heq', hcount'⟩
      rw [heq] at heq'
      cases heq'
      have hsame : (fgetsAll file).countP startsMail = mailLines file := by
        exact_mod_cast hcount.symm.trans hcount'
      exact ⟨hsame, hsame ▸ hmax⟩
    · rintro ⟨hsame, -⟩
      exact ⟨ret, w, said, heq, by rw [hcount, hsame]⟩
  · constructor
    · rintro ⟨ret, w, said, heq', -⟩
      rw [heq] at heq'
      cases heq'
    · rintro ⟨hsame, hfits⟩
      omega

/-- A mailbox of one line. -/
def oneMail : Bytes := text "From bob\n"

theorem counts_mail_one : CountsMail .start 9 oneMail := by
  refine (counts_mail_iff .start 9 (.inl rfl) oneMail).mpr ⟨?_, by decide⟩
  rintro ⟨line, hline, k, hpos, hlt, -⟩
  have hlines : Pieces.lines 10 oneMail = [oneMail] := by decide
  rw [hlines, List.mem_singleton] at hline
  subst hline
  have hlen : oneMail.length = 9 := by decide
  omega

/-- A line that does not start a mail, but the second piece of it does. -/
def longLine : Bytes := List.replicate 254 97 ++ fromLine

theorem not_counts_mail : ¬ CountsMail .start 259 longLine := by
  have hsplits : SplitsAtFrom longLine :=
    ⟨longLine, by decide +kernel, 1, by decide, by decide +kernel, by decide +kernel⟩
  have hne : (fgetsAll longLine).countP startsMail ≠ mailLines longLine :=
    fun h => (count_fgetsAll longLine).2.mp h hsplits
  rintro ⟨ret, w, said, heq, hcount⟩
  have hchanged : Mbox.start.changed 259 ≠ 0 := by decide
  rcases lccMboxchange_scan hchanged longLine with
    ⟨-, ret', w', said', heq', hcount'⟩ | ⟨-, heq'⟩
  · rw [heq] at heq'
    cases heq'
    exact hne (by exact_mod_cast hcount'.symm.trans hcount)
  · rw [heq] at heq'
    cases heq'

end Smsg
