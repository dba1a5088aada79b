/-
What a line asks for.

`lineAsks` reads a line that has been entered: a line that does not start with `/` is said,
and any other one is the name of a command and what is behind it, as words or as text.  The
code does so by moving pointers over a copy of the line, and adds what it finds to a
command that it builds (`chatterLine_asks`).
-/
import Smsg.Proofs.Cmdline

namespace Smsg

open Tokens

/-! ### Reading a line -/

/-- The words of what is behind the name of a command; white space at the end counts as one
empty word more. -/
def restWords : Option Bytes → List Bytes
  | none => []
  | some s => words isspace s ++ (if endsBlank isspace s then [[]] else [])

/-- What is behind it as it is, without the white space in front. -/
def restText (p : Option Bytes) : Bytes := (p.map (skip isspace)).getD []

/-- The key that `/bs` asks for. -/
def restKey (p : Option Bytes) : Option UInt8 :=
  (p.map fun s => (token isspace s).headD 0).filter fun c => !isalnum c && c != 47

/-- The list that `/who` asks for. -/
def restWho : Option Bytes → Option UInt8
  | none => some 0
  | some s =>
      if token isspace s = text "c" ∨ token isspace s = text "chat" then some 0
      else if token isspace s = text "s" ∨ token isspace s = text "sys"
        ∨ token isspace s = text "system" then some 1
      else if token isspace s = text "a" ∨ token isspace s = text "all" then some 2
      else none

/-- The nick and the message of `/psay`. -/
def restPsay (p : Option Bytes) : Option (List Bytes) :=
  (p.filter fun s => token isspace s ≠ []).map fun s =>
    [token isspace s, restText (rest isspace s)]

/-- A command, with what is behind its name. -/
def commandAsks (v : LineVars) (op : NCMDOp) (p : Option Bytes) : LineVars × Option NetCmd :=
  match op with
  | .cBs => ({ v with backspaceChar := ((restKey p).map (·.toInt8.toInt)).getD v.backspaceChar }, none)
  | .cQuit => ({ v with reason := (p.map (skip isspace)).or v.reason, exitloop := true }, none)
  | .cPsay => (v, (restPsay p).map fun args => ⟨.cPsay, args⟩)
  | .cSay => (v, some ⟨.cSay, [restText p]⟩)
  | .cMe => (v, some ⟨.cMe, [restText p]⟩)
  | .cAway => (v, some ⟨.cAway, (p.map (skip isspace)).toList⟩)
  | .cWho => (v, (restWho p).map fun itype => ⟨.cWho, [[itype]]⟩)
  | .cBeep => (v, some ⟨.cBeep, restWords p⟩)
  | .cDeop => (v, some ⟨.cDeop, restWords p⟩)
  | .cKick => (v, some ⟨.cKick, restWords p⟩)
  | .cNick => (v, some ⟨.cNick, restWords p⟩)
  | .cOp => (v, some ⟨.cOp, restWords p⟩)
  | .cOper => (v, some ⟨.cOper, restWords p⟩)
  | _ => (v, none)

/-- A line up to its first NUL: what is said, or a command. -/
def lineAsks (v : LineVars) (t : Bytes) : LineVars × Option NetCmd :=
  match t.takeWhile (· != 0) with
  | 47 :: s =>
      match ncmdGetnum (token isspace s) with
      | some op => commandAsks v op (rest isspace s)
      | none => (v, none)
  | s => commandAsks v .cSay (some s)

/-- What a command asks for is a command of this name. -/
theorem commandAsks_op {v : LineVars} {op : NCMDOp} {p : Option Bytes} {m : NetCmd}
    (h : (commandAsks v op p).2 = some m) : m.op = op := by
  have hplain : ∀ {op args}, some (NetCmd.mk op args) = some m → m.op = op := by
    intro op args hm
    exact (congrArg NetCmd.op (Option.some.inj hm)).symm
  cases op with
  | cPsay =>
      obtain ⟨args, -, rfl⟩ := Option.map_eq_some_iff.mp h
      rfl
  | cWho =>
      obtain ⟨itype, -, rfl⟩ := Option.map_eq_some_iff.mp h
      rfl
  | cSay => exact hplain h
  | cMe => exact hplain h
  | cAway => exact hplain h
  | cBeep => exact hplain h
  | cDeop => exact hplain h
  | cKick => exact hplain h
  | cNick => exact hplain h
  | cOp => exact hplain h
  | cOper => exact hplain h
  | _ => cases h

/-! ### What the code makes of it -/

theorem strsepx_token (s : Bytes) : lccStrsepx (some s) lccTokenDelim
    = (some (token isspace s), rest isspace s) := by
  rw [lccStrsepx_eq, isDelim_eq]

theorem skip_delim (p : Option Bytes) :
    lccSkipToTokenStart p lccTokenDelim = p.map (skip isspace) := by
  rw [← isDelim_eq]
  rfl

theorem tokensFrom_eq (p : Option Bytes) : tokensFrom p = restWords p := by
  cases p with
  | none => rfl
  | some s => exact tokens_eq s

theorem argLoop_words (op : NCMDOp) (p : Option Bytes) :
    argLoop (ncmdSet op) p = (⟨op, restWords p⟩ : NetCmd).encode := by
  have hsame : ((restWords p).map some).map (fun t : Option Bytes => t.getD []) = restWords p := by
    simp
  rw [argLoop_eq, ← build, build_eq, tokensFrom_eq, hsame]

theorem addMessage_text (c : NetCmd) (p : Option Bytes) :
    addMessage c.encode p = (c.add (restText p)).encode := by
  rw [addMessage, skip_delim, restText]
  cases p with
  | none => exact ncmdAdd_encode c _
  | some s => exact ncmdAdd_encode c _

theorem lineBs_key (v : LineVars) (p : Option Bytes) : lineBs v p
    = { v with backspaceChar := ((restKey p).map (·.toInt8.toInt)).getD v.backspaceChar } := by
  cases p with
  | none => rfl
  | some s =>
      rw [lineBs, strsepx_token, restKey]
      dsimp only [Option.map_some]
      by_cases hkey : (!isalnum ((token isspace s).headD 0) && (token isspace s).headD 0 != 47) = true
      · rw [if_pos hkey, Option.filter_some, if_pos hkey]
        rfl
      · rw [if_neg hkey, Option.filter_some, if_neg hkey]
        rfl

theorem linePsay_args (p : Option Bytes) :
    linePsay p = (restPsay p).map fun args => (⟨.cPsay, args⟩ : NetCmd).encode := by
  cases p with
  | none => rfl
  | some s =>
      rw [linePsay, strsepx_token, restPsay]
      cases htoken : token isspace s with
      | nil => simp [htoken]
      | cons c tt =>
          simp only [Option.filter_some, htoken, ne_eq, reduceCtorEq, not_false_eq_true, decide_true,
            if_true, Option.map_some, Option.some.injEq]
          rw [ncmdSet_eq, ncmdAdd_encode, addMessage_text]
          rfl

theorem lineAway_text (p : Option Bytes) :
    lineAway p = (⟨.cAway, (p.map (skip isspace)).toList⟩ : NetCmd).encode := by
  rw [lineAway, skip_delim]
  cases p with
  | none => exact ncmdSet_eq _
  | some s =>
      dsimp only [Option.map_some]
      rw [ncmdSet_eq, ncmdAdd_encode]
      rfl

theorem lineWho_asks (p : Option Bytes) :
    lineWho p = (restWho p).map fun itype => (⟨.cWho, [[itype]]⟩ : NetCmd).encode := by
  have hask : ∀ itype : UInt8, ncmdAdd (ncmdSet .cWho) (some [itype])
      = (⟨.cWho, [[itype]]⟩ : NetCmd).encode := by
    intro itype
    rw [ncmdSet_eq, ncmdAdd_encode]
    rfl
  cases p with
  | none => exact congrArg some (hask 0)
  | some s =>
      simp only [lineWho, strsepx_token, restWho, hask]
      split_ifs <;> rfl

/-- **A command is read word by word.** -/
theorem lineCommand_asks (v : LineVars) (op : NCMDOp) (p : Option Bytes) : lineCommand v op p
    = ((commandAsks v op p).1, (commandAsks v op p).2.map NetCmd.encode) := by
  cases op with
  | cBs => exact Prod.ext (lineBs_key v p) rfl
  | cQuit =>
      refine Prod.ext ?_ rfl
      show lineQuit v p = _
      rw [lineQuit, skip_delim]
      rfl
  | cPsay =>
      refine Prod.ext rfl ?_
      show linePsay p = ((restPsay p).map fun args => ⟨.cPsay, args⟩).map NetCmd.encode
      rw [linePsay_args, Option.map_map]
      rfl
  | cSay =>
      refine Prod.ext rfl ?_
      show some (addMessage (ncmdSet .cSay) p) = _
      rw [ncmdSet_eq, addMessage_text]
      rfl
  | cMe =>
      refine Prod.ext rfl ?_
      show some (addMessage (ncmdSet .cMe) p) = _
      rw [ncmdSet_eq, addMessage_text]
      rfl
  | cAway => exact Prod.ext rfl (congrArg some (lineAway_text p))
  | cWho =>
      refine Prod.ext rfl ?_
      show lineWho p = ((restWho p).map fun itype => ⟨.cWho, [[itype]]⟩).map NetCmd.encode
      rw [lineWho_asks, Option.map_map]
      rfl
  | cBeep => exact Prod.ext rfl (congrArg some (argLoop_words _ p))
  | cDeop => exact Prod.ext rfl (congrArg some (argLoop_words _ p))
  | cKick => exact Prod.ext rfl (congrArg some (argLoop_words _ p))
  | cNick => exact Prod.ext rfl (congrArg some (argLoop_words _ p))
  | cOp => exact Prod.ext rfl (congrArg some (argLoop_words _ p))
  | cOper => exact Prod.ext rfl (congrArg some (argLoop_words _ p))
  | _ => rfl

theorem takeWhile_line (t : Bytes) : (cstr (t ++ [0])).chars = t.takeWhile (· != 0) := by
  show (t ++ [0]).takeWhile (· != 0) = _
  induction t with
  | nil => rfl
  | cons c t ih => rw [List.cons_append, List.takeWhile_cons, List.takeWhile_cons, ih]

/-- **So is a line.** -/
theorem chatterLine_asks (v : LineVars) (line : InputLine) : chatterLine v line
    = ((lineAsks v line.chars).1, (lineAsks v line.chars).2.map NetCmd.encode) := by
  rw [chatterLine, takeWhile_line, lineAsks]
  generalize line.chars.takeWhile (· != 0) = t
  split
  · rename_i s
    rw [strsepx_token]
    cases hnum : ncmdGetnum (token isspace s) with
    | none => simp only [hnum, Option.map_none]
    | some op => simp only [hnum, lineCommand_asks]
  · rename_i s hs
    split
    · exact absurd rfl (hs _)
    · exact lineCommand_asks v .cSay _

end Smsg
