/-
`clchat.c`: what `chatter_func` does with a line that the user has entered.

A `char *` into the line is the bytes from there to the terminating NUL, and `none` when
it is `NULL`.  `strsep` puts a NUL behind the token, so that what it returns ends there.
A key may have put a NUL into the line; nothing behind it is looked at.

What is kept of the switch is what is sent and what becomes of `backspace_char`, `reason`
and `exitloop`.  What is only told to the user, and the log file, is left out.
-/
import Smsg.Lib.Tokens
import Smsg.Ncmd

namespace Smsg

/-- A line that has been entered, `ulen` bytes of it; `ulen` is an `int`. -/
structure InputLine where
  chars : Bytes
  fits : chars.length < 2 ^ 31

/-! ### Tokens -/

/-- `LCC_TOKEN_DELIM`. -/
def lccTokenDelim : Bytes := [32, 12, 10, 13, 9, 11]

/-- A pointer to the byte that a search stopped at, or `NULL`. -/
def foundAt : Bytes → Option Bytes
  | [] => none
  | c :: s => some (c :: s)

def strchr (s : Bytes) (ch : UInt8) : Option Bytes := foundAt (s.dropWhile fun c => c != ch)

def strpbrk (s delim : Bytes) : Option Bytes := foundAt (s.dropWhile fun c => !decide (c ∈ delim))

/-- `lcc_skip_to_token_start`. -/
def lccSkipToTokenStart (p : Option Bytes) (delim : Bytes) : Option Bytes :=
  p.map fun s => s.dropWhile fun c => decide (c ∈ delim)

/-- `lcc_my_strsep`: the token, and what `*p` is then. -/
def lccMyStrsep (p : Option Bytes) (delim : Bytes) : Option Bytes × Option Bytes :=
  match p with
  | none => (none, none)
  | some begin =>
      let stop := match delim with
        | [] => none
        | [ch] =>
            match begin with
            | [] => none
            | b :: more => if b = ch then some begin else strchr more ch
        | delim => strpbrk begin delim
      match stop with
      | some (_ :: next) => (some (begin.take (begin.length - (next.length + 1))), some next)
      | _ => (some begin, none)

/-- `lcc_strsepx`. -/
def lccStrsepx (p : Option Bytes) (delim : Bytes) : Option Bytes × Option Bytes :=
  lccMyStrsep (lccSkipToTokenStart p delim) delim

/-! ### Command names -/

/-- The table `ncmds`. -/
def ncmds : List (String × NCMDOp) :=
  [("!!UNKNOWN!!", .unknown), ("N_MSG", .msg), ("N_GETQMSG", .getqmsg), ("N_QMSG", .qmsg),
    ("N_GETLIST", .getlist), ("N_LIST", .list), ("N_SETPREF", .setpref), ("N_GETPREF", .getpref),
    ("N_PREF", .pref), ("N_CHATDOOR", .chatdoor), ("N_ACK", .ack), ("N_NAK", .nak),
    ("door", .cDoor), ("away", .cAway), ("ban", .cBan), ("beep", .cBeep), ("bs", .cBs),
    ("clear", .cClear), ("deop", .cDeop), ("help", .cHelp), ("kick", .cKick), ("log", .cLog),
    ("me", .cMe), ("nick", .cNick), ("op", .cOp), ("oper", .cOper), ("priv", .cPriv),
    ("psay", .cPsay), ("quit", .cQuit), ("say", .cSay), ("unban", .cUnban), ("who", .cWho)]

def tolower (c : UInt8) : UInt8 := if 65 ≤ c ∧ c ≤ 90 then c + 32 else c

/-- `strncasecmp` finds no difference. -/
def strncaseeq (a b : Bytes) (n : Nat) : Bool := (a.take n).map tolower == (b.take n).map tolower

/-- `ncmd_getnum`; -2 is `none`. -/
def ncmdGetnum (s : Bytes) : Option NCMDOp :=
  (ncmds.find? fun e =>
    strncaseeq (text e.1) s s.length && (text e.1).length == s.length).map (·.2)

/-! ### The switch -/

/-- The variables of `chatter_func` that a line can change. -/
structure LineVars where
  backspaceChar : Int
  reason : Option Bytes
  exitloop : Bool
deriving DecidableEq

def isalnum (c : UInt8) : Bool :=
  (48 ≤ c && c ≤ 57) || (65 ≤ c && c ≤ 90) || (97 ≤ c && c ≤ 122)

/-- `C_BS`: the first character of the token, which is the NUL when the token is empty. -/
def lineBs (v : LineVars) (rtokenp : Option Bytes) : LineVars :=
  match (lccStrsepx rtokenp lccTokenDelim).1 with
  | none => v
  | some tt =>
      let c := tt.headD 0
      if !isalnum c && c != 47 then { v with backspaceChar := c.toInt8.toInt } else v

/-- `C_QUIT`. -/
def lineQuit (v : LineVars) (rtokenp : Option Bytes) : LineVars :=
  { v with
    reason := (lccSkipToTokenStart rtokenp lccTokenDelim).or v.reason
    exitloop := true }

/-- The end of `C_PSAY`, `C_SAY` and `C_ME`: the rest of the line is one argument. -/
def addMessage (sbuf : Bytes) (rtokenp : Option Bytes) : Bytes :=
  match lccSkipToTokenStart rtokenp lccTokenDelim with
  | some s => ncmdAdd sbuf (some s)
  | none => ncmdAdd sbuf (some [])

/-- `C_PSAY`. -/
def linePsay (rtokenp : Option Bytes) : Option Bytes :=
  match lccStrsepx rtokenp lccTokenDelim with
  | (some (c :: tt), next) => some (addMessage (ncmdAdd (ncmdSet .cPsay) (some (c :: tt))) next)
  | _ => none

/-- `C_AWAY`. -/
def lineAway (rtokenp : Option Bytes) : Bytes :=
  match lccSkipToTokenStart rtokenp lccTokenDelim with
  | some s => ncmdAdd (ncmdSet .cAway) (some s)
  | none => ncmdSet .cAway

/-- `C_WHO`: 0 asks for the chat, 1 for the system and 2 for both. -/
def lineWho (rtokenp : Option Bytes) : Option Bytes :=
  let ask (itype : UInt8) := some (ncmdAdd (ncmdSet .cWho) (some [itype]))
  match (lccStrsepx rtokenp lccTokenDelim).1 with
  | none => ask 0
  | some tt =>
      if tt = text "c" ∨ tt = text "chat" then ask 0
      else if tt = text "s" ∨ tt = text "sys" ∨ tt = text "system" then ask 1
      else if tt = text "a" ∨ tt = text "all" then ask 2
      else none

/-! ### The argument loop -/

def isDelim (c : UInt8) : Bool := decide (c ∈ lccTokenDelim)

theorem lccMyStrsep_delim (s : Bytes) : lccMyStrsep (some s) lccTokenDelim
    = (match s.dropWhile fun c => !isDelim c with
      | [] => (some s, none)
      | _ :: next => (some (s.takeWhile fun c => !isDelim c), some next)) := by
  have hstop : lccMyStrsep (some s) lccTokenDelim = (match strpbrk s lccTokenDelim with
      | some (_ :: next) => (some (s.take (s.length - (next.length + 1))), some next)
      | _ => (some s, none)) := rfl
  have hpbrk : strpbrk s lccTokenDelim = foundAt (s.dropWhile fun c => !isDelim c) := rfl
  have hsplit := List.takeWhile_append_dropWhile (p := fun c => !isDelim c) (l := s)
  rw [hstop, hpbrk]
  cases hd : s.dropWhile fun c => !isDelim c with
  | nil => rfl
  | cons c next =>
      have htoken : s.take (s.length - (next.length + 1)) = s.takeWhile fun c => !isDelim c := by
        rw [hd] at hsplit
        generalize (s.takeWhile fun c => !isDelim c) = token at hsplit ⊢
        rw [← hsplit, List.length_append, List.length_cons, Nat.add_sub_cancel, List.take_left]
      simp only [foundAt, htoken]

/-- `lcc_strsepx` takes the next token. -/
theorem lccStrsepx_eq (s : Bytes) : lccStrsepx (some s) lccTokenDelim
    = (some (Tokens.token isDelim s), Tokens.rest isDelim s) := by
  have hskip : lccStrsepx (some s) lccTokenDelim
      = lccMyStrsep (some (Tokens.skip isDelim s)) lccTokenDelim := rfl
  rw [hskip, lccMyStrsep_delim]
  cases hrest : Tokens.rest isDelim s with
  | none =>
      have hd : ((Tokens.skip isDelim s).dropWhile fun c => !isDelim c) = [] := by
        unfold Tokens.rest at hrest
        split at hrest <;> simp_all
      rw [hd, Tokens.skip_of_rest_none hrest]
  | some r =>
      obtain ⟨c, hd⟩ : ∃ c, ((Tokens.skip isDelim s).dropWhile fun c => !isDelim c) = c :: r := by
        unfold Tokens.rest at hrest
        split at hrest <;> simp_all
      rw [hd, Tokens.token]

/-- `while(rtokenp)`; it ends because every round leaves less of the line. -/
def argLoop (sbuf : Bytes) : Option Bytes → Bytes
  | none => sbuf
  | some s =>
      match h : lccStrsepx (some s) lccTokenDelim with
      | (some tt, none) => ncmdAdd sbuf (some tt)
      | (some tt, some next) =>
          have : next.length < s.length := by
            rw [lccStrsepx_eq] at h
            exact Tokens.length_rest_lt (Prod.mk.inj h).2
          argLoop (ncmdAdd sbuf (some tt)) (some next)
      -- no token: `rtokenp` would have been `NULL`
      | (none, _) => sbuf
termination_by p => (p.map List.length).getD 0

/-! ### A line -/

/-- The switch: what it does for a command, and what is sent. -/
def lineCommand (v : LineVars) (tncmd : NCMDOp) (rtokenp : Option Bytes) :
    LineVars × Option Bytes :=
  match tncmd with
  | .cBs => (lineBs v rtokenp, none)
  | .cQuit => (lineQuit v rtokenp, none)
  | .cPsay => (v, linePsay rtokenp)
  | .cSay => (v, some (addMessage (ncmdSet .cSay) rtokenp))
  | .cMe => (v, some (addMessage (ncmdSet .cMe) rtokenp))
  | .cAway => (v, some (lineAway rtokenp))
  | .cWho => (v, lineWho rtokenp)
  | .cBeep => (v, some (argLoop (ncmdSet .cBeep) rtokenp))
  | .cDeop => (v, some (argLoop (ncmdSet .cDeop) rtokenp))
  | .cKick => (v, some (argLoop (ncmdSet .cKick) rtokenp))
  | .cNick => (v, some (argLoop (ncmdSet .cNick) rtokenp))
  | .cOp => (v, some (argLoop (ncmdSet .cOp) rtokenp))
  | .cOper => (v, some (argLoop (ncmdSet .cOper) rtokenp))
  -- `C_CLEAR`, `C_HELP`, `C_LOG` and `C_PRIV` are local; `C_BAN` and `C_UNBAN` are disabled
  | _ => (v, none)

/-- A line has been entered. -/
def chatterLine (v : LineVars) (line : InputLine) : LineVars × Option Bytes :=
  match (cstr (line.chars ++ [0])).chars with
  | 47 :: s =>
      match lccStrsepx (some s) lccTokenDelim with
      | (some tt, rtokenp) =>
          match ncmdGetnum tt with
          | some tncmd => lineCommand v tncmd rtokenp
          | none => (v, none)
      | (none, _) => (v, none)
  | s => lineCommand v .cSay (some s)

end Smsg
