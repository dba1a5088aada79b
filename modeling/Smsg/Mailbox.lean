/-
`clchat.c`: watching the mailbox, `lcc_mboxchange`.

What a call sees is the size that `stat` reports, if it reports one, and what can be read
from the file, if it can be opened.  The file is read with `fgets`, 254 bytes at most at a
time.
-/
import Smsg.Clchat
import Smsg.Memory
import Smsg.Lib.Pieces

namespace Smsg

/-- The statics of `lcc_mboxchange`, of `last_st` the size, and `mailcount`. -/
structure Mbox where
  firstrun : Bool
  lastSize : Int
  mailcount : Int
deriving DecidableEq

/-- When the program starts: `-1` is an unknown number of mails. -/
def Mbox.start : Mbox := ⟨true, 0, -1⟩

/-- `"From "`. -/
def fromLine : Bytes := text "From "

/-- `"Subject: "`. -/
def subjectLine : Bytes := text "Subject: "

/-- What `fgets` returns, one call after the other, with a buffer of 255 bytes. -/
def fgetsAll (file : Bytes) : List Bytes := Pieces.pieces 10 254 file

/-- `strcspn(s, reject)`. -/
def strcspn (s reject : Bytes) : Nat := (s.takeWhile fun c => c != 0 && !reject.contains c).length

/-- The sender or the subject behind the `len` bytes that a line starts with. -/
def sayRest (format : Bytes) (buf : Bytes) (len : Nat) (reject : Bytes) : ChatterAct :=
  .asay 0 format [.int (strcspn (buf.drop len) reject), .str (cstr (buf.drop len))]

/--
What is said for a line when the count is `n`: the mails behind the ones that are known are
news, when there are more of them.
-/
def mailNews (changed mailcount : Int) (n : Nat) (buf : Bytes) : List ChatterAct :=
  if changed = 1 ∧ mailcount ≠ -1 ∧ mailcount < n then
    (if fromLine.isPrefixOf buf then [sayRest (text " [%.*s]") buf 5 (text " \t\n\r")] else [])
      ++ (if subjectLine.isPrefixOf buf then [sayRest (text "<%.*s>") buf 9 (text "\n\r")] else [])
  else []

/-- The loop that counts the mails, from the count `n` on. -/
def mboxScan (changed mailcount : Int) (n : Nat) :
    List Bytes → Except EditFault (Nat × List ChatterAct)
  | [] => .ok (n, [])
  | buf :: bufs =>
      let n := n + if fromLine.isPrefixOf buf then 1 else 0
      if intMax < n then .error .overflow
      else (mboxScan changed mailcount n bufs).map fun r =>
        (r.1, mailNews changed mailcount n buf ++ r.2)

/-- `changed`, for the size that `stat` reports. -/
def Mbox.changed (v : Mbox) (size : Int) : Int :=
  if v.firstrun then 2
  else if size ≠ v.lastSize then (if v.lastSize < size then 1 else -1)
  else 0

/-- `lcc_mboxchange`: the return value, and what it says. -/
def lccMboxchange (v : Mbox) (size : Option Int) (file : Option Bytes) :
    Except EditFault (Int × Mbox × List ChatterAct) :=
  match size with
  | none =>
      .ok (-1, { v with mailcount := -1 },
        if -1 < v.mailcount then [.asay 1 (text "Ow. Less mail! (file is removed..)") []] else [])
  | some size =>
      let changed := v.changed size
      let v := { v with firstrun := false }
      if changed = 0 then .ok (0, { v with lastSize := size }, [])
      else
        let more := if 0 < changed then text "Yay! More" else text "Hmm. Less"
        let told : List ChatterAct :=
          if changed ≠ 2 then [.asay 1 (text "%s mail!") [.str (cstr more)]] else []
        match file with
        | none => .ok (-1, { v with mailcount := -1 }, told ++ [.asay 0 (text "\n") []])
        | some file => do
            let (n, news) ← mboxScan changed v.mailcount 0 (fgetsAll file)
            let done : List ChatterAct := if changed ≠ 2 then [.asay 0 (text "\n") []] else []
            .ok (1, { v with lastSize := size, mailcount := n }, told ++ news ++ done)

end Smsg
