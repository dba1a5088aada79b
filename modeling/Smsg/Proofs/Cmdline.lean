/-
What the client sends for a command that takes words.

The argument loop of `chatter_func` takes tokens until `rtokenp` is `NULL`.  It is `NULL`
behind the last token only when no white space follows it: a line that ends in white
space has one argument more, which is empty.  A line is also cut off at a NUL, and the
number of arguments is kept in 16 bits.

`split_right_iff` says that these three are all that can go wrong.
-/
import Smsg.Cmdline
import Smsg.Proofs.Drain

namespace Smsg

open Tokens

/-! ### What a line says -/

/-- The commands whose arguments are the words of the line. -/
def wordCmds : List (String × NCMDOp) :=
  [("beep", .cBeep), ("deop", .cDeop), ("kick", .cKick), ("nick", .cNick), ("op", .cOp),
    ("oper", .cOper)]

/-- The words of a line, without its first character. -/
def lineWords (line : InputLine) : List Bytes := words isspace (line.chars.drop 1)

/-- The words behind the name of the command. -/
def lineArgs (line : InputLine) : List Bytes := (lineWords line).tail

/-- A line starts with `/`, and its first word is the name of a command, in any case. -/
structure Names (line : InputLine) (name : String) : Prop where
  slash : line.chars.head? = some 47
  word : (lineWords line).head?.map (·.map tolower) = some (text name)

/-- What is sent for a line reads as the command with the words of the line. -/
def SplitRight (v : LineVars) (line : InputLine) (op : NCMDOp) : Prop :=
  ∃ sbuf, (chatterLine v line).2 = some sbuf ∧ readCmd sbuf = sent op ((lineArgs line).map some)

/-- No NUL, no white space at the end, and a number of words that fits its field. -/
structure CleanLine (line : InputLine) : Prop where
  noNul : (0 : UInt8) ∉ line.chars
  noBlank : ∀ c, line.chars.getLast? = some c → isspace c = false
  count : (lineArgs line).length ≤ 65535

theorem isDelim_eq : isDelim = isspace := by
  funext c
  have hmem : c ∈ lccTokenDelim ↔ isspace c = true := by
    simp only [lccTokenDelim, isspace, List.mem_cons, List.not_mem_nil, or_false, Bool.or_eq_true,
      Bool.and_eq_true, beq_iff_eq, decide_eq_true_eq, UInt8.le_iff_toNat_le, ← UInt8.toNat_inj]
    have h10 : (10 : UInt8).toNat = 10 := rfl
    have h9 : (9 : UInt8).toNat = 9 := rfl
    have h11 : (11 : UInt8).toNat = 11 := rfl
    have h12 : (12 : UInt8).toNat = 12 := rfl
    have h13 : (13 : UInt8).toNat = 13 := rfl
    omega
  rw [isDelim, Bool.eq_iff_iff, decide_eq_true_eq, hmem]

/-! ### The name of the command -/

theorem strncaseeq_whole (a s : Bytes) :
    (strncaseeq a s s.length && a.length == s.length) = (a.map tolower == s.map tolower) := by
  rw [Bool.eq_iff_iff, Bool.and_eq_true, strncaseeq, beq_iff_eq, beq_iff_eq, beq_iff_eq,
    List.take_length]
  constructor
  · rintro ⟨h, hlen⟩
    rwa [← hlen, List.take_length] at h
  · intro h
    have hlen : a.length = s.length := by simpa using congrArg List.length h
    exact ⟨by rw [← hlen, List.take_length, h], hlen⟩

/-- **A name is looked up, in any case.** -/
theorem ncmdGetnum_name {name : String} {op : NCMDOp} (h : (name, op) ∈ wordCmds) {s : Bytes}
    (hs : s.map tolower = text name) : ncmdGetnum s = some op := by
  simp only [ncmdGetnum, strncaseeq_whole, hs]
  simp only [wordCmds, List.mem_cons, List.not_mem_nil, or_false, Prod.mk.injEq] at h
  rcases h with ⟨rfl, rfl⟩ | ⟨rfl, rfl⟩ | ⟨rfl, rfl⟩ | ⟨rfl, rfl⟩ | ⟨rfl, rfl⟩ | ⟨rfl, rfl⟩ <;> decide

theorem nul_notMem_name {name : String} {op : NCMDOp} (h : (name, op) ∈ wordCmds) {s : Bytes}
    (hs : s.map tolower = text name) : (0 : UInt8) ∉ s := by
  intro h0
  have hmem : (0 : UInt8) ∈ text name := by
    rw [← hs]
    exact List.mem_map.mpr ⟨0, h0, rfl⟩
  simp only [wordCmds, List.mem_cons, List.not_mem_nil, or_false, Prod.mk.injEq] at h
  rcases h with ⟨rfl, -⟩ | ⟨rfl, -⟩ | ⟨rfl, -⟩ | ⟨rfl, -⟩ | ⟨rfl, -⟩ | ⟨rfl, -⟩ <;>
    exact absurd hmem (by decide)

/-! ### What is sent -/

/-- The tokens that the argument loop finds from a pointer on. -/
def tokensFrom : Option Bytes → List Bytes
  | none => []
  | some s => tokens isspace s

theorem tokens_cons (s : Bytes) : tokens isspace s = token isspace s :: tokensFrom (rest isspace s) := by
  cases h : rest isspace s with
  | none => rw [tokens_none h, tokensFrom]
  | some r => rw [tokens_some h, tokensFrom]

/-- One round of the loop. -/
theorem argLoop_some (sbuf s : Bytes) : argLoop sbuf (some s)
    = argLoop (ncmdAdd sbuf (some (token isspace s))) (rest isspace s) := by
  have hnone : ∀ b, argLoop b none = b := fun b => by rw [argLoop]
  rw [argLoop]
  split <;> rename_i h <;> rw [lccStrsepx_eq, isDelim_eq, Prod.mk.injEq] at h
  · obtain ⟨htt, hrest⟩ := h
    rw [hrest, hnone, htt]
  · obtain ⟨htt, hrest⟩ := h
    rw [hrest, htt]
  · cases h.1

/-- **The loop adds every token.** -/
theorem argLoop_eq (sbuf : Bytes) (p : Option Bytes) :
    argLoop sbuf p = ((tokensFrom p).map some).foldl ncmdAdd sbuf := by
  cases p with
  | none => rw [argLoop]; rfl
  | some s =>
      induction s using tokens.induct isspace generalizing sbuf with
      | case1 s h =>
          rw [argLoop_some, tokensFrom, tokens_none h, h, argLoop]
          rfl
      | case2 s r h _ ih =>
          rw [argLoop_some, tokensFrom, tokens_some h, h, ih]
          rfl

theorem lineCommand_sends {name : String} {op : NCMDOp} (h : (name, op) ∈ wordCmds) (v : LineVars)
    (p : Option Bytes) : (lineCommand v op p).2 = some (build op ((tokensFrom p).map some)) := by
  have hloop : argLoop (ncmdSet op) p = build op ((tokensFrom p).map some) := argLoop_eq _ p
  simp only [wordCmds, List.mem_cons, List.not_mem_nil, or_false, Prod.mk.injEq] at h
  rcases h with ⟨-, rfl⟩ | ⟨-, rfl⟩ | ⟨-, rfl⟩ | ⟨-, rfl⟩ | ⟨-, rfl⟩ | ⟨-, rfl⟩ <;>
    exact congrArg some hloop

/-- The part of a line behind its first character that is looked at: it ends at a NUL. -/
def typed (line : InputLine) : Bytes := (cstr (line.chars.drop 1)).chars

theorem nul_notMem_typed (line : InputLine) : (0 : UInt8) ∉ typed line := (cstr _).nulFree

/-- What is behind the part that is looked at starts with a NUL. -/
theorem typed_append (line : InputLine) : line.chars.drop 1 = typed line
    ∨ ∃ more, line.chars.drop 1 = typed line ++ 0 :: more := by
  have hsplit := List.takeWhile_append_dropWhile (p := fun c => c != (0 : UInt8))
    (l := line.chars.drop 1)
  cases hd : (line.chars.drop 1).dropWhile fun c => c != 0 with
  | nil =>
      rw [hd, List.append_nil] at hsplit
      exact .inl hsplit.symm
  | cons c more =>
      have hc : c = 0 := by
        have := List.head?_dropWhile_not (fun c : UInt8 => c != 0) (line.chars.drop 1)
        rw [hd] at this
        simpa using this
      rw [hd, hc] at hsplit
      exact .inr ⟨more, hsplit.symm⟩

variable {v : LineVars} {line : InputLine} {name : String} {op : NCMDOp}

theorem Names.chars_eq (h : Names line name) : line.chars = 47 :: line.chars.drop 1 := by
  have hslash := h.slash
  cases hl : line.chars with
  | nil => rw [hl] at hslash; cases hslash
  | cons c s =>
      rw [hl] at hslash
      obtain rfl : c = 47 := by simpa using hslash
      rfl

/-- The first token of what is looked at is the name. -/
theorem Names.token_eq (h : Names line name) (hop : (name, op) ∈ wordCmds) :
    lineWords line = token isspace (typed line) :: lineArgs line
      ∧ (token isspace (typed line)).map tolower = text name := by
  obtain ⟨w, hw, hname⟩ := Option.map_eq_some_iff.mp h.word
  have hcons : lineWords line = w :: lineArgs line := by
    rw [lineArgs]
    cases hl : lineWords line with
    | nil => rw [hl] at hw; cases hw
    | cons w' ws =>
        rw [hl] at hw
        obtain rfl : w' = w := by simpa using hw
        rfl
  have hfirst : token isspace (line.chars.drop 1) = w := by
    cases hr : rest isspace (line.chars.drop 1) with
    | none =>
        rw [lineWords, words_of_rest_none hr] at hcons
        split at hcons
        · cases hcons
        · exact (List.cons.inj hcons).1
    | some r =>
        rw [lineWords, words_of_rest hr] at hcons
        exact (List.cons.inj hcons).1
  suffices htok : token isspace (typed line) = w by
    rw [htok]
    exact ⟨hcons, hname⟩
  rcases typed_append line with heq | ⟨more, heq⟩
  · rw [← heq, hfirst]
  · rw [heq] at hfirst
    cases hr : rest isspace (typed line) with
    | none =>
        -- the NUL would be part of the name
        have h0 := token_append_of_rest_none hr (show isspace 0 = false from rfl) more
        rw [hfirst] at h0
        exact absurd h0 (nul_notMem_name hop hname)
    | some r => rw [← hfirst, (rest_append hr _).1]

/-- **What a line is sent as.** -/
theorem Names.sends (h : Names line name) (hop : (name, op) ∈ wordCmds) (v : LineVars) :
    (chatterLine v line).2
      = some (build op ((tokensFrom (rest isspace (typed line))).map some)) := by
  have hc : (cstr (line.chars ++ [0])).chars = 47 :: typed line := by
    have hnul : ∀ s : Bytes, (s ++ [0]).takeWhile (· != 0) = s.takeWhile (· != 0) := by
      intro s
      induction s with
      | nil => rfl
      | cons c s ih =>
          rw [List.cons_append, List.takeWhile_cons, List.takeWhile_cons, ih]
    show (line.chars ++ [0]).takeWhile (· != 0) = 47 :: typed line
    rw [hnul, h.chars_eq, List.takeWhile_cons_of_pos rfl]
    rfl
  have hstrsepx : lccStrsepx (some (typed line)) lccTokenDelim
      = (some (token isspace (typed line)), rest isspace (typed line)) := by
    rw [lccStrsepx_eq, isDelim_eq]
  have hnum := ncmdGetnum_name hop (h.token_eq hop).2
  simp only [chatterLine, hc, hstrsepx, hnum]
  exact lineCommand_sends hop v _

/-! ### Reading what was sent -/

/-- The count of what is built has 16 bits. -/
theorem getnumargs_build (op : NCMDOp) (ts : List Bytes) :
    ncmdGetnumargs (build op (ts.map some)) = ts.length % 2 ^ 16 := by
  have hfield := (take_four_encode ⟨op, (ts.map some).map fun t : Option Bytes => t.getD []⟩ []).2.1
  rw [List.append_nil, ← build_eq] at hfield
  rw [ncmdGetnumargs, readNs_count_mod hfield]
  simp

theorem readCmd_build (op : NCMDOp) {ts : List Bytes} (hcount : ts.length ≤ 65535)
    (hshort : ∀ t ∈ ts, t.length < 2 ^ 31) :
    readCmd (build op (ts.map some)) = sent op (ts.map some) := by
  have hgetD : (ts.map some).map (fun t : Option Bytes => t.getD []) = ts := by simp
  have henc := readCmd_encode_of (c := ⟨op, ts⟩) (Nat.lt_succ_of_le hcount) hshort []
  rw [List.append_nil] at henc
  rw [build_eq, ← read_sent, hgetD]
  exact henc

/-- What a reader sees tells the arguments. -/
theorem sent_inj {op : NCMDOp} {ts us : List Bytes} (h : sent op (ts.map some) = sent op (us.map some)) :
    ts = us := by
  obtain ⟨-, -, harg⟩ := Read.mk.inj h
  refine List.ext_getElem? fun k => ?_
  have hk := congrFun harg k
  rw [List.getElem?_map, List.getElem?_map] at hk
  cases ht : ts[k]? with
  | none =>
      cases hu : us[k]? with
      | none => rfl
      | some u => rw [ht, hu] at hk; cases hk
  | some t =>
      cases hu : us[k]? with
      | none => rw [ht, hu] at hk; cases hk
      | some u =>
          rw [ht, hu] at hk
          simp only [Option.map_some, Option.getD_some, Option.some.injEq, Prod.mk.injEq, true_and,
            Arg.blk, Arg.mk.injEq, Ptr.blk.injEq] at hk
          rw [List.append_cancel_right hk.1]

/-! ### When it is right -/

/-- The tokens behind the name of the command. -/
def lineTokens (line : InputLine) : List Bytes := tokensFrom (rest isspace (typed line))

theorem length_lineTokens_le (h : Names line name) (hop : (name, op) ∈ wordCmds) :
    (lineTokens line).length ≤ (lineArgs line).length + 1 := by
  have htokens := congrArg List.length (tokens_cons (typed line))
  have hwords : (words isspace (typed line)).length ≤ (lineWords line).length := by
    rcases typed_append line with heq | ⟨more, heq⟩
    · rw [lineWords, heq]
    · rw [lineWords, heq]
      exact length_words_le _ _
  have hblank : (if endsBlank isspace (typed line) then [([] : Bytes)] else []).length ≤ 1 := by
    split <;> simp
  rw [tokens_eq, List.length_append, List.length_cons] at htokens
  rw [(h.token_eq hop).1, List.length_cons] at hwords
  rw [lineTokens]
  omega

theorem infix_of_mem_lineTokens {t : Bytes} (h : t ∈ lineTokens line) : t <:+: typed line := by
  have htoken : t ∈ tokens isspace (typed line) := by
    rw [tokens_cons]
    exact List.mem_cons_of_mem _ h
  exact infix_of_mem_tokens htoken

theorem length_lt_of_mem_lineTokens {t : Bytes} (h : t ∈ lineTokens line) : t.length < 2 ^ 31 := by
  have htyped : (typed line).length ≤ (line.chars.drop 1).length :=
    (List.takeWhile_sublist _).length_le
  have := (infix_of_mem_lineTokens h).length_le
  have := line.fits
  rw [List.length_drop] at htyped
  omega

/-- **Without a NUL, the tokens are the words, with an empty one behind white space.** -/
theorem lineTokens_eq (h : Names line name) (hop : (name, op) ∈ wordCmds)
    (hnul : (0 : UInt8) ∉ line.chars) :
    lineTokens line = lineArgs line ++ (if endsBlank isspace line.chars then [[]] else []) := by
  have htyped : line.chars.drop 1 = typed line := by
    rcases typed_append line with heq | ⟨more, heq⟩
    · exact heq
    · refine absurd (List.mem_of_mem_drop (i := 1) ?_) hnul
      rw [heq]
      exact List.mem_append_right _ List.mem_cons_self
  have hwords : words isspace (typed line) = token isspace (typed line) :: lineArgs line := by
    rw [← (h.token_eq hop).1, lineWords, htyped]
  have hblank : endsBlank isspace line.chars = endsBlank isspace (typed line) := by
    have hne : typed line ≠ [] := by
      intro hnil
      rw [hnil, words_nil] at hwords
      cases hwords
    rw [h.chars_eq, htyped, endsBlank, endsBlank, List.getLast?_cons_of_ne_nil hne]
  have hall : tokens isspace (typed line) = _ := tokens_eq (typed line)
  rw [tokens_cons, hwords, ← hblank] at hall
  exact (List.cons.inj hall).2

theorem noBlank_iff (l : Bytes) (hl : l ≠ []) : endsBlank isspace l = false
    ↔ ∀ c, l.getLast? = some c → isspace c = false := by
  rw [endsBlank, List.getLast?_eq_some_getLast hl]
  simp

/--
**A line is sent with its words** exactly when there is no NUL in it, it does not end in
white space, and no more than 65535 words follow the name.
-/
theorem split_right_iff (v : LineVars) (line : InputLine) (name : String) (op : NCMDOp)
    (hop : (name, op) ∈ wordCmds) (h : Names line name) :
    SplitRight v line op ↔ CleanLine line := by
  have hsends := h.sends hop v
  have hne : line.chars ≠ [] := fun hnil => by
    have := h.slash
    rw [hnil] at this
    cases this
  constructor
  · rintro ⟨sbuf, hsbuf, hread⟩
    obtain rfl := Option.some.inj (hsends.symm.trans hsbuf)
    have hnum := congrArg Read.numargs hread
    have hlen := length_lineTokens_le h hop
    have hmod : (lineTokens line).length % 2 ^ 16 = (lineArgs line).length := by
      rw [← getnumargs_build op]
      exact hnum.trans (List.length_map _)
    have hcount : (lineTokens line).length ≤ 65535 := by omega
    have htokens : lineTokens line = lineArgs line := by
      have hsent : sent op ((lineTokens line).map some) = sent op ((lineArgs line).map some) := by
        rw [← readCmd_build op hcount fun t ht => length_lt_of_mem_lineTokens ht]
        exact hread
      exact sent_inj hsent
    have hnul : (0 : UInt8) ∉ line.chars := by
      intro h0
      have hdrop : (0 : UInt8) ∈ line.chars.drop 1 := by
        rw [h.chars_eq] at h0
        rcases List.mem_cons.mp h0 with hc | h0
        · cases hc
        · exact h0
      obtain ⟨w, hw, h0w⟩ : ∃ w ∈ words isspace (line.chars.drop 1), (0 : UInt8) ∈ w :=
        mem_words_of_mem rfl hdrop
      have hin : w <:+: typed line := by
        rw [← lineWords, (h.token_eq hop).1] at hw
        rcases List.mem_cons.mp hw with rfl | hw
        · exact infix_token _
        · exact infix_of_mem_lineTokens (htokens ▸ hw)
      exact nul_notMem_typed line (hin.subset h0w)
    refine ⟨hnul, (noBlank_iff _ hne).mp ?_, htokens ▸ hcount⟩
    have hsplit := lineTokens_eq h hop hnul
    rw [htokens] at hsplit
    cases hb : endsBlank isspace line.chars with
    | false => rfl
    | true =>
        rw [hb] at hsplit
        have hempty : ([] : Bytes) ∈ lineArgs line := by
          rw [hsplit]
          exact List.mem_append_right _ (List.mem_singleton_self _)
        exact absurd rfl (ne_nil_of_mem_words (List.mem_of_mem_tail hempty))
  · intro hclean
    have htokens : lineTokens line = lineArgs line := by
      rw [lineTokens_eq h hop hclean.noNul, (noBlank_iff _ hne).mpr hclean.noBlank]
      exact List.append_nil _
    refine ⟨_, hsends, ?_⟩
    rw [← lineTokens, htokens]
    refine readCmd_build op hclean.count fun t ht => ?_
    rw [← htokens] at ht
    exact length_lt_of_mem_lineTokens ht

/-- `/nick bob`. -/
def nickBob : InputLine := ⟨[47, 110, 105, 99, 107, 32, 98, 111, 98], by decide⟩

theorem nickBob_names : Names nickBob "nick" := ⟨rfl, by decide⟩

theorem split_right_nick : SplitRight ⟨8, none, false⟩ nickBob .cNick :=
  (split_right_iff ⟨8, none, false⟩ nickBob "nick" .cNick (by decide) nickBob_names).mpr
    ⟨by decide, fun c hc => by (cases hc; rfl), by decide⟩

/-- `/nick` and a space. -/
def nickBlank : InputLine := ⟨[47, 110, 105, 99, 107, 32], by decide⟩

/-- It is sent with an argument, an empty one. -/
theorem not_split_right : ¬ ∀ (v : LineVars) (line : InputLine) (name : String) (op : NCMDOp),
    (name, op) ∈ wordCmds → Names line name → SplitRight v line op := by
  intro hall
  have hop : ("nick", NCMDOp.cNick) ∈ wordCmds := by decide
  have hnames : Names nickBlank "nick" := ⟨rfl, by decide⟩
  have htokens : lineTokens nickBlank = [[]] := lineTokens_eq hnames hop (by decide)
  obtain ⟨sbuf, hsbuf, hread⟩ := hall ⟨8, none, false⟩ nickBlank "nick" .cNick hop hnames
  obtain rfl := Option.some.inj ((hnames.sends hop _).symm.trans hsbuf)
  have hnum : ncmdGetnumargs (build .cNick ((lineTokens nickBlank).map some)) = 0 :=
    congrArg Read.numargs hread
  rw [getnumargs_build, htokens] at hnum
  cases hnum

end Smsg
