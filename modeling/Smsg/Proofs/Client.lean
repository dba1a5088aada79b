/-
What `getmessage` and `getlist` make of the answers of the server.

Neither gets along with its own server.  `getmessage` takes the arguments of a `QMSG`
in an order of its own and the number in front of them for digits, so it tells a
message right only if that cannot be noticed (`tells_message_iff`).  `getlist` leaves
out the NUL of a name, and a list with users in it is never told (`tells_list_iff`).
Both look at one receive and at no more.
-/
import Smsg.Client
import Smsg.Proofs.Drain

namespace Smsg

/-! ### Arguments of a buffer -/

variable {buf : Bytes} {t t' : Arg} {c : NetCmd} {a : Bytes} {k : Nat}

/-- A string with its NUL in the block is shorter than the block. -/
theorem terminated_blk {b : Bytes} {s : CString} (h : (Arg.blk b).terminated = some s) :
    s.chars.length < b.length := by
  simp only [Arg.terminated, Arg.blk, Option.ite_none_right_eq_some, Option.some.injEq] at h
  obtain ⟨hzero, rfl⟩ := h
  have hle : (cstr b).chars.length ≤ b.length := (List.takeWhile_prefix _).length_le
  refine lt_of_le_of_ne hle fun heq => ?_
  have hall : (cstr b).chars = b := (List.takeWhile_prefix _).eq_of_length heq
  refine (cstr b).nulFree ?_
  rw [hall]
  exact hzero

@[simp] theorem terminated_chars (s : CString) :
    (Arg.blk (s.chars ++ [0])).terminated = some s := by
  rw [Arg.terminated]
  show (if 0 ∈ s.chars ++ [0] then some (cstr (s.chars ++ [0])) else none) = some s
  rw [if_pos (by simp), cstr_terminated]

@[simp] theorem printed_chars (s : CString) :
    (Arg.blk (s.chars ++ [0])).printed = some (.str s) := by
  rw [Arg.printed]
  show (Arg.blk (s.chars ++ [0])).terminated.map Printed.str = some (.str s)
  rw [terminated_chars, Option.map_some]

/-- Which block an argument is fetched into makes no difference to what is fetched. -/
theorem ncmdGetarg_target (h : ncmdGetarg buf .null k true = some (0, t')) (ht : t.ap ≠ .freed) :
    ncmdGetarg buf t k true = some (0, t') := by
  rw [ncmdGetarg] at h ⊢
  by_cases hnum : ncmdGetnumargs buf ≤ k
  · rw [if_pos hnum] at h
    simp at h
  · rw [if_neg hnum] at h ⊢
    cases hskip : skipArgs buf k 4 with
    | none => simp [hskip] at h
    | some i =>
        simp only [hskip, Option.bind_eq_bind, Option.bind_some] at h ⊢
        split at h
        · simp at h
        · rename_i hroom
          rw [if_neg hroom]
          cases hap : t.ap with
          | null => exact h
          | blk b => exact (if_neg (by simp)).trans h
          | freed => exact absurd hap ht

/-- **An argument of a short command**, fetched with its NUL. -/
theorem getarg_encode (hc : c.Short) (hk : c.args[k]? = some a) (ht : t.ap ≠ .freed) :
    getarg c.encode t k true = some (.blk (a ++ [0])) := by
  have hread := congrArg (fun r => r.arg k) (readCmd_encode hc [])
  rw [List.append_nil] at hread
  have hnull : ncmdGetarg c.encode .null k true = some (0, .blk (a ++ [0])) := by
    refine Eq.trans (b := c.getarg .null k true) hread ?_
    rw [NetCmd.getarg, hk]
    rfl
  rw [getarg, ncmdGetarg_target hnull ht]
  rfl

/-- What is fetched lies in the buffer. -/
theorem getarg_cases {zero : Bool} (h : getarg buf t k zero = some t') :
    (ncmdGetnumargs buf ≤ k ∧ t' = t) ∨ t'.ap = .freed ∨ ∃ i, skipArgs buf k 4 = some i ∧
      i + 4 + (readNl (buf.drop i)).toNat ≤ buf.length ∧
      t' = .blk ((buf.drop (i + 4)).take (readNl (buf.drop i)).toNat ++
        if zero then [0] else []) := by
  rw [getarg, Option.map_eq_some_iff] at h
  obtain ⟨⟨r, t₁⟩, h, rfl⟩ := h
  rcases ncmdGetarg_cases h with ⟨hnum, -, heq⟩ | ⟨i, hskip, hroom, hcase⟩
  · exact Or.inl ⟨hnum, heq⟩
  · rcases hcase with ⟨-, hfreed⟩ | ⟨-, heq⟩
    · exact Or.inr (Or.inl hfreed)
    · exact Or.inr (Or.inr ⟨i, hskip, hroom, heq⟩)

/-- The target holds no string that is longer than the buffer. -/
def Arg.Within (buf : Bytes) (t : Arg) : Prop :=
  ∀ s, t.terminated = some s → s.chars.length ≤ buf.length

theorem within_null (buf : Bytes) : Arg.null.Within buf := by
  intro s hs
  simp [Arg.terminated, Arg.null] at hs

theorem Arg.Within.getarg {zero : Bool} (ht : t.Within buf) (h : getarg buf t k zero = some t') :
    t'.Within buf := by
  rcases getarg_cases h with ⟨-, rfl⟩ | hfreed | ⟨i, -, hroom, rfl⟩
  · exact ht
  · intro s hs
    simp [Arg.terminated, hfreed] at hs
  · intro s hs
    have hlt := terminated_blk hs
    have hzero : (if zero then [0] else ([] : Bytes)).length ≤ 1 := by
      split <;> simp
    simp only [List.length_append, List.length_take, List.length_drop] at hlt
    omega

/-- What is printed is such a string, or what is printed for `NULL`. -/
theorem Arg.Within.printed {s : CString} (ht : t.Within buf) (h : t.printed = some (.str s)) :
    s.chars.length ≤ buf.length + 6 := by
  unfold Arg.printed at h
  split at h
  · simp only [Option.some.injEq, Printed.str.injEq] at h
    rw [← h]
    exact Nat.le_add_left _ _
  · rw [Option.map_eq_some_iff] at h
    obtain ⟨s', hs', heq⟩ := h
    rw [Printed.str.injEq] at heq
    have := ht s' hs'
    rw [← heq]
    omega

/-! ### `atoi` of a word -/

theorem digits_lt (s : Bytes) : digits s < 10 ^ s.length := by
  have hfold : ∀ (l : Bytes) (n : Nat), (∀ c ∈ l, isdigit c = true) →
      l.foldl (fun n c => n * 10 + (c.toNat - 48)) n < (n + 1) * 10 ^ l.length := by
    intro l
    induction l with
    | nil => intro n _; simp
    | cons c l ih =>
        intro n hl
        have hc : c.toNat - 48 ≤ 9 := by
          have hdigit := hl c List.mem_cons_self
          simp only [isdigit, Bool.and_eq_true, decide_eq_true_eq, UInt8.le_iff_toNat_le] at hdigit
          have : (57 : UInt8).toNat = 57 := rfl
          omega
        have hrest := ih (n * 10 + (c.toNat - 48)) fun d hd => hl d (List.mem_cons_of_mem _ hd)
        rw [List.foldl_cons, List.length_cons, pow_succ']
        refine lt_of_lt_of_le hrest ?_
        rw [← mul_assoc]
        exact Nat.mul_le_mul_right _ (by omega)
  have hdigits := hfold (s.takeWhile isdigit) 0 fun c hc => List.mem_takeWhile_imp hc
  have hlen : (s.takeWhile isdigit).length ≤ s.length := (List.takeWhile_prefix _).length_le
  calc digits s < (0 + 1) * 10 ^ (s.takeWhile isdigit).length := hdigits
    _ = 10 ^ (s.takeWhile isdigit).length := by rw [Nat.zero_add, Nat.one_mul]
    _ ≤ 10 ^ s.length := Nat.pow_le_pow_right (by omega) hlen

/-- A string of two characters is a number of two digits at most. -/
theorem strtol_small {s : Bytes} (hs : s.length ≤ 2) : -100 < strtol s ∧ strtol s < 100 := by
  have hskip : (s.dropWhile isspace).length ≤ 2 :=
    le_trans (List.dropWhile_suffix _).length_le hs
  have hsmall : ∀ l : Bytes, l.length ≤ 2 → (digits l : Int) < 100 := by
    intro l hl
    have hpow : 10 ^ l.length ≤ 10 ^ 2 := Nat.pow_le_pow_right (by omega) hl
    have := digits_lt l
    omega
  have htail := hsmall (s.dropWhile isspace).tail (by rw [List.length_tail]; omega)
  have hall := hsmall _ hskip
  unfold strtol
  dsimp only
  split_ifs <;> omega

/-- **A word is never the digits of the number that it stands for**, but for zero. -/
theorem atoi_word {n : Nat} (hn : n ≤ 65535) : atoi (cstr (be16 n ++ [0])) = n ↔ n = 0 := by
  constructor
  · intro h
    by_contra hne
    by_cases hlow : n < 256
    · -- the first byte is the NUL
      have hfirst : UInt8.ofNat (n / 2 ^ 8) = 0 := by
        rw [show n / 2 ^ 8 = 0 by omega]
        rfl
      have hempty : cstr (be16 n ++ [0]) = .empty := by
        refine CString.ext ?_
        show (be16 n ++ [0]).takeWhile (· != 0) = []
        rw [be16, hfirst]
        rfl
      rw [hempty] at h
      have hzero : atoi .empty = 0 := by decide
      omega
    · have hlen : (cstr (be16 n ++ [0])).chars.length ≤ 2 := by
        have hterm : (Arg.blk (be16 n ++ [0])).terminated = some (cstr (be16 n ++ [0])) :=
          if_pos (by simp)
        have := terminated_blk hterm
        simp only [List.length_append, length_be16, List.length_singleton] at this
        omega
      obtain ⟨hlow', hhigh⟩ := strtol_small hlen
      rw [atoi, toCInt_self (by omega) (by omega)] at h
      omega
  · intro h
    subst h
    decide

/-! ### `getmessage` -/

theorem sayLeft_inj {m n : Int} : sayLeft m = sayLeft n ↔ m = n := by
  refine ⟨fun h => ?_, fun h => by rw [h]⟩
  unfold sayLeft at h
  split at h
  · split at h
    · omega
    · simp at h
  · split at h
    · simp at h
    · simpa using h

variable {q : Queued} {n : Nat}

theorem answer_args (q : Queued) {n : Nat} (hn : n ≤ 65535) : (q.answer n).args
    = [be16 n, q.msg.chars, q.sendtime.chars, q.sender.chars, q.sourceIp.chars] := by
  have hword : storeNs (BitVec.ofNat 16 n) = be16 n := by
    rw [storeNs_eq, BitVec.toNat_ofNat, Nat.mod_eq_of_lt (by omega)]
  simp [Queued.answer, hword]

theorem length_answer (q : Queued) {n : Nat} (hn : n ≤ 65535) : (q.answer n).encode.length
    = 26 + q.msg.chars.length + q.sendtime.chars.length + q.sender.chars.length +
      q.sourceIp.chars.length := by
  rw [NetCmd.length_encode, answer_args q hn]
  simp only [encodeArgs_cons, encodeArgs_nil, List.length_append, length_be32, length_be16,
    List.length_nil]
  omega

/-- What `getmessage` says to a whole answer: the fields are not in their places. -/
theorem getmessage_answer (hn : n ≤ 65535) (hc : (q.answer n).Short) :
    getmessage (q.answer n).encode = some [sayLeft (atoi (cstr (be16 n ++ [0]))),
      .say (text "Queued message from %s") [.str q.sendtime],
      .say (text "@%s sent on") [.str q.sender], .say (text " %s:\n") [.str q.msg],
      .say (text "%s\n") [.str q.sourceIp]] := by
  have hargs := answer_args q hn
  have hread := readCmd_encode hc []
  rw [List.append_nil] at hread
  have hop : ncmdGet (q.answer n).encode = .qmsg := congrArg (·.op) hread
  have hnum : ncmdGetnumargs (q.answer n).encode = 5 := by
    have hlen : ncmdGetnumargs (q.answer n).encode = (q.answer n).args.length :=
      congrArg (·.numargs) hread
    rw [hlen, hargs]
    rfl
  have hwhole := ncmdIscomplete_encode hc []
  rw [List.append_nil] at hwhole
  have hpos := (q.answer n).four_le_length
  have hget : ∀ {k : Nat} {a : Bytes} {t : Arg}, (q.answer n).args[k]? = some a →
      t.ap ≠ .freed → getarg (q.answer n).encode t k true = some (.blk (a ++ [0])) :=
    fun hk ht => getarg_encode hc hk ht
  have hblk : ∀ b : Bytes, (Arg.blk b).ap ≠ .freed := fun b => by simp [Arg.blk]
  have hword : (Arg.blk (be16 n ++ [0])).terminated = some (cstr (be16 n ++ [0])) :=
    if_pos (by simp)
  rw [hargs] at hget
  rw [getmessage, hwhole]
  simp only [Option.bind_eq_bind, Option.bind_some, if_neg (show ¬ (((q.answer n).encode.length
    : Nat) : Int) = 0 by omega), hop]
  rw [getmessageQmsg, hget (k := 0) rfl (by simp [Arg.null])]
  simp [hword, hnum, hget (k := 2) rfl (hblk _), hget (k := 3) rfl (hblk _),
    hget (k := 1) rfl (hblk _), hget (k := 4) rfl (hblk _)]

/-- Only a `QMSG` makes `getmessage` say five things. -/
theorem getmessage_five {rbuf : Bytes} {lines : List Line} (h : getmessage rbuf = some lines)
    (hfive : lines.length = 5) : getmessageQmsg rbuf = some lines := by
  simp only [getmessage, Option.bind_eq_bind, Option.bind_eq_some_iff] at h
  obtain ⟨k, -, h⟩ := h
  split at h
  · rw [← Option.some.inj h] at hfive
    simp at hfive
  · split at h
    · exact h
    · simp only [Option.bind_eq_some_iff, Option.some.injEq] at h
      obtain ⟨targ, -, reason, -, h⟩ := h
      rw [← h] at hfive
      simp at hfive
    · rw [← Option.some.inj h] at hfive
      simp at hfive

/-- A message that is told is no longer than what was received. -/
theorem length_told {rbuf : Bytes} (h : TellsMessage q n (getmessage rbuf)) :
    q.msg.chars.length ≤ rbuf.length + 6 ∧ q.sendtime.chars.length ≤ rbuf.length + 6 ∧
      q.sender.chars.length ≤ rbuf.length + 6 ∧ q.sourceIp.chars.length ≤ rbuf.length + 6 := by
  replace h := getmessage_five h rfl
  simp only [getmessageQmsg, Option.bind_eq_bind, Option.bind_eq_some_iff] at h
  obtain ⟨targ, h₀, left, -, h⟩ := h
  have w₀ := (within_null rbuf).getarg h₀
  split at h
  · simp only [Option.bind_eq_some_iff] at h
    obtain ⟨t₂, h₂, who, hwho, t₃, h₃, place, hplace, t₁, h₁, time, htime, t₄, h₄, msg, hmsg, h⟩ := h
    have w₂ := w₀.getarg h₂
    have w₃ := w₂.getarg h₃
    have w₁ := w₃.getarg h₁
    have w₄ := w₁.getarg h₄
    simp only [Option.some.injEq, List.cons.injEq, Line.say.injEq, and_true, true_and] at h
    obtain ⟨-, rfl, rfl, rfl, rfl⟩ := h
    exact ⟨w₄.printed hmsg, w₁.printed htime, w₂.printed hwho, w₃.printed hplace⟩
  · simp at h

theorem getmessage_part {rbuf : Bytes} (h : ncmdIscomplete rbuf = some 0) :
    getmessage rbuf = some [] := by
  rw [getmessage, h]
  rfl

theorem tells_answer_iff (hn : n ≤ 65535) (hc : (q.answer n).Short) :
    TellsMessage q n (getmessage (q.answer n).encode) ↔
      n = 0 ∧ q.sendtime = q.sender ∧ q.sender = q.sourceIp ∧ q.msg = q.sendtime ∧
        q.sourceIp = q.msg := by
  have hsay : ∀ {f : Bytes} {s s' : CString}, Line.say f [.str s] = Line.say f [.str s'] ↔ s = s' :=
    fun {f s s'} => ⟨fun h => by simpa using h, fun h => by rw [h]⟩
  rw [TellsMessage, getmessage_answer hn hc, Option.some.injEq, List.cons.injEq, List.cons.injEq,
    List.cons.injEq, List.cons.injEq, List.cons.injEq, sayLeft_inj, atoi_word hn, hsay, hsay, hsay,
    hsay, eq_self, and_true]

/-- **The handler answers with the message that `mq_get` returned.** -/
theorem answersWith (q : Queued) (n : Nat) : AnswersWith q n (q.answer n) := by
  intro x user num r u hlocal huser hpw hnum hget hr
  rw [handleGetqmsg]
  simp only [getqmsg, hlocal, huser, hpw, hnum, hget, Bool.not_true, Bool.false_eq_true, if_false]
  rfl

/--
**A message that the server sends is told right by `getmessage` only if there are none
left and time, sender, address and text are one and the same string**, which has to be
short enough for one receive.
-/
theorem tells_message_iff (q : Queued) {n : Nat} (hn : n ≤ 65535) :
    AnswersWith q n (q.answer n) ∧
      (TellsMessage q n (getmessage ((q.answer n).encode.take Loop.rlen)) ↔
        n = 0 ∧ q.sendtime = q.sender ∧ q.sender = q.sourceIp ∧ q.sourceIp = q.msg ∧
          q.msg.chars.length ≤ 249) := by
  refine ⟨answersWith q n, ?_⟩
  have hlen := length_answer q hn
  have hrlen : Loop.rlen = 1023 := rfl
  have hcount : (q.answer n).args.length < 2 ^ 16 := by
    rw [answer_args q hn]
    simp
  constructor
  · intro h
    have hshort : (q.answer n).Short := by
      obtain ⟨hmsg, htime, hsender, hip⟩ := length_told h
      rw [List.length_take] at hmsg htime hsender hip
      exact ⟨hcount, by omega⟩
    -- all of it has been received
    have hfits : (q.answer n).encode.length ≤ Loop.rlen := by
      by_contra hlong
      have hpart := ncmdIscomplete_part hshort (List.take_prefix Loop.rlen _) fun hc => by
        have := congrArg List.length hc
        rw [List.length_take] at this
        omega
      rw [TellsMessage, getmessage_part hpart] at h
      simp only [Option.some.injEq, reduceCtorEq] at h
    rw [List.take_of_length_le hfits, tells_answer_iff hn hshort] at h
    obtain ⟨hzero, hsender, hip, hmsg, htext⟩ := h
    refine ⟨hzero, hsender, hip, htext, ?_⟩
    rw [hsender, hip, htext] at hlen
    omega
  · intro h
    obtain ⟨hzero, hsender, hip, htext, hle⟩ := h
    rw [hsender, hip, htext] at hlen
    have hshort : (q.answer n).Short := ⟨hcount, by omega⟩
    rw [List.take_of_length_le (by omega), tells_answer_iff hn hshort]
    exact ⟨hzero, hsender, hip, by rw [hsender, hip, htext], htext⟩

theorem tells_message_same : TellsMessage ⟨⟨[97], by decide⟩, ⟨[97], by decide⟩,
    ⟨[97], by decide⟩, ⟨[97], by decide⟩⟩ 0 (getmessage (((⟨⟨[97], by decide⟩, ⟨[97], by decide⟩,
    ⟨[97], by decide⟩, ⟨[97], by decide⟩⟩ : Queued).answer 0).encode.take Loop.rlen)) :=
  (tells_message_iff _ (by decide)).2.mpr ⟨rfl, rfl, rfl, rfl, by decide⟩

/-- The last message of a queue, with four different fields. -/
theorem not_tells_fields : ¬ ∀ (q : Queued) (n : Nat), n ≤ 65535 →
    TellsMessage q n (getmessage ((q.answer n).encode.take Loop.rlen)) := by
  intro h
  let q : Queued := ⟨⟨text "Tue", by decide⟩, ⟨text "joe", by decide⟩,
    ⟨text "127.0.0.1", by decide⟩, ⟨text "hello", by decide⟩⟩
  have hlen : (q.answer 0).encode.length = 46 := length_answer q (by decide)
  have hshort : (q.answer 0).Short := ⟨by decide, by omega⟩
  have htold := h q 0 (by decide)
  rw [List.take_of_length_le (by rw [hlen]; decide), tells_answer_iff (by decide) hshort] at htold
  exact absurd htold.2.1 (by decide)

/-! ### `getlist` -/

theorem readNl_append {b : Bytes} (h : 4 ≤ b.length) (rest : Bytes) :
    readNl (b ++ rest) = readNl b := by
  have hbyte : ∀ k, k < 4 → intByte (b ++ rest) k = intByte b k := by
    intro k hk
    rw [intByte, intByte, List.getD_eq_getElem?_getD, List.getD_eq_getElem?_getD,
      List.getElem?_append_left (by omega)]
  rw [readNl, readNl, hbyte 0 (by omega), hbyte 1 (by omega), hbyte 2 (by omega),
    hbyte 3 (by omega)]

/-- What has arrived is passed over as it would be later. -/
theorem skipArgs_append (rest : Bytes) : ∀ (n i : Nat) {j : Nat}, skipArgs buf n i = some j →
    skipArgs (buf ++ rest) n i = some j ∧ j + 4 ≤ buf.length := by
  intro n
  induction n with
  | zero =>
      intro i j h
      simp only [skipArgs, Option.ite_none_right_eq_some, Option.some.injEq] at h
      obtain ⟨hroom, rfl⟩ := h
      exact ⟨if_pos (by rw [List.length_append]; omega), hroom⟩
  | succ n ih =>
      intro i j h
      simp only [skipArgs, Option.ite_none_right_eq_some] at h
      obtain ⟨hroom, h⟩ := h
      have hread : readNl ((buf ++ rest).drop i) = readNl (buf.drop i) := by
        rw [List.drop_append_of_le_length (by omega), readNl_append]
        rw [List.length_drop]
        omega
      rw [skipArgs, if_pos (by rw [List.length_append]; omega), hread]
      exact ih _ h

/-- **An argument of a command whose end may be missing**: if it is fetched, it is whole. -/
theorem getarg_part {p rest pre tail : Bytes} {args : List Bytes}
    (hsplit : p ++ rest = pre ++ (encodeArgs args ++ tail)) (hpre : pre.length = 4)
    (hargs : ∀ x ∈ args, x.length < 2 ^ 31) (hk : args[k]? = some a)
    (hnum : k < ncmdGetnumargs p) (h : getarg p t k false = some t') :
    t'.ap = .freed ∨ t' = .blk a := by
  rcases getarg_cases h with ⟨hle, -⟩ | hfreed | ⟨i, hskip, hroom, rfl⟩
  · omega
  · exact Or.inl hfreed
  · refine Or.inr ?_
    obtain ⟨hskip', hfour⟩ := skipArgs_append rest k 4 hskip
    obtain ⟨j, hj, rest', hdrop⟩ := skipArgs_encodeArgs args k pre tail a
      (fun x hx => hargs x (List.mem_of_mem_take hx)) hk
    rw [hsplit, ← hpre, hj, Option.some.injEq] at hskip'
    subst hskip'
    rw [← hsplit] at hdrop
    have ha := hargs a (List.mem_of_getElem? hk)
    have hread : (readNl (p.drop j)).toNat = a.length := by
      rw [← readNl_append (by rw [List.length_drop]; omega) rest,
        ← List.drop_append_of_le_length (by omega), hdrop, readNl_be32 ha]
    have hblock : (p.drop (j + 4)).take a.length = a := by
      rw [hread] at hroom
      have hwhole : ((p ++ rest).drop (j + 4)).take a.length = a := by
        rw [← List.drop_drop, hdrop, List.drop_left' (length_be32 _), List.take_left]
      rw [List.drop_append_of_le_length (by omega),
        List.take_append_of_le_length (by rw [List.length_drop]; omega)] at hwhole
      exact hwhole
    rw [hread, hblock]
    simp

/-- What the handler answers to `GETLIST`. -/
theorem getlist_reply {x : Call} {ul : List UserlistEnt}
    (hul : getUserlist x.env.userlist none = some ul) : ∃ m : NetCmd,
      handleGetlist x = x.done x.udata [x.reply m] ∧ m.op = .list ∧
        m.args = [x.env.version.chars, x.env.os.chars] ++ (listed ul).flatMap fun l =>
          [l.name.chars, if iswritabletty x.env l.tty then [1] else [0]] := by
  have hfold : ∀ (us : List UserlistEnt) (m : NetCmd),
      let m' := us.foldl (fun msg l => (msg.add l.name.chars).add
        (if iswritabletty x.env l.tty then [1] else [0])) m
      m'.op = m.op ∧ m'.args = m.args ++ us.flatMap fun l =>
        [l.name.chars, if iswritabletty x.env l.tty then [1] else [0]] := by
    intro us
    induction us with
    | nil => intro m; simp
    | cons l us ih =>
        intro m
        obtain ⟨hop, hargs⟩ := ih ((m.add l.name.chars).add
          (if iswritabletty x.env l.tty then [1] else [0]))
        exact ⟨hop, by rw [List.foldl_cons, hargs]; simp⟩
  obtain ⟨hop, hargs⟩ := hfold (listed ul)
    (((NetCmd.set .list).add x.env.version.chars).add x.env.os.chars)
  exact ⟨_, by rw [handleGetlist, hul]; rfl, hop, hargs⟩

/-- Only a `LIST` makes `getlist` tell a version. -/
theorem getlist_told {env : Env} {ul : List UserlistEnt} {peer : CString} {p : Bytes}
    (h : TellsList env ul (getlist peer p)) : ∃ targ0 targ1 users,
      getarg p .null 0 true = some targ0 ∧ getarg p .null 1 true = some targ1 ∧
      targ0.printed = some (.str env.version) ∧ targ1.printed = some (.str env.os) ∧
      getlistRest p targ0 targ1 = some users ∧
      users.filter Line.isUser = (listed ul).map fun l =>
        sayUser (if iswritabletty env l.tty then 1 else 0) (.str l.name) := by
  obtain ⟨peer', out, hout, hhead, hfilter⟩ := h
  simp only [getlist, Option.bind_eq_bind, Option.bind_eq_some_iff] at hout
  obtain ⟨k, -, hout⟩ := hout
  split at hout
  · rw [← Option.some.inj hout] at hhead
    simp only [List.head?_cons, Option.some.injEq, Line.say.injEq] at hhead
    exact absurd hhead.1 (by decide)
  · split at hout
    · simp only [getlistList, Option.bind_eq_bind, Option.bind_eq_some_iff] at hout
      obtain ⟨targ0, h0, targ1, h1, version, hversion, os, hos, users, husers, hout⟩ := hout
      rw [← Option.some.inj hout] at hhead hfilter
      simp only [List.head?_cons, Option.some.injEq, Line.say.injEq, List.cons.injEq, true_and] at hhead
      obtain ⟨rfl, rfl, -⟩ := hhead
      exact ⟨targ0, targ1, users, h0, h1, hversion, hos, husers, hfilter⟩
    · simp only [Option.bind_eq_some_iff, Option.some.injEq] at hout
      obtain ⟨targ0, -, reason, -, hout⟩ := hout
      rw [← hout] at hhead
      simp only [List.head?_cons, Option.some.injEq, Line.say.injEq] at hhead
      exact absurd hhead.1 (by decide)
    · rw [← Option.some.inj hout] at hhead
      simp at hhead

theorem sayUser_isUser (mesg : UInt8) (name : Printed) : (sayUser mesg name).isUser = true := by
  unfold sayUser
  split_ifs <;> rfl

theorem sayUser_name {mesg mesg' : UInt8} {name name' : Printed}
    (h : sayUser mesg name = sayUser mesg' name') : name = name' := by
  unfold sayUser at h
  split_ifs at h <;> simp_all

/-- If a user is listed, the string that is fetched for the first one is the name. -/
theorem getlistRest_first {p : Bytes} {targ0 targ1 : Arg} {users rest : List Line} {mesg : UInt8}
    {name : Printed} (h : getlistRest p targ0 targ1 = some users)
    (hfirst : users.filter Line.isUser = sayUser mesg name :: rest) :
    2 < ncmdGetnumargs p ∧ ∃ t, getarg p targ0 2 false = some t ∧ t.printed = some name := by
  unfold getlistRest at h
  dsimp only at h
  split at h
  · have hnone : [Line.say (text "no users logged in\n") []].filter Line.isUser = [] := by decide
    rw [← Option.some.inj h, hnone] at hfirst
    exact absurd hfirst.symm (List.cons_ne_nil _ _)
  · rw [getlistUsers] at h
    split at h
    · rename_i hlt
      simp only [Option.bind_eq_bind, Option.bind_eq_some_iff, Option.some.injEq] at h
      obtain ⟨t, ht, t1, -, m, -, name', hname, rows, -, rfl⟩ := h
      rw [List.filter_cons_of_pos (sayUser_isUser m name'), List.cons.injEq] at hfirst
      exact ⟨hlt, t, ht, by rw [hname, sayUser_name hfirst.1]⟩
    · rw [← Option.some.inj h] at hfirst
      simp at hfirst

/-- **A user in the list is never told**: the name is fetched without its NUL. -/
theorem not_tells_users {env : Env} {ul : List UserlistEnt} {peer : CString} {m : NetCmd}
    {l : UserlistEnt} {ls : List UserlistEnt} {p rest : Bytes} (hlisted : listed ul = l :: ls)
    (hargs : m.args = [env.version.chars, env.os.chars] ++ (listed ul).flatMap fun l =>
      [l.name.chars, if iswritabletty env l.tty then [1] else [0]])
    (hsplit : p ++ rest = m.encode) (hlen : p.length ≤ Loop.rlen) :
    ¬ TellsList env ul (getlist peer p) := by
  intro h
  obtain ⟨targ0, targ1, users, h0, h1, hversion, hos, hrest, hfilter⟩ := getlist_told h
  rw [hlisted, List.map_cons] at hfilter
  obtain ⟨hnum, t, ht, hname⟩ := getlistRest_first hrest hfilter
  -- all that is told is no longer than what was received
  have w0 := (within_null p).getarg h0
  have hlversion := w0.printed hversion
  have hlos := ((within_null p).getarg h1).printed hos
  have hlname := (w0.getarg ht).printed hname
  have hrlen : Loop.rlen = 1023 := rfl
  have hshort : ∀ x ∈ [env.version.chars, env.os.chars, l.name.chars], x.length < 2 ^ 31 := by
    intro x hx
    simp only [List.mem_cons, List.not_mem_nil, or_false] at hx
    rcases hx with rfl | rfl | rfl <;> omega
  obtain ⟨tail, htail⟩ : ∃ tail, m.encode = (be16 m.op.code.toNat ++ be16 m.args.length) ++
      (encodeArgs [env.version.chars, env.os.chars, l.name.chars] ++ tail) := by
    refine ⟨encodeArgs ((if iswritabletty env l.tty then [1] else [0]) ::
      ls.flatMap fun l => [l.name.chars, if iswritabletty env l.tty then [1] else [0]]), ?_⟩
    rw [NetCmd.encode, hargs, hlisted]
    simp [encodeArgs]
  rcases getarg_part (hsplit.trans htail) (by simp) hshort (k := 2) rfl hnum ht with hfreed | rfl
  · simp [Arg.printed, Arg.terminated, hfreed] at hname
  · simp [Arg.printed, Arg.blk, Arg.terminated, l.name.nulFree] at hname

/-- Without users, all there is to the list is told. -/
theorem tells_empty {env : Env} {ul : List UserlistEnt} {m : NetCmd} (peer : CString)
    (hlisted : listed ul = []) (hop : m.op = .list)
    (hargs : m.args = [env.version.chars, env.os.chars]) (hc : m.Short) :
    TellsList env ul (getlist peer m.encode) := by
  have hread := readCmd_encode hc []
  have hwhole := ncmdIscomplete_encode hc []
  rw [List.append_nil] at hread hwhole
  have hget : ncmdGet m.encode = .list := (congrArg (·.op) hread).trans hop
  have hnum : ncmdGetnumargs m.encode = 2 := by
    have hlen : ncmdGetnumargs m.encode = m.args.length := congrArg (·.numargs) hread
    rw [hlen, hargs]
    rfl
  have hpos := m.four_le_length
  have h0 := getarg_encode (t := .null) hc (k := 0) (by rw [hargs]; rfl) (by simp [Arg.null])
  have h1 := getarg_encode (t := .null) hc (k := 1) (by rw [hargs]; rfl) (by simp [Arg.null])
  have hgetlist : getlist peer m.encode = some [.say (text "server v%s running on %s at %s\n")
      [.str env.version, .str env.os, .str peer], .say (text "mesg user\n") [],
      .say (text "no users logged in\n") []] := by
    rw [getlist, hwhole]
    simp only [Option.bind_eq_bind, Option.bind_some,
      if_neg (show ¬ ((m.encode.length : Nat) : Int) = 0 by omega), hget]
    simp [getlistList, h0, h1, getlistRest, hnum]
  refine ⟨peer, _, hgetlist, rfl, ?_⟩
  rw [hlisted]
  rfl

theorem getlist_partly {peer : CString} {rbuf : Bytes} (h : ncmdIscomplete rbuf = some 0) :
    getlist peer rbuf = some [.say (text "got %i bytes\n") [.int rbuf.length]] := by
  rw [getlist, h]
  rfl

theorem not_tells_part {env : Env} {ul : List UserlistEnt} {peer : CString} {p : Bytes}
    (h : ncmdIscomplete p = some 0) : ¬ TellsList env ul (getlist peer p) := by
  intro htold
  obtain ⟨peer', out, hout, hhead, -⟩ := htold
  rw [getlist_partly h, Option.some.injEq] at hout
  rw [← hout] at hhead
  simp only [List.head?_cons, Option.some.injEq, Line.say.injEq] at hhead
  exact absurd hhead.1 (by decide)

/-- What has been told came in one receive, so a list without users is a short command. -/
theorem short_of_told {env : Env} {ul : List UserlistEnt} {peer : CString} {m : NetCmd} {p : Bytes}
    (hargs : m.args = [env.version.chars, env.os.chars]) (hlen : p.length ≤ Loop.rlen)
    (h : TellsList env ul (getlist peer p)) : m.Short := by
  obtain ⟨targ0, targ1, -, h0, h1, hversion, hos, -⟩ := getlist_told h
  have hlversion := ((within_null p).getarg h0).printed hversion
  have hlos := ((within_null p).getarg h1).printed hos
  have hrlen : Loop.rlen = 1023 := rfl
  refine ⟨by rw [hargs]; simp, ?_⟩
  rw [m.length_encode, hargs, encodeArgs_cons, encodeArgs_cons, encodeArgs_nil]
  simp only [List.length_append, length_be32, List.length_nil]
  omega

/--
**The list that the server sends is told right by `getlist` only if nobody is in it**,
and only if the first receive gets all of it.
-/
theorem tells_list_iff {x : Call} {ul : List UserlistEnt}
    (hul : getUserlist x.env.userlist none = some ul) : ∃ m : NetCmd,
      handleGetlist x = x.done x.udata [x.reply m] ∧ ∀ (peer : CString) (chunks : List Bytes),
        chunks.flatten = m.encode → (∀ c ∈ chunks, 0 < c.length ∧ c.length ≤ Loop.rlen) →
        (TellsList x.env ul (getlist peer (chunks.headD [])) ↔
          listed ul = [] ∧ chunks = [m.encode]) := by
  obtain ⟨m, hreply, hop, hargs⟩ := getlist_reply hul
  refine ⟨m, hreply, fun peer chunks hflat hsizes => ?_⟩
  have hrlen : Loop.rlen = 1023 := rfl
  cases chunks with
  | nil =>
      have := m.four_le_length
      rw [← hflat] at this
      simp at this
  | cons c cs =>
      obtain ⟨-, hle⟩ := hsizes c List.mem_cons_self
      rw [List.flatten_cons] at hflat
      rw [List.headD_cons]
      constructor
      · intro h
        cases hlisted : listed ul with
        | cons l ls => exact absurd h (not_tells_users hlisted hargs hflat hle)
        | nil =>
            rw [hlisted] at hargs
            have hshort : m.Short := short_of_told hargs hle h
            have hall : c = m.encode := by
              by_contra hne
              exact not_tells_part (ncmdIscomplete_part hshort ⟨_, hflat⟩ hne) h
            have hcs : cs = [] := by
              cases cs with
              | nil => rfl
              | cons d ds =>
                  have hd := (hsizes d (by simp)).1
                  rw [hall, List.append_right_eq_self] at hflat
                  rw [(List.append_eq_nil_iff.mp hflat).1] at hd
                  exact absurd hd (lt_irrefl 0)
            rw [hall, hcs]
            exact ⟨rfl, rfl⟩
      · intro h
        obtain ⟨hlisted, hchunks⟩ := h
        obtain ⟨rfl, -⟩ := List.cons.inj hchunks
        rw [hlisted] at hargs
        have hargs' : m.args = [x.env.version.chars, x.env.os.chars] := by simpa using hargs
        refine tells_empty peer hlisted hop hargs' ⟨by rw [hargs']; simp, by omega⟩

theorem done_reply_inj {x : Call} {u : Udata} {m m' : NetCmd}
    (h : x.done u [x.reply m] = x.done u [x.reply m']) : m = m' := by
  rw [Call.done, Call.done, Outcome.mk.injEq, List.cons.injEq, Call.reply, Call.reply,
    Effect.send.injEq] at h
  exact h.2.2.1.1.2

/-- Nobody is logged in.  In one piece the list is told, and in two it is not. -/
theorem tells_list_nobody : ∃ (env : Env) (m : NetCmd), env.os.chars = text "Linux" ∧
    handleGetlist ((Server.initial 3).call 0 (.set .getlist) env)
      = ((Server.initial 3).call 0 (.set .getlist) env).done (Server.initial 3).udata
        [((Server.initial 3).call 0 (.set .getlist) env).reply m] ∧
      TellsList env [⟨.empty, .empty, 0, 0⟩] (getlist .empty m.encode) ∧
      ¬ TellsList env [⟨.empty, .empty, 0, 0⟩] (getlist .empty (m.encode.take 10)) := by
  let env : Env := { Env.bare with
    version := ⟨text "1.0", by decide⟩
    os := ⟨text "Linux", by decide⟩
    userlist := ⟨[⟨false, text "LOGIN", text "tty1", 0⟩], fun _ => true⟩ }
  have hul : getUserlist ((Server.initial 3).call 0 (.set .getlist) env).env.userlist none
      = some [⟨.empty, .empty, 0, 0⟩] := rfl
  obtain ⟨m, hm, htells⟩ := tells_list_iff hul
  have heq : m = ⟨.list, [text "1.0", text "Linux"]⟩ := done_reply_inj (hm.symm.trans rfl)
  refine ⟨env, m, rfl, hm, (htells .empty [m.encode] (by simp) ?_).mpr ⟨rfl, rfl⟩, fun htwo => ?_⟩
  · rw [heq]
    decide
  · -- what is there of it in the first receive is not all of it
    have hpieces := htells .empty [m.encode.take 10, m.encode.drop 10]
      (by simp) (by rw [heq]; decide)
    have hlen : 2 = 1 := congrArg List.length (hpieces.mp htwo).2
    omega

/-- One user is logged in. -/
theorem not_tells_joe : ¬ ∀ (x : Call) (ul : List UserlistEnt),
    getUserlist x.env.userlist none = some ul → ∃ m : NetCmd,
      handleGetlist x = x.done x.udata [x.reply m] ∧ ∀ (peer : CString) (chunks : List Bytes),
        chunks.flatten = m.encode → (∀ c ∈ chunks, 0 < c.length ∧ c.length ≤ Loop.rlen) →
        TellsList x.env ul (getlist peer (chunks.headD [])) := by
  intro h
  let env : Env := { Env.bare with userlist := ⟨[⟨true, text "joe", [], 0⟩], fun _ => true⟩ }
  let x := (Server.initial 3).call 0 (.set .getlist) env
  let joe : UserlistEnt := ⟨⟨text "joe", by decide⟩, ⟨text "/dev/", by decide⟩, 1, 0⟩
  have hul : getUserlist x.env.userlist none = some [joe, ⟨.empty, .empty, 0, 0⟩] := by
    rfl
  obtain ⟨m, hm, htells⟩ := h x _ hul
  obtain ⟨m', hm', -, hargs⟩ := getlist_reply hul
  obtain rfl := done_reply_inj (hm.symm.trans hm')
  have hlen : m.encode.length ≤ Loop.rlen := by
    rw [m.length_encode, hargs]
    decide
  refine not_tells_users (p := m.encode) rfl hargs (List.append_nil _) hlen
    (htells .empty [m.encode] (by simp) ?_)
  intro c hc
  rw [List.mem_singleton.mp hc]
  exact ⟨by have := m.four_le_length; omega, hlen⟩

end Smsg
