/-
The client's receive loop returns what was built.

A command shorter than 2^31 bytes has no length field with its top bit set, so
`ncmd_iscomplete` recognises it whatever follows it, and waits while its end is
missing.  That makes the framing of short commands a `Framing.Code`, and the loop
of `chatter_func` is the draining loop over it.

What is built by `ncmd_set` and `ncmd_add` is the encoding of the command, and
what `ncmd_getarg` fetches from an encoding is the argument.  With these the
general result on draining says that the client sees the commands the peer built,
whatever the chunks are (`receiveAll_build`).
-/
import Smsg.Lib.Framing
import Smsg.Proofs.NetCmd

namespace Smsg

open Framing

/-! ### Short commands -/

namespace NetCmd

/-- The count fits its field and the command is shorter than 2^31 bytes. -/
structure Short (c : NetCmd) : Prop where
  count : c.args.length < 2 ^ 16
  size : c.encode.length < 2 ^ 31

end NetCmd

/-- The bytes of a short command. -/
def ShortCmd (w : Bytes) : Prop := ∃ c : NetCmd, c.Short ∧ c.encode = w

theorem length_le_encodeArgs {args : List Bytes} {a : Bytes} (h : a ∈ args) :
    a.length ≤ (encodeArgs args).length := by
  induction args with
  | nil => simp at h
  | cons b args ih =>
      rw [encodeArgs_cons, List.length_append, List.length_append]
      rcases List.mem_cons.mp h with rfl | h
      · omega
      · have := ih h
        omega

theorem NetCmd.Short.arg_lt {c : NetCmd} (h : c.Short) {a : Bytes} (ha : a ∈ c.args) :
    a.length < 2 ^ 31 := by
  have hle := length_le_encodeArgs ha
  have hsize := h.size
  rw [c.length_encode] at hsize
  omega

theorem NetCmd.Short.fits {c : NetCmd} (h : c.Short) : c.Fits :=
  ⟨h.count, fun _ ha => Nat.lt_trans (h.arg_lt ha) (by norm_num)⟩

theorem ShortCmd.isNetCmd {w : Bytes} (h : ShortCmd w) : IsNetCmd w := by
  obtain ⟨c, hc, rfl⟩ := h
  exact ⟨c, hc.fits, rfl⟩

/-! ### The walk over short arguments -/

theorem readNl_be32 {n : Nat} (hn : n < 2 ^ 31) (rest : Bytes) :
    (readNl (be32 n ++ rest)).toNat = n := by
  have htake : (be32 n ++ rest).take 4 = be32 n := List.take_left' (length_be32 n)
  have hval : beNat ((be32 n ++ rest).take 4) = n := by
    rw [htake, beNat_be32 (Nat.lt_trans hn (by norm_num))]
  rw [toNat_readNl (by simp) (by rw [hval]; exact hn), hval]

theorem toInt_readNl_be32 {n : Nat} (hn : n < 2 ^ 31) (rest : Bytes) :
    (readNl (be32 n ++ rest)).toInt = n := by
  rw [BitVec.toInt_eq_toNat_of_lt (by rw [readNl_be32 hn]; omega), readNl_be32 hn]

/-- Short arguments are walked over to their end. -/
theorem scan_encodeArgs (args : List Bytes) :
    ∀ (pre rest : Bytes), (∀ a ∈ args, a.length < 2 ^ 31) →
      scan (pre ++ (encodeArgs args ++ rest)) args.length pre.length
        = some (toCInt ((pre.length + (encodeArgs args).length : Nat) : Int)) := by
  induction args with
  | nil =>
      intro pre rest _
      simp [scan]
  | cons a args ih =>
      intro pre rest h
      have ha : a.length < 2 ^ 31 := h a List.mem_cons_self
      have hstep := ih (pre ++ (be32 a.length ++ a)) rest fun x hx => h x (List.mem_cons_of_mem _ hx)
      have hmem : pre ++ (encodeArgs (a :: args) ++ rest)
          = pre ++ (be32 a.length ++ (a ++ (encodeArgs args ++ rest))) := by
        simp
      have hlen : (pre ++ (encodeArgs (a :: args) ++ rest)).length
          = pre.length + (4 + (a.length + ((encodeArgs args).length + rest.length))) := by
        simp
      have hl : (readNl ((pre ++ (encodeArgs (a :: args) ++ rest)).drop pre.length)).toInt
          = a.length := by
        rw [hmem, List.drop_left, toInt_readNl_be32 ha]
      rw [List.length_cons, scan, if_neg (by omega), if_neg (by rw [hlen]; omega)]
      simp only [Int.toNat_natCast, hl]
      rw [if_neg (by rw [hlen]; omega)]
      have hpos : (pre.length : Int) + ((a.length : Int) + 4)
          = ((pre ++ (be32 a.length ++ a)).length : Nat) := by
        simp
        omega
      have hmem' : pre ++ (encodeArgs (a :: args) ++ rest)
          = pre ++ (be32 a.length ++ a) ++ (encodeArgs args ++ rest) := by
        simp
      rw [hpos, hmem', hstep]
      congr 3
      simp
      omega

/-- Short arguments that are not all there are waited for. -/
theorem scan_part (args : List Bytes) :
    ∀ (pre p : Bytes), (∀ a ∈ args, a.length < 2 ^ 31) → p <+: encodeArgs args →
      p ≠ encodeArgs args → scan (pre ++ p) args.length pre.length = some 0 := by
  induction args with
  | nil =>
      intro pre p _ hp hne
      exact absurd (List.prefix_nil.mp hp) hne
  | cons a args ih =>
      intro pre p h hp hne
      have ha : a.length < 2 ^ 31 := h a List.mem_cons_self
      rw [encodeArgs_cons] at hp hne
      rw [List.length_cons, scan, if_neg (by omega)]
      have hlen : (pre ++ p).length = pre.length + p.length := List.length_append
      by_cases h4 : p.length < 4
      · rw [if_pos (by rw [hlen]; omega)]
      · rw [if_neg (by rw [hlen]; omega)]
        -- the length field is there
        obtain ⟨p₁, rfl⟩ : be32 a.length <+: p :=
          List.prefix_of_prefix_length_le (List.prefix_append _ _) hp (by rw [length_be32]; omega)
        have hp₁ : p₁ <+: a ++ encodeArgs args := (List.prefix_append_right_inj _).mp hp
        have hne₁ : p₁ ≠ a ++ encodeArgs args := fun hc => hne (by rw [hc])
        simp only [Int.toNat_natCast, List.drop_left, toInt_readNl_be32 ha]
        simp only [List.length_append, length_be32] at hlen
        rw [List.length_append, List.length_append, length_be32]
        by_cases hfit : p₁.length < a.length
        · rw [if_pos (by omega)]
        · rw [if_neg (by omega)]
          -- and so is the argument
          obtain ⟨p₂, rfl⟩ : a <+: p₁ :=
            List.prefix_of_prefix_length_le (List.prefix_append _ _) hp₁ (by omega)
          have hp₂ : p₂ <+: encodeArgs args := (List.prefix_append_right_inj _).mp hp₁
          have hne₂ : p₂ ≠ encodeArgs args := fun hc => hne₁ (by rw [hc])
          have hpos : (pre.length : Int) + ((a.length : Int) + 4)
              = ((pre ++ (be32 a.length ++ a)).length : Nat) := by
            simp
            omega
          have hmem : pre ++ (be32 a.length ++ (a ++ p₂)) = pre ++ (be32 a.length ++ a) ++ p₂ := by
            simp
          rw [hpos, hmem]
          exact ih _ p₂ (fun x hx => h x (List.mem_cons_of_mem _ hx)) hp₂ hne₂

/-- The count field of an encoding, which has 16 bits. -/
theorem readNs_count_mod {b : Bytes} {n : Nat} (hb : (b.drop 2).take 2 = be16 n) :
    (readNs (b.drop 2)).toNat = n % 2 ^ 16 := by
  have hlen : 2 ≤ (b.drop 2).length := by
    have := congrArg List.length hb
    rw [List.length_take, length_be16] at this
    omega
  rw [toNat_readNs _ hlen, hb, ← be16_mod n, beNat_be16 (Nat.mod_lt _ (by norm_num))]

theorem readNs_count {b : Bytes} {n : Nat} (hn : n < 2 ^ 16)
    (hb : (b.drop 2).take 2 = be16 n) : (readNs (b.drop 2)).toNat = n := by
  rw [readNs_count_mod hb, Nat.mod_eq_of_lt hn]

/-- A short command is recognised whatever follows it. -/
theorem ncmdIscomplete_encode {c : NetCmd} (hc : c.Short) (rest : Bytes) :
    ncmdIscomplete (c.encode ++ rest) = some (c.encode.length : Int) := by
  obtain ⟨-, hcount, -⟩ := take_four_encode c rest
  have hfour := c.four_le_length
  have hsplit : c.encode ++ rest
      = (be16 c.op.code.toNat ++ be16 c.args.length) ++ (encodeArgs c.args ++ rest) := by
    simp [NetCmd.encode]
  rw [ncmdIscomplete, if_neg (by rw [List.length_append]; omega), readNs_count hc.count hcount,
    hsplit]
  have hscan := scan_encodeArgs c.args (be16 c.op.code.toNat ++ be16 c.args.length) rest
    fun a ha => hc.arg_lt ha
  rw [List.length_append, length_be16, length_be16] at hscan
  refine hscan.trans ?_
  have hsize := hc.size
  rw [c.length_encode] at hsize ⊢
  rw [toCInt_small (by omega)]

/-- A short command whose end is missing is waited for. -/
theorem ncmdIscomplete_part {c : NetCmd} (hc : c.Short) {p : Bytes} (hp : p <+: c.encode)
    (hne : p ≠ c.encode) : ncmdIscomplete p = some 0 := by
  rw [ncmdIscomplete]
  split
  · rfl
  · rename_i h4
    have hhead : be16 c.op.code.toNat ++ be16 c.args.length <+: p := by
      refine List.prefix_of_prefix_length_le ⟨encodeArgs c.args, ?_⟩ hp (by simp; omega)
      simp [NetCmd.encode]
    obtain ⟨p', rfl⟩ := hhead
    have hsplit : c.encode = (be16 c.op.code.toNat ++ be16 c.args.length) ++ encodeArgs c.args := by
      simp [NetCmd.encode]
    rw [hsplit] at hp hne
    have hp' : p' <+: encodeArgs c.args := (List.prefix_append_right_inj _).mp hp
    have hne' : p' ≠ encodeArgs c.args := fun hc => hne (by rw [hc])
    have hcount : ((be16 c.op.code.toNat ++ be16 c.args.length ++ p').drop 2).take 2
        = be16 c.args.length := by
      rw [List.append_assoc, List.drop_left' (length_be16 _), List.take_left' (length_be16 _)]
    rw [readNs_count hc.count hcount]
    exact scan_part c.args _ p' (fun a ha => hc.arg_lt ha) hp' hne'

/-- What `ncmd_iscomplete` returns fits an `int`. -/
theorem scan_lt (mem : Bytes) : ∀ (n : Nat) (i : Int) {k : Int}, scan mem n i = some k → k < 2 ^ 31 := by
  intro n
  induction n with
  | zero =>
      intro i k h
      simp only [scan, Option.ite_none_left_eq_some, Option.some.injEq] at h
      rw [← h.2, toCInt]
      exact BitVec.toInt_lt
  | succ n ih =>
      intro i k h
      rw [scan] at h
      split at h
      · simp at h
      · split at h
        · obtain rfl : 0 = k := by simpa using h
          norm_num
        · dsimp only at h
          split at h
          · obtain rfl : 0 = k := by simpa using h
            norm_num
          · exact ih _ h

theorem ncmdIscomplete_lt {mem : Bytes} {k : Int} (h : ncmdIscomplete mem = some k) :
    k < 2 ^ 31 := by
  rw [ncmdIscomplete] at h
  split at h
  · obtain rfl : 0 = k := by simpa using h
    norm_num
  · exact scan_lt mem _ _ h

theorem toCInt_self {i : Int} (hlow : -2 ^ 31 ≤ i) (hhigh : i < 2 ^ 31) : toCInt i = i := by
  rw [toCInt, BitVec.toInt_ofInt, Int.bmod_def]
  split <;> omega

theorem toCInt_le {i : Int} (hi : 0 ≤ i) : toCInt i ≤ i := by
  rw [toCInt, BitVec.toInt_ofInt, Int.bmod_def]
  split <;> omega

/-- What `ncmd_iscomplete` returns is no more than there are bytes. -/
theorem scan_le (mem : Bytes) : ∀ (n : Nat) (i : Int) {k : Int}, i ≤ mem.length →
    scan mem n i = some k → k ≤ mem.length := by
  intro n
  induction n with
  | zero =>
      intro i k hi h
      simp only [scan, Option.ite_none_left_eq_some, Option.some.injEq] at h
      rw [← h.2]
      exact le_trans (toCInt_le (by omega)) hi
  | succ n ih =>
      intro i k hi h
      rw [scan] at h
      split at h
      · simp at h
      · split at h
        · obtain rfl : 0 = k := by simpa using h
          omega
        · dsimp only at h
          split at h
          · obtain rfl : 0 = k := by simpa using h
            omega
          · exact ih _ (by omega) h

theorem ncmdIscomplete_le {mem : Bytes} {k : Int} (h : ncmdIscomplete mem = some k) :
    k ≤ mem.length := by
  rw [ncmdIscomplete] at h
  split at h
  · obtain rfl : 0 = k := by simpa using h
    omega
  · exact scan_le mem _ _ (by omega) h

/-- `ncmd_iscomplete` as a framing. -/
def frame (buf : Bytes) : Option Nat :=
  (ncmdIscomplete buf).bind fun k => if k < 0 then none else some k.toNat

/-- **Short commands are a code for `ncmd_iscomplete`.** -/
theorem frame_code : Code frame ShortCmd where
  whole := by
    intro w hw rest
    obtain ⟨c, hc, rfl⟩ := hw
    rw [frame, ncmdIscomplete_encode hc, Option.bind_some, if_neg (by omega), Int.toNat_natCast]
  part := by
    intro w p hw hp hne
    obtain ⟨c, hc, rfl⟩ := hw
    rw [frame, ncmdIscomplete_part hc hp hne]
    rfl
  empty := rfl
  nonempty := by
    intro w hw h
    obtain ⟨c, -, rfl⟩ := hw
    have := c.four_le_length
    rw [h] at this
    simp at this

/-! ### Reading a command -/

/-- What the reading functions say about a command. -/
def NetCmd.read (c : NetCmd) : Read :=
  ⟨c.get, c.getnumargs, fun k => c.getarg .null k true⟩

/-- What `ncmd_getarg` does: there is no such argument, or it lies in the buffer. -/
theorem ncmdGetarg_cases {buf : Bytes} {t t' : Arg} {k : Nat} {zero : Bool} {r : Int}
    (h : ncmdGetarg buf t k zero = some (r, t')) :
    (ncmdGetnumargs buf ≤ k ∧ r = -1 ∧ t' = t) ∨ ∃ i, skipArgs buf k 4 = some i ∧
      i + 4 + (readNl (buf.drop i)).toNat ≤ buf.length ∧
      ((r = -1 ∧ t'.ap = .freed) ∨ (r = 0 ∧
        t' = .blk ((buf.drop (i + 4)).take (readNl (buf.drop i)).toNat ++
          if zero then [0] else []))) := by
  rw [ncmdGetarg] at h
  by_cases hnum : ncmdGetnumargs buf ≤ k
  · rw [if_pos hnum, Option.some.injEq, Prod.mk.injEq] at h
    exact Or.inl ⟨hnum, h.1.symm, h.2.symm⟩
  · simp only [if_neg hnum, Option.bind_eq_bind, Option.bind_eq_some_iff] at h
    obtain ⟨i, hskip, h⟩ := h
    split at h
    · simp at h
    · rename_i hroom
      refine Or.inr ⟨i, hskip, by omega, ?_⟩
      cases hap : t.ap with
      | null =>
          simp only [hap, Option.some.injEq, Prod.mk.injEq] at h
          exact Or.inr ⟨h.1.symm, h.2.symm⟩
      | blk b =>
          simp only [hap] at h
          by_cases hempty : (buf.drop (i + 4)).take (readNl (buf.drop i)).toNat ++
              (if zero then [0] else []) = []
          · rw [if_pos hempty, Option.some.injEq, Prod.mk.injEq] at h
            exact Or.inl ⟨h.1.symm, by rw [← h.2]⟩
          · rw [if_neg hempty, Option.some.injEq, Prod.mk.injEq] at h
            exact Or.inr ⟨h.1.symm, h.2.symm⟩
      | freed => simp [hap] at h

/-- The walk to an argument reads the lengths of those in front of it. -/
theorem skipArgs_encodeArgs (args : List Bytes) :
    ∀ (k : Nat) (pre rest a : Bytes), (∀ x ∈ args.take k, x.length < 2 ^ 31) → args[k]? = some a →
      ∃ i, skipArgs (pre ++ (encodeArgs args ++ rest)) k pre.length = some i ∧
        ∃ tail, (pre ++ (encodeArgs args ++ rest)).drop i = be32 a.length ++ (a ++ tail) := by
  induction args with
  | nil => intro k pre rest a _ h; simp at h
  | cons b args ih =>
      intro k pre rest a hlen h
      have hroom : pre.length + 4 ≤ (pre ++ (encodeArgs (b :: args) ++ rest)).length := by
        simp
      have hhere : (pre ++ (encodeArgs (b :: args) ++ rest)).drop pre.length
          = be32 b.length ++ (b ++ (encodeArgs args ++ rest)) := by
        rw [List.drop_left]
        simp
      cases k with
      | zero =>
          obtain rfl : b = a := by simpa using h
          exact ⟨pre.length, by rw [skipArgs, if_pos hroom], _, hhere⟩
      | succ k =>
          rw [List.take_succ_cons, List.forall_mem_cons] at hlen
          obtain ⟨hb, hlen⟩ := hlen
          obtain ⟨i, hi, hdrop⟩ := ih k (pre ++ (be32 b.length ++ b)) rest a hlen (by simpa using h)
          have hmem : pre ++ (encodeArgs (b :: args) ++ rest)
              = pre ++ (be32 b.length ++ b) ++ (encodeArgs args ++ rest) := by
            simp
          have hnext : pre.length + (b.length + 4) = (pre ++ (be32 b.length ++ b)).length := by
            simp
            omega
          refine ⟨i, ?_, ?_⟩
          · rw [skipArgs, if_pos hroom, hhere, readNl_be32 hb, hnext, hmem]
            exact hi
          · rw [hmem]
            exact hdrop

/--
**Reading the command at the front of a buffer is reading the command**, as long as its
count and the lengths of its arguments fit.
-/
theorem readCmd_encode_of {c : NetCmd} (hcount : c.args.length < 2 ^ 16)
    (hshort : ∀ a ∈ c.args, a.length < 2 ^ 31) (rest : Bytes) :
    readCmd (c.encode ++ rest) = c.read := by
  obtain ⟨hop, hfield, -⟩ := take_four_encode c rest
  have hnum : ncmdGetnumargs (c.encode ++ rest) = c.args.length := readNs_count hcount hfield
  have hget : ncmdGet (c.encode ++ rest) = c.op := by
    have hlen : 2 ≤ (c.encode ++ rest).length := by
      have := c.four_le_length
      rw [List.length_append]
      omega
    have hcode : readNs (c.encode ++ rest) = c.op.code := by
      apply BitVec.eq_of_toNat_eq
      rw [toNat_readNs _ hlen, hop, beNat_be16 c.op.code.isLt]
    rw [ncmdGet, hcode, NCMDOp.ofCode_code]
  have hargs : ∀ k, ncmdGetarg (c.encode ++ rest) .null k true = c.getarg .null k true := by
    intro k
    rw [ncmdGetarg, hnum]
    by_cases hk : c.args.length ≤ k
    · rw [if_pos hk, NetCmd.getarg_none (List.getElem?_eq_none hk)]
    · rw [if_neg hk]
      obtain ⟨a, ha⟩ : ∃ a, c.args[k]? = some a := ⟨_, List.getElem?_eq_getElem (by omega)⟩
      have hlen := hshort a (List.mem_of_getElem? ha)
      obtain ⟨i, hi, tail, hdrop⟩ := skipArgs_encodeArgs c.args k
        (be16 c.op.code.toNat ++ be16 c.args.length) rest a
        (fun x hx => hshort x (List.mem_of_mem_take hx)) ha
      have hsplit : (be16 c.op.code.toNat ++ be16 c.args.length) ++ (encodeArgs c.args ++ rest)
          = c.encode ++ rest := by
        simp [NetCmd.encode]
      rw [hsplit] at hi hdrop
      rw [List.length_append, length_be16, length_be16] at hi
      have hroom : ¬ (c.encode ++ rest).length < i + 4 + a.length := by
        have := congrArg List.length hdrop
        simp only [List.length_drop, List.length_append, length_be32] at this
        rw [List.length_append]
        omega
      have harg : ((c.encode ++ rest).drop (i + 4)).take a.length = a := by
        rw [← List.drop_drop, hdrop, List.drop_left' (length_be32 _), List.take_left]
      rw [hi, Option.bind_eq_bind, Option.bind_some, hdrop, readNl_be32 hlen]
      simp only [if_neg hroom, harg]
      rw [NetCmd.getarg, ha]
      rfl
  rw [readCmd, hget, hnum, funext hargs]
  rfl

theorem readCmd_encode {c : NetCmd} (hc : c.Short) (rest : Bytes) :
    readCmd (c.encode ++ rest) = c.read :=
  readCmd_encode_of hc.count (fun _ ha => hc.arg_lt ha) rest

/-! ### Building a command -/

/-- The buffer after `ncmd_set` and one `ncmd_add` for each argument. -/
def build (ncmd : NCMDOp) (args : List (Option Bytes)) : Bytes := args.foldl ncmdAdd (ncmdSet ncmd)

theorem storeNl_length (n : Nat) : storeNl (BitVec.ofNat 64 n) = be32 n := by
  rw [storeNl_eq, BitVec.toNat_ofNat]
  have hbyte : ∀ k, k ≤ 24 → UInt8.ofNat (n % 2 ^ 64 / 2 ^ k) = UInt8.ofNat (n / 2 ^ k) := by
    intro k hk
    apply UInt8.toNat_inj.mp
    rw [UInt8.toNat_ofNat', UInt8.toNat_ofNat', show 2 ^ 64 = 2 ^ k * 2 ^ (64 - k) by
      rw [← Nat.pow_add]; congr 1; omega, Nat.mod_mul_right_div_self]
    exact Nat.mod_mod_of_dvd _ (Nat.pow_dvd_pow 2 (by omega))
  have h0 := hbyte 0 (by omega)
  rw [Nat.pow_zero, Nat.div_one, Nat.div_one] at h0
  simp only [be32, hbyte 24 (by omega), hbyte 16 (by omega), hbyte 8 (by omega), h0]

theorem ncmdSet_eq (ncmd : NCMDOp) : ncmdSet ncmd = (NetCmd.set ncmd).encode := by
  rw [ncmdSet, storeNs_eq, storeNs_eq]
  rfl

theorem bumpCount_encode (c : NetCmd) (s : Bytes) :
    bumpCount (c.encode ++ (be32 s.length ++ s)) = (c.add s).encode := by
  obtain ⟨hop, hcount, hargs⟩ := take_four_encode c (be32 s.length ++ s)
  have hsucc : (readNs ((c.encode ++ (be32 s.length ++ s)).drop 2) + 1).toNat
      = (c.args.length + 1) % 2 ^ 16 := by
    rw [BitVec.toNat_add, readNs_count_mod hcount, show (1 : BitVec 16).toNat = 1 from rfl]
    omega
  rw [bumpCount, hop, storeNs_eq, hsucc, be16_mod, hargs]
  simp [NetCmd.encode, encodeArgs]

/-- The count may have wrapped: what is there is still the encoding. -/
theorem ncmdAdd_encode (c : NetCmd) (s : Option Bytes) :
    ncmdAdd c.encode s = (c.add (s.getD [])).encode := by
  cases s with
  | none =>
      have h0 : storeNl 0 = be32 ([] : Bytes).length ++ [] := storeNl_length 0
      rw [ncmdAdd, h0]
      exact bumpCount_encode c []
  | some s =>
      rw [ncmdAdd, storeNl_length]
      exact bumpCount_encode c s

theorem foldl_ncmdAdd (args : List (Option Bytes)) :
    ∀ c : NetCmd, args.foldl ncmdAdd c.encode
      = (⟨c.op, c.args ++ args.map (·.getD [])⟩ : NetCmd).encode := by
  induction args with
  | nil => intro c; simp
  | cons s args ih =>
      intro c
      rw [List.foldl_cons, ncmdAdd_encode, ih]
      simp

/-- **What is built is the encoding**, for any number of arguments. -/
theorem build_eq (ncmd : NCMDOp) (args : List (Option Bytes)) :
    build ncmd args = (⟨ncmd, args.map (·.getD [])⟩ : NetCmd).encode := by
  rw [build, ncmdSet_eq, foldl_ncmdAdd]
  rfl

/-- What the reader is to see of a command: the arguments that were added, each with a NUL. -/
def sent (ncmd : NCMDOp) (args : List (Option Bytes)) : Read :=
  ⟨ncmd, args.length, fun k =>
    match args[k]? with
    | none => some (-1, .null)
    | some s => some (0, .blk (s.getD [] ++ [0]))⟩

theorem read_sent (ncmd : NCMDOp) (args : List (Option Bytes)) :
    NetCmd.read ⟨ncmd, args.map (·.getD [])⟩ = sent ncmd args := by
  have harg : ∀ k, NetCmd.getarg ⟨ncmd, args.map (·.getD [])⟩ .null k true
      = (sent ncmd args).arg k := by
    intro k
    simp only [NetCmd.getarg, List.getElem?_map, sent]
    cases args[k]? <;> rfl
  rw [NetCmd.read, funext harg, sent]
  simp [NetCmd.get, NetCmd.getnumargs]

/-! ### The receive loop -/

theorem drainLoop_eq (fuel : Nat) : ∀ buf, drainLoop fuel buf = drain frame readCmd fuel buf := by
  induction fuel with
  | zero => intro buf; rfl
  | succ fuel ih =>
      intro buf
      rw [drainLoop, drain, frame, ncmdRemove]
      cases ncmdIscomplete buf with
      | none => rfl
      | some k =>
          simp only [Option.bind_eq_bind, Option.bind_some, removeFront]
          by_cases hneg : k < 0
          · simp [hneg, show k ≠ 0 by omega]
          · obtain ⟨n, rfl⟩ := Int.eq_ofNat_of_zero_le (Int.not_lt.mp hneg)
            cases n with
            | zero => simp
            | succ n =>
                have hneg' : ¬ ((n + 1 : Nat) : Int) < 0 := by omega
                simp only [if_neg (show ((n + 1 : Nat) : Int) ≠ 0 by omega), if_neg hneg',
                  Option.bind_some, Int.toNat_natCast, ih]
                cases drain frame readCmd fuel (buf.drop (n + 1)) <;> rfl

theorem receiveAll_eq (chunks : List Bytes) :
    ∀ buf, receiveAll chunks buf
      = feed (fun b => drain frame readCmd (b.length + 1) b) chunks buf := by
  induction chunks with
  | nil => intro buf; rfl
  | cons c chunks ih =>
      intro buf
      rw [receiveAll, feed, receive, recvbuf, drainLoop_eq]
      cases drain frame readCmd ((buf ++ c).length + 1) (buf ++ c) with
      | none => rfl
      | some r =>
          simp only [Option.bind_eq_bind, Option.bind_some, ih]
          cases feed (fun b => drain frame readCmd (b.length + 1) b) chunks r.2 <;> rfl

/-- After any chunks that start the stream, the commands read are the completed ones. -/
theorem receiveAll_encode (cmds : List NetCmd) (hcmds : ∀ c ∈ cmds, c.Short) (chunks : List Bytes)
    (h : chunks.flatten <+: (cmds.map NetCmd.encode).flatten) :
    ∃ buf, receiveAll chunks [] = some ((cmds.take (completed (cmds.map NetCmd.encode)
        chunks.flatten.length)).map NetCmd.read, buf) ∧
      chunks.flatten = ((cmds.map NetCmd.encode).take (completed (cmds.map NetCmd.encode)
        chunks.flatten.length)).flatten ++ buf := by
  have hws : ∀ w ∈ cmds.map NetCmd.encode, ShortCmd w := by
    intro w hw
    obtain ⟨c, hc, rfl⟩ := List.mem_map.mp hw
    exact ⟨c, hcmds c hc, rfl⟩
  have hview : ∀ w, ShortCmd w → ∀ rest, readCmd (w ++ rest) = readCmd w := by
    intro w hw rest
    obtain ⟨c, hc, rfl⟩ := hw
    have hself := readCmd_encode hc []
    rw [List.append_nil] at hself
    rw [readCmd_encode hc, hself]
  have hpend : Pending (cmds.map NetCmd.encode) [] := by
    cases cmds with
    | nil => rfl
    | cons c cmds =>
        exact ⟨List.nil_prefix, fun hc => frame_code.nonempty (hws _ List.mem_cons_self) hc.symm⟩
  obtain ⟨q, hfeed, -, hrest⟩ := feed_drain frame_code hview chunks _ [] hws hpend (by simpa using h)
  rw [List.nil_append] at hfeed hrest
  refine ⟨q, ?_, hrest⟩
  rw [receiveAll_eq, hfeed, ← List.map_take, List.map_map]
  congr 2
  refine List.map_congr_left fun c hc => ?_
  have hself := readCmd_encode (hcmds c (List.mem_of_mem_take hc)) []
  rw [List.append_nil] at hself
  exact hself

/-- All the commands of a stream are read in the end. -/
theorem receiveAll_whole {cmds : List NetCmd} (hcmds : ∀ c ∈ cmds, c.Short) {chunks : List Bytes}
    (h : chunks.flatten = (cmds.map NetCmd.encode).flatten) :
    receiveAll chunks [] = some (cmds.map NetCmd.read, []) := by
  obtain ⟨buf, hrecv, hrest⟩ := receiveAll_encode cmds hcmds chunks (by rw [h])
  have hall : completed (cmds.map NetCmd.encode) chunks.flatten.length = cmds.length := by
    have hdone := completed_take (cmds.map NetCmd.encode) cmds.length 0 (by simp)
    have htake : (cmds.map NetCmd.encode).take cmds.length = cmds.map NetCmd.encode :=
      List.take_of_length_le (by simp)
    rw [htake, Nat.add_zero, ← h] at hdone
    rw [hdone, List.drop_eq_nil_of_le (by simp)]
    rfl
  rw [hall, List.take_length] at hrecv
  rw [hall, List.take_of_length_le (by simp), h] at hrest
  rw [hrecv, List.self_eq_append_right.mp hrest]

/--
**The client reads what was built.**  Commands are built from an opcode and the
arguments passed to `ncmd_add`; however the bytes are cut into chunks, the loop
reads those commands, leaves an empty buffer, and after any of the chunks it has
read just the commands whose last byte has arrived.
-/
theorem receiveAll_build (cmds : List (NCMDOp × List (Option Bytes)))
    (hcount : ∀ c ∈ cmds, c.2.length ≤ 65535)
    (hsize : ∀ c ∈ cmds, (build c.1 c.2).length < 2 ^ 31) (chunks : List Bytes)
    (hchunks : chunks.flatten = (cmds.map fun c => build c.1 c.2).flatten) :
    receiveAll chunks [] = some (cmds.map fun c => sent c.1 c.2, []) ∧
      ∀ pre, pre <+: chunks → ∃ buf, receiveAll pre [] =
        some ((cmds.take (completed (cmds.map fun c => build c.1 c.2) pre.flatten.length)).map
          fun c => sent c.1 c.2, buf) := by
  have hbuild : cmds.map (fun c => build c.1 c.2)
      = (cmds.map fun c => (⟨c.1, c.2.map (·.getD [])⟩ : NetCmd)).map NetCmd.encode := by
    rw [List.map_map]
    exact List.map_congr_left fun c _ => build_eq c.1 c.2
  have hshort : ∀ c ∈ cmds.map fun c => (⟨c.1, c.2.map (·.getD [])⟩ : NetCmd), c.Short := by
    intro c hc
    obtain ⟨d, hd, rfl⟩ := List.mem_map.mp hc
    have hcnt := hcount d hd
    refine ⟨by simp; omega, ?_⟩
    rw [← build_eq d.1 d.2]
    exact hsize d hd
  have hread : ∀ n, ((cmds.map fun c => (⟨c.1, c.2.map (·.getD [])⟩ : NetCmd)).take n).map
      NetCmd.read = (cmds.take n).map fun c => sent c.1 c.2 := by
    intro n
    rw [← List.map_take, List.map_map]
    exact List.map_congr_left fun c _ => read_sent c.1 c.2
  refine ⟨?_, ?_⟩
  · have hwhole := receiveAll_whole hshort (by rw [hchunks, hbuild])
    have hall := hread cmds.length
    rw [List.take_of_length_le (by simp), List.take_length] at hall
    rw [hwhole, hall]
  · intro pre hpre
    obtain ⟨buf, hrecv, -⟩ := receiveAll_encode _ hshort pre (by
      rw [← hbuild, ← hchunks]
      obtain ⟨post, rfl⟩ := hpre
      rw [List.flatten_append]
      exact List.prefix_append _ _)
    rw [hread, ← hbuild] at hrecv
    exact ⟨buf, hrecv⟩

/-- A `C_SAY` with a `NULL` argument and a `C_WHO`, cut in the middle of the first one. -/
theorem receiveAll_build_two : receiveAll [[0, 29, 0, 1, 0], [0, 0, 0, 0, 31, 0, 0]] []
    = some ([sent .cSay [none], sent .cWho []], []) :=
  (receiveAll_build [(.cSay, [none]), (.cWho, [])] (by decide) (by decide)
    [[0, 29, 0, 1, 0], [0, 0, 0, 0, 31, 0, 0]] (by decide)).1

end Smsg
