/-
What was encoded is decoded, and nothing else.

The handlers are written over commands, and `decode` reads the command at the front of a
buffer, all its arguments with it.  Where the count and the lengths fit their fields as they
are read, that is the command whose bytes are there (`decode_encode`), and where no command is
there, none is read (`decode_eq_some_iff`).
-/
import Smsg.Runserver
import Smsg.Proofs.Drain

namespace Smsg

variable {c : NetCmd} {buf : Bytes}

/-- What is fetched with a zero behind it is there without one as well. -/
theorem ncmdGetarg_raw {a : Bytes} {k : Nat}
    (h : ncmdGetarg buf .null k true = some (0, .blk (a ++ [0]))) :
    ncmdGetarg buf .null k false = some (0, .blk a) := by
  rw [ncmdGetarg] at h ⊢
  by_cases hnum : ncmdGetnumargs buf ≤ k
  · rw [if_pos hnum] at h
    simp at h
  · simp only [if_neg hnum, Option.bind_eq_bind, Option.bind_eq_some_iff] at h ⊢
    obtain ⟨i, hskip, h⟩ := h
    refine ⟨i, hskip, ?_⟩
    split at h
    · simp at h
    · rename_i hroom
      rw [if_neg hroom]
      simp only [Arg.null, Arg.blk, if_true, Option.some.injEq, Prod.mk.injEq, true_and,
        Arg.mk.injEq, Ptr.blk.injEq] at h
      have ha := List.append_cancel_right h.1
      simp [Arg.null, Arg.blk, ha]

theorem mapM_range {α : Type} {f : Nat → Option α} {as : List α}
    (h : ∀ k a, as[k]? = some a → f k = some a) : (List.range as.length).mapM f = some as := by
  induction as generalizing f with
  | nil => rfl
  | cons a as ih =>
      have hrest : (List.range as.length).mapM (f ∘ Nat.succ) = some as :=
        ih fun k b hb => h (k + 1) b (by simpa using hb)
      rw [List.length_cons, List.range_succ_eq_map, List.mapM_cons, h 0 a rfl, List.mapM_map]
      change Option.bind _ _ = _
      simp only [Option.bind_some]
      change Option.bind (List.mapM (f ∘ Nat.succ) _) _ = _
      rw [hrest]
      rfl

theorem ncmdGet_encode (c : NetCmd) : ncmdGet c.encode = c.op := by
  have htake := (take_four_encode c []).1
  rw [List.append_nil] at htake
  have hcode : readNs c.encode = c.op.code := by
    apply BitVec.eq_of_toNat_eq
    rw [toNat_readNs _ (le_trans (by decide) c.four_le_length), htake, beNat_be16 c.op.code.isLt]
  rw [ncmdGet, hcode, NCMDOp.ofCode_code]

/-- **The command at the front is decoded**, whatever has come in behind it. -/
theorem decode_encode (hcount : c.args.length < 2 ^ 16) (hshort : ∀ a ∈ c.args, a.length < 2 ^ 31)
    (rest : Bytes) : decode (c.encode ++ rest) = some c := by
  have hread := readCmd_encode_of hcount hshort rest
  have hnum : ncmdGetnumargs (c.encode ++ rest) = c.args.length := congrArg Read.numargs hread
  have hop : ncmdGet (c.encode ++ rest) = c.op := congrArg Read.op hread
  have hargs : (List.range c.args.length).mapM (fun k =>
      (ncmdGetarg (c.encode ++ rest) .null k false).map fun r => r.2.bytes) = some c.args := by
    refine mapM_range fun k a ha => ?_
    have hget : ncmdGetarg (c.encode ++ rest) .null k true = some (0, .blk (a ++ [0])) := by
      refine Eq.trans (b := c.getarg .null k true) (congrArg (fun r => r.arg k) hread) ?_
      rw [NetCmd.getarg, ha]
      rfl
    rw [ncmdGetarg_raw hget, Option.map_some, Arg.bytes_blk]
  rw [decode, hnum, hargs, hop]
  rfl

/-! ### Nothing else is decoded -/

/-- A length that fits a buffer is the one in its field. -/
theorem beNat_of_readNl {p : Bytes} (h4 : 4 ≤ p.length) (hl : (readNl p).toNat < 2 ^ 31) :
    beNat (p.take 4) = (readNl p).toNat := by
  by_cases htop : beNat (p.take 4) < 2 ^ 31
  · exact (toNat_readNl h4 htop).symm
  · -- the top bit is widened, and what is read is much longer
    have hs := toInt_readNl p h4
    have hlt := beNat_take_four_lt p
    rw [sbe32, if_neg htop, BitVec.toInt_eq_toNat_of_lt (by omega)] at hs
    omega

/-- Where every argument is found there is room for all of them. -/
theorem argsSpan_found (hlen : buf.length < 2 ^ 31) : ∀ n i,
    (∀ k < n, ∃ j, skipArgs buf k i = some j ∧
      j + 4 + (readNl (buf.drop j)).toNat ≤ buf.length) →
    ∃ m, argsSpan n (buf.drop i) = some m := by
  intro n
  induction n with
  | zero => exact fun _ _ => ⟨0, rfl⟩
  | succ n ih =>
      intro i h
      obtain ⟨j, hj, hfits⟩ := h 0 (Nat.succ_pos n)
      obtain ⟨hhead, rfl⟩ : i + 4 ≤ buf.length ∧ i = j := by
        rw [skipArgs] at hj
        split at hj
        · rename_i hhead
          exact ⟨hhead, Option.some.inj hj⟩
        · simp at hj
      have h4 : 4 ≤ (buf.drop i).length := by
        rw [List.length_drop]
        omega
      have hfield := beNat_of_readNl h4 (by omega)
      obtain ⟨m, hm⟩ := ih (i + ((readNl (buf.drop i)).toNat + 4)) fun k hk => by
        obtain ⟨j, hj, hfits⟩ := h (k + 1) (Nat.succ_lt_succ hk)
        rw [skipArgs, if_pos hhead] at hj
        exact ⟨j, hj, hfits⟩
      refine ⟨(readNl (buf.drop i)).toNat + 4 + m, ?_⟩
      rw [argsSpan, if_neg (by omega), hfield, if_neg (by rw [List.length_drop]; omega),
        List.drop_drop, Nat.add_comm 4, hm]
      rfl

theorem skipArgs_of_ncmdGetarg {k : Nat} {r : Int × Arg} (hk : k < ncmdGetnumargs buf)
    (h : ncmdGetarg buf .null k false = some r) :
    ∃ j, skipArgs buf k 4 = some j ∧ j + 4 + (readNl (buf.drop j)).toNat ≤ buf.length := by
  rw [ncmdGetarg, if_neg (by omega), Option.bind_eq_bind, Option.bind_eq_some_iff] at h
  obtain ⟨j, hj, h⟩ := h
  refine ⟨j, hj, ?_⟩
  dsimp only at h
  split at h
  · simp at h
  · omega

theorem exists_of_mapM {α β : Type} {f : α → Option β} {as : List α} {bs : List β}
    (h : as.mapM f = some bs) : ∀ a ∈ as, ∃ b, f a = some b := by
  induction as generalizing bs with
  | nil => simp
  | cons a as ih =>
      rw [List.mapM_cons, Option.bind_eq_bind, Option.bind_eq_some_iff] at h
      obtain ⟨b, hb, h⟩ := h
      rw [Option.bind_eq_bind, Option.bind_eq_some_iff] at h
      obtain ⟨bs', hbs, -⟩ := h
      exact List.forall_mem_cons.mpr ⟨⟨b, hb⟩, ih hbs⟩

/-- What is decoded is there. -/
theorem cmdSpan_of_decode (h4 : 4 ≤ buf.length) (hlen : buf.length < 2 ^ 31)
    (h : decode buf = some c) : ∃ k, cmdSpan buf = some k := by
  rw [decode, Option.bind_eq_bind, Option.bind_eq_some_iff] at h
  obtain ⟨args, hargs, -⟩ := h
  obtain ⟨m, hm⟩ := argsSpan_found hlen (ncmdGetnumargs buf) 4 fun k hk => by
    obtain ⟨a, ha⟩ := exists_of_mapM hargs k (List.mem_range.mpr hk)
    obtain ⟨r, hr, -⟩ := Option.map_eq_some_iff.mp ha
    exact skipArgs_of_ncmdGetarg hk hr
  have hnum : beNat ((buf.drop 2).take 2) = ncmdGetnumargs buf := by
    rw [ncmdGetnumargs, toNat_readNs _ (by rw [List.length_drop]; omega)]
  refine ⟨4 + m, ?_⟩
  rw [cmdSpan, if_neg (by omega), hnum, hm]
  rfl

/--
**Only the command at the front is decoded.**  So what `ncmd_iscomplete` takes for a command
and is none, for a length from 2^31 on, is no step of the loop.
-/
theorem decode_eq_some_iff (h4 : 4 ≤ buf.length) (hlen : buf.length < 2 ^ 31) :
    decode buf = some c ↔ c.args.length < 2 ^ 16 ∧ c.encode <+: buf := by
  have hback : ∀ c : NetCmd, c.args.length < 2 ^ 16 → c.encode <+: buf →
      decode buf = some c := by
    rintro c hcount ⟨rest, hrest⟩
    have hsize : c.encode.length < 2 ^ 31 := by
      rw [← hrest, List.length_append] at hlen
      omega
    rw [← hrest]
    exact decode_encode hcount (fun a ha => NetCmd.Short.arg_lt ⟨hcount, hsize⟩ ha) rest
  constructor
  · intro h
    obtain ⟨k, hk⟩ := cmdSpan_of_decode h4 hlen h
    obtain ⟨-, c', hfits, henc⟩ := cmdSpan_eq_some.mp hk
    have hpre : c'.encode <+: buf := ⟨buf.drop k, by rw [henc, List.take_append_drop]⟩
    obtain rfl : c' = c := Option.some.inj ((hback c' hfits.count hpre).symm.trans h)
    exact ⟨hfits.count, hpre⟩
  · exact fun ⟨hcount, hpre⟩ => hback c hcount hpre

end Smsg
