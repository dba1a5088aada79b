/-
The grammar of net commands.

`cmdSpan` measures the command at the front of some bytes, the way the protocol
document describes it: every length is unsigned and has to fit.  It finds a
command exactly when there is one (`cmdSpan_eq_some`), and from that the grammar
is seen to be prefix-free: no command is the beginning of another one.
-/
import Smsg.Proofs.Words

namespace Smsg

/-- How many bytes `n` arguments take at the start of `b`, if they are all there. -/
def argsSpan : Nat → Bytes → Option Nat
  | 0, _ => some 0
  | n + 1, b =>
      if b.length < 4 then none
      else if b.length < 4 + beNat (b.take 4) then none
      else (argsSpan n (b.drop (4 + beNat (b.take 4)))).map (4 + beNat (b.take 4) + ·)

/-- How many bytes the command at the start of `b` takes, if it is all there. -/
def cmdSpan (b : Bytes) : Option Nat :=
  if b.length < 4 then none
  else (argsSpan (beNat ((b.drop 2).take 2)) (b.drop 4)).map (4 + ·)

/-! ### Numbers and their bytes -/

theorem be16_beNat {b : Bytes} (h : b.length = 2) : be16 (beNat b) = b := by
  match b, h with
  | [x, y], _ =>
      have hx : x.toNat < 256 := x.toNat_lt
      have hy : y.toNat < 256 := y.toNat_lt
      have e₁ : UInt8.ofNat (beNat [x, y] / 2 ^ 8) = x := by
        apply UInt8.toNat_inj.mp
        simp only [beNat, List.foldl_cons, List.foldl_nil, UInt8.toNat_ofNat']
        omega
      have e₂ : UInt8.ofNat (beNat [x, y]) = y := by
        apply UInt8.toNat_inj.mp
        simp only [beNat, List.foldl_cons, List.foldl_nil, UInt8.toNat_ofNat']
        omega
      rw [be16, e₁, e₂]

theorem be32_beNat {b : Bytes} (h : b.length = 4) : be32 (beNat b) = b := by
  match b, h with
  | [x, y, z, w], _ =>
      have hx : x.toNat < 256 := x.toNat_lt
      have hy : y.toNat < 256 := y.toNat_lt
      have hz : z.toNat < 256 := z.toNat_lt
      have hw : w.toNat < 256 := w.toNat_lt
      have hn : beNat [x, y, z, w]
          = x.toNat * 2 ^ 24 + y.toNat * 2 ^ 16 + z.toNat * 2 ^ 8 + w.toNat := by
        simp only [beNat, List.foldl_cons, List.foldl_nil]
        omega
      have e₁ : UInt8.ofNat (beNat [x, y, z, w] / 2 ^ 24) = x :=
        UInt8.toNat_inj.mp (by rw [hn, UInt8.toNat_ofNat']; omega)
      have e₂ : UInt8.ofNat (beNat [x, y, z, w] / 2 ^ 16) = y :=
        UInt8.toNat_inj.mp (by rw [hn, UInt8.toNat_ofNat']; omega)
      have e₃ : UInt8.ofNat (beNat [x, y, z, w] / 2 ^ 8) = z :=
        UInt8.toNat_inj.mp (by rw [hn, UInt8.toNat_ofNat']; omega)
      have e₄ : UInt8.ofNat (beNat [x, y, z, w]) = w :=
        UInt8.toNat_inj.mp (by rw [hn, UInt8.toNat_ofNat']; omega)
      rw [be32, e₁, e₂, e₃, e₄]

theorem ofNat_congr {a b : Nat} (h : a % 256 = b % 256) : UInt8.ofNat a = UInt8.ofNat b := by
  refine UInt8.toNat_inj.mp ?_
  rw [UInt8.toNat_ofNat', UInt8.toNat_ofNat']
  exact h

theorem be16_mod (n : Nat) : be16 (n % 2 ^ 16) = be16 n := by
  rw [be16, be16, ofNat_congr (a := n % 2 ^ 16 / 2 ^ 8) (b := n / 2 ^ 8) (by omega),
    ofNat_congr (a := n % 2 ^ 16) (b := n) (by omega)]

theorem be32_mod (n : Nat) : be32 (n % 2 ^ 32) = be32 n := by
  simp only [be32, List.cons.injEq, and_true]
  exact ⟨ofNat_congr (by omega), ofNat_congr (by omega), ofNat_congr (by omega),
    ofNat_congr (by omega)⟩

/-! ### The span of what was encoded -/

theorem argsSpan_encodeArgs (args : List Bytes) :
    ∀ rest, (∀ a ∈ args, a.length < 2 ^ 32) →
      argsSpan args.length (encodeArgs args ++ rest) = some (encodeArgs args).length := by
  induction args with
  | nil => intro rest _; rfl
  | cons a args ih =>
      intro rest h
      have ha : a.length < 2 ^ 32 := h a (by simp)
      have hrest := ih rest fun x hx => h x (by simp [hx])
      have hlen : beNat ((encodeArgs (a :: args) ++ rest).take 4) = a.length := by
        rw [encodeArgs_cons, List.append_assoc, List.take_left' (length_be32 _), beNat_be32 ha]
      have hdrop : (encodeArgs (a :: args) ++ rest).drop (4 + a.length)
          = encodeArgs args ++ rest := by
        rw [encodeArgs_cons, List.append_assoc, List.append_assoc, ← List.drop_drop,
          List.drop_left' (length_be32 _), List.drop_left]
      rw [List.length_cons, argsSpan, hlen, hdrop, hrest, if_neg, if_neg]
      · simp
        omega
      · simp
      · simp

theorem take_four_encode (c : NetCmd) (rest : Bytes) :
    (c.encode ++ rest).take 2 = be16 c.op.code.toNat ∧
      ((c.encode ++ rest).drop 2).take 2 = be16 c.args.length ∧
      (c.encode ++ rest).drop 4 = encodeArgs c.args ++ rest := by
  refine ⟨?_, ?_, ?_⟩
  · rw [NetCmd.encode, List.append_assoc, List.take_left' (length_be16 _)]
  · rw [NetCmd.encode, List.append_assoc, List.append_assoc, List.drop_left' (length_be16 _),
      List.take_left' (length_be16 _)]
  · rw [NetCmd.encode, List.append_assoc, List.append_assoc, show 4 = 2 + 2 from rfl,
      ← List.drop_drop, List.drop_left' (length_be16 _), List.drop_left' (length_be16 _)]

theorem cmdSpan_encode {c : NetCmd} (h : c.Fits) (rest : Bytes) :
    cmdSpan (c.encode ++ rest) = some c.encode.length := by
  obtain ⟨-, hcount, hargs⟩ := take_four_encode c rest
  rw [cmdSpan, if_neg, hcount, beNat_be16 h.count, hargs,
    argsSpan_encodeArgs c.args rest h.lengths, Option.map_some, NetCmd.length_encode]
  have := c.four_le_length
  simp only [List.length_append]
  omega

/-! ### What is measured is a command -/

theorem argsSpan_sound : ∀ (n : Nat) (b : Bytes) (k : Nat), argsSpan n b = some k →
    k ≤ b.length ∧ ∃ args : List Bytes, args.length = n ∧ (∀ a ∈ args, a.length < 2 ^ 32) ∧
      b.take k = encodeArgs args := by
  intro n
  induction n with
  | zero =>
      intro b k h
      simp only [argsSpan, Option.some.injEq] at h
      subst h
      exact ⟨Nat.zero_le _, [], rfl, by simp, by simp⟩
  | succ n ih =>
      intro b k h
      rw [argsSpan] at h
      split at h
      · simp at h
      · split at h
        · simp at h
        · rename_i h4 hfit
          obtain ⟨k', hk', rfl⟩ := Option.map_eq_some_iff.mp h
          obtain ⟨hle, args, hn, hlen, htake⟩ := ih _ _ hk'
          set l := beNat (b.take 4) with hl
          have hdrop : (b.drop (4 + l)).length = b.length - (4 + l) := List.length_drop
          refine ⟨by omega, ((b.drop 4).take l) :: args, by simp [hn], ?_, ?_⟩
          · have hl32 : l < 2 ^ 32 := beNat_take_four_lt b
            intro a ha
            rcases List.mem_cons.mp ha with rfl | ha
            · rw [List.length_take, List.length_drop]; omega
            · exact hlen a ha
          · have hfield : be32 l = b.take 4 := by
              rw [hl]
              exact be32_beNat (by rw [List.length_take]; omega)
            have harg : ((b.drop 4).take l).length = l := by
              rw [List.length_take, List.length_drop]
              omega
            rw [encodeArgs_cons, harg, ← htake, hfield, ← List.drop_drop, List.take_add,
              List.take_add, List.append_assoc, List.drop_drop]

theorem beNat_two_lt {b : Bytes} (h : b.length = 2) : beNat b < 2 ^ 16 := by
  have hlt := beNat_lt b
  rw [h] at hlt
  exact hlt

/-- **`cmdSpan` finds a command exactly when there is one.** -/
theorem cmdSpan_eq_some {b : Bytes} {k : Nat} :
    cmdSpan b = some k ↔ k ≤ b.length ∧ IsNetCmd (b.take k) := by
  constructor
  · intro h
    rw [cmdSpan] at h
    split at h
    · simp at h
    · rename_i h4
      obtain ⟨k', hk', rfl⟩ := Option.map_eq_some_iff.mp h
      obtain ⟨hle, args, hn, hlen, htake⟩ := argsSpan_sound _ _ _ hk'
      have h2 : (b.take 2).length = 2 := by rw [List.length_take]; omega
      have h2' : ((b.drop 2).take 2).length = 2 := by
        rw [List.length_take, List.length_drop]
        omega
      have hop := beNat_two_lt h2
      have hcnt := beNat_two_lt h2'
      rw [List.length_drop] at hle
      refine ⟨by omega, ⟨NCMDOp.ofCode (BitVec.ofNat 16 (beNat (b.take 2))), args⟩,
        ⟨by simpa [hn] using hcnt, hlen⟩, ?_⟩
      have hcode : (NCMDOp.ofCode (BitVec.ofNat 16 (beNat (b.take 2)))).code.toNat
          = beNat (b.take 2) := by
        rw [NCMDOp.code_ofCode, BitVec.toNat_ofNat, Nat.mod_eq_of_lt hop]
      simp only [NetCmd.encode, hcode, hn, be16_beNat h2, be16_beNat h2', ← htake]
      rw [show 4 + k' = 2 + (2 + k') by omega, List.take_add, List.take_add, List.drop_drop]
  · intro h
    obtain ⟨hle, c, hfits, henc⟩ := h
    have hb : b = c.encode ++ b.drop k := by rw [henc, List.take_append_drop]
    have hk : c.encode.length = k := by rw [henc, List.length_take]; omega
    rw [hb, cmdSpan_encode hfits, hk]

/-- No net command is the beginning of another one. -/
theorem IsNetCmd.prefix_eq {u w : Bytes} (hu : IsNetCmd u) (hw : IsNetCmd w) (h : u <+: w) :
    u = w := by
  obtain ⟨cu, hfu, rfl⟩ := hu
  obtain ⟨cw, hfw, rfl⟩ := hw
  obtain ⟨t, ht⟩ := h
  have h₁ := cmdSpan_encode hfu t
  have h₂ := cmdSpan_encode hfw []
  rw [ht] at h₁
  rw [List.append_nil, h₁, Option.some.injEq] at h₂
  exact List.IsPrefix.eq_of_length ⟨t, ht⟩ h₂

theorem IsNetCmd.four_le {w : Bytes} (hw : IsNetCmd w) : 4 ≤ w.length := by
  obtain ⟨c, -, rfl⟩ := hw
  exact c.four_le_length

end Smsg
