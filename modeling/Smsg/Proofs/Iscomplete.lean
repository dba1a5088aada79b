/-
Where `ncmd_iscomplete` finds a command, and where it does not.

The walk reads every length as a signed number.  As long as no length field it
meets has its top bit set, it is the walk of the grammar.  A length field with the
top bit set sends the pointer backwards instead of failing the comparison, and
from there on the walk counts arguments that are not there.

`Regular` and `Refused` say this about the bytes alone.  A buffer is framed
correctly exactly when one of the two holds at its front, and the loop that
removes commands one by one works exactly when that is so behind every run of
whole commands (`drains_iff`).
-/
import Smsg.Proofs.NetCmd

namespace Smsg

/-! ### The walk with offsets is the walk with addresses -/

/-- The buffer does not lie in the last four gigabytes of the address space. -/
def Placed (buf : Addr) (mem : Bytes) : Prop := buf.toNat + mem.length + 2 ^ 32 ≤ 2 ^ 64

/-- The address of an offset into the buffer. -/
def Addr.plus (buf : Addr) (i : Nat) : Addr := buf + BitVec.ofNat 64 i

variable {buf : Addr} {mem : Bytes}

theorem Placed.plus_toNat (hp : Placed buf mem) {i : Nat} (hi : i ≤ mem.length) :
    (buf.plus i).toNat = buf.toNat + i := by
  have : buf.toNat + mem.length + 2 ^ 32 ≤ 2 ^ 64 := hp
  simp only [Addr.plus, BitVec.toNat_add, BitVec.toNat_ofNat]
  omega

theorem Placed.sub_toNat (hp : Placed buf mem) {i : Nat} (hi : i ≤ mem.length) :
    (buf.plus i - buf).toNat = i := by
  have : buf.toNat + mem.length + 2 ^ 32 ≤ 2 ^ 64 := hp
  have := buf.isLt
  simp only [Addr.plus, BitVec.toNat_sub, BitVec.toNat_add, BitVec.toNat_ofNat]
  omega

private theorem toNat_four : (4 : Addr).toNat = 4 := rfl

theorem Placed.header_lt (hp : Placed buf mem) {i : Nat} (hi : i ≤ mem.length) :
    buf + BitVec.ofNat 64 mem.length < buf.plus i + 4 ↔ mem.length < i + 4 := by
  have hpl : buf.toNat + mem.length + 2 ^ 32 ≤ 2 ^ 64 := hp
  rw [BitVec.lt_def, show buf + BitVec.ofNat 64 mem.length = buf.plus mem.length from rfl,
    hp.plus_toNat (Nat.le_refl _), BitVec.toNat_add, hp.plus_toNat hi, toNat_four]
  omega

theorem Addr.plus_step {i j : Nat} {l : BitVec 64} (hj : (j : Int) = i + (l.toInt + 4)) :
    buf.plus i + (l + 4) = buf.plus j := by
  have hlt := l.isLt
  rw [BitVec.toInt_eq_toNat_cond] at hj
  apply BitVec.eq_of_toNat_eq
  simp only [Addr.plus, BitVec.toNat_add, BitVec.toNat_ofNat, toNat_four]
  split at hj <;> omega

/-- The comparison `buf + len < i + read_nl(i) + 4`. -/
theorem Placed.arg_lt (hp : Placed buf mem) {i : Nat} {l : BitVec 64} (hi : i ≤ mem.length)
    (hl : l.toInt < 2 ^ 31) (hl' : -2 ^ 31 ≤ l.toInt)
    (hpos : 0 ≤ (buf.toNat : Int) + i + (l.toInt + 4)) :
    buf + BitVec.ofNat 64 mem.length < buf.plus i + l + 4 ↔
      (mem.length : Int) < i + l.toInt + 4 := by
  have hpl : buf.toNat + mem.length + 2 ^ 32 ≤ 2 ^ 64 := hp
  have hlt := l.isLt
  rw [BitVec.lt_def, show buf + BitVec.ofNat 64 mem.length = buf.plus mem.length from rfl,
    hp.plus_toNat (Nat.le_refl _), BitVec.toNat_add, BitVec.toNat_add, hp.plus_toNat hi, toNat_four]
  rw [BitVec.toInt_eq_toNat_cond] at hl hl' hpos ⊢
  split at hpos <;> split <;> omega

theorem Placed.peek_eq (hp : Placed buf mem) {i : Nat} (hi : i + 4 ≤ mem.length) :
    peek buf mem (buf.plus i) = some (mem.drop i) := by
  rw [peek, hp.sub_toNat (by omega), if_pos hi]

theorem toInt_readNl_drop {i : Nat} (hi : i + 4 ≤ mem.length) :
    (readNl (mem.drop i)).toInt = sbe32 (mem.drop i) :=
  toInt_readNl _ (by rw [List.length_drop]; omega)

theorem sbe32_range (p : Bytes) : -2 ^ 31 ≤ sbe32 p ∧ sbe32 p < 2 ^ 31 :=
  sbe32_bounds p (beNat_take_four_lt p)

theorem toCInt_plus (hp : Placed buf mem) {i : Nat} (hi : i ≤ mem.length) :
    (((buf.plus i - buf).setWidth 32).toInt) = toCInt i := by
  have hsub := hp.sub_toNat hi
  have hb : buf.plus i - buf = BitVec.ofNat 64 i := by
    apply BitVec.eq_of_toNat_eq
    have : buf.toNat + mem.length + 2 ^ 32 ≤ 2 ^ 64 := hp
    rw [hsub, BitVec.toNat_ofNat]
    omega
  rw [hb, toCInt, BitVec.setWidth_ofNat_of_le (by omega), BitVec.ofInt_natCast]

/-- One round of the loop at address `buf + i`. -/
theorem scanAt_succ (hp : Placed buf mem) {n i : Nat} (hi : i ≤ mem.length)
    (hlow : mem.length < i + 4 ∨ 0 ≤ (buf.toNat : Int) + i + (sbe32 (mem.drop i) + 4)) :
    scanAt buf mem (n + 1) (buf.plus i) =
      if mem.length < i + 4 then ⟨some 0, [buf.plus i]⟩
      else if (mem.length : Int) < i + sbe32 (mem.drop i) + 4 then ⟨some 0, [buf.plus i]⟩
      else
        let rest := scanAt buf mem n (buf.plus i + (readNl (mem.drop i) + 4))
        ⟨rest.ret, buf.plus i :: rest.cursors⟩ := by
  rw [scanAt]
  simp only [hp.header_lt hi]
  split
  · rfl
  · rename_i h4
    have hs := toInt_readNl_drop (show i + 4 ≤ mem.length by omega)
    obtain ⟨hlo, hhi⟩ := sbe32_range (mem.drop i)
    rw [hp.peek_eq (by omega)]
    simp only [hp.arg_lt hi (by rw [hs]; exact hhi) (by rw [hs]; exact hlo)
      (by rw [hs]; omega), hs]

/-- The next pointer of a round that goes on. -/
theorem plus_next {i j : Nat} (hi : i + 4 ≤ mem.length)
    (hj : (j : Int) = i + (sbe32 (mem.drop i) + 4)) :
    buf.plus i + (readNl (mem.drop i) + 4) = buf.plus j :=
  Addr.plus_step (by rw [toInt_readNl_drop hi]; exact hj)

/-- Whatever the walk with offsets returns, the walk with addresses returns. -/
theorem scanAt_of_scan (hp : Placed buf mem) :
    ∀ (n i : Nat) {k : Int}, i ≤ mem.length → scan mem n i = some k →
      (scanAt buf mem n (buf.plus i)).ret = some k := by
  intro n
  induction n with
  | zero =>
      intro i k hi h
      simp only [scan, if_neg (show ¬ (i : Int) < 0 by omega), Option.some.injEq] at h
      rw [scanAt, toCInt_plus hp hi, h]
  | succ n ih =>
      intro i k hi h
      rw [scan, if_neg (by omega)] at h
      by_cases h4 : mem.length < i + 4
      · rw [if_pos (by omega), Option.some.injEq] at h
        rw [scanAt_succ hp hi (Or.inl h4), if_pos h4, h]
      · rw [if_neg (by omega)] at h
        simp only [Int.toNat_natCast, toInt_readNl_drop (show i + 4 ≤ mem.length by omega)] at h
        by_cases hfit : (mem.length : Int) < i + sbe32 (mem.drop i) + 4
        · rw [if_pos hfit, Option.some.injEq] at h
          rw [scanAt_succ hp hi (Or.inr (by omega)), if_neg h4, if_pos hfit, h]
        · rw [if_neg hfit] at h
          -- the walk with offsets has no value in front of the buffer
          have hpos : 0 ≤ (i : Int) + (sbe32 (mem.drop i) + 4) := by
            by_contra hneg
            cases n <;> simp only [scan, if_pos (Int.not_le.mp hneg)] at h <;> simp at h
          obtain ⟨j, hj⟩ := Int.eq_ofNat_of_zero_le hpos
          rw [scanAt_succ hp hi (Or.inr (by omega)), if_neg h4, if_neg hfit,
            plus_next (by omega) hj.symm]
          rw [hj] at h
          exact ih j (by omega) h

/-- **Offsets say what addresses compute**, wherever the buffer lies. -/
theorem iscompleteAt_of_ncmdIscomplete (hp : Placed buf mem) {k : Int}
    (h : ncmdIscomplete mem = some k) : (iscompleteAt buf mem).ret = some k := by
  rw [ncmdIscomplete] at h
  rw [iscompleteAt]
  split
  · rename_i h4
    rw [if_pos h4] at h
    exact h
  · rename_i h4
    rw [if_neg h4] at h
    have hstart : buf + 2 + 2 = buf.plus 4 := by
      rw [Addr.plus, BitVec.add_assoc]
      rfl
    rw [hstart]
    exact scanAt_of_scan hp _ 4 (by omega) h

/-! ### When the front of a buffer is framed correctly -/

/-- No length field that the walk over `n` arguments meets in `b` has its top bit set. -/
def Regular : Nat → Bytes → Prop
  | 0, _ => True
  | n + 1, b =>
      b.length < 4 ∨ (beNat (b.take 4) < 2 ^ 31 ∧
        (b.length < 4 + beNat (b.take 4) ∨ Regular n (b.drop (4 + beNat (b.take 4)))))

/-- The walk with signed lengths stays behind the header and meets an argument that does not
fit before it has counted `n` of them. -/
def Refused (mem : Bytes) : Nat → Int → Prop
  | 0, _ => False
  | n + 1, i =>
      (mem.length : Int) < i + 4 ∨ (mem.length : Int) < i + sbe32 (mem.drop i.toNat) + 4 ∨
        (4 ≤ i + (sbe32 (mem.drop i.toNat) + 4) ∧
          Refused mem n (i + (sbe32 (mem.drop i.toNat) + 4)))

/-- The number of arguments that the header announces. -/
def announced (mem : Bytes) : Nat := beNat ((mem.drop 2).take 2)

/-- The length fields at the front of the buffer do not turn the walk into a command that is
not there. -/
def FrontOK (mem : Bytes) : Prop :=
  mem.length < 4 ∨ Regular (announced mem) (mem.drop 4) ∨ Refused mem (announced mem) 4

/-- A place the pointer of `ncmd_iscomplete` may be at once it is behind the header. -/
def InRange (buf : Addr) (mem : Bytes) (i : Addr) : Prop :=
  buf.toNat + 4 ≤ i.toNat ∧ i.toNat ≤ buf.toNat + mem.length

/-- `ncmd_iscomplete` and `ncmd_remove` do on these bytes what they are there for. -/
structure Framed (buf : Addr) (mem : Bytes) : Prop where
  accepts : ∀ k : Nat, 0 < k →
    ((iscompleteAt buf mem).ret = some (k : Int) ↔ k ≤ mem.length ∧ IsNetCmd (mem.take k))
  refuses : (∀ k ≤ mem.length, ¬ IsNetCmd (mem.take k)) → (iscompleteAt buf mem).ret = some 0
  cursor : ∀ i ∈ (iscompleteAt buf mem).cursors, InRange buf mem i
  removes : ∀ k : Nat, 0 < k → (iscompleteAt buf mem).ret = some (k : Int) →
    4 ≤ k ∧ k ≤ mem.length ∧
      removeFront (iscompleteAt buf mem).ret mem = some (0, mem.drop k)

theorem plus_inRange (hp : Placed buf mem) {i : Nat} (h4 : 4 ≤ i) (hi : i ≤ mem.length) :
    InRange buf mem (buf.plus i) := by
  rw [InRange, hp.plus_toNat hi]
  omega

/-- Without a top bit the walk is the one of the grammar. -/
theorem scanAt_regular (hp : Placed buf mem) (hlen : mem.length < 2 ^ 31) :
    ∀ (n i : Nat), 4 ≤ i → i ≤ mem.length → Regular n (mem.drop i) →
      (scanAt buf mem n (buf.plus i)).ret
          = some (((argsSpan n (mem.drop i)).map fun k => ((i + k : Nat) : Int)).getD 0) ∧
        ∀ c ∈ (scanAt buf mem n (buf.plus i)).cursors, InRange buf mem c := by
  intro n
  induction n with
  | zero =>
      intro i h4 hi _
      refine ⟨?_, ?_⟩
      · rw [scanAt, toCInt_plus hp hi, toCInt_small (by omega)]
        simp [argsSpan]
      · intro c hc
        rw [show c = buf.plus i by simpa [scanAt] using hc]
        exact plus_inRange hp h4 hi
  | succ n ih =>
      intro i h4 hi hreg
      have hdl : (mem.drop i).length = mem.length - i := List.length_drop
      have hhere := plus_inRange hp h4 hi
      by_cases hhdr : mem.length < i + 4
      · rw [scanAt_succ hp hi (Or.inl hhdr), if_pos hhdr, argsSpan, if_pos (by omega)]
        exact ⟨rfl, by simpa using hhere⟩
      · rcases hreg with hshort | ⟨htop, hrest⟩
        · omega
        · set l := beNat ((mem.drop i).take 4) with hl
          have hs : sbe32 (mem.drop i) = l := by rw [sbe32, ← hl, if_pos htop]
          have hspan : ¬ (mem.drop i).length < 4 := by omega
          by_cases hfit : mem.length < i + l + 4
          · rw [scanAt_succ hp hi (Or.inr (by omega)), if_neg hhdr,
              if_pos (show (mem.length : Int) < i + sbe32 (mem.drop i) + 4 by omega), argsSpan,
              if_neg hspan, if_pos (show (mem.drop i).length < 4 + l by omega)]
            exact ⟨rfl, by simpa using hhere⟩
          · rw [scanAt_succ hp hi (Or.inr (by omega)), if_neg hhdr,
              if_neg (show ¬ (mem.length : Int) < i + sbe32 (mem.drop i) + 4 by omega), argsSpan,
              if_neg hspan, if_neg (show ¬ (mem.drop i).length < 4 + l by omega), ← hl,
              plus_next (j := i + (4 + l)) (by omega) (by rw [hs]; push_cast; ring)]
            have hreg' : Regular n (mem.drop (i + (4 + l))) := by
              rw [← List.drop_drop]
              exact hrest.resolve_left (by omega)
            obtain ⟨hret, hcur⟩ := ih (i + (4 + l)) (by omega) (by omega) hreg'
            refine ⟨?_, ?_⟩
            · rw [hret, List.drop_drop]
              cases argsSpan n (mem.drop (i + (4 + l))) with
              | none => rfl
              | some k => simp; omega
            · intro c hc
              rcases List.mem_cons.mp hc with rfl | hc
              · exact hhere
              · exact hcur c hc

/-- A walk that is refused before it leaves the arguments is refused by the code. -/
theorem scanAt_refused (hp : Placed buf mem) :
    ∀ (n i : Nat), 4 ≤ i → i ≤ mem.length → Refused mem n i →
      (scanAt buf mem n (buf.plus i)).ret = some 0 ∧
        ∀ c ∈ (scanAt buf mem n (buf.plus i)).cursors, InRange buf mem c := by
  intro n
  induction n with
  | zero => intro i _ _ h; exact absurd h (by simp [Refused])
  | succ n ih =>
      intro i h4 hi href
      have hhere := plus_inRange hp h4 hi
      by_cases hhdr : mem.length < i + 4
      · rw [scanAt_succ hp hi (Or.inl hhdr), if_pos hhdr]
        exact ⟨rfl, by simpa using hhere⟩
      · simp only [Refused, Int.toNat_natCast] at href
        rcases href with h | h | ⟨hback, hrest⟩
        · omega
        · rw [scanAt_succ hp hi (Or.inr (by omega)), if_neg hhdr, if_pos h]
          exact ⟨rfl, by simpa using hhere⟩
        · rw [scanAt_succ hp hi (Or.inr (by omega)), if_neg hhdr]
          split
          · exact ⟨rfl, by simpa using hhere⟩
          · rename_i hfit
            obtain ⟨j, hj⟩ := Int.eq_ofNat_of_zero_le
              (show 0 ≤ (i : Int) + (sbe32 (mem.drop i) + 4) by omega)
            rw [plus_next (by omega) hj.symm]
            rw [hj] at hrest
            obtain ⟨hret, hcur⟩ := ih j (by omega) (by omega) hrest
            refine ⟨hret, ?_⟩
            intro c hc
            rcases List.mem_cons.mp hc with rfl | hc
            · exact hhere
            · exact hcur c hc

theorem mem_scanAt_cursors (n : Nat) (i : Addr) : i ∈ (scanAt buf mem n i).cursors := by
  cases n with
  | zero => simp [scanAt]
  | succ n =>
      rw [scanAt]
      dsimp only
      split
      · simp
      · split
        · simp
        · split <;> simp

/-- A walk that is not refused leaves the arguments or is taken for a command. -/
theorem scanAt_not_refused (hp : Placed buf mem) (hlow : 2 ^ 31 ≤ buf.toNat)
    (hlen : mem.length < 2 ^ 31) :
    ∀ (n i : Nat), 4 ≤ i → i ≤ mem.length → ¬ Refused mem n i →
      (∃ c ∈ (scanAt buf mem n (buf.plus i)).cursors, ¬ InRange buf mem c) ∨
        ∃ k : Nat, 0 < k ∧ (scanAt buf mem n (buf.plus i)).ret = some (k : Int) := by
  intro n
  induction n with
  | zero =>
      intro i h4 hi _
      right
      refine ⟨i, by omega, ?_⟩
      rw [scanAt, toCInt_plus hp hi, toCInt_small (by omega)]
  | succ n ih =>
      intro i h4 hi href
      simp only [Refused, Int.toNat_natCast, not_or, not_and] at href
      obtain ⟨hhdr, hfit, hback⟩ := href
      have hrange := sbe32_range (mem.drop i)
      rw [scanAt_succ hp hi (Or.inr (by omega)), if_neg (by omega), if_neg (by omega)]
      by_cases hstay : 4 ≤ (i : Int) + (sbe32 (mem.drop i) + 4)
      · obtain ⟨j, hj⟩ := Int.eq_ofNat_of_zero_le
          (show 0 ≤ (i : Int) + (sbe32 (mem.drop i) + 4) by omega)
        have hnot := hback hstay
        rw [plus_next (by omega) hj.symm]
        rw [hj] at hnot
        rcases ih j (by omega) (by omega) hnot with ⟨c, hc, hout⟩ | hacc
        · exact Or.inl ⟨c, List.mem_cons_of_mem _ hc, hout⟩
        · exact Or.inr hacc
      · -- the next place of the pointer is in front of the arguments
        left
        refine ⟨_, List.mem_cons_of_mem _ (mem_scanAt_cursors n _), ?_⟩
        have hs := toInt_readNl_drop (show i + 4 ≤ mem.length by omega)
        have hnext : (buf.plus i + (readNl (mem.drop i) + 4)).toNat < buf.toNat + 4 := by
          have hpl : buf.toNat + mem.length + 2 ^ 32 ≤ 2 ^ 64 := hp
          have hlt := (readNl (mem.drop i)).isLt
          rw [BitVec.toInt_eq_toNat_cond] at hs
          rw [BitVec.toNat_add, BitVec.toNat_add, hp.plus_toNat hi, toNat_four]
          split at hs <;> omega
        intro hin
        exact absurd hin.1 (by omega)

/-! ### The front of the buffer -/

theorem iscompleteAt_eq (h4 : 4 ≤ mem.length) :
    iscompleteAt buf mem = scanAt buf mem (announced mem) (buf.plus 4) := by
  have hstart : buf + 2 + 2 = buf.plus 4 := by
    rw [Addr.plus, BitVec.add_assoc]
    rfl
  rw [iscompleteAt, if_neg (by omega), hstart, announced,
    toNat_readNs _ (by rw [List.length_drop]; omega)]

theorem cmdSpan_eq (h4 : 4 ≤ mem.length) :
    cmdSpan mem = (argsSpan (announced mem) (mem.drop 4)).map (4 + ·) := by
  rw [cmdSpan, if_neg (by omega), announced]

/-- A length with its top bit set does not fit a buffer below 2^31 bytes. -/
theorem argsSpan_irregular : ∀ (n : Nat) (b : Bytes), b.length < 2 ^ 31 → ¬ Regular n b →
    argsSpan n b = none := by
  intro n
  induction n with
  | zero => intro b _ h; exact absurd trivial h
  | succ n ih =>
      intro b hlen h
      simp only [Regular, not_or, not_and] at h
      obtain ⟨h4, hrest⟩ := h
      rw [argsSpan, if_neg h4]
      split
      · rfl
      · rename_i hfit
        obtain ⟨-, hirr⟩ := hrest (by omega)
        rw [ih _ (by rw [List.length_drop]; omega) hirr]
        rfl

/-- A walk that measures the command at the front, and stays in range, frames the buffer. -/
theorem framed_of_span (hret : (iscompleteAt buf mem).ret = some (((cmdSpan mem).getD 0 : Nat) : Int))
    (hcur : ∀ i ∈ (iscompleteAt buf mem).cursors, InRange buf mem i) : Framed buf mem := by
  have haccepts : ∀ k : Nat, 0 < k →
      ((iscompleteAt buf mem).ret = some (k : Int) ↔ k ≤ mem.length ∧ IsNetCmd (mem.take k)) := by
    intro k hk
    rw [← cmdSpan_eq_some, hret, Option.some.injEq, Int.ofNat_inj]
    cases cmdSpan mem with
    | none => simp; omega
    | some j => simp
  refine ⟨haccepts, ?_, hcur, ?_⟩
  · intro hnone
    rw [hret]
    cases hspan : cmdSpan mem with
    | none => rfl
    | some k =>
        obtain ⟨hk, hcmd⟩ := cmdSpan_eq_some.mp hspan
        exact absurd hcmd (hnone k hk)
  · intro k hk hk'
    obtain ⟨hle, hcmd⟩ := (haccepts k hk).mp hk'
    have hfour := hcmd.four_le
    rw [List.length_take] at hfour
    refine ⟨by omega, hle, ?_⟩
    rw [hk']
    simp only [removeFront, Option.bind_eq_bind, Option.bind_some]
    rw [if_neg (by omega), if_neg (by omega), Int.toNat_natCast]

/-- Regular or refused fronts are framed, at every address. -/
theorem framed_of_front (hp : Placed buf mem) (hlen : mem.length < 2 ^ 31) (h : FrontOK mem) :
    Framed buf mem ∧ (iscompleteAt buf mem).ret = some (((cmdSpan mem).getD 0 : Nat) : Int) := by
  suffices hscan : (iscompleteAt buf mem).ret = some (((cmdSpan mem).getD 0 : Nat) : Int) ∧
      ∀ i ∈ (iscompleteAt buf mem).cursors, InRange buf mem i from
    ⟨framed_of_span hscan.1 hscan.2, hscan.1⟩
  by_cases h4 : mem.length < 4
  · rw [iscompleteAt, if_pos h4, cmdSpan, if_pos h4]
    exact ⟨rfl, by simp⟩
  · rw [iscompleteAt_eq (by omega), cmdSpan_eq (by omega)]
    by_cases hreg : Regular (announced mem) (mem.drop 4)
    · obtain ⟨hret, hcur⟩ := scanAt_regular hp hlen _ 4 (by omega) (by omega) hreg
      refine ⟨?_, hcur⟩
      rw [hret]
      cases argsSpan (announced mem) (mem.drop 4) <;> rfl
    · have hnone := argsSpan_irregular _ _ (by rw [List.length_drop]; omega) hreg
      rw [hnone]
      exact scanAt_refused hp _ 4 (by omega) (by omega)
        ((h.resolve_left h4).resolve_left hreg)

/-- A buffer that is framed at a high enough address has a regular or refused front. -/
theorem front_of_framed (hp : Placed buf mem) (hlow : 2 ^ 31 ≤ buf.toNat)
    (hlen : mem.length < 2 ^ 31) (h : Framed buf mem) : FrontOK mem := by
  by_contra hfront
  simp only [FrontOK, not_or] at hfront
  obtain ⟨h4, hreg, href⟩ := hfront
  have hnone := argsSpan_irregular _ _ (by rw [List.length_drop]; omega) hreg
  have hscan := scanAt_not_refused hp hlow hlen _ 4 (by omega) (by omega) href
  rw [← iscompleteAt_eq (by omega)] at hscan
  rcases hscan with ⟨c, hc, hout⟩ | ⟨k, hk, hret⟩
  · exact hout (h.cursor c hc)
  · have hspan := cmdSpan_eq_some.mpr ((h.accepts k hk).mp hret)
    rw [cmdSpan_eq (by omega), hnone] at hspan
    simp at hspan

/-! ### Removing commands one by one -/

/--
The loop `while(ncmd_iscomplete(..)) ncmd_remove(..)` ends, and at every buffer it
comes to both functions do what they are there for.  `realloc` may move the
buffer, so this is asked for every address.
-/
inductive Drains : Bytes → Prop
  | stop {mem : Bytes}
      (h : ∀ buf, Placed buf mem → Framed buf mem ∧ (iscompleteAt buf mem).ret = some 0) :
      Drains mem
  | next {mem : Bytes} {k : Nat} (hk : 0 < k)
      (h : ∀ buf, Placed buf mem → Framed buf mem ∧ (iscompleteAt buf mem).ret = some (k : Int))
      (rest : Drains (mem.drop k)) : Drains mem

/-- The condition on the bytes: it holds behind every run of whole commands. -/
def EveryFrontOK (mem : Bytes) : Prop :=
  ∀ (cs : List Bytes) (rest : Bytes), (∀ c ∈ cs, IsNetCmd c) → mem = cs.flatten ++ rest →
    FrontOK rest

/-- An address in the middle of the address space. -/
private def somewhere : Addr := BitVec.ofNat 64 (2 ^ 40)

private theorem somewhere_spec (hlen : mem.length < 2 ^ 31) :
    Placed somewhere mem ∧ 2 ^ 31 ≤ somewhere.toNat := by
  have h : somewhere.toNat = 2 ^ 40 := rfl
  refine ⟨?_, by omega⟩
  rw [Placed, h]
  omega

theorem Drains.framed (hlen : mem.length < 2 ^ 31) (h : Drains mem) :
    Framed somewhere mem := by
  obtain ⟨hp, -⟩ := somewhere_spec hlen
  cases h with
  | stop h => exact (h _ hp).1
  | next _ h _ => exact (h _ hp).1

theorem EveryFrontOK.of_drains (hlen : mem.length < 2 ^ 31) (h : Drains mem) :
    EveryFrontOK mem := by
  intro cs
  induction cs generalizing mem with
  | nil =>
      intro rest _ hmem
      obtain rfl : mem = rest := by simpa using hmem
      obtain ⟨hp, hlow⟩ := somewhere_spec hlen
      exact front_of_framed hp hlow hlen (h.framed hlen)
  | cons c cs ih =>
      intro rest hcs hmem
      have hc : IsNetCmd c := hcs c List.mem_cons_self
      have hfour := hc.four_le
      rw [List.flatten_cons, List.append_assoc] at hmem
      -- the framed buffer starts with the whole command `c`
      obtain ⟨hp, -⟩ := somewhere_spec hlen
      have htake : mem.take c.length = c := by rw [hmem, List.take_left]
      have hret := ((h.framed hlen).accepts c.length (by omega)).mpr
        ⟨by rw [hmem, List.length_append]; omega, by rw [htake]; exact hc⟩
      cases h with
      | stop hstop =>
          rw [(hstop _ hp).2] at hret
          simp at hret
          omega
      | @next _ k hk hnext hdrains =>
          rw [(hnext _ hp).2, Option.some.injEq, Int.ofNat_inj] at hret
          subst hret
          refine ih (by rw [List.length_drop]; omega) hdrains rest
            (fun x hx => hcs x (List.mem_cons_of_mem _ hx)) ?_
          rw [hmem, List.drop_left]

theorem Drains.of_everyFrontOK : ∀ (n : Nat) {mem : Bytes}, mem.length ≤ n →
    mem.length < 2 ^ 31 → EveryFrontOK mem → Drains mem := by
  intro n
  induction n with
  | zero =>
      intro mem hn _ _
      obtain rfl : mem = [] := List.length_eq_zero_iff.mp (by omega)
      exact .stop fun buf hp => framed_of_front hp (by simp) (Or.inl (by simp))
  | succ n ih =>
      intro mem hn hlen h
      have hfront : FrontOK mem := h [] mem (by simp) (by simp)
      cases hspan : cmdSpan mem with
      | none =>
          refine .stop fun buf hp => ?_
          have := framed_of_front hp hlen hfront
          rwa [hspan] at this
      | some k =>
          obtain ⟨hk, hcmd⟩ := cmdSpan_eq_some.mp hspan
          have hfour := hcmd.four_le
          rw [List.length_take] at hfour
          refine .next (k := k) (by omega) (fun buf hp => ?_) ?_
          · have := framed_of_front hp hlen hfront
            rwa [hspan] at this
          · refine ih (by rw [List.length_drop]; omega) (by rw [List.length_drop]; omega) ?_
            intro cs rest hcs hmem
            refine h (mem.take k :: cs) rest ?_ ?_
            · intro c hc
              rcases List.mem_cons.mp hc with rfl | hc
              · exact hcmd
              · exact hcs c hc
            · rw [List.flatten_cons, List.append_assoc, ← hmem, List.take_append_drop]

/--
**When `ncmd_iscomplete` and `ncmd_remove` cut a buffer correctly.**  They do, and
the loop over them ends, exactly when behind every run of whole commands the
length fields are regular or the walk over them is refused.
-/
theorem drains_iff (mem : Bytes) (hlen : mem.length < 2 ^ 31) :
    Drains mem ↔ EveryFrontOK mem :=
  ⟨EveryFrontOK.of_drains hlen, Drains.of_everyFrontOK mem.length (Nat.le_refl _) hlen⟩

/-- Behind a whole command the condition is the one on the rest. -/
theorem EveryFrontOK.cons {c mem : Bytes} (hc : IsNetCmd c) (hfront : FrontOK (c ++ mem))
    (h : EveryFrontOK mem) : EveryFrontOK (c ++ mem) := by
  intro cs rest hcs hmem
  cases cs with
  | nil =>
      obtain rfl : c ++ mem = rest := by simpa using hmem
      exact hfront
  | cons d ds =>
      have hd : IsNetCmd d := hcs d List.mem_cons_self
      rw [List.flatten_cons, List.append_assoc] at hmem
      -- of two commands at the front of the buffer none goes on behind the other
      obtain rfl : c = d := by
        rcases List.prefix_or_prefix_of_prefix (List.prefix_append c mem)
          (hmem ▸ List.prefix_append d _) with hpre | hpre
        · exact hc.prefix_eq hd hpre
        · exact (hd.prefix_eq hc hpre).symm
      exact h ds rest (fun x hx => hcs x (List.mem_cons_of_mem _ hx)) (List.append_cancel_left hmem)

/-- Where no command is, only the front counts. -/
theorem EveryFrontOK.part {mem : Bytes} (hspan : cmdSpan mem = none) (hfront : FrontOK mem) :
    EveryFrontOK mem := by
  intro cs rest hcs hmem
  cases cs with
  | nil =>
      obtain rfl : mem = rest := by simpa using hmem
      exact hfront
  | cons d ds =>
      have hd : IsNetCmd d := hcs d List.mem_cons_self
      rw [List.flatten_cons, List.append_assoc] at hmem
      have hsome : cmdSpan mem = some d.length := by
        refine cmdSpan_eq_some.mpr ⟨by rw [hmem]; simp, ?_⟩
        rw [hmem, List.take_left]
        exact hd
      rw [hspan] at hsome
      cases hsome

/-- A `C_PSAY` of two arguments, and as much of a `C_SAY` as ends in its argument. -/
theorem drains_psay_part :
    Drains ([0, 27, 0, 2, 0, 0, 0, 1, 97, 0, 0, 0, 2, 104, 105] ++ [0, 29, 0, 1, 0, 0, 0, 9, 98]) := by
  refine (drains_iff _ (by decide)).mpr (.cons ⟨⟨.cPsay, [[97], [104, 105]]⟩, ?_, by decide⟩ ?_ ?_)
  · exact ⟨by decide, by decide⟩
  · exact Or.inr (Or.inl (Or.inr ⟨by decide, Or.inr (Or.inr ⟨by decide, Or.inr trivial⟩)⟩))
  · exact .part (by decide) (Or.inr (Or.inl (Or.inr ⟨by decide, Or.inl (by decide)⟩)))

/-- The length 0xFFFFFFFC sends the pointer back to where it was: four bytes are taken for a
command that announces an argument and has none. -/
theorem not_drains_wrapped : ¬ Drains [0, 29, 0, 1, 255, 255, 255, 252] := by
  intro h
  have hlen : ([0, 29, 0, 1, 255, 255, 255, 252] : Bytes).length < 2 ^ 31 := by decide
  have hret : (iscompleteAt somewhere [0, 29, 0, 1, 255, 255, 255, 252]).ret = some ((4 : Nat) : Int) := by
    decide
  obtain ⟨-, hcmd⟩ := ((h.framed hlen).accepts 4 (by omega)).mp hret
  have hspan := cmdSpan_eq_some.mpr (show 4 ≤ ([0, 29, 0, 1] : Bytes).length ∧
    IsNetCmd (([0, 29, 0, 1] : Bytes).take 4) from ⟨by decide, hcmd⟩)
  exact absurd hspan (by decide)

end Smsg
