/-
What `ncmd_getarg` leaves behind the pointer that it is given.

The callers look at the return value or at the pointer, and both have to say what is true:
-1 when there is no such argument or no memory for it, and behind the pointer `NULL` or a
block that is as long as they think (`Arg.Sound`).  `getarg_right_iff` says when this is so.

Two things go wrong.  `realloc` to a size of zero frees the block and returns `NULL`, which
is taken for a failure that leaves the block alone; that is so for an empty argument, and
for the largest one there can be, whose size wraps.  And the walk to the argument does not
get past one of 2^31 bytes or more.
-/
import Smsg.Proofs.Malloc

namespace Smsg

/-- A buffer that starts with a complete net command. -/
structure Buffered where
  cmd : NetCmd
  fits : cmd.Fits
  behind : Bytes
  /-- It is an object, which has no more than `PTRDIFF_MAX` bytes. -/
  object : (cmd.encode ++ behind).length < 2 ^ 63

/-- The bytes of the buffer. -/
def Buffered.bytes (b : Buffered) : Bytes := b.cmd.encode ++ b.behind

/-- `NULL`, or a live block of at least `*aplen` bytes. -/
def Arg.Sound (t : Arg) : Prop :=
  match t.ap with
  | .null => True
  | .blk b => t.aplen ≤ b.length
  | .freed => False

/-- The call comes to ask for memory, for some bytes at least, and gets none. -/
def AllocFails (m : Malloc) (buf : Bytes) (k : Nat) (addzero : Bool) : Prop :=
  ∃ i, skipArgs buf k 4 = some i ∧ Malloc.argSize buf i addzero ≠ 0
    ∧ m.grants (Malloc.argSize buf i addzero) = false

/-- The return value and the pointer say what is true. -/
structure TellsTrue (m : Malloc) (b : Buffered) (k : Nat) (addzero : Bool) (r : Int) (t : Arg) :
    Prop where
  ret : r = -1 ↔ b.cmd.args.length ≤ k ∨ AllocFails m b.bytes k addzero
  target : t.Sound
  empty : b.cmd.args[k]? = some [] → addzero = false → r = 0 ∧ t.aplen = 0

/-- `ncmd_getarg` returns, and what it leaves is consistent. -/
def FetchesRight (m : Malloc) (b : Buffered) (t : Arg) (k : Nat) (addzero : Bool) : Prop :=
  ∃ r t', m.ncmdGetarg b.bytes t k addzero = some (r, t') ∧ TellsTrue m b k addzero r t'

/-- Nothing is in the way of fetching the argument `a`, which is the one with index `k`. -/
structure Fetchable (m : Malloc) (b : Buffered) (t : Arg) (k : Nat) (addzero : Bool) (a : Bytes) :
    Prop where
  before : ∀ x ∈ b.cmd.args.take k, x.length < 2 ^ 31
  nonzero : a = [] → addzero = false → t.ap = .null ∧ m.grants 0 = true
  nowrap : addzero = true → a.length ≠ 2 ^ 32 - 1
  sound : t.Sound ∨ (a.length < 2 ^ 31 ∧ m.grants (a.length + addzero.toNat) = true)

/-! ### `realloc` -/

section

variable {m : Malloc} {buf : Bytes} {t : Arg} {i : Nat} {addzero : Bool}

theorem getargAt_refused (ht : t.ap ≠ .freed) (hn : Malloc.argSize buf i addzero ≠ 0)
    (hm : m.grants (Malloc.argSize buf i addzero) = false) :
    m.getargAt buf t i addzero = some (-1, t) := by
  rw [Malloc.getargAt]
  obtain ⟨ap, aplen⟩ := t
  cases ap with
  | null => simp only [Malloc.realloc, hm]
  | blk b => simp only [Malloc.realloc, hn, hm, if_false, Bool.false_eq_true]
  | freed => exact absurd rfl ht

theorem getargAt_granted (ht : t.ap ≠ .freed) (hn : Malloc.argSize buf i addzero ≠ 0)
    (hm : m.grants (Malloc.argSize buf i addzero) = true)
    (hroom : i + 4 + fieldNl (buf.drop i) ≤ buf.length)
    (hfit : fieldNl (buf.drop i) ≤ Malloc.argSize buf i addzero) :
    m.getargAt buf t i addzero = some (0, .blk ((buf.drop (i + 4)).take (fieldNl (buf.drop i))
      ++ (if addzero then [0] else []))) := by
  rw [fieldNl] at hroom hfit ⊢
  rw [Malloc.getargAt]
  obtain ⟨ap, aplen⟩ := t
  cases ap with
  | null => simp only [Malloc.realloc, hm, hroom, hfit, and_self, if_true]
  | blk b => simp only [Malloc.realloc, hn, hm, hroom, hfit, and_self, if_true, if_false]
  | freed => exact absurd rfl ht

/-- A live block is freed by a size of zero. -/
theorem getargAt_zero_blk {b : Bytes} (ht : t.ap = .blk b) (hn : Malloc.argSize buf i addzero = 0) :
    m.getargAt buf t i addzero = some (-1, ⟨.freed, t.aplen⟩) := by
  rw [Malloc.getargAt, ht, hn]
  rfl

/-- `malloc(0)`. -/
theorem getargAt_zero_null (ht : t.ap = .null) (hn : Malloc.argSize buf i addzero = 0) :
    m.getargAt buf t i addzero
      = if m.grants 0 = true then
          (if i + 4 + fieldNl (buf.drop i) ≤ buf.length ∧ fieldNl (buf.drop i) ≤ 0 then
            some (0, .blk ((buf.drop (i + 4)).take (fieldNl (buf.drop i))
              ++ (if addzero then [0] else [])))
          else none)
        else some (-1, t) := by
  obtain ⟨ap, aplen⟩ := t
  subst ht
  rw [Malloc.getargAt, hn]
  cases hm : m.grants 0 <;> simp [Malloc.realloc, hm, fieldNl]

end

/-! ### The walk -/

/-- The walk does not get past an argument of 2^31 bytes or more. -/
theorem skipArgs_stuck (args : List Bytes) :
    ∀ (k : Nat) (pre rest : Bytes), (∀ x ∈ args, x.length < 2 ^ 32) →
      (pre ++ (encodeArgs args ++ rest)).length < 2 ^ 63 → k < args.length →
      (∃ x ∈ args.take k, ¬ x.length < 2 ^ 31) →
      skipArgs (pre ++ (encodeArgs args ++ rest)) k pre.length = none := by
  induction args with
  | nil =>
      intro k pre rest _ _ hk
      simp at hk
  | cons b args ih =>
      intro k pre rest hfits hobj hk hlong
      cases k with
      | zero => simp at hlong
      | succ k =>
          have hhere : (pre ++ (encodeArgs (b :: args) ++ rest)).drop pre.length
              = be32 b.length ++ (b ++ (encodeArgs args ++ rest)) := by
            rw [List.drop_left]
            simp
          rw [skipArgs, if_pos (by simp), hhere]
          by_cases hb : b.length < 2 ^ 31
          · -- this one is passed, and a later one is too long
            have hmem : pre ++ (encodeArgs (b :: args) ++ rest)
                = pre ++ (be32 b.length ++ b) ++ (encodeArgs args ++ rest) := by
              simp
            have hnext : pre.length + (b.length + 4) = (pre ++ (be32 b.length ++ b)).length := by
              simp
              omega
            obtain ⟨x, hx, hxlong⟩ := hlong
            rw [List.take_succ_cons] at hx
            have hx' : x ∈ args.take k := by
              rcases List.mem_cons.mp hx with rfl | hx
              · exact absurd hb hxlong
              · exact hx
            rw [readNl_be32 hb, hnext, hmem]
            rw [hmem] at hobj
            exact ih k _ rest (fun y hy => hfits y (List.mem_cons_of_mem _ hy)) hobj
              (by simpa using hk) ⟨x, hx', hxlong⟩
          · -- the length is taken for one that leads out of the buffer
            have hlt := hfits b List.mem_cons_self
            have hnl := fieldNl_be32 b.length (b ++ (encodeArgs args ++ rest))
            rw [Nat.mod_eq_of_lt hlt, if_neg hb, fieldNl] at hnl
            rw [hnl]
            cases k <;> rw [skipArgs, if_neg (by omega)]

section

variable {m : Malloc} {b : Buffered} {t : Arg} {k i : Nat} {addzero : Bool} {a : Bytes}

theorem Buffered.split (b : Buffered) : b.bytes
    = (be16 b.cmd.op.code.toNat ++ be16 b.cmd.args.length) ++ (encodeArgs b.cmd.args ++ b.behind) := by
  simp [Buffered.bytes, NetCmd.encode]

theorem Buffered.numargs (b : Buffered) : ncmdGetnumargs b.bytes = b.cmd.args.length :=
  readNs_count b.fits.count (take_four_encode b.cmd b.behind).2.1

/-- The walk to the argument with index `k`, which is `a`, ends at the offset `i`. -/
structure Arrived (b : Buffered) (k i : Nat) (a : Bytes) : Prop where
  arg : b.cmd.args[k]? = some a
  walk : skipArgs b.bytes k 4 = some i
  here : ∃ tail, b.bytes.drop i = be32 a.length ++ (a ++ tail)

theorem Buffered.arrives (hbefore : ∀ x ∈ b.cmd.args.take k, x.length < 2 ^ 31)
    (ha : b.cmd.args[k]? = some a) : ∃ i, Arrived b k i a := by
  obtain ⟨i, hi, tail, hdrop⟩ := skipArgs_encodeArgs b.cmd.args k
    (be16 b.cmd.op.code.toNat ++ be16 b.cmd.args.length) b.behind a hbefore ha
  rw [← b.split] at hi hdrop
  exact ⟨i, ha, hi, tail, hdrop⟩

theorem Buffered.stuck (hk : k < b.cmd.args.length)
    (hlong : ∃ x ∈ b.cmd.args.take k, ¬ x.length < 2 ^ 31) : skipArgs b.bytes k 4 = none := by
  have hobj := b.object
  rw [← Buffered.bytes, b.split] at hobj
  have h := skipArgs_stuck b.cmd.args k _ b.behind b.fits.lengths hobj hk hlong
  rwa [← b.split] at h

namespace Arrived

variable (hw : Arrived b k i a)

include hw

theorem index_lt : k < b.cmd.args.length := (List.getElem?_eq_some_iff.mp hw.arg).1

theorem inside : i + 4 + a.length ≤ b.bytes.length := by
  obtain ⟨tail, hdrop⟩ := hw.here
  have hlen := congrArg List.length hdrop
  simp only [List.length_drop, List.length_append, length_be32] at hlen
  omega

theorem copied : (b.bytes.drop (i + 4)).take a.length = a := by
  obtain ⟨tail, hdrop⟩ := hw.here
  rw [← List.drop_drop, hdrop, List.drop_left' (length_be32 _), List.take_left]

theorem ncmdGetarg_eq : m.ncmdGetarg b.bytes t k addzero = m.getargAt b.bytes t i addzero := by
  have hk := hw.index_lt
  rw [Malloc.ncmdGetarg, b.numargs, if_neg (by omega), hw.walk, Option.bind_some]

theorem allocFails_iff : AllocFails m b.bytes k addzero
    ↔ Malloc.argSize b.bytes i addzero ≠ 0 ∧ m.grants (Malloc.argSize b.bytes i addzero) = false := by
  constructor
  · rintro ⟨j, hj, h⟩
    obtain rfl := Option.some.inj (hw.walk.symm.trans hj)
    exact h
  · exact fun h => ⟨i, hw.walk, h⟩

/-- The size that is asked for: that of the argument, or one that is never granted, or zero. -/
theorem argSize_cases (addzero : Bool) :
    (a.length < 2 ^ 31 ∧ fieldNl (b.bytes.drop i) = a.length
        ∧ Malloc.argSize b.bytes i addzero = a.length + addzero.toNat)
      ∨ (¬ a.length < 2 ^ 31 ∧ ¬ (addzero = true ∧ a.length = 2 ^ 32 - 1)
        ∧ 2 ^ 63 ≤ Malloc.argSize b.bytes i addzero)
      ∨ (addzero = true ∧ a.length = 2 ^ 32 - 1 ∧ 0 < fieldNl (b.bytes.drop i)
        ∧ Malloc.argSize b.bytes i addzero = 0) := by
  have ha := b.fits.lengths a (List.mem_of_getElem? hw.arg)
  obtain ⟨tail, hdrop⟩ := hw.here
  have hnl := fieldNl_be32 a.length (a ++ tail)
  rw [← hdrop, Nat.mod_eq_of_lt ha] at hnl
  have hz : addzero.toNat ≤ 1 := Bool.toNat_le addzero
  have hsize : Malloc.argSize b.bytes i addzero = (fieldNl (b.bytes.drop i) + addzero.toNat) % 2 ^ 64 := rfl
  by_cases hs : a.length < 2 ^ 31
  · rw [if_pos hs] at hnl
    exact .inl ⟨hs, hnl, by rw [hsize, hnl]; omega⟩
  · rw [if_neg hs] at hnl
    by_cases hwrap : addzero = true ∧ a.length = 2 ^ 32 - 1
    · obtain ⟨rfl, hmax⟩ := hwrap
      rw [Bool.toNat_true, hnl] at hsize
      exact .inr (.inr ⟨rfl, hmax, by omega, by omega⟩)
    · have hlt : fieldNl (b.bytes.drop i) + addzero.toNat < 2 ^ 64 := by
        cases addzero with
        | true =>
            have : a.length ≠ 2 ^ 32 - 1 := fun h => hwrap ⟨rfl, h⟩
            rw [Bool.toNat_true]
            omega
        | false =>
            rw [Bool.toNat_false]
            omega
      exact .inr (.inl ⟨hs, hwrap, by rw [hsize, Nat.mod_eq_of_lt hlt]; omega⟩)

theorem tellsTrue_refused (hn : Malloc.argSize b.bytes i addzero ≠ 0)
    (hm : m.grants (Malloc.argSize b.bytes i addzero) = false) (hne : addzero = false → a ≠ []) :
    TellsTrue m b k addzero (-1) t ↔ t.Sound := by
  refine ⟨fun h => h.target, fun h => ⟨iff_of_true rfl (.inr (hw.allocFails_iff.mpr ⟨hn, hm⟩)), h, ?_⟩⟩
  intro hempty hz
  exact absurd (Option.some.inj (hw.arg.symm.trans hempty)) (hne hz)

/-- -1 is not true where the argument is there and nothing was asked for. -/
theorem not_tellsTrue_zero (hn : Malloc.argSize b.bytes i addzero = 0) (t : Arg) :
    ¬ TellsTrue m b k addzero (-1) t := by
  intro h
  have hk := hw.index_lt
  rcases h.ret.mp rfl with hle | hfails
  · omega
  · exact (hw.allocFails_iff.mp hfails).1 hn

/-- A fetched argument is told truly. -/
theorem tellsTrue_fetched
    (hm : Malloc.argSize b.bytes i addzero ≠ 0 → m.grants (Malloc.argSize b.bytes i addzero) = true) :
    TellsTrue m b k addzero 0 (.blk (a ++ (if addzero then [0] else []))) := by
  have hk := hw.index_lt
  refine ⟨iff_of_false (by decide) ?_, Nat.le_refl _, fun hempty hz => ⟨rfl, ?_⟩⟩
  · rintro (hle | hfails)
    · omega
    · obtain ⟨hn, hno⟩ := hw.allocFails_iff.mp hfails
      rw [hm hn] at hno
      cases hno
  · obtain rfl := Option.some.inj (hw.arg.symm.trans hempty)
    rw [hz]
    rfl

theorem fetchesRight_iff {r : Int} {t' : Arg} (h : m.getargAt b.bytes t i addzero = some (r, t')) :
    FetchesRight m b t k addzero ↔ TellsTrue m b k addzero r t' := by
  rw [← hw.ncmdGetarg_eq] at h
  constructor
  · rintro ⟨r', t'', h', htells⟩
    obtain ⟨rfl, rfl⟩ := Prod.mk.inj (Option.some.inj (h.symm.trans h'))
    exact htells
  · exact fun htells => ⟨r, t', h, htells⟩

/-- Some bytes are asked for, as many as there are. -/
theorem asked (ht : t.ap ≠ .freed) (hbefore : ∀ x ∈ b.cmd.args.take k, x.length < 2 ^ 31)
    (hshort : a.length < 2 ^ 31) (hfield : fieldNl (b.bytes.drop i) = a.length)
    (hsize : Malloc.argSize b.bytes i addzero = a.length + addzero.toNat)
    (hpos : a.length + addzero.toNat ≠ 0) :
    FetchesRight m b t k addzero ↔ Fetchable m b t k addzero a := by
  have hn : Malloc.argSize b.bytes i addzero ≠ 0 := by rw [hsize]; exact hpos
  have hne : addzero = false → a ≠ [] := by
    rintro rfl rfl
    exact hpos rfl
  have hnonzero : a = [] → addzero = false → t.ap = .null ∧ m.grants 0 = true :=
    fun hempty hz => absurd hempty (hne hz)
  have hnowrap : addzero = true → a.length ≠ 2 ^ 32 - 1 := fun _ => by omega
  cases hm : m.grants (Malloc.argSize b.bytes i addzero) with
  | true =>
      have hgot := getargAt_granted ht hn hm (by rw [hfield]; exact hw.inside)
        (by rw [hfield, hsize]; omega)
      rw [hfield, hw.copied] at hgot
      rw [hw.fetchesRight_iff hgot]
      have hgrant : m.grants (a.length + addzero.toNat) = true := by rw [← hsize]; exact hm
      exact iff_of_true (hw.tellsTrue_fetched fun _ => hm)
        ⟨hbefore, hnonzero, hnowrap, .inr ⟨hshort, hgrant⟩⟩
  | false =>
      rw [hw.fetchesRight_iff (getargAt_refused ht hn hm), hw.tellsTrue_refused hn hm hne]
      rw [hsize] at hm
      refine ⟨fun h => ⟨hbefore, hnonzero, hnowrap, .inl h⟩, fun h => ?_⟩
      rcases h.sound with h | ⟨-, hgrant⟩
      · exact h
      · rw [hm] at hgrant
        cases hgrant

/-- The length is read as one that no object has. -/
theorem too_long (ht : t.ap ≠ .freed) (hbefore : ∀ x ∈ b.cmd.args.take k, x.length < 2 ^ 31)
    (hlong : ¬ a.length < 2 ^ 31) (hwrap : ¬ (addzero = true ∧ a.length = 2 ^ 32 - 1))
    (hsize : 2 ^ 63 ≤ Malloc.argSize b.bytes i addzero) :
    FetchesRight m b t k addzero ↔ Fetchable m b t k addzero a := by
  have hne : a ≠ [] := by
    rintro rfl
    exact hlong (by norm_num)
  have hn : Malloc.argSize b.bytes i addzero ≠ 0 := by omega
  have hm : m.grants (Malloc.argSize b.bytes i addzero) = false := by
    cases hm : m.grants (Malloc.argSize b.bytes i addzero) with
    | true =>
        have := m.bounded _ hm
        omega
    | false => rfl
  rw [hw.fetchesRight_iff (getargAt_refused ht hn hm), hw.tellsTrue_refused hn hm fun _ => hne]
  exact ⟨fun h => ⟨hbefore, fun hempty => absurd hempty hne, fun hz hmax => hwrap ⟨hz, hmax⟩, .inl h⟩,
    fun h => h.sound.resolve_right fun hfits => hlong hfits.1⟩

/-- The size has wrapped to zero. -/
theorem wrapped (ht : t.ap ≠ .freed) (hpos : 0 < fieldNl (b.bytes.drop i))
    (hsize : Malloc.argSize b.bytes i addzero = 0) : ¬ FetchesRight m b t k addzero := by
  cases hap : t.ap with
  | null =>
      have hnull := getargAt_zero_null (m := m) hap hsize
      rw [if_neg (c := _ ∧ _) (by omega)] at hnull
      cases hm : m.grants 0 with
      | true =>
          rw [if_pos hm, ← hw.ncmdGetarg_eq] at hnull
          rintro ⟨r, t', h, -⟩
          rw [hnull] at h
          cases h
      | false =>
          rw [if_neg (by rw [hm]; exact Bool.false_ne_true)] at hnull
          rw [hw.fetchesRight_iff hnull]
          exact hw.not_tellsTrue_zero hsize _
  | blk c =>
      rw [hw.fetchesRight_iff (getargAt_zero_blk hap hsize)]
      exact hw.not_tellsTrue_zero hsize _
  | freed => exact absurd hap ht

end Arrived

/-- No bytes are asked for, for an empty argument. -/
theorem Arrived.nothing (hw : Arrived b k i []) (ht : t.ap ≠ .freed)
    (hbefore : ∀ x ∈ b.cmd.args.take k, x.length < 2 ^ 31) (hfield : fieldNl (b.bytes.drop i) = 0)
    (hsize : Malloc.argSize b.bytes i false = 0) :
    FetchesRight m b t k false ↔ Fetchable m b t k false [] := by
  cases hap : t.ap with
  | null =>
      have hnull := getargAt_zero_null (m := m) hap hsize
      rw [hfield] at hnull
      cases hm : m.grants 0 with
      | true =>
          rw [if_pos hm, if_pos ⟨hw.inside, Nat.le_refl 0⟩] at hnull
          have hsound : t.Sound := by rw [Arg.Sound, hap]; trivial
          rw [hw.fetchesRight_iff hnull]
          exact iff_of_true (hw.tellsTrue_fetched fun hne => absurd hsize hne)
            ⟨hbefore, fun _ _ => ⟨hap, hm⟩, fun h => (by cases h), .inl hsound⟩
      | false =>
          rw [if_neg (by rw [hm]; exact Bool.false_ne_true)] at hnull
          rw [hw.fetchesRight_iff hnull]
          refine iff_of_false (hw.not_tellsTrue_zero hsize _) fun h => ?_
          have hgrant := (h.nonzero rfl rfl).2
          rw [hm] at hgrant
          cases hgrant
  | blk c =>
      rw [hw.fetchesRight_iff (getargAt_zero_blk hap hsize)]
      refine iff_of_false (hw.not_tellsTrue_zero hsize _) fun h => ?_
      have hnull := (h.nonzero rfl rfl).1
      rw [hap] at hnull
      cases hnull
  | freed => exact absurd hap ht

/-- **The argument is there**, and the walk arrives at it. -/
theorem Arrived.fetchesRight (hw : Arrived b k i a) (ht : t.ap ≠ .freed)
    (hbefore : ∀ x ∈ b.cmd.args.take k, x.length < 2 ^ 31) :
    FetchesRight m b t k addzero ↔ Fetchable m b t k addzero a := by
  rcases hw.argSize_cases addzero with
    ⟨hshort, hfield, hsize⟩ | ⟨hlong, hwrap, hsize⟩ | ⟨hz, hmax, hpos, hsize⟩
  · by_cases hzero : a.length + addzero.toNat = 0
    · obtain rfl : a = [] := List.length_eq_zero_iff.mp (by omega)
      obtain rfl : addzero = false := by
        cases addzero with
        | true => rw [Bool.toNat_true] at hzero; omega
        | false => rfl
      exact hw.nothing ht hbefore hfield hsize
    · exact hw.asked ht hbefore hshort hfield hsize hzero
  · exact hw.too_long ht hbefore hlong hwrap hsize
  · exact iff_of_false (hw.wrapped ht hpos hsize) fun h => h.nowrap hz hmax

end

/-! ### Two calls -/

/-- `C_SAY` with one argument of two bytes. -/
def sayHi : Buffered := ⟨⟨.cSay, [[104, 105]]⟩, ⟨by decide, by decide⟩, [], by decide⟩

/-- A command with one empty argument. -/
def sayNothing : Buffered := ⟨⟨.cSay, [[]]⟩, ⟨by decide, by decide⟩, [], by decide⟩

end Smsg
