/-
`ncmd_add` when memory may be missing.

What `ncmd_set` and any number of calls of `ncmd_add` leave in the buffer is always the
encoding of all the arguments (`Built.buf_eq`): the count and the lengths are cut off where
they do not fit their fields, and nothing else goes wrong.  So a buffer decodes to its
arguments exactly when nothing was cut off (`decodeCmd_encode_iff`).  How large a length may
be depends on who reads it: `read_nl` is right below 2^31, and the protocol below 2^32.
-/
import Smsg.Malloc
import Smsg.Proofs.Drain

namespace Smsg

/-! ### Reading a length field -/

/-- A way to read a length field that is right below `limit` and nowhere else. -/
def ReadsBelow (len : Bytes → Nat) (limit : Nat) : Prop :=
  ∀ n rest, n < 2 ^ 63 → (len (be32 n ++ rest) = n ↔ n < limit)

theorem fieldDoc_be32 (n : Nat) (rest : Bytes) : fieldDoc (be32 n ++ rest) = n % 2 ^ 32 := by
  rw [fieldDoc, List.take_left' (length_be32 n), ← be32_mod, beNat_be32 (Nat.mod_lt _ (by norm_num))]

/-- What `read_nl` makes of a field: with the top bit set, the upper half is all ones. -/
theorem fieldNl_be32 (n : Nat) (rest : Bytes) : fieldNl (be32 n ++ rest)
    = if n % 2 ^ 32 < 2 ^ 31 then n % 2 ^ 32 else 2 ^ 64 - 2 ^ 32 + n % 2 ^ 32 := by
  have hdoc : beNat ((be32 n ++ rest).take 4) = n % 2 ^ 32 := fieldDoc_be32 n rest
  have hint := toInt_readNl (be32 n ++ rest) (by simp)
  have hlt := (readNl (be32 n ++ rest)).isLt
  rw [sbe32, hdoc, BitVec.toInt_eq_toNat_cond] at hint
  rw [fieldNl]
  split at hint <;> split at hint <;> split <;> omega

theorem fieldDoc_reads : ReadsBelow fieldDoc (2 ^ 32) := by
  intro n rest _
  rw [fieldDoc_be32]
  omega

theorem fieldNl_reads : ReadsBelow fieldNl (2 ^ 31) := by
  intro n rest hn
  rw [fieldNl_be32]
  split <;> omega

/-! ### Decoding what was encoded -/

section

variable {len : Bytes → Nat} {limit : Nat} {args : List Bytes} {a : Bytes}

theorem decodeArgs_cons (n : Nat) (hlen : len (be32 a.length ++ (a ++ encodeArgs args)) = a.length) :
    decodeArgs len (n + 1) (encodeArgs (a :: args)) = (decodeArgs len n (encodeArgs args)).map (a :: ·) := by
  rw [encodeArgs_cons, decodeArgs, hlen, if_neg (by simp), if_neg (by simp)]
  rw [← List.drop_drop, List.drop_left' (length_be32 _), List.drop_left, List.take_left]

/-- One argument that is decoded to itself: its length was read right. -/
theorem length_of_decodeArgs {n : Nat} {rest : List Bytes}
    (h : decodeArgs len (n + 1) (encodeArgs (a :: args)) = some (a :: rest)) :
    len (be32 a.length ++ (a ++ encodeArgs args)) = a.length := by
  rw [encodeArgs_cons, decodeArgs] at h
  split at h
  · cases h
  · split at h
    · cases h
    · rename_i hroom
      obtain ⟨more, -, hcons⟩ := Option.map_eq_some_iff.mp h
      have hlen := congrArg List.length (List.cons.inj hcons).1
      rw [List.drop_left' (length_be32 _), List.length_take] at hlen
      rw [List.length_append, length_be32] at hroom
      omega

theorem decodeArgs_encodeArgs_iff (hreads : ReadsBelow len limit) (args : List Bytes)
    (hsize : ∀ a ∈ args, a.length < 2 ^ 63) :
    decodeArgs len args.length (encodeArgs args) = some args ↔ ∀ a ∈ args, a.length < limit := by
  induction args with
  | nil => simp [decodeArgs]
  | cons a args ih =>
      have ha := hsize a List.mem_cons_self
      have hrest := ih fun x hx => hsize x (List.mem_cons_of_mem _ hx)
      have hfield := hreads a.length (a ++ encodeArgs args) ha
      rw [List.forall_mem_cons, ← hrest, ← hfield, List.length_cons]
      constructor
      · intro h
        have hlen := length_of_decodeArgs h
        rw [decodeArgs_cons _ hlen] at h
        obtain ⟨more, hmore, hcons⟩ := Option.map_eq_some_iff.mp h
        exact ⟨hlen, by rw [hmore, (List.cons.inj hcons).2]⟩
      · rintro ⟨hlen, h⟩
        rw [decodeArgs_cons _ hlen, h]
        rfl

theorem length_of_decodeArgs_some : ∀ (n : Nat) (b : Bytes) {args : List Bytes},
    decodeArgs len n b = some args → args.length = n := by
  intro n
  induction n with
  | zero =>
      intro b args h
      rw [decodeArgs] at h
      split at h
      · obtain rfl := Option.some.inj h
        rfl
      · cases h
  | succ n ih =>
      intro b args h
      rw [decodeArgs] at h
      split at h
      · cases h
      · split at h
        · cases h
        · obtain ⟨more, hmore, rfl⟩ := Option.map_eq_some_iff.mp h
          rw [List.length_cons, ih _ hmore]

/-- **A command decodes to its arguments** exactly when the count and the lengths fit. -/
theorem decodeCmd_encode_iff (hreads : ReadsBelow len limit) (c : NetCmd)
    (hsize : ∀ a ∈ c.args, a.length < 2 ^ 63) :
    decodeCmd len c.encode = some c.args ↔ c.args.length < 2 ^ 16 ∧ ∀ a ∈ c.args, a.length < limit := by
  obtain ⟨-, hcount, hargs⟩ := take_four_encode c []
  rw [List.append_nil] at hcount hargs
  rw [List.append_nil] at hargs
  have hnum : ncmdGetnumargs c.encode = c.args.length % 2 ^ 16 := readNs_count_mod hcount
  rw [decodeCmd, if_neg (Nat.not_lt.mpr c.four_le_length), hnum, hargs,
    ← decodeArgs_encodeArgs_iff hreads c.args hsize]
  constructor
  · intro h
    have hlen := length_of_decodeArgs_some _ _ h
    have hlt : c.args.length < 2 ^ 16 := by omega
    rw [Nat.mod_eq_of_lt hlt] at h
    exact ⟨hlt, h⟩
  · rintro ⟨hlt, h⟩
    rw [Nat.mod_eq_of_lt hlt]
    exact h

end

/-! ### Building a command -/

/-- The buffers that `ncmd_set` and calls of `ncmd_add` that return 0 produce. -/
inductive Built (m : Malloc) (ncmd : NCMDOp) : List (Option Bytes) → Bytes → Prop
  | set : Built m ncmd [] (ncmdSet ncmd)
  | add {args : List (Option Bytes)} {buf buf' : Bytes} {s : Option Bytes}
      (h : Built m ncmd args buf) (hadd : m.ncmdAdd buf s = (0, buf')) : Built m ncmd (args ++ [s]) buf'

section

variable {m : Malloc} {ncmd : NCMDOp} {args : List (Option Bytes)} {buf buf' : Bytes} {s : Option Bytes}

theorem Malloc.ncmdAdd_granted (h : m.grants (buf.length + 4 + (s.getD []).length) = true) :
    m.ncmdAdd buf s = (0, Smsg.ncmdAdd buf s) := if_pos h

theorem Malloc.ncmdAdd_refused (h : m.grants (buf.length + 4 + (s.getD []).length) = false) :
    m.ncmdAdd buf s = (-1, buf) := if_neg (by rw [h]; exact Bool.false_ne_true)

theorem Malloc.ncmdAdd_ok (h : m.ncmdAdd buf s = (0, buf')) :
    m.grants (buf.length + 4 + (s.getD []).length) = true ∧ buf' = Smsg.ncmdAdd buf s := by
  rw [Malloc.ncmdAdd] at h
  split at h
  · rename_i hm
    exact ⟨hm, (Prod.mk.inj h).2.symm⟩
  · have hbad := (Prod.mk.inj h).1
    omega

/-- **The buffer is the encoding of all the arguments**, whatever their number and size. -/
theorem Built.buf_eq (h : Built m ncmd args buf) :
    buf = (⟨ncmd, args.map (·.getD [])⟩ : NetCmd).encode := by
  induction h with
  | set => exact ncmdSet_eq ncmd
  | add h hadd ih =>
      rw [(Malloc.ncmdAdd_ok hadd).2, ih, ncmdAdd_encode]
      simp [NetCmd.add]

theorem Built.length_lt (h : Built m ncmd args buf) : buf.length < 2 ^ 63 := by
  cases h with
  | set => exact Nat.lt_of_le_of_lt (Nat.le_of_eq rfl) (by norm_num : 4 < 2 ^ 63)
  | @add args buf₀ buf' s h hadd =>
      obtain ⟨hgrant, rfl⟩ := Malloc.ncmdAdd_ok hadd
      have hlen : (Smsg.ncmdAdd buf₀ s).length = buf₀.length + 4 + (s.getD []).length := by
        rw [h.buf_eq, ncmdAdd_encode, NetCmd.length_encode, NetCmd.length_encode]
        simp [NetCmd.add, encodeArgs]
        omega
      rw [hlen]
      exact m.bounded _ hgrant

theorem Built.length_arg_lt (h : Built m ncmd args buf) :
    ∀ a ∈ args.map (·.getD []), a.length < 2 ^ 63 := by
  intro a ha
  have hle := length_le_encodeArgs ha
  have hlt := h.length_lt
  rw [h.buf_eq, NetCmd.length_encode] at hlt
  have hargs : (encodeArgs (args.map (·.getD []))).length < 2 ^ 63 :=
    Nat.lt_of_le_of_lt (Nat.le_add_left _ 4) hlt
  omega

/-- The buffer is what it was, with -1, or decodes to the arguments and the new one. -/
def AddsOrRefuses (m : Malloc) (len : Bytes → Nat) (args : List (Option Bytes)) (buf : Bytes)
    (s : Option Bytes) : Prop :=
  m.ncmdAdd buf s = (-1, buf) ∨ ∃ buf', m.ncmdAdd buf s = (0, buf')
    ∧ decodeCmd len buf' = some ((args ++ [s]).map (·.getD []))

theorem addsOrRefuses_ok {len : Bytes → Nat} (hok : m.ncmdAdd buf s = (0, buf')) :
    AddsOrRefuses m len args buf s ↔ decodeCmd len buf' = some ((args ++ [s]).map (·.getD [])) := by
  rw [AddsOrRefuses, hok]
  constructor
  · rintro (hbad | ⟨buf', hbuf, hd⟩)
    · have := (Prod.mk.inj hbad).1
      omega
    · rw [(Prod.mk.inj hbuf).2]
      exact hd
  · exact fun hd => .inr ⟨_, rfl, hd⟩

theorem addsOrRefuses_iff {len : Bytes → Nat} {limit : Nat} (hreads : ReadsBelow len limit)
    (h : Built m ncmd args buf) (s : Option Bytes) :
    AddsOrRefuses m len args buf s ↔ m.grants (buf.length + 4 + (s.getD []).length) = false
      ∨ (args.length < 65535 ∧ ∀ a ∈ args ++ [s], (a.getD []).length < limit) := by
  cases hgrant : m.grants (buf.length + 4 + (s.getD []).length) with
  | false => exact iff_of_true (.inl (Malloc.ncmdAdd_refused hgrant)) (.inl rfl)
  | true =>
      have hok := Malloc.ncmdAdd_granted hgrant
      have hbuilt := Built.add h hok
      have hdecode := decodeCmd_encode_iff hreads ⟨ncmd, (args ++ [s]).map (·.getD [])⟩
        hbuilt.length_arg_lt
      rw [← hbuilt.buf_eq] at hdecode
      rw [addsOrRefuses_ok hok, hdecode]
      simp only [List.length_map, List.length_append, List.length_singleton, List.forall_mem_map]
      constructor
      · rintro ⟨hcount, hall⟩
        exact .inr ⟨by omega, hall⟩
      · rintro (hbad | ⟨hcount, hall⟩)
        · cases hbad
        · exact ⟨by omega, hall⟩

/--
**`ncmd_add` keeps header and body consistent** exactly as long as there is room in the
fields: fewer than 65535 arguments before, and lengths below 2^31 for a receiver that uses
`read_nl`, or below 2^32 for one that goes by the protocol.
-/
theorem adds_iff (h : Built m ncmd args buf) (s : Option Bytes) :
    (AddsOrRefuses m fieldNl args buf s ↔ m.grants (buf.length + 4 + (s.getD []).length) = false
        ∨ (args.length < 65535 ∧ ∀ a ∈ args ++ [s], (a.getD []).length < 2 ^ 31))
      ∧ (AddsOrRefuses m fieldDoc args buf s ↔ m.grants (buf.length + 4 + (s.getD []).length) = false
        ∨ (args.length < 65535 ∧ ∀ a ∈ args ++ [s], (a.getD []).length < 2 ^ 32)) :=
  ⟨addsOrRefuses_iff fieldNl_reads h s, addsOrRefuses_iff fieldDoc_reads h s⟩

end

/-- Everything that an object can be is granted. -/
def Malloc.ample : Malloc := ⟨fun n => decide (n < 2 ^ 63), fun _ h => of_decide_eq_true h⟩

/-- A third argument, behind an empty one and one of a byte. -/
theorem adds_third : ∃ buf buf', Built .ample .cSay [none, some [97]] buf ∧
    Malloc.ample.ncmdAdd buf (some [104, 105]) = (0, buf') ∧
    decodeCmd fieldNl buf' = some [[], [97], [104, 105]] := by
  have hbuilt : Built .ample .cSay ([] ++ [none] ++ [some [97]]) _ :=
    (Built.set.add (Malloc.ncmdAdd_granted (by decide))).add (Malloc.ncmdAdd_granted (by decide))
  have hadd : Malloc.ample.ncmdAdd (ncmdAdd (ncmdAdd (ncmdSet .cSay) none) (some [97]))
      (some [104, 105]) = (0, _) := Malloc.ncmdAdd_granted (by decide)
  have hadds := (adds_iff hbuilt (some [104, 105])).1.mpr (.inr ⟨by decide, by decide⟩)
  exact ⟨_, _, hbuilt, hadd, (addsOrRefuses_ok hadd).mp hadds⟩

theorem length_encodeArgs_empty (n : Nat) : (encodeArgs (List.replicate n [])).length = 4 * n := by
  induction n with
  | zero => rfl
  | succ n ih =>
      rw [List.replicate_succ, encodeArgs_cons, List.length_append, length_be32, List.nil_append, ih]
      omega

/-- Empty arguments, as many as one likes. -/
theorem built_empty (ncmd : NCMDOp) (n : Nat) (hn : n < 2 ^ 60) :
    ∃ buf, Built .ample ncmd (List.replicate n none) buf ∧ Malloc.ample.grants (buf.length + 4) = true := by
  have hroom : ∀ k buf, k < 2 ^ 60 → Built .ample ncmd (List.replicate k none) buf →
      Malloc.ample.grants (buf.length + 4) = true := by
    intro k buf hk h
    refine decide_eq_true ?_
    rw [h.buf_eq, NetCmd.length_encode, List.map_replicate, Option.getD_none, length_encodeArgs_empty]
    omega
  induction n with
  | zero => exact ⟨_, Built.set, hroom 0 _ hn Built.set⟩
  | succ n ih =>
      obtain ⟨buf, h, hgrant⟩ := ih (by omega)
      have hmore := Built.add h (Malloc.ncmdAdd_granted (s := none) hgrant)
      rw [← List.replicate_succ'] at hmore
      exact ⟨_, hmore, hroom _ _ hn hmore⟩

/-- With the 65536th argument the count is zero again, whichever way a length is read. -/
theorem not_adds : ¬ ∀ (m : Malloc) (ncmd : NCMDOp) (args : List (Option Bytes)) (buf : Bytes)
    (s : Option Bytes), Built m ncmd args buf →
      AddsOrRefuses m fieldNl args buf s ∨ AddsOrRefuses m fieldDoc args buf s := by
  intro hall
  obtain ⟨buf, h, hgrant⟩ := built_empty .cSay 65535 (by norm_num)
  have hfull : ∀ {len : Bytes → Nat} {limit : Nat}, ReadsBelow len limit →
      ¬ AddsOrRefuses .ample len (List.replicate 65535 none) buf none := by
    intro len limit hreads hadds
    rcases (addsOrRefuses_iff hreads h none).mp hadds with hrefused | ⟨hcount, -⟩
    · rw [Option.getD_none, List.length_nil, Nat.add_zero, hgrant] at hrefused
      cases hrefused
    · rw [List.length_replicate] at hcount
      omega
  rcases hall .ample .cSay _ buf none h with hadds | hadds
  · exact hfull fieldNl_reads hadds
  · exact hfull fieldDoc_reads hadds

end Smsg
