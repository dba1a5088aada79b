/-
What a client gets of the stream that follows its join.

The first bytes are read in `chatter`, with one receive, and what they have behind the
`ACK` is thrown away.  That is seen from the lengths alone: a command is read right only
if just its bytes are removed with it (`ncmdIscomplete_read`), so the commands that are
read take as many bytes as were received in `chatter_func` (`receiveAll_length`).
-/
import Smsg.Client
import Smsg.Proofs.Drain

namespace Smsg

/-- `chatter` takes the answer for an `ACK`, and `chatter_func` reads these commands and
nothing else. -/
def Joins (cmds : List NetCmd) (chunks : List Bytes) : Prop :=
  chatter chunks = some (.ack, cmds.map NetCmd.read, [])

/-! ### What is removed with a command that is read right -/

section

variable {buf rest : Bytes}

/-- A doubleword below 2^32 that `read_nl` returns has not been widened. -/
theorem toInt_readNl_of_lt {n : Nat} (h : (readNl buf).toNat = n) (hn : n < 2 ^ 32) :
    (readNl buf).toInt = n := by
  rw [BitVec.toInt_eq_toNat_of_lt (by rw [h]; omega), h]

/-- If every argument is found where `ncmd_getarg` looks for it, `ncmd_iscomplete` walks
over all of them. -/
theorem scan_found (args : List Bytes) : ∀ (i : Nat), i ≤ buf.length →
    (∀ (k : Nat) (a : Bytes), args[k]? = some a → a.length < 2 ^ 32 ∧
      ∃ j, skipArgs buf k i = some j ∧ (readNl (buf.drop j)).toNat = a.length ∧
        j + 4 + a.length ≤ buf.length) →
    scan buf args.length i = some (toCInt ((i + (encodeArgs args).length : Nat) : Int)) := by
  induction args with
  | nil =>
      intro i _ _
      simp [scan]
  | cons a args ih =>
      intro i hi h
      obtain ⟨ha, j, hj, hread, hroom⟩ := h 0 a rfl
      -- the first argument is found at once
      simp only [skipArgs, Option.ite_none_right_eq_some, Option.some.injEq] at hj
      obtain ⟨hfour, rfl⟩ := hj
      have hrest := ih (i + (a.length + 4)) (by omega) fun k b hb => by
        obtain ⟨hlt, j, hj, hfound⟩ := h (k + 1) b hb
        rw [skipArgs, if_pos hfour, hread] at hj
        exact ⟨hlt, j, hj, hfound⟩
      rw [List.length_cons, scan, if_neg (by omega), if_neg (by omega)]
      simp only [Int.toNat_natCast, toInt_readNl_of_lt hread ha]
      rw [if_neg (by omega), show (i : Int) + ((a.length : Int) + 4)
        = ((i + (a.length + 4) : Nat) : Int) by omega, hrest]
      congr 3
      rw [encodeArgs_cons, List.length_append, List.length_append, length_be32]
      omega

/-- An argument that is fetched right is found. -/
theorem found_of_getarg {k : Nat} {a : Bytes}
    (h : ncmdGetarg buf .null k true = some (0, .blk (a ++ [0]))) :
    ∃ j, skipArgs buf k 4 = some j ∧ (readNl (buf.drop j)).toNat = a.length ∧
      j + 4 + a.length ≤ buf.length := by
  rcases ncmdGetarg_cases h with ⟨-, hr, -⟩ | ⟨j, hskip, hroom, hcase⟩
  · simp at hr
  · rcases hcase with ⟨hr, -⟩ | ⟨-, heq⟩
    · simp at hr
    · simp only [if_true, Arg.blk, Arg.mk.injEq, Ptr.blk.injEq, List.append_cancel_right_eq] at heq
      have hlen := congrArg List.length heq.1
      rw [List.length_take, List.length_drop] at hlen
      exact ⟨j, hskip, by omega, by omega⟩

/-- **With a command that is read right, its length is removed**, as far as an `int` holds it. -/
theorem ncmdIscomplete_read {c : NetCmd} (hc : c.Fits) (hbuf : 4 ≤ buf.length)
    (h : readCmd buf = c.read) : ncmdIscomplete buf = some (toCInt c.encode.length) := by
  have hnum : (readNs (buf.drop 2)).toNat = c.args.length := congrArg (·.numargs) h
  have hscan := scan_found c.args 4 hbuf fun k a ha => by
    have harg : ncmdGetarg buf .null k true = c.getarg .null k true := congrArg (·.arg k) h
    rw [NetCmd.getarg, ha] at harg
    exact ⟨hc.lengths a (List.mem_of_getElem? ha), found_of_getarg harg⟩
  rw [ncmdIscomplete, if_neg (by omega), hnum, c.length_encode]
  exact hscan

end

/-! ### The bytes of a stream -/

/-- How many bytes are removed with commands that are read right. -/
def removed (cmds : List NetCmd) : Int := (cmds.map fun c => toCInt c.encode.length).sum

@[simp] theorem removed_nil : removed [] = 0 := rfl

theorem removed_cons (c : NetCmd) (cmds : List NetCmd) :
    removed (c :: cmds) = toCInt c.encode.length + removed cmds := by
  rw [removed, List.map_cons, List.sum_cons]
  rfl

theorem removed_append (cmds cmds' : List NetCmd) :
    removed (cmds ++ cmds') = removed cmds + removed cmds' := by
  rw [removed, List.map_append, List.sum_append]
  rfl

theorem drainLoop_length (fuel : Nat) : ∀ {buf rest : Bytes} {cmds : List NetCmd},
    (∀ c ∈ cmds, c.Fits) → drainLoop fuel buf = some (cmds.map NetCmd.read, rest) →
      (buf.length : Int) = removed cmds + rest.length := by
  induction fuel with
  | zero => intro buf rest cmds _ h; simp [drainLoop] at h
  | succ fuel ih =>
      intro buf rest cmds hcmds h
      simp only [drainLoop, Option.bind_eq_bind, Option.bind_eq_some_iff] at h
      obtain ⟨k, hk, h⟩ := h
      split at h
      · rw [Option.some.injEq, Prod.mk.injEq] at h
        obtain rfl : cmds = [] := List.map_eq_nil_iff.mp h.1.symm
        rw [h.2]
        simp
      · rename_i hne
        simp only [Option.bind_eq_some_iff] at h
        obtain ⟨⟨r, buf'⟩, hremove, ⟨log, rest'⟩, hloop, h⟩ := h
        simp only [Option.some.injEq, Prod.mk.injEq] at h
        obtain ⟨hlog, rfl⟩ := h
        cases cmds with
        | nil => simp at hlog
        | cons c cmds =>
            obtain ⟨hread, rfl⟩ := List.cons.inj hlog
            have hbuf : 4 ≤ buf.length := by
              by_contra hshort
              rw [ncmdIscomplete, if_pos (by omega), Option.some.injEq] at hk
              exact hne hk.symm
            have hsize := ncmdIscomplete_read (hcmds c List.mem_cons_self) hbuf hread
            rw [hk, Option.some.injEq] at hsize
            have hle := ncmdIscomplete_le hk
            -- so many bytes are removed
            rw [ncmdRemove, hk, removeFront, Option.bind_eq_bind, Option.bind_some, if_neg hne] at hremove
            split at hremove
            · simp at hremove
            · rw [Option.some.injEq, Prod.mk.injEq] at hremove
              have hrest := ih (fun d hd => hcmds d (List.mem_cons_of_mem _ hd)) hloop
              rw [← hremove.2, List.length_drop] at hrest
              rw [removed_cons, ← hsize]
              omega

/-- **The commands that are read take as many bytes as were received.** -/
theorem receiveAll_length (chunks : List Bytes) : ∀ {buf rest : Bytes} {cmds : List NetCmd},
    (∀ c ∈ cmds, c.Fits) → receiveAll chunks buf = some (cmds.map NetCmd.read, rest) →
      (buf.length + chunks.flatten.length : Int) = removed cmds + rest.length := by
  induction chunks with
  | nil =>
      intro buf rest cmds _ h
      rw [receiveAll, Option.some.injEq, Prod.mk.injEq] at h
      obtain rfl : cmds = [] := List.map_eq_nil_iff.mp h.1.symm
      rw [h.2]
      simp
  | cons c chunks ih =>
      intro buf rest cmds hcmds h
      simp only [receiveAll, Option.bind_eq_bind, Option.bind_eq_some_iff] at h
      obtain ⟨⟨log, buf'⟩, hreceive, ⟨log', rest'⟩, hall, h⟩ := h
      simp only [Option.some.injEq, Prod.mk.injEq] at h
      obtain ⟨hlog, rfl⟩ := h
      obtain ⟨cmds₁, cmds₂, rfl, rfl, rfl⟩ := List.map_eq_append_iff.mp hlog.symm
      have hhere := drainLoop_length _ (fun d hd => hcmds d (List.mem_append_left _ hd)) hreceive
      have hlater : (buf'.length + chunks.flatten.length : Int) = removed cmds₂ + rest'.length :=
        ih (fun d hd => hcmds d (List.mem_append_right _ hd)) hall
      rw [recvbuf, List.length_append] at hhere
      rw [List.flatten_cons, List.length_append, removed_append]
      omega

/-- A length from 2^31 on comes out at least 2^32 too small. -/
theorem toCInt_wrapped {i : Int} (hi : 2 ^ 31 ≤ i) : toCInt i ≤ i - 2 ^ 32 := by
  rw [toCInt, BitVec.toInt_ofInt, Int.bmod_def]
  split <;> omega

theorem removed_le (cmds : List NetCmd) :
    removed cmds ≤ (cmds.map NetCmd.encode).flatten.length := by
  induction cmds with
  | nil => simp
  | cons c cmds ih =>
      have hle := toCInt_le (i := c.encode.length) (by omega)
      rw [removed_cons, List.map_cons, List.flatten_cons, List.length_append]
      omega

/-- If fewer than 2^32 bytes are missing, none are, and every command is short. -/
theorem short_of_removed {cmds : List NetCmd}
    (h : ((cmds.map NetCmd.encode).flatten.length : Int) < removed cmds + 2 ^ 32) :
    removed cmds = (cmds.map NetCmd.encode).flatten.length ∧
      ∀ c ∈ cmds, c.encode.length < 2 ^ 31 := by
  induction cmds with
  | nil => exact ⟨rfl, by simp⟩
  | cons c cmds ih =>
      have hle := toCInt_le (i := c.encode.length) (by omega)
      have hrest := removed_le cmds
      rw [removed_cons, List.map_cons, List.flatten_cons, List.length_append] at h ⊢
      have hc : c.encode.length < 2 ^ 31 := by
        by_contra hlong
        have := toCInt_wrapped (i := c.encode.length) (by omega)
        omega
      obtain ⟨heq, hall⟩ := ih (by omega)
      refine ⟨by rw [heq, toCInt_small hc]; omega, ?_⟩
      intro d hd
      rcases List.mem_cons.mp hd with rfl | hd
      · exact hc
      · exact hall d hd

/-! ### The answer -/

theorem four_le_of_ack {rbuf : Bytes} (h : chatterAnswer rbuf = some .ack) : 4 ≤ rbuf.length := by
  by_contra hshort
  rw [chatterAnswer, ncmdIscomplete, if_pos (by omega)] at h
  simp at h

/-- What is left behind the answer is thrown away. -/
theorem chatter_ack {c : Bytes} {cs : List Bytes} {log : List Read} {rest : Bytes}
    (h : chatter (c :: cs) = some (.ack, log, rest)) :
    4 ≤ c.length ∧ receiveAll cs [] = some (log, rest) := by
  simp only [chatter, Option.bind_eq_bind, Option.bind_eq_some_iff] at h
  obtain ⟨answer, hanswer, h⟩ := h
  split at h
  · simp at h
  · simp only [Option.bind_eq_some_iff, Option.some.injEq, Prod.mk.injEq] at h
    obtain ⟨-, -, ⟨log', rest'⟩, hall, rfl, rfl, rfl⟩ := h
    exact ⟨four_le_of_ack hanswer, hall⟩

/--
**Nothing of the stream behind a join is lost if and only if the first receive gets the
`ACK` and not a byte more**, as long as every command is shorter than 2^31 bytes.
-/
theorem joins_iff {cmds : List NetCmd} (hcmds : ∀ c ∈ cmds, c.Fits) {chunks : List Bytes}
    (hchunks : ∀ c ∈ chunks, 0 < c.length ∧ c.length ≤ Loop.rlen)
    (hflat : chunks.flatten
      = (NetCmd.set .ack).encode ++ (cmds.map NetCmd.encode).flatten) :
    Joins cmds chunks ↔ chunks.head? = some (NetCmd.set .ack).encode ∧
      ∀ c ∈ cmds, c.encode.length < 2 ^ 31 := by
  cases chunks with
  | nil => simp [NetCmd.encode, be16] at hflat
  | cons c cs =>
      rw [List.flatten_cons] at hflat
      rw [List.head?_cons, Option.some.injEq]
      constructor
      · intro h
        obtain ⟨hfour, hall⟩ := chatter_ack h
        have hlen := receiveAll_length cs hcmds hall
        have hsize := (hchunks c List.mem_cons_self).2
        have hrlen : Loop.rlen = 1023 := rfl
        have hack : (NetCmd.set .ack).encode.length = 4 := rfl
        have hsum := congrArg List.length hflat
        rw [List.length_append, List.length_append, hack] at hsum
        simp only [List.length_nil, Nat.cast_zero] at hlen
        have hfew : ((cmds.map NetCmd.encode).flatten.length : Int) < removed cmds + 2 ^ 32 := by
          omega
        obtain ⟨hremoved, hshort⟩ := short_of_removed hfew
        exact ⟨(List.append_inj hflat (by omega)).1, hshort⟩
      · intro h
        obtain ⟨rfl, hshort⟩ := h
        have hall := receiveAll_whole (fun d hd => ⟨(hcmds d hd).count, hshort d hd⟩)
          (List.append_cancel_left hflat)
        have hanswer : chatterAnswer (NetCmd.set .ack).encode = some .ack := by decide
        have hremove : ncmdRemove (NetCmd.set .ack).encode = some (0, []) := by decide
        rw [Joins, chatter, hanswer, Option.bind_eq_bind, Option.bind_some]
        simp only [hremove, hall, Option.bind_eq_bind, Option.bind_some]

/-- A command that comes by itself. -/
theorem joins_apart : Joins [.set .cWho] [(NetCmd.set .ack).encode, (NetCmd.set .cWho).encode] :=
  (joins_iff (by intro c hc; rw [List.mem_singleton.mp hc]; exact ⟨by decide, by simp⟩)
    (by decide) rfl).mpr ⟨rfl, by decide⟩

/-- A command that comes in one piece with the answer. -/
theorem not_joins_coalesced : ¬ ∀ cmds : List NetCmd, (∀ c ∈ cmds, c.Fits) →
    ∀ chunks : List Bytes, (∀ c ∈ chunks, 0 < c.length ∧ c.length ≤ Loop.rlen) →
      chunks.flatten = (NetCmd.set .ack).encode ++ (cmds.map NetCmd.encode).flatten →
      Joins cmds chunks := by
  intro h
  have hjoins := h [.set .cWho] (by intro c hc; rw [List.mem_singleton.mp hc]; exact ⟨by decide, by simp⟩)
    [(NetCmd.set .ack).encode ++ (NetCmd.set .cWho).encode] (by decide) rfl
  have hnone := (chatter_ack hjoins).2
  simp [receiveAll] at hnone

end Smsg
