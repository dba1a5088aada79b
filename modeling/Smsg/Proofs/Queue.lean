/-
The queue: what `mq_add` and `mq_get` make of it.

`mq_add` works once.  A first message goes into a block of the documented format, if the
user has no entry yet; any other message is written four bytes too far, and the entry may
be left with a block that is gone (`mqAdd_right_iff`).  `mq_get` reads two words where it
should read others, and is right when the lengths happen to make up for it
(`mqGet_first_iff`).
-/
import Smsg.Queue
import Smsg.Proofs.Drain
import Smsg.Proofs.Udata

namespace Smsg

open Blocks

/-! ### Numbers in the format -/

theorem readNs_be16 {n : Nat} (h : n < 2 ^ 16) (rest : Bytes) :
    (readNs (be16 n ++ rest)).toNat = n := by
  rw [toNat_readNs _ (by simp), List.take_left' (length_be16 n), beNat_be16 h]

/-- `read_ns` of a stored doubleword reads the upper word. -/
theorem readNs_be32 {n : Nat} (h : n < 2 ^ 32) (rest : Bytes) :
    (readNs (be32 n ++ rest)).toNat = n / 2 ^ 16 := by
  rw [toNat_readNs _ (by simp; omega)]
  show beNat [UInt8.ofNat (n / 2 ^ 24), UInt8.ofNat (n / 2 ^ 16)] = _
  simp only [beNat, List.foldl_cons, List.foldl_nil, UInt8.toNat_ofNat']
  omega

/-! ### The format -/

theorem length_strings (m : Queued) : m.strings.length = m.len := by
  simp only [Queued.strings, Queued.len, List.length_append, List.length_cons, List.length_nil]
  omega

theorem length_record (m : Queued) : m.record.length = m.len + 4 := by
  rw [Queued.record, List.length_append, length_be32, length_strings]
  omega

theorem length_queueLayout (ms : List Queued) : (queueLayout ms).length = queueSize ms := by
  simp only [queueLayout, queueSize, List.length_append, length_be32, length_be16]
  omega

theorem mqStore_eq (qp : Written UInt8) (t : Nat) (m : Queued) :
    mqStore qp t m = qp.write t m.record := by
  have hrecord : [storeNl (BitVec.ofNat 64 (m.len + 4)), m.sendtime.chars ++ [0],
      m.sender.chars ++ [0], m.sourceIp.chars ++ [0], m.msg.chars ++ [0]].flatten = m.record := by
    rw [storeNl_length, Queued.record, length_strings]
    simp [Queued.strings]
  rw [mqStore, writeAll_eq, hrecord]

/-! ### Adding -/

theorem length_block (mem : QueueMem) (old : Bytes) (n : Nat) : (mem.block old n).length = n := by
  simp [QueueMem.block]

theorem take_block (mem : QueueMem) {old : Bytes} {n : Nat} (h : old.length ≤ n) :
    (mem.block old n).take old.length = old := by
  refine List.ext_getElem? fun k => ?_
  rw [List.getElem?_take]
  by_cases hk : k < old.length
  · rw [if_pos hk, QueueMem.block, List.getElem?_map, List.getElem?_range (by omega),
      Option.map_some, List.getD_eq_getElem?_getD, List.getElem?_eq_getElem hk]
    rfl
  · rw [if_neg hk, List.getElem?_eq_none (by omega)]

/-- **The first message goes into a block of the documented format.** -/
theorem mqFirst_layout (mem : QueueMem) (m : Queued) :
    mqFirst mem m = .clean (queueLayout [m]) := by
  have hsize : queueSize [m] = m.len + 10 := by
    rw [queueSize, queueRecords, List.flatMap_singleton, length_record]
    omega
  have hones : storeNs 1 = be16 1 := by decide
  have hall : mqFirst mem m = (Written.clean (mem.block [] (m.len + 10))).write 0
      (be32 (m.len + 10) ++ be16 1 ++ m.record) := by
    rw [mqFirst, mqStore_eq, storeNl_length, hones, ← write_write, ← write_write]
    rfl
  have hfull : (be32 (m.len + 10) ++ be16 1 ++ m.record).length = m.len + 10 := by
    rw [List.length_append, List.length_append, length_be32, length_be16, length_record]
    omega
  have hnone : (mem.block [] (m.len + 10)).drop (0 + (m.len + 10)) = [] :=
    List.drop_of_length_le (by rw [length_block]; omega)
  rw [hall, write_fits (by rw [hfull]; simp [Written.clean, length_block]), hfull]
  show (⟨_ ++ (_ ++ (mem.block [] (m.len + 10)).drop _), []⟩ : Written UInt8) = ⟨queueLayout [m], []⟩
  rw [hnone, List.append_nil, List.take_zero, List.nil_append, queueLayout, hsize, queueRecords,
    List.flatMap_singleton, List.append_assoc]
  rfl

/-- **Another message is written four bytes too far.** -/
theorem mqNext_spill (mem : QueueMem) {qp : Bytes} {m : Queued} (hqp : 6 ≤ qp.length)
    (hsize : (readNl qp).toNat = qp.length) (hlen : qp.length + m.len + 4 < 2 ^ 64) :
    (mqNext mem qp m).spill.length = 4 := by
  have hsum : (readNl qp + BitVec.ofNat 64 m.len).toNat = qp.length + m.len := by
    rw [BitVec.toNat_add, BitVec.toNat_ofNat, hsize]
    omega
  set new := mem.block qp (qp.length + m.len) with hnew
  have hblock : new.length = qp.length + m.len := length_block _ _ _
  have hread : readNl new = readNl qp := by
    have htake : new.take qp.length = qp := take_block mem (by omega)
    have hsplit : new = qp ++ new.drop qp.length := by
      rw [← htake, List.length_take, min_eq_left (by omega), List.take_append_drop]
    have hget : ∀ k, k < 4 → new.getD k 0 = qp.getD k 0 := by
      intro k hk
      rw [hsplit, List.getD_eq_getElem?_getD, List.getElem?_append_left (by omega),
        List.getD_eq_getElem?_getD]
    simp only [readNl, intByte, hget 0 (by omega), hget 1 (by omega), hget 2 (by omega),
      hget 3 (by omega)]
  have hspill : ∀ (w : Written UInt8) (i : Nat) (b : Bytes), i + b.length ≤ w.block.length →
      (w.write i b).spill = w.spill := by
    intro w i b h
    rw [write_fits h]
  rw [mqNext, hsum, mqStore_eq, length_spill, length_write, length_write, hspill, hspill]
  · show 0 + (m.record.length - (new.length - (readNl new).toNat)) = 4
    rw [hread, hsize, hblock, length_record]
    omega
  · show 0 + (storeNl _).length ≤ new.length
    rw [hblock, storeNl_eq, length_be32]
    omega
  · rw [length_write]
    show 4 + (storeNs _).length ≤ new.length
    rw [hblock, storeNs_eq, length_be16]
    omega

section

variable {alloc : Alloc} {mem : QueueMem} {u : Udata} {user : CString} {m : Queued} {e : UdataEnt}

theorem udataGetQp_set (h : u.udataGet (some user) = some e) (q : Ptr) :
    (u.udataSetQp alloc user q).2.udataGetQp (some user) = q := by
  rw [Udata.udataSetQp, h]
  show (u.modify user _).udataGetQp (some user) = q
  rw [Udata.udataGetQp, Udata.udataGet_modify_self h]

theorem udataGet_of_queue {b : Bytes} (h : u.udataGetQp (some user) = .blk b) :
    ∃ e, u.udataGet (some user) = some e ∧ e.queue = .blk b := by
  cases hget : u.udataGet (some user) with
  | none => simp [Udata.udataGetQp, hget] at h
  | some e => exact ⟨e, rfl, by simpa [Udata.udataGetQp, hget] using h⟩

/-- A user that has an entry and no queue does not get one. -/
theorem mqAppend_known (h : u.udataGet (some user) = some e)
    (hq : u.udataGetQp (some user) = .null) : mqAppend alloc mem u user m = .ok (-1, u, none) := by
  have hadd : u.udataAdd alloc { udataDefEntry with user := some user } = (-1, u) := by
    rcases u.udataAdd_cases alloc { udataDefEntry with user := some user } with hfail | hnew
    · exact hfail
    · obtain ⟨v, hv, hnone, -⟩ := hnew
      obtain rfl : user = v := Option.some.inj hv
      rw [h] at hnone
      simp at hnone
  simp only [mqAppend, hq, hadd, show (-1 : Int) ≠ 0 by decide, ne_eq, not_false_eq_true, if_true]

/-- A user that has no entry gets one, with the message in its queue. -/
theorem mqAppend_new (h : u.udataGet (some user) = none) (halloc : alloc.full = true)
    (hmet : ∀ n, mem.met n = true) :
    ∃ u', mqAppend alloc mem u user m = .ok (0, u', some (.clean (queueLayout [m]))) ∧
      u'.udataGetQp (some user) = .blk (queueLayout [m]) := by
  have hmem : Udata.addAlloc alloc { udataDefEntry with user := some user } = true := by
    simp only [Alloc.full, Bool.and_eq_true] at halloc
    obtain ⟨⟨⟨⟨⟨h₁, h₂⟩, h₃⟩, h₄⟩, -⟩, -⟩ := halloc
    simp [Udata.addAlloc, h₁, h₂, h₃, h₄]
  obtain ⟨hret, hents⟩ := Udata.udataAdd_new rfl h hmem
  set added := u.udataAdd alloc { udataDefEntry with user := some user } with hadded
  have hent : added.2.udataGet (some user)
      = some (Udata.newEnt user { udataDefEntry with user := some user }) :=
    Udata.udataGet_of_mem (e := Udata.newEnt user { udataDefEntry with user := some user })
      (by rw [hents]; exact List.mem_append_right _ List.mem_cons_self)
  have hq : u.udataGetQp (some user) = .null := by rw [Udata.udataGetQp, h]
  have hq' : added.2.udataGetQp (some user) = .null := by
    rw [Udata.udataGetQp, hent]
    rfl
  refine ⟨(added.2.udataSetQp alloc user (.blk (queueLayout [m]))).2, ?_, udataGetQp_set hent _⟩
  simp only [mqAppend, hq, ← hadded, hret, ne_eq, not_true_eq_false, if_false, hq', hmet, if_true,
    mqFirst_layout]
  rfl

theorem mqAppend_more {qp : Bytes} (hq : u.udataGetQp (some user) = .blk qp)
    (hmet : ∀ n, mem.met n = true) :
    ∃ u', mqAppend alloc mem u user m = .ok (0, u', some (mqNext mem qp m)) := by
  simp only [mqAppend, hq, ne_eq, not_true_eq_false, if_false, hmet, if_true]
  exact ⟨_, rfl⟩

/-- Behind a first message nothing is right. -/
theorem not_right_again {past : Queued} {c : QueueCall} {calls : List QueueCall}
    (hq : u.udataGetQp (some user) = .blk (queueLayout [past])) (hmet : c.Met)
    (hpast : queueSize [past] < 2 ^ 31) (hlen : c.msg.len < 2 ^ 31) :
    ¬ QueuesRight user u [past] (c :: calls) := by
  intro hright
  obtain ⟨u', qp, hadd, hspill, -⟩ := hright
  obtain ⟨u'', hmore⟩ : ∃ u'', mqAppend c.alloc c.mem u user c.msg
      = .ok (0, u'', some (mqNext c.mem (queueLayout [past]) c.msg)) := mqAppend_more hq hmet.mem
  have hqp : qp = mqNext c.mem (queueLayout [past]) c.msg := by
    have heq := hmore.symm.trans hadd
    simp only [Except.ok.injEq, Prod.mk.injEq, Option.some.injEq] at heq
    exact heq.2.2.symm
  have hfour : (mqNext c.mem (queueLayout [past]) c.msg).spill.length = 4 :=
    mqNext_spill c.mem ?_ ?_ ?_
  · rw [← hqp, hspill] at hfour
    simp at hfour
  · rw [length_queueLayout, queueSize]
    omega
  · rw [length_queueLayout, queueLayout, readNl_be32 hpast]
  · rw [length_queueLayout]
    omega

/-- Two messages are one too many. -/
theorem not_right_two {c c' : QueueCall} {calls : List QueueCall} (hmet' : c'.Met)
    (hsize : queueSize [c.msg, c'.msg] < 2 ^ 31) :
    ¬ QueuesRight user u [] (c :: c' :: calls) := by
  intro hright
  obtain ⟨u', qp, -, -, hblock, hptr, hrest⟩ := hright
  have hlens : queueSize [c.msg, c'.msg] = 6 + (c.msg.len + 4) + (c'.msg.len + 4) := by
    simp only [queueSize, queueRecords, List.flatMap_cons, List.flatMap_nil, List.length_append,
      length_record, List.length_nil]
    omega
  have hone : queueSize [c.msg] = 6 + (c.msg.len + 4) := by
    simp only [queueSize, queueRecords, List.flatMap_singleton, length_record]
  rw [hblock] at hptr
  exact not_right_again hptr hmet' (by omega) (by omega) hrest

/--
**`mq_add` is right for one message, to a user that has no entry.**  With memory for
everything, starting from no queue and for messages that fit a block below 2^31 bytes:
the calls leave a queue of the documented format, in the block the entry points to and
with nothing written outside of it, if and only if there is no call, or one for a user
that the store does not know.
-/
theorem mqAdd_right_iff {calls : List QueueCall} (hq : u.udataGetQp (some user) = .null)
    (hmet : ∀ c ∈ calls, c.Met) (hsize : queueSize (calls.map (·.msg)) < 2 ^ 31) :
    QueuesRight user u [] calls ↔
      calls = [] ∨ (calls.length = 1 ∧ u.udataGet (some user) = none) := by
  cases calls with
  | nil => exact ⟨fun _ => Or.inl rfl, fun _ => trivial⟩
  | cons c calls =>
      have hc := hmet c List.mem_cons_self
      cases hget : u.udataGet (some user) with
      | some e =>
          -- there is an entry: nothing is queued
          constructor
          · intro hright
            obtain ⟨u', qp, hadd, -⟩ := hright
            have hfail := (mqAppend_known hget hq).symm.trans hadd
            simp at hfail
          · intro hcond
            simp at hcond
      | none =>
          cases calls with
          | nil =>
              obtain ⟨u', hadd, hptr⟩ := mqAppend_new (m := c.msg) hget hc.alloc hc.mem
              exact ⟨fun _ => Or.inr ⟨rfl, rfl⟩, fun _ => ⟨u', _, hadd, rfl, rfl, hptr, trivial⟩⟩
          | cons c' calls =>
              have hc' := hmet c' (by simp)
              have hsize' : queueSize [c.msg, c'.msg] < 2 ^ 31 := by
                refine lt_of_le_of_lt ?_ hsize
                simp only [queueSize, queueRecords, List.map_cons, List.flatMap_cons,
                  List.flatMap_nil, List.length_append, List.length_nil]
                omega
              constructor
              · exact fun hright => absurd hright (not_right_two hc' hsize')
              · intro hcond
                simp at hcond

end

/-- A short message. -/
def Queued.short : Queued :=
  ⟨⟨[49], by decide⟩, ⟨[98], by decide⟩, ⟨[50], by decide⟩, ⟨[104, 105], by decide⟩⟩

/-- A call for it with memory for everything. -/
def QueueCall.short : QueueCall := ⟨.short, fun _ => true, ⟨fun _ => true, true, fun _ => 0⟩⟩

theorem QueueCall.met_short : QueueCall.short.Met := ⟨rfl, fun _ => rfl⟩

/-- One message for a user that has no entry. -/
theorem mqAdd_right_one : QueuesRight ⟨[97], by decide⟩ .empty [] [.short] :=
  (mqAdd_right_iff (u := .empty) rfl
    (fun c hc => by rw [List.mem_singleton.mp hc]; exact QueueCall.met_short) (by decide)).mpr
    (Or.inr ⟨rfl, rfl⟩)

/-- Two messages for a user that has no entry. -/
theorem not_right_two_short : Udata.udataGetQp .empty (some ⟨[97], by decide⟩) = .null ∧
    QueueCall.short.Met ∧ queueSize [Queued.short, .short] = 32 ∧
    ¬ QueuesRight ⟨[97], by decide⟩ .empty [] [.short, .short] :=
  ⟨rfl, QueueCall.met_short, by decide, not_right_two QueueCall.met_short (by decide)⟩

/-! ### Taking -/

theorem storeNl_mod {v : BitVec 64} {n : Nat} (h : v.toNat % 2 ^ 32 = n % 2 ^ 32) :
    storeNl v = be32 n := by
  rw [storeNl_eq, ← be32_mod, h, be32_mod]

theorem readNl_mod {n : Nat} (h : n < 2 ^ 32) (rest : Bytes) :
    (readNl (be32 n ++ rest)).toNat % 2 ^ 32 = n := by
  have hval : beNat ((be32 n ++ rest).take 4) = n := by
    rw [List.take_left' (length_be32 n), beNat_be32 h]
  have hint := toInt_readNl (be32 n ++ rest) (by simp)
  rw [sbe32, hval, BitVec.toInt_eq_toNat_cond] at hint
  have hlt := (readNl (be32 n ++ rest)).isLt
  split at hint <;> split at hint <;> omega

/-- A doubleword of 2^31 or more is read as an enormous number. -/
theorem readNl_large {n : Nat} (h : 2 ^ 31 ≤ n) (hn : n < 2 ^ 32) (rest : Bytes) :
    (readNl (be32 n ++ rest)).toNat = 2 ^ 64 - 2 ^ 32 + n := by
  have hval : beNat ((be32 n ++ rest).take 4) = n := by
    rw [List.take_left' (length_be32 n), beNat_be32 hn]
  have hint := toInt_readNl (be32 n ++ rest) (by simp)
  rw [sbe32, hval, BitVec.toInt_eq_toNat_cond] at hint
  have hlt := (readNl (be32 n ++ rest)).isLt
  split at hint <;> split at hint <;> omega

theorem queueRecords_cons (m : Queued) (ms : List Queued) :
    queueRecords (m :: ms) = m.record ++ queueRecords ms := by
  rw [queueRecords, List.flatMap_cons, queueRecords]

theorem queueSize_cons (m : Queued) (ms : List Queued) :
    queueSize (m :: ms) = m.record.length + queueSize ms := by
  rw [queueSize, queueSize, queueRecords_cons, List.length_append]
  omega

section

variable {m : Queued} {rest : List Queued}

/-- The fields at the front, set for one message less. -/
theorem mqHeader_layout (hsize : queueSize (m :: rest) < 2 ^ 32) (hcount : rest.length + 1 < 2 ^ 16) :
    mqHeader (queueLayout (m :: rest))
      = be32 (queueSize rest) ++ (be16 rest.length ++ queueRecords (m :: rest)) := by
  have hcons := queueSize_cons m rest
  have hrecord : m.record.length < 2 ^ 32 := by omega
  have hdrop4 : (queueLayout (m :: rest)).drop 4
      = be16 (rest.length + 1) ++ queueRecords (m :: rest) := rfl
  have hdrop6 : (queueLayout (m :: rest)).drop 6 = queueRecords (m :: rest) := rfl
  have hfirst : queueRecords (m :: rest)
      = be32 m.record.length ++ (m.strings ++ queueRecords rest) := by
    rw [queueRecords_cons, length_record, Queued.record, length_strings, List.append_assoc]
  have hnl : storeNl (readNl (queueLayout (m :: rest)) - readNl (queueRecords (m :: rest)))
      = be32 (queueSize rest) := by
    refine storeNl_mod ?_
    have h₁ := readNl_mod hsize (be16 (m :: rest).length ++ queueRecords (m :: rest))
    have h₂ := readNl_mod hrecord (m.strings ++ queueRecords rest)
    rw [← hfirst] at h₂
    rw [← queueLayout] at h₁
    have hlt₁ := (readNl (queueLayout (m :: rest))).isLt
    have hlt₂ := (readNl (queueRecords (m :: rest))).isLt
    rw [BitVec.toNat_sub]
    omega
  have hns : storeNs (readNs (be16 (rest.length + 1) ++ queueRecords (m :: rest)) - 1)
      = be16 rest.length := by
    have hread := readNs_be16 hcount (queueRecords (m :: rest))
    rw [storeNs_eq, BitVec.toNat_sub, hread]
    congr 1
    show (2 ^ 16 - 1 + (rest.length + 1)) % 2 ^ 16 = rest.length
    omega
  rw [mqHeader, hdrop4, hdrop6, hnl, hns]

theorem readNs_records (hsize : queueSize (m :: rest) < 2 ^ 32) :
    (readNs (queueRecords (m :: rest))).toNat = m.record.length / 2 ^ 16 := by
  have hcons := queueSize_cons m rest
  rw [queueRecords_cons, Queued.record, List.append_assoc, readNs_be32]
  · rw [List.length_append, length_be32]
    omega
  · rw [length_record] at hcons
    rw [length_strings]
    omega

/-- What is moved to the front, in a queue that is below 2^31 bytes then. -/
theorem mqShift_layout (hsize : queueSize (m :: rest) < 2 ^ 32)
    (hcount : rest.length + 1 < 2 ^ 16) (hsmall : queueSize rest < 2 ^ 31) :
    ∃ b, mqShift (queueLayout (m :: rest)) = some b ∧ b.take (readNl b).toNat
      = be32 (queueSize rest) ++ (be16 rest.length ++
        ((queueRecords (m :: rest)).drop (m.record.length / 2 ^ 16)).take
          (queueRecords rest).length) := by
  set R := queueRecords (m :: rest) with hR
  set h := m.record.length / 2 ^ 16 with hh
  set k := (queueRecords rest).length with hk
  have hlenR : R.length = m.record.length + k := by rw [hR, queueRecords_cons, List.length_append]
  have hle : h ≤ m.record.length := Nat.div_le_self _ _
  have hheader := mqHeader_layout hsize hcount
  have hcountR : (readNl (mqHeader (queueLayout (m :: rest))) - 6).toNat = k := by
    have hread := readNl_be32 hsmall (be16 rest.length ++ R)
    rw [← hheader] at hread
    rw [BitVec.toNat_sub, hread, queueSize]
    show (2 ^ 64 - 6 + (6 + k)) % 2 ^ 64 = k
    rw [queueSize] at hsmall
    omega
  have hfront : ∀ j, (be32 (queueSize rest) ++ (be16 rest.length ++ R)).drop (6 + j) = R.drop j := by
    intro j
    rw [← List.drop_drop]
    rfl
  have hmove : mqShift (queueLayout (m :: rest)) = some (be32 (queueSize rest) ++
      (be16 rest.length ++ ((R.drop h).take k ++ R.drop k))) := by
    have hlen : (mqHeader (queueLayout (m :: rest))).length = 6 + R.length := by
      rw [hheader, ← hR, List.length_append, List.length_append, length_be32, length_be16]
      omega
    have hdrop : (mqHeader (queueLayout (m :: rest))).drop 6 = R := by rw [hheader]; rfl
    have hword : (readNs R).toNat = h := readNs_records hsize
    rw [mqShift, hcountR, hdrop, hword, move_inside (by omega) (by omega), hheader, hfront, hfront]
    rfl
  refine ⟨_, hmove, ?_⟩
  rw [readNl_be32 hsmall]
  have hkeep : (be32 (queueSize rest) ++ (be16 rest.length ++ ((R.drop h).take k ++ R.drop k))).take
      (6 + k) = be32 (queueSize rest) ++ (be16 rest.length ++ ((R.drop h).take k ++ R.drop k).take k) := by
    rw [Nat.add_comm]
    rfl
  have hexact : ((R.drop h).take k).length = k := by
    rw [List.length_take, List.length_drop]
    omega
  refine hkeep.trans ?_
  rw [List.take_append_of_le_length (by omega), List.take_of_length_le (by omega)]

/-- A queue that is still larger than that is moved from outside of its block. -/
theorem mqShift_large (hsize : queueSize (m :: rest) < 2 ^ 32)
    (hcount : rest.length + 1 < 2 ^ 16) (hlarge : 2 ^ 31 ≤ queueSize rest) :
    mqShift (queueLayout (m :: rest)) = none := by
  have hcons := queueSize_cons m rest
  have hheader := mqHeader_layout hsize hcount
  have hread := readNl_large hlarge (by omega) (be16 rest.length ++ queueRecords (m :: rest))
  have hlen : (mqHeader (queueLayout (m :: rest))).length = queueSize (m :: rest) := by
    have hall : queueSize (m :: rest) = 6 + (queueRecords (m :: rest)).length := rfl
    rw [hheader, hall, List.length_append, List.length_append, length_be32, length_be16]
    omega
  rw [← hheader] at hread
  refine if_neg fun hfits => ?_
  have hcountR : (readNl (mqHeader (queueLayout (m :: rest))) - 6).toNat
      = 2 ^ 64 - 2 ^ 32 + queueSize rest - 6 := by
    rw [BitVec.toNat_sub, hread]
    show (2 ^ 64 - 6 + (2 ^ 64 - 2 ^ 32 + queueSize rest)) % 2 ^ 64 = _
    omega
  rw [hlen, hcountR] at hfits
  omega

/-- Reading a string out of a block, and going on behind it. -/
theorem drop_string {b tail : Bytes} {t : Nat} {s : CString} (h : b.drop t = s.chars ++ 0 :: tail) :
    cstr (b.drop t) = s ∧ b.drop (t + s.chars.length + 1) = tail := by
  refine ⟨by rw [h, cstr_terminated], ?_⟩
  rw [Nat.add_assoc, ← List.drop_drop, h, ← List.drop_drop, List.drop_left]
  rfl

variable {env : Env} {u : Udata} {user : CString}

/-- What `mq_get` sets its variables to. -/
def getVars (m : Queued) (rest : List Queued) : MqVars :=
  ⟨some m.msg, some m.sendtime, some m.sender, some m.sourceIp, queueSize (m :: rest) / 2 ^ 16⟩

/-- `mq_get` reads the four strings, and then takes the message out of the block. -/
theorem mqGet_layout (hq : u.udataGetQp (some user) = .blk (queueLayout (m :: rest)))
    (hmet : env.QueueMet) (hsize : queueSize (m :: rest) < 2 ^ 32) (hcount : rest.length + 1 < 2 ^ 16) :
    (rest = [] → mqGet env u user
      = .ok (0, getVars m rest, (u.udataSetQp env.alloc user .null).2)) ∧
    (rest ≠ [] → ∀ b, mqShift (queueLayout (m :: rest)) = some b → mqGet env u user
      = .ok (0, getVars m rest,
          (u.udataSetQp env.alloc user (.blk (b.take (readNl b).toNat))).2)) ∧
    (rest ≠ [] → mqShift (queueLayout (m :: rest)) = none →
      mqGet env u user = .error .outsideBlock) := by
  have hstart : (queueLayout (m :: rest) ++ env.beyond).drop 10 = m.sendtime.chars ++ 0 ::
      (m.sender.chars ++ 0 :: (m.sourceIp.chars ++ 0 :: (m.msg.chars ++ 0 ::
        (queueRecords rest ++ env.beyond)))) := by
    have hrecord : (queueLayout (m :: rest) ++ env.beyond).drop 10
        = m.strings ++ (queueRecords rest ++ env.beyond) := by
      rw [queueLayout, queueRecords_cons, Queued.record, List.append_assoc, List.append_assoc,
        List.append_assoc, List.append_assoc]
      rfl
    rw [hrecord, Queued.strings]
    simp
  obtain ⟨htime, hstart⟩ := drop_string hstart
  obtain ⟨hsender, hstart⟩ := drop_string hstart
  obtain ⟨hip, hstart⟩ := drop_string hstart
  obtain ⟨hmsg, -⟩ := drop_string hstart
  have hleft : (readNs (queueLayout (m :: rest))).toNat = queueSize (m :: rest) / 2 ^ 16 :=
    readNs_be32 hsize _
  have hany : ((List.range 4).any fun k => !env.dupQueue k) = false := by
    refine List.any_eq_false.mpr fun k _ => ?_
    rw [hmet k]
    decide
  have hnum : readNs ((queueLayout (m :: rest)).drop 4) = 1 ↔ rest = [] := by
    have hread : (readNs ((queueLayout (m :: rest)).drop 4)).toNat = rest.length + 1 :=
      readNs_be16 hcount _
    constructor
    · intro hone
      rw [hone] at hread
      exact List.eq_nil_of_length_eq_zero (Nat.succ.inj hread).symm
    · intro hnil
      refine BitVec.eq_of_toNat_eq ?_
      rw [hread, hnil]
      rfl
  refine ⟨?_, ?_, ?_⟩
  · intro hnil
    simp only [mqGet, hq, htime, hsender, hip, hmsg, hleft, hany, Bool.false_eq_true, if_false,
      hnum, if_pos hnil, getVars]
  · intro hne b hb
    simp only [mqGet, hq, htime, hsender, hip, hmsg, hleft, hany, Bool.false_eq_true, if_false,
      hnum, if_neg hne, hb, hmet 4, if_true, getVars]
  · intro hne hb
    simp only [mqGet, hq, htime, hsender, hip, hmsg, hleft, hany, Bool.false_eq_true, if_false,
      hnum, if_neg hne, hb]

theorem queueLayout_iff (ms : List Queued) (records : Bytes) :
    be32 (queueSize ms) ++ (be16 ms.length ++ records) = queueLayout ms ↔
      records = queueRecords ms := by
  rw [queueLayout, List.append_cancel_left_eq, List.append_cancel_left_eq]

/-- **One call, and when it is right.** -/
theorem getsFirst_iff (hq : u.udataGetQp (some user) = .blk (queueLayout (m :: rest)))
    (hmet : env.QueueMet) (hsize : queueSize (m :: rest) < 2 ^ 32) (hcount : rest.length + 1 < 2 ^ 16) :
    (∃ u', GetsFirst env u user m rest u') ↔ GetFits (m :: rest) := by
  obtain ⟨e, hent, -⟩ := udataGet_of_queue hq
  obtain ⟨hlast, hmore, hfault⟩ := mqGet_layout hq hmet hsize hcount
  have hvars : ∀ {u₁ u' : Udata}, mqGet env u user = .ok (0, getVars m rest, u₁) →
      GetsFirst env u user m rest u' →
      queueSize (m :: rest) / 2 ^ 16 = rest.length ∧ u' = u₁ := by
    intro u₁ u' hget hfirst
    have heq := hget.symm.trans hfirst.1
    simp only [getVars, Except.ok.injEq, Prod.mk.injEq, MqVars.mk.injEq, true_and] at heq
    exact ⟨heq.1, heq.2.symm⟩
  have hgive : ∀ {u' : Udata}, mqGet env u user = .ok (0, getVars m rest, u') →
      queueSize (m :: rest) / 2 ^ 16 = rest.length → mqGet env u user
        = .ok (0, ⟨some m.msg, some m.sendtime, some m.sender, some m.sourceIp, rest.length⟩, u') := by
    intro u' hget hleft
    rw [hget, getVars, hleft]
  by_cases hnil : rest = []
  · have hget := hlast hnil
    constructor
    · intro hright
      obtain ⟨u', hfirst⟩ := hright
      exact ⟨(hvars hget hfirst).1, Or.inl hnil⟩
    · intro hfits
      refine ⟨_, hgive hget hfits.1, ?_⟩
      rw [if_pos hnil]
      exact udataGetQp_set hent .null
  · by_cases hsmall : queueSize rest < 2 ^ 31
    · obtain ⟨b, hb, htake⟩ := mqShift_layout hsize hcount hsmall
      have hget := hmore hnil b hb
      have hptr : (u.udataSetQp env.alloc user (.blk (b.take (readNl b).toNat))).2.udataGetQp
          (some user) = .blk (b.take (readNl b).toNat) := udataGetQp_set hent _
      constructor
      · intro hright
        obtain ⟨u', hfirst⟩ := hright
        obtain ⟨hleft, rfl⟩ := hvars hget hfirst
        have hqueue := hfirst.2
        rw [if_neg hnil, hptr, Ptr.blk.injEq, htake, queueLayout_iff] at hqueue
        exact ⟨hleft, Or.inr ⟨hsmall, hqueue⟩⟩
      · intro hfits
        obtain ⟨hleft, hcase⟩ := hfits
        obtain ⟨-, hrecords⟩ := hcase.resolve_left hnil
        refine ⟨_, hgive hget hleft, ?_⟩
        rw [if_neg hnil, hptr, Ptr.blk.injEq, htake, queueLayout_iff]
        exact hrecords
    · have hlarge := mqShift_large hsize hcount (by omega)
      constructor
      · intro hright
        obtain ⟨u', hfirst⟩ := hright
        have heq := (hfault hnil hlarge).symm.trans hfirst.1
        simp at heq
      · intro hfits
        obtain ⟨hsmall', -⟩ := hfits.2.resolve_left hnil
        exact absurd hsmall' hsmall

end

theorem Env.queueMet_bare : Env.bare.QueueMet := fun _ => rfl

/-- As many calls as there are messages. -/
theorem fifo_iff (ms : List Queued) : ∀ {u : Udata} {user : CString},
    (u.udataGetQp (some user) = if ms = [] then .null else .blk (queueLayout ms)) →
    queueSize ms < 2 ^ 32 → ms.length < 2 ^ 16 →
    (Fifo user u ms ↔ ∀ later, later <:+ ms → GetFits later) := by
  induction ms with
  | nil =>
      intro u user hq _ _
      refine ⟨fun _ later hsuffix => ?_, fun _ => hq⟩
      rw [List.suffix_nil.mp hsuffix]
      trivial
  | cons m rest ih =>
      intro u user hq hsize hcount
      rw [if_neg (List.cons_ne_nil m rest)] at hq
      have hcons := queueSize_cons m rest
      have hrest : ∀ {env : Env} {u' : Udata}, GetsFirst env u user m rest u' →
          (Fifo user u' rest ↔ ∀ later, later <:+ rest → GetFits later) := by
        intro env u' hfirst
        exact ih hfirst.2 (by omega) (by simp only [List.length_cons] at hcount; omega)
      constructor
      · intro hfifo later hsuffix
        obtain ⟨u', hfirst, hlater⟩ := hfifo .bare Env.queueMet_bare
        rcases List.suffix_cons_iff.mp hsuffix with rfl | hsuffix
        · exact (getsFirst_iff hq Env.queueMet_bare hsize hcount).mp ⟨u', hfirst⟩
        · exact (hrest hfirst).mp hlater later hsuffix
      · intro hall env hmet
        obtain ⟨u', hfirst⟩ :=
          (getsFirst_iff hq hmet hsize hcount).mpr (hall _ (List.suffix_refl _))
        refine ⟨u', hfirst, (hrest hfirst).mpr fun later hsuffix => ?_⟩
        exact hall later (hsuffix.trans (List.suffix_cons m rest))

/--
**`mq_get` is right when the lengths make up for the words it reads.**  For a queue of the
documented format and with memory for everything: a call returns the first message, says
how many are left and leaves these, if and only if the lengths fit; and as many calls as
there are messages return them in order if and only if that holds for every queue on the
way.
-/
theorem mqGet_first_iff {u : Udata} {user : CString} {m : Queued} {rest : List Queued}
    (hq : u.udataGetQp (some user) = .blk (queueLayout (m :: rest)))
    (hsize : queueSize (m :: rest) < 2 ^ 32) (hcount : (m :: rest).length < 2 ^ 16) :
    (∀ env : Env, env.QueueMet →
      ((∃ u', GetsFirst env u user m rest u') ↔ GetFits (m :: rest))) ∧
    (Fifo user u (m :: rest) ↔ ∀ later, later <:+ m :: rest → GetFits later) := by
  refine ⟨fun env hmet => getsFirst_iff hq hmet hsize hcount, fifo_iff _ ?_ hsize hcount⟩
  rw [if_neg (List.cons_ne_nil m rest)]
  exact hq

/-- A store with a queue of these messages for the user `a`. -/
def Udata.queued (ms : List Queued) : Udata :=
  ⟨[⟨⟨[97], by decide⟩, ttysetUnset, -1, -1, .blk (queueLayout ms), -1, none, 0⟩],
    List.nodup_singleton _⟩

theorem udataGetQp_queued (ms : List Queued) :
    (Udata.queued ms).udataGetQp (some ⟨[97], by decide⟩) = .blk (queueLayout ms) := by
  simp [Udata.udataGetQp, Udata.udataGet, Udata.queued]

/-- The last message of a queue. -/
theorem mqGet_first_one :
    ∃ u', GetsFirst .bare (.queued [.short]) ⟨[97], by decide⟩ .short [] u' :=
  ((mqGet_first_iff (udataGetQp_queued [.short]) (by decide) (by decide)).1 .bare
    Env.queueMet_bare).mpr ⟨by decide, Or.inl rfl⟩

/-- The first of two short messages: none is said to be left. -/
theorem not_first_of_two : (Udata.queued [.short, .short]).udataGetQp (some ⟨[97], by decide⟩)
      = .blk (queueLayout [.short, .short]) ∧
    ¬ ∃ u', GetsFirst .bare (.queued [.short, .short]) ⟨[97], by decide⟩ .short [.short] u' := by
  refine ⟨udataGetQp_queued _, fun hright => ?_⟩
  have hfits := (getsFirst_iff (udataGetQp_queued _) Env.queueMet_bare (by decide)
    (by decide)).mp hright
  exact absurd hfits.1 (by decide)

end Smsg
