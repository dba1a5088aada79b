/-
The list of the users of the system is a list of groups.

Three lists are compared.  The loop of `getUserlist` is a pass that keeps a summary for
each user, so that it returns `userlistOf` (`getUserlist_spec`).  The array goes along with
that list record by record (`step_mirrors`), as long as no number gets too large for 32
bits: `count` would wrap, and so would `n+1` in front of `realloc`.  Where one does, the
array is not what it ought to be (`cells_right_iff`).
-/
import Smsg.Userlist
import Smsg.Proofs.Terminals

namespace Smsg

open Blocks Groups

variable {recs : List Utmp} {r : Utmp} {user : Option CString} {list : List UserlistEnt}
  {e : UserlistEnt} {v : UserlistVars} {mem : NewMem}

/-! ### The pass over the records -/

/-- The entry that is made for a record. -/
def entOf (r : Utmp) : UserlistEnt :=
  ⟨r.user, cstr (text "/dev/" ++ (r.utLine.take utxLinesize ++ [0])), 1, r.sec⟩

/-- The entry of somebody who is counted once more. -/
def UserlistEnt.again (e : UserlistEnt) : UserlistEnt := { e with count := e.count + 1 }

/-- The entries that the pass makes. -/
def listFor (user : Option CString) (recs : List Utmp) : List UserlistEnt :=
  groups Utmp.user entOf UserlistEnt.again (recs.filter (Utmp.counted user))

theorem name_entOf (r : Utmp) : (entOf r).name = r.user := rfl

theorem UserlistEnt.name_again (e : UserlistEnt) : e.again.name = e.name := rfl

/-- One record. -/
theorem userlistRec_put (user : Option CString) (list : List UserlistEnt) (r : Utmp) :
    userlistRec (fun _ => true) user list r = some (if r.counted user then
      put Utmp.user UserlistEnt.name entOf UserlistEnt.again list r else list) := by
  have hany : (list.any fun e => e.name == r.user) = decide (r.user ∈ list.map (·.name)) := by
    rw [Bool.eq_iff_iff, List.any_eq_true, decide_eq_true_eq, List.mem_map]
    simp only [beq_iff_eq]
  have hrec : userlistRec (fun _ => true) user list r =
      if !r.userProcess || r.user.chars == [] then some list
      else if user.isSome && user != some r.user then some list
      else if list.any (fun e => e.name == r.user) then
        some (list.map fun e => if e.name = r.user then e.again else e)
      else some (list ++ [entOf r]) := rfl
  have hput : (if decide (r.user ∈ list.map (·.name)) = true then
        some (list.map fun e => if e.name = r.user then e.again else e)
      else some (list ++ [entOf r]))
      = some (put Utmp.user UserlistEnt.name entOf UserlistEnt.again list r) := by
    rw [put, apply_ite some]
    simp only [decide_eq_true_eq]
  rw [hrec, hany, hput, Utmp.counted]
  by_cases hproc : r.userProcess && r.user.chars != []
  · have hproc' : (!r.userProcess || r.user.chars == []) = false := by
      simpa [bne, Bool.and_eq_true] using hproc
    rw [hproc', hproc, Bool.true_and]
    cases user with
    | none => simp
    | some u =>
        by_cases hu : u = r.user
        · simp [hu]
        · simp [hu]
  · have hproc' : (!r.userProcess || r.user.chars == []) = true := by
      simpa [bne, Bool.and_eq_true, imp_iff_not_or] using hproc
    have hproc'' : (r.userProcess && r.user.chars != []) = false := by simpa using hproc
    rw [hproc', hproc'']
    simp

theorem listFor_concat (user : Option CString) (recs : List Utmp) (r : Utmp) :
    listFor user (recs ++ [r]) = if r.counted user then
      put Utmp.user UserlistEnt.name entOf UserlistEnt.again (listFor user recs) r
    else listFor user recs := by
  rw [listFor, List.filter_append, List.filter_singleton]
  cases hc : r.counted user with
  | true => exact groups_concat name_entOf UserlistEnt.name_again
  | false => exact congrArg _ (List.append_nil _)

theorem foldlM_userlistRec (user : Option CString) (recs : List Utmp) :
    recs.foldlM (userlistRec (fun _ => true) user) [] = some (listFor user recs) := by
  induction recs using List.reverseRecOn with
  | nil => rfl
  | append_singleton recs r ih =>
      rw [List.foldlM_append, ih, listFor_concat]
      simp only [Option.bind_eq_bind, Option.bind_some, List.foldlM_cons, List.foldlM_nil,
        userlistRec_put]
      rfl

/-! ### The entries -/

theorem counted_some (r : Utmp) (u : CString) :
    r.counted (some u) = (r.counted none && decide (r.user = u)) := by
  have heq : (some u == some r.user) = decide (r.user = u) := by
    rw [Bool.eq_iff_iff, beq_iff_eq, decide_eq_true_eq, Option.some.injEq, eq_comm]
  simp only [Utmp.counted, Option.isNone_none, Bool.true_or, Bool.and_true, Option.isNone_some,
    Bool.false_or, heq]

theorem group_counted (recs : List Utmp) (u : CString) :
    group Utmp.user (recs.filter (Utmp.counted none)) u = recordsOf recs u := by
  rw [group, List.filter_filter, recordsOf]
  refine List.filter_congr fun r _ => ?_
  rw [counted_some, Bool.and_comm]

/-- The summary of some records. -/
theorem summary_entOf (g : List Utmp) (u : CString) (hg : ∀ r ∈ g, r.user = u) :
    summary entOf UserlistEnt.again g = g.head?.map fun r =>
      ⟨u, cstr (text "/dev/" ++ r.line.chars ++ [0]), g.length, r.sec⟩ := by
  have hiter : ∀ n (e : UserlistEnt), UserlistEnt.again^[n] e = { e with count := e.count + n } := by
    intro n
    induction n with
    | zero => intro e; rfl
    | succ n ih => intro e; rw [Function.iterate_succ_apply', ih]; rfl
  cases g with
  | nil => rfl
  | cons r g =>
      have htty : cstr (text "/dev/" ++ (r.utLine.take utxLinesize ++ [0]))
          = cstr (text "/dev/" ++ r.line.chars ++ [0]) := by
        have hfree : (0 : UInt8) ∉ text "/dev/" ++ r.line.chars := by
          rw [List.mem_append, not_or]
          exact ⟨by decide, r.line.nulFree⟩
        refine CString.ext ?_
        rw [cstr_append (by decide)]
        exact (takeWhile_append_nul hfree []).symm
      rw [summary, hiter, List.head?_cons, Option.map_some, entOf, htty,
        hg r List.mem_cons_self, List.length_cons, Nat.add_comm]

theorem listFor_none (recs : List Utmp) : listFor none recs = userlistOf recs := by
  refine List.filterMap_congr fun u _ => ?_
  rw [group_counted]
  refine summary_entOf _ u fun r hr => ?_
  have hc := (List.mem_filter.mp hr).2
  rw [counted_some, Bool.and_eq_true, decide_eq_true_eq] at hc
  exact hc.2

theorem listFor_some (recs : List Utmp) (u : CString) :
    listFor (some u) recs = (userlistOf recs).filter fun e => e.name = u := by
  rw [← listFor_none, listFor, listFor, ← groups_group name_entOf UserlistEnt.name_again,
    group_counted, recordsOf]

theorem listFor_sublist (user : Option CString) (recs : List Utmp) :
    (listFor user recs).Sublist (userlistOf recs) := by
  cases user with
  | none => rw [listFor_none]
  | some u =>
      rw [listFor_some]
      exact List.filter_sublist

theorem mem_userlistOf (h : e ∈ userlistOf recs) :
    e.name ∈ usersOf recs ∧ e.count = (recordsOf recs e.name).length ∧ e.count ≠ 0 := by
  obtain ⟨u, hu, he⟩ := List.mem_filterMap.mp h
  obtain ⟨r, hr, rfl⟩ := Option.map_eq_some_iff.mp he
  refine ⟨hu, rfl, ?_⟩
  exact List.length_pos_iff_ne_nil.mpr (List.ne_nil_of_mem (List.mem_of_head? hr)) |>.ne'

theorem names_userlistOf (recs : List Utmp) : (userlistOf recs).map (·.name) = usersOf recs := by
  rw [← listFor_none]
  exact names_groups name_entOf UserlistEnt.name_again

theorem length_userlistOf (recs : List Utmp) : (userlistOf recs).length = (usersOf recs).length := by
  rw [← names_userlistOf, List.length_map]

theorem nodup_listFor (user : Option CString) (recs : List Utmp) :
    ((listFor user recs).map (·.name)).Nodup := by
  refine List.Nodup.sublist ((listFor_sublist user recs).map _) ?_
  rw [names_userlistOf]
  exact nodup_firstKeys _ _

/-- There is an entry if there is a record. -/
theorem listFor_ne_nil : listFor user recs ≠ [] ↔ ∃ r ∈ recs, r.counted user := by
  have hnames : (listFor user recs).map (·.name)
      = firstKeys Utmp.user (recs.filter (Utmp.counted user)) :=
    names_groups name_entOf UserlistEnt.name_again
  constructor
  · intro hne
    obtain ⟨e, rest, hlist⟩ := List.exists_cons_of_ne_nil hne
    have hmem : e.name ∈ firstKeys Utmp.user (recs.filter (Utmp.counted user)) := by
      rw [← hnames, hlist]
      simp
    obtain ⟨r, hr, -⟩ := mem_firstKeys.mp hmem
    exact ⟨r, List.mem_filter.mp hr⟩
  · rintro ⟨r, hr, hc⟩ hnil
    have hmem : r.user ∈ (listFor user recs).map (·.name) := by
      rw [hnames]
      exact mem_firstKeys.mpr ⟨r, List.mem_filter.mpr ⟨hr, hc⟩, rfl⟩
    simp [hnil] at hmem

/-- **What `get_userlist` returns**, when there is memory. -/
theorem getUserlist_spec (recs : List Utmp) (user : Option CString) :
    getUserlist ⟨recs, fun _ => true⟩ user
      = some (listFor user recs ++ [⟨.empty, .empty, 0, 0⟩]) := by
  rw [getUserlist, Option.bind_eq_bind, foldlM_userlistRec]
  rfl

/-! ### Fields -/

theorem takeWhile_nul (a rest : Bytes) :
    (a ++ 0 :: rest).takeWhile (· != 0) = (a ++ [0]).takeWhile (· != 0) := by
  induction a with
  | nil => simp
  | cons b a ih =>
      rw [List.cons_append, List.cons_append, List.takeWhile_cons, List.takeWhile_cons, ih]

theorem utField_eq (n : Nat) (b : Bytes) :
    utField n b = b.take n ++ List.replicate (n - b.length) 0 := by
  rw [utField, List.take_append, List.take_replicate]
  congr 2
  omega

theorem length_utField (n : Nat) (b : Bytes) : (utField n b).length = n := by
  rw [utField_eq, List.length_append, List.length_take, List.length_replicate]
  omega

/-- A field with a NUL behind it. -/
theorem cstr_utField (a : Bytes) (n : Nat) (b : Bytes) :
    cstr (a ++ utField n b ++ [0]) = cstr (a ++ (b.take n ++ [0])) := by
  refine CString.ext ?_
  show List.takeWhile _ _ = List.takeWhile _ _
  rw [utField_eq]
  cases hk : n - b.length with
  | zero => simp
  | succ k =>
      rw [List.replicate_succ, ← List.append_assoc, List.append_assoc _ (0 :: _) [0],
        List.cons_append, takeWhile_nul, List.append_assoc]

theorem cstr_namebuf (r : Utmp) : cstr (utField utxUsersize r.utUser ++ [0]) = r.user :=
  cstr_utField [] utxUsersize r.utUser

theorem cstr_head {b : Bytes} (h : b ≠ []) : (cstr b).chars = [] ↔ b.head? = some 0 := by
  cases b with
  | nil => exact absurd rfl h
  | cons c b =>
      show List.takeWhile _ _ = [] ↔ _
      by_cases hc : c = 0
      · simp [hc]
      · simp [hc]

theorem head_utUser (r : Utmp) :
    (utField utxUsersize r.utUser).head? = some 0 ↔ r.user.chars = [] := by
  have hne : utField utxUsersize r.utUser ≠ [] := by
    rw [← List.length_pos_iff_ne_nil, length_utField]
    decide
  rw [← cstr_namebuf, cstr_head (by simp)]
  obtain ⟨c, b, hb⟩ := List.exists_cons_of_ne_nil hne
  rw [hb]
  rfl

/-! ### Elements -/

/-- The array of elements is the list of entries, and all strings end where they should. -/
structure Mirrors (v : UserlistVars) (list : List UserlistEnt) : Prop where
  size : v.n.toNat = v.list.length
  ents : v.list.map (·.ent) = list
  ends : ∀ c ∈ v.list, c.Terminated

theorem Mirrors.length (h : Mirrors v list) : v.n.toNat = list.length := by
  rw [h.size, ← h.ents, List.length_map]

theorem write_front {w : Written UInt8} {b : Bytes} (h : b.length ≤ w.block.length) :
    w.write 0 b = ⟨b ++ w.block.drop b.length, w.spill⟩ := by
  rw [write_fits (by omega)]
  simp

theorem cell_name (mem : NewMem) (k : Nat) : (mem.cell k).name.block.length = nmax := by
  simp [NewMem.cell, Written.clean]

theorem cell_tty (mem : NewMem) (k : Nat) : (mem.cell k).tty.block.length = lmax := by
  simp [NewMem.cell, Written.clean]

/-- The three writes to `tty`. -/
theorem fill_tty {w : Written UInt8} (hsize : w.block.length = lmax) (hspill : w.spill = [])
    (b : Bytes) : ((w.write (lmax - 1) [0]).write 0 (text "/dev/" ++ [0])).write 5
      (utField utxLinesize b) = ⟨text "/dev/" ++ utField utxLinesize b ++ [0], []⟩ := by
  have hlast : w.write (lmax - 1) [0] = ⟨w.block.take (lmax - 1) ++ [0], []⟩ := by
    rw [write_fits (by rw [hsize]; decide), List.drop_of_length_le (by rw [hsize]; decide),
      List.append_nil, hspill]
  have hlen : (w.block.take (lmax - 1)).length = lmax - 1 := by
    rw [List.length_take, hsize]
    decide
  have hall : (w.block.take (lmax - 1) ++ [0]).length = lmax := by
    rw [List.length_append, hlen]
    decide
  have hdev : (text "/dev/" ++ [0]).length = 6 := by decide
  rw [hlast, write_front (by rw [hall, hdev]; decide), hdev]
  have hrest : (text "/dev/" ++ ([0] : Bytes) ++ (w.block.take (lmax - 1) ++ [0]).drop 6).length
      = lmax := by
    rw [List.length_append, List.length_drop, hall, hdev]
    rfl
  rw [write_fits (by rw [length_utField, hrest]; decide), length_utField]
  have hfront : (text "/dev/" ++ ([0] : Bytes) ++ (w.block.take (lmax - 1) ++ [0]).drop 6).take 5
      = text "/dev/" := by
    rw [List.take_append_of_le_length (by rw [hdev]; decide)]
    decide
  have hback : (text "/dev/" ++ ([0] : Bytes) ++ (w.block.take (lmax - 1) ++ [0]).drop 6).drop
      (5 + utxLinesize) = [0] := by
    rw [List.drop_append, List.drop_of_length_le (by rw [hdev]; decide), hdev, List.nil_append,
      List.drop_drop]
    exact List.drop_left' hlen
  rw [hfront, hback, ← List.append_assoc]

/-- A new element holds the entry of its record. -/
theorem fill_cell (mem : NewMem) (k : Nat) (r : Utmp) :
    (Cells.fill (utField utxUsersize r.utUser ++ [0]) r (mem.cell k)).ent = entOf r ∧
      (Cells.fill (utField utxUsersize r.utUser ++ [0]) r (mem.cell k)).Terminated := by
  have hlen : (r.user.chars ++ [0]).length ≤ nmax := by
    rw [List.length_append]
    exact Nat.succ_le_succ (length_field _ _)
  have hname : (mem.cell k).name.write 0 (r.user.chars ++ [0])
      = ⟨r.user.chars ++ [0] ++ (mem.cell k).name.block.drop (r.user.chars ++ [0]).length, []⟩ := by
    rw [write_front (by rw [cell_name]; exact hlen)]
    rfl
  have htty := fill_tty (cell_tty mem k) (show (mem.cell k).tty.spill = [] from rfl) r.utLine
  unfold Cells.fill
  rw [cstr_namebuf, hname, htty]
  constructor
  · have hn : cstr (r.user.chars ++ [0] ++ (mem.cell k).name.block.drop (r.user.chars ++ [0]).length)
        = r.user := by
      rw [List.append_assoc, List.singleton_append]
      exact cstr_terminated r.user _
    simp only [UserlistCell.ent, entOf, hn, cstr_utField]
    rfl
  · refine ⟨?_, by simp, rfl, ?_, by simp, rfl⟩
    · simp only [List.length_append, List.length_drop, cell_name] at hlen ⊢
      omega
    · rw [List.length_append, List.length_append, length_utField]
      decide

/-- `realloc` keeps the elements, and adds one. -/
theorem grow_eq (mem : NewMem) (h : Mirrors v list) (hroom : list.length + 1 < 2 ^ 32) :
    Cells.grow (fun _ => true) mem v = .ok (v.list ++ [mem.cell v.list.length]) ∧
      (v.n + 1).toNat = v.list.length + 1 := by
  have hn : (v.n + 1).toNat = v.list.length + 1 := by
    have hlen := h.length
    rw [BitVec.toNat_add, ← h.size]
    exact Nat.mod_eq_of_lt (by rw [hlen]; exact hroom)
  refine ⟨?_, hn⟩
  have hne : v.n + 1 ≠ 0 := by
    intro hzero
    rw [hzero] at hn
    simp at hn
  simp only [Cells.grow, hne, if_false, hn, if_true]
  congr 1
  rw [List.range_succ, List.map_append]
  congr 1
  · refine List.ext_getElem (by simp) fun k hk hk' => ?_
    simp [List.getElem?_eq_getElem hk']
  · simp

theorem modify_last {α : Type*} (l : List α) (a : α) (f : α → α) :
    (l ++ [a]).modify l.length f = l ++ [f a] := by
  induction l with
  | nil => rfl
  | cons b l ih => exact congrArg (b :: ·) ih

/-! ### One record -/

/-- The element that the search finds, if there is one. -/
theorem find_mirrors (h : Mirrors v list) (hroom : list.length + 1 < 2 ^ 32) {b : Bytes}
    (hb : cstr b = r.user) :
    (Cells.find v b = -1 ∧ r.user ∉ list.map (·.name)) ∨
      ∃ i, Cells.find v b ≠ -1 ∧ (Cells.find v b).toNat = i ∧ (list.map (·.name))[i]? = some r.user := by
  have hall : v.list.take v.n.toNat = v.list := by rw [h.size, List.take_length]
  have hname : v.list.map (fun c => cstr c.name.block) = list.map (·.name) := by
    rw [← h.ents, List.map_map]
    rfl
  have hsearch : v.list.findIdx? (fun c => cstr c.name.block == r.user)
      = (list.map (·.name)).findIdx? (· == r.user) := by
    rw [← hname, List.findIdx?_map]
    rfl
  rw [Cells.find, hall, hb, hsearch]
  cases hidx : (list.map (·.name)).findIdx? (· == r.user) with
  | none =>
      refine .inl ⟨rfl, fun hmem => ?_⟩
      simpa using List.findIdx?_eq_none_iff.mp hidx r.user hmem
  | some i =>
      obtain ⟨hi, hfound, -⟩ := List.findIdx?_eq_some_iff_getElem.mp hidx
      have hlt : i < list.length := by simpa using hi
      have hnat : (BitVec.ofNat 32 i).toNat = i := by
        rw [BitVec.toNat_ofNat]
        exact Nat.mod_eq_of_lt (by omega)
      refine .inr ⟨i, fun hbad => ?_, hnat, ?_⟩
      · have hmax := congrArg BitVec.toNat hbad
        simp only [hnat] at hmax
        rw [hmax] at hlt
        exact absurd (lt_trans (Nat.succ_lt_succ hlt) hroom) (by decide)
      · rw [List.getElem?_eq_getElem hi]
        simpa using hfound

/-- Counting the element of a user counts the entry. -/
theorem count_mirrors (h : Mirrors v list) (hnodup : (list.map (·.name)).Nodup) {i : Nat}
    (hi : (list.map (·.name))[i]? = some r.user)
    (hcount : ∀ e ∈ list, e.name = r.user → e.count + 1 < 2 ^ 32) :
    Mirrors { v with list := v.list.modify i fun c => { c with count := c.count + 1 } }
      (list.map fun e => if e.name = r.user then e.again else e) := by
  refine ⟨by simpa using h.size, ?_, ?_⟩
  · rw [← h.ents]
    refine List.ext_getElem? fun k => ?_
    rw [List.getElem?_map, List.getElem?_modify, List.map_map, List.getElem?_map]
    cases hk : v.list[k]? with
    | none => rfl
    | some c =>
        have hlist : list[k]? = some c.ent := by rw [← h.ents, List.getElem?_map, hk]; rfl
        have hname : (list.map (·.name))[k]? = some c.ent.name := by
          rw [List.getElem?_map, hlist]
          rfl
        simp only [Option.map_eq_map, Option.map_some, Function.comp_apply]
        by_cases hik : i = k
        · have heq : c.ent.name = r.user := Option.some.inj (hname.symm.trans (hik ▸ hi))
          have hlt : c.count.toNat + 1 < 2 ^ 32 := hcount c.ent (List.mem_of_getElem? hlist) heq
          have hplus : (c.count + 1).toNat = c.count.toNat + 1 := by
            rw [BitVec.toNat_add]
            exact Nat.mod_eq_of_lt hlt
          rw [if_pos hik, if_pos heq, UserlistCell.ent, hplus]
          rfl
        · have hne : c.ent.name ≠ r.user := by
            intro heq
            refine hik ((List.getElem?_inj ?_ hnodup).mp (hi.trans ?_))
            · exact (List.getElem?_eq_some_iff.mp hi).1
            · rw [hname, heq]
          rw [if_neg hik, if_neg hne]
  · intro c hc
    obtain ⟨k, hk⟩ := List.mem_iff_getElem?.mp hc
    rw [List.getElem?_modify] at hk
    obtain ⟨c', hc', rfl⟩ := Option.map_eq_some_iff.mp hk
    have hends := h.ends c' (List.mem_of_getElem? hc')
    split
    · exact ⟨hends.nameSize, hends.nameEnd, hends.nameSpill, hends.ttySize, hends.ttyEnd,
        hends.ttySpill⟩
    · exact hends

/-- The element that is added mirrors the entry that is. -/
theorem append_mirrors (h : Mirrors v list) {n : BitVec 32} (hn : n.toNat = v.list.length + 1)
    {c : UserlistCell} (hent : c.ent = e) (hends : c.Terminated) :
    Mirrors ⟨v.list ++ [c], n⟩ (list ++ [e]) := by
  refine ⟨by rw [List.length_append]; exact hn, ?_, fun c' hc' => ?_⟩
  · rw [List.map_append, h.ents, ← hent]
    rfl
  · rcases List.mem_append.mp hc' with hc' | hc'
    · exact h.ends c' hc'
    · rw [List.mem_singleton.mp hc']
      exact hends

/-- **One record more.** -/
theorem step_mirrors (mem : NewMem) (h : Mirrors v list) (hnodup : (list.map (·.name)).Nodup)
    (hroom : list.length + 1 < 2 ^ 32)
    (hcount : r.counted user → ∀ e ∈ list, e.name = r.user → e.count + 1 < 2 ^ 32) :
    ∃ v', Cells.step (fun _ => true) mem user v r = .ok v' ∧ Mirrors v' (if r.counted user then
      put Utmp.user UserlistEnt.name entOf UserlistEnt.again list r else list) := by
  have hskip : r.counted user = false → Cells.step (fun _ => true) mem user v r = .ok v →
      ∃ v', Cells.step (fun _ => true) mem user v r = .ok v' ∧ Mirrors v' (if r.counted user then
        put Utmp.user UserlistEnt.name entOf UserlistEnt.again list r else list) := by
    intro hno hrun
    rw [hno]
    exact ⟨v, hrun, h⟩
  by_cases hproc : r.userProcess
  · by_cases hempty : r.user.chars = []
    · refine hskip (by simp [Utmp.counted, hempty]) ?_
      rw [Cells.step, if_neg (by simp [hproc]), if_pos ((head_utUser r).mpr hempty)]
    · by_cases hother : user.isSome && user != some r.user
      · refine hskip ?_ ?_
        · rw [Bool.and_eq_true, bne_iff_ne] at hother
          obtain ⟨u, hu⟩ := Option.isSome_iff_exists.mp hother.1
          simpa [Utmp.counted, hu] using fun _ _ heq => hother.2 (by rw [hu, heq])
        · simp only [Cells.step, hproc, Bool.not_true, Bool.false_eq_true, if_false, head_utUser,
            hempty, cstr_namebuf, hother, if_true]
      · have hcounted : r.counted user = true := by
          cases user with
          | none => simp [Utmp.counted, hproc, hempty]
          | some u =>
              have hu : u = r.user := by simpa using hother
              simp [Utmp.counted, hproc, hempty, hu]
        have hrun : Cells.step (fun _ => true) mem user v r =
            if Cells.find v (utField utxUsersize r.utUser ++ [0]) ≠ -1 then
              .ok ⟨v.list.modify (Cells.find v (utField utxUsersize r.utUser ++ [0])).toNat
                fun c => { c with count := c.count + 1 }, v.n⟩
            else (Cells.grow (fun _ => true) mem v).bind fun cells =>
              .ok ⟨cells.modify v.n.toNat (Cells.fill (utField utxUsersize r.utUser ++ [0]) r),
                v.n + 1⟩ := by
          simp only [Cells.step, hproc, Bool.not_true, Bool.false_eq_true, if_false, head_utUser,
            hempty, cstr_namebuf, hother]
          rfl
        rw [hrun, hcounted, if_pos rfl, put]
        rcases find_mirrors h hroom (cstr_namebuf r) with ⟨hfind, hnew⟩ | ⟨i, hfind, hi, hat⟩
        · obtain ⟨hgrow, hn⟩ := grow_eq mem h hroom
          obtain ⟨hent, hends⟩ := fill_cell mem v.list.length r
          rw [if_neg (not_not.mpr hfind), if_neg hnew, hgrow, h.size]
          refine ⟨_, rfl, ?_⟩
          rw [modify_last]
          exact append_mirrors h hn hent hends
        · rw [if_pos hfind, hi, if_pos (List.mem_of_getElem? hat)]
          exact ⟨_, rfl, count_mirrors h hnodup hat (hcount hcounted)⟩
  · refine hskip (by simp [Utmp.counted, hproc]) ?_
    rw [Cells.step, if_pos (by simpa using hproc)]

/-! ### All records -/

theorem recordsOf_concat (recs : List Utmp) (r : Utmp) (u : CString) :
    recordsOf (recs ++ [r]) u = recordsOf recs u ++ if r.counted (some u) then [r] else [] := by
  rw [recordsOf, List.filter_append, List.filter_singleton, Bool.cond_eq_ite, recordsOf]

/-- What fits, fits with fewer records. -/
theorem Fits.front (h : Fits (recs ++ [r])) : Fits recs := by
  refine ⟨fun u => ?_, ?_⟩
  · have hall := h.records u
    rw [recordsOf_concat, List.length_append] at hall
    omega
  · have hall := h.users
    have hle : (usersOf recs).length ≤ (usersOf (recs ++ [r])).length := by
      rw [usersOf, usersOf, List.filter_append, List.filter_singleton, Bool.cond_eq_ite]
      split
      · rw [firstKeys_concat]
        split
        · exact le_rfl
        · rw [List.length_append]
          exact Nat.le_add_right _ _
      · rw [List.append_nil]
    omega

theorem Fits.room (h : Fits recs) (user : Option CString) :
    (listFor user recs).length + 1 < 2 ^ 32 := by
  have hle := (listFor_sublist user recs).length_le
  have husers := h.users
  rw [length_userlistOf] at hle
  omega

/-- **The loop.** -/
theorem loop_mirrors (mem : NewMem) (user : Option CString) (h : Fits recs) : ∃ v,
    recs.foldlM (Cells.step (fun _ => true) mem user) ⟨[], 0⟩ = .ok v ∧
      Mirrors v (listFor user recs) := by
  induction recs using List.reverseRecOn with
  | nil => exact ⟨_, rfl, rfl, rfl, by simp⟩
  | append_singleton recs r ih =>
      obtain ⟨v, hrun, hv⟩ := ih h.front
      have hcount : r.counted user → ∀ e ∈ listFor user recs, e.name = r.user →
          e.count + 1 < 2 ^ 32 := by
        intro hc e he hname
        have hcounted : r.counted (some r.user) = true := by
          rw [counted_some]
          simp only [Utmp.counted, Bool.and_eq_true] at hc ⊢
          simp [hc.1]
        have hall := h.records r.user
        rw [recordsOf_concat, if_pos hcounted, List.length_append] at hall
        obtain ⟨-, hlen, -⟩ := mem_userlistOf ((listFor_sublist user recs).subset he)
        rw [hlen, hname]
        exact hall
      obtain ⟨v', hstep, hv'⟩ := step_mirrors mem hv (nodup_listFor user recs)
        (h.front.room user) hcount
      refine ⟨v', ?_, by rw [listFor_concat]; exact hv'⟩
      rw [List.foldlM_append, hrun]
      simp only [bind, Except.bind, List.foldlM_cons, List.foldlM_nil, hstep]
      rfl

/-- The termination entry ends the list. -/
theorem terminator_cell (mem : NewMem) (k : Nat) :
    (Cells.terminator (mem.cell k)).ent.name = .empty ∧
      (Cells.terminator (mem.cell k)).ent.tty = .empty ∧ (Cells.terminator (mem.cell k)).Terminated := by
  have hname : (mem.cell k).name.write 0 [0] = ⟨[0] ++ (mem.cell k).name.block.drop 1, []⟩ := by
    rw [write_front (by rw [cell_name]; decide)]
    rfl
  have htty : (mem.cell k).tty.write 0 [0] = ⟨[0] ++ (mem.cell k).tty.block.drop 1, []⟩ := by
    rw [write_front (by rw [cell_tty]; decide)]
    rfl
  unfold Cells.terminator
  rw [hname, htty]
  refine ⟨rfl, rfl, ?_, by simp, rfl, ?_, by simp, rfl⟩
  · rw [List.length_append, List.length_drop, cell_name]
    rfl
  · rw [List.length_append, List.length_drop, cell_tty]
    rfl

/-- When the numbers fit, the array is the list. -/
theorem answers_of_fits (mem : NewMem) (user : Option CString) (h : Fits recs) :
    Cells.Answers (Cells.getUserlist ⟨recs, fun _ => true⟩ mem user) (listFor user recs) := by
  obtain ⟨v, hrun, hv⟩ := loop_mirrors mem user h
  obtain ⟨hgrow, -⟩ := grow_eq mem hv (h.room user)
  obtain ⟨hname, htty, hends⟩ := terminator_cell mem v.list.length
  refine ⟨v.list, Cells.terminator (mem.cell v.list.length), ?_, hv.ents, ?_, hname, htty, rfl, ?_⟩
  · rw [Cells.getUserlist, hrun]
    simp only [bind, Except.bind, hgrow, hv.size, modify_last]
  · intro e he
    exact (mem_userlistOf ((listFor_sublist user recs).subset he)).2.2
  · intro c hc
    rcases List.mem_append.mp hc with hc | hc
    · exact hv.ends c hc
    · rw [List.mem_singleton.mp hc]
      exact hends

/-- An array never has room for more than its numbers can tell. -/
theorem length_getUserlist {pass : UtmpPass} {cells : List UserlistCell}
    (h : Cells.getUserlist pass mem user = .ok cells) : cells.length < 2 ^ 32 := by
  unfold Cells.getUserlist at h
  cases hv : pass.recs.foldlM (Cells.step pass.room mem user) ⟨[], 0⟩ with
  | error stop =>
      rw [hv] at h
      simp [bind, Except.bind] at h
  | ok v =>
      rw [hv] at h
      simp only [bind, Except.bind, Cells.grow] at h
      split at h
      · simp at h
      · rename_i list hgrow
        rw [Except.ok.injEq] at h
        split at hgrow
        · simp at hgrow
        · split at hgrow
          · rw [Except.ok.injEq] at hgrow
            rw [← h, ← hgrow]
            simpa using (v.n + 1).isLt
          · simp at hgrow

/-- An array that is right has numbers that fit. -/
theorem Cells.Right.fits (h : Cells.Right recs mem) : Fits recs := by
  obtain ⟨cells, last, hrun, hents, -⟩ := h.all
  have hlen : cells.length = (usersOf recs).length := by
    rw [← length_userlistOf, ← hents, List.length_map]
  refine ⟨fun u => ?_, ?_⟩
  · by_contra hmany
    have hne : recordsOf recs u ≠ [] := by
      intro hnil
      simp [hnil] at hmany
    obtain ⟨r, rest, hr⟩ := List.exists_cons_of_ne_nil hne
    have hcounted := List.mem_filter.mp (show r ∈ recordsOf recs u by rw [hr]; simp)
    rw [counted_some, Bool.and_eq_true, decide_eq_true_eq] at hcounted
    have hu : u ∈ usersOf recs := mem_firstKeys.mpr
      ⟨r, List.mem_filter.mpr ⟨hcounted.1, hcounted.2.1⟩, hcounted.2.2⟩
    obtain ⟨e, he, hname⟩ := List.mem_map.mp (names_userlistOf recs ▸ hu)
    obtain ⟨-, hcount, -⟩ := mem_userlistOf he
    rw [← hents] at he
    obtain ⟨c, -, rfl⟩ := List.mem_map.mp he
    have hlt := c.count.isLt
    rw [hname] at hcount
    rw [← hcount] at hmany
    exact hmany hlt
  · have hroom := length_getUserlist hrun
    rw [List.length_append, hlen] at hroom
    exact hroom

/--
**The array is what it ought to be exactly if the numbers fit.**

There are at most 2³² − 1 records of each user, and fewer than 2³² − 1 users.
-/
theorem cells_right_iff (recs : List Utmp) (mem : NewMem) : Cells.Right recs mem ↔ Fits recs := by
  refine ⟨Cells.Right.fits, fun h => ⟨?_, fun u => ?_, fun u => ?_⟩⟩
  · rw [← listFor_none]
    exact answers_of_fits mem none h
  · rw [← listFor_some]
    exact answers_of_fits mem (some u) h
  · obtain ⟨cells, last, hrun, hents, hcounts, -, -, hlast, -⟩ := answers_of_fits mem (some u) h
    simp only [Cells.isloggedin, hrun]
    congr 1
    rw [Bool.eq_iff_iff, decide_eq_true_eq, ← listFor_ne_nil, ← hents]
    cases cells with
    | nil => simp [hlast]
    | cons c cells =>
        have hcount : c.count.toNat ≠ 0 := hcounts c.ent (by rw [← hents]; simp)
        have hne : c.count ≠ 0 := fun hzero => hcount (by rw [hzero]; rfl)
        simpa using hne

/-- 2³² records of one user. -/
theorem not_cells_right : ∃ recs : List Utmp, recs.length = 2 ^ 32 ∧
    ∀ mem, ¬ Cells.Right recs mem := by
  refine ⟨List.replicate (2 ^ 32) ⟨true, [97], [116], 0⟩, List.length_replicate, fun mem h => ?_⟩
  have hlt := h.fits.records ⟨[97], by decide⟩
  rw [recordsOf, List.filter_replicate, if_pos (by decide), List.length_replicate] at hlt
  exact lt_irrefl _ hlt

end Smsg
