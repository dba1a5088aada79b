/-
Grouping records by a key, in one pass.

The pass keeps a list with one summary for each key, in the order in which the keys first
appear.  A record whose key is there is counted by the summary, and one whose key is new
gets a summary at the end (`put`).  `groups` is what the list ought to be, key by key, and
with every record it changes as the pass does (`groups_concat`).
-/
import Mathlib.Data.List.Basic
import Mathlib.Data.List.Induction
import Mathlib.Data.List.Nodup
import Mathlib.Logic.Function.Iterate
import Mathlib.Tactic.Common

namespace Groups

variable {ρ κ α : Type*} [DecidableEq κ]

/-- The keys, in the order in which they first appear. -/
def firstKeys (key : ρ → κ) (rs : List ρ) : List κ := (rs.map key).eraseDups

/-- The records with a key. -/
def group (key : ρ → κ) (rs : List ρ) (k : κ) : List ρ := rs.filter fun r => key r = k

/-- The summary of records with one key: it is made for the first one. -/
def summary (make : ρ → α) (again : α → α) : List ρ → Option α
  | [] => none
  | r :: rs => some (again^[rs.length] (make r))

/-- One summary for each key. -/
def groups (key : ρ → κ) (make : ρ → α) (again : α → α) (rs : List ρ) : List α :=
  (firstKeys key rs).filterMap fun k => summary make again (group key rs k)

/-- One record more, in a list of summaries. -/
def put (key : ρ → κ) (name : α → κ) (make : ρ → α) (again : α → α) (acc : List α) (r : ρ) : List α :=
  if key r ∈ acc.map name then acc.map fun a => if name a = key r then again a else a
  else acc ++ [make r]

variable {key : ρ → κ} {name : α → κ} {make : ρ → α} {again : α → α} {rs : List ρ} {r : ρ} {k : κ}

/-! ### Keys -/

theorem mem_firstKeys : k ∈ firstKeys key rs ↔ ∃ r ∈ rs, key r = k := by
  rw [firstKeys, List.mem_eraseDups, List.mem_map]

theorem firstKeys_concat (key : ρ → κ) (rs : List ρ) (r : ρ) : firstKeys key (rs ++ [r])
    = if key r ∈ firstKeys key rs then firstKeys key rs else firstKeys key rs ++ [key r] := by
  have hmem : key r ∈ firstKeys key rs ↔ key r ∈ rs.map key := List.mem_eraseDups
  have hnew : [key r].removeAll (rs.map key) = if key r ∈ rs.map key then [] else [key r] := by
    rw [List.removeAll, List.filter_singleton]
    by_cases h : key r ∈ rs.map key <;> simp only [List.elem_eq_mem, h] <;> rfl
  rw [firstKeys, List.map_append, List.eraseDups_append, List.map_singleton, hnew]
  by_cases h : key r ∈ rs.map key
  · rw [if_pos (hmem.mpr h), if_pos h, List.eraseDups_nil, List.append_nil, firstKeys]
  · rw [if_neg (fun hk => h (hmem.mp hk)), if_neg h]
    rfl

theorem nodup_firstKeys (key : ρ → κ) (rs : List ρ) : (firstKeys key rs).Nodup := by
  induction rs using List.reverseRecOn with
  | nil => exact List.nodup_nil
  | append_singleton rs r ih =>
      rw [firstKeys_concat]
      split
      · exact ih
      · rename_i hnew
        refine List.nodup_append.mpr ⟨ih, List.nodup_singleton _, fun a ha b hb hab => hnew ?_⟩
        rw [← List.mem_singleton.mp hb, ← hab]
        exact ha

/-! ### Summaries -/

theorem group_concat (key : ρ → κ) (rs : List ρ) (r : ρ) (k : κ) :
    group key (rs ++ [r]) k = group key rs k ++ if key r = k then [r] else [] := by
  rw [group, List.filter_append, List.filter_singleton, group]
  simp

theorem summary_concat (g : List ρ) (r : ρ) : summary make again (g ++ [r])
    = some (match summary make again g with | none => make r | some a => again a) := by
  cases g with
  | nil => rfl
  | cons q g =>
      simp only [List.cons_append, summary, List.length_append, List.length_singleton,
        Function.iterate_succ_apply']

theorem name_summary (hmake : ∀ r, name (make r) = key r) (hagain : ∀ a, name (again a) = name a)
    {a : α} (h : summary make again (group key rs k) = some a) : name a = k := by
  have hiter : ∀ n a, name (again^[n] a) = name a := by
    intro n
    induction n with
    | zero => intro a; rfl
    | succ n ih => intro a; rw [Function.iterate_succ_apply', hagain, ih]
  cases hg : group key rs k with
  | nil => simp [hg, summary] at h
  | cons q g =>
      rw [hg, summary, Option.some.injEq] at h
      have hq : q ∈ group key rs k := by rw [hg]; exact List.mem_cons_self
      rw [← h, hiter, hmake]
      simpa using (List.mem_filter.mp hq).2

/-- A key that has appeared has a summary. -/
theorem summary_some (h : k ∈ firstKeys key rs) : ∃ a, summary make again (group key rs k) = some a := by
  obtain ⟨r, hr, rfl⟩ := mem_firstKeys.mp h
  cases hg : group key rs (key r) with
  | nil =>
      have hmem : r ∈ group key rs (key r) := List.mem_filter.mpr ⟨hr, by simp⟩
      simp [hg] at hmem
  | cons q g => exact ⟨_, rfl⟩

/-- The names of the summaries are the keys. -/
theorem names_groups (hmake : ∀ r, name (make r) = key r) (hagain : ∀ a, name (again a) = name a) :
    (groups key make again rs).map name = firstKeys key rs := by
  rw [groups, List.map_filterMap]
  have hall : ∀ k ∈ firstKeys key rs,
      (summary make again (group key rs k)).map name = some k := by
    intro k hk
    obtain ⟨a, ha⟩ := @summary_some _ _ α _ key make again rs k hk
    rw [ha, Option.map_some, name_summary hmake hagain ha]
  rw [List.filterMap_congr hall, List.filterMap_some]

/-- **One record more.** -/
theorem groups_concat (hmake : ∀ r, name (make r) = key r) (hagain : ∀ a, name (again a) = name a) :
    groups key make again (rs ++ [r]) = put key name make again (groups key make again rs) r := by
  rw [put, names_groups hmake hagain, groups, firstKeys_concat]
  have hother : ∀ k, k ≠ key r → group key (rs ++ [r]) k = group key rs k := fun k hk => by
    rw [group_concat, if_neg (Ne.symm hk), List.append_nil]
  by_cases hr : key r ∈ firstKeys key rs
  · rw [if_pos hr, if_pos hr, groups, List.map_filterMap]
    refine List.filterMap_congr fun k hk => ?_
    obtain ⟨a, ha⟩ := @summary_some _ _ α _ key make again rs k hk
    have hname : name a = k := name_summary hmake hagain ha
    by_cases hkr : k = key r
    · rw [group_concat, if_pos hkr.symm, summary_concat, ha, Option.map_some, hname, if_pos hkr]
    · rw [hother k hkr, ha, Option.map_some, hname, if_neg hkr]
  · have hnone : group key rs (key r) = [] := List.filter_eq_nil_iff.mpr fun q hq hqr =>
      hr (mem_firstKeys.mpr ⟨q, hq, by simpa using hqr⟩)
    have hlast : summary make again (group key (rs ++ [r]) (key r)) = some (make r) := by
      rw [group_concat, hnone, if_pos rfl]
      rfl
    rw [if_neg hr, if_neg hr, List.filterMap_append, groups, List.filterMap_cons, hlast]
    congr 1
    refine List.filterMap_congr fun k hk => ?_
    rw [hother k fun hkr => hr (hkr ▸ hk)]

/-! ### The records of one key -/

/-- Counting again keeps the names. -/
theorem name_again (hagain : ∀ a, name (again a) = name a) (j : κ) (a : α) :
    name (if name a = j then again a else a) = name a := by
  split
  · exact hagain a
  · rfl

theorem filter_again (hagain : ∀ a, name (again a) = name a) (acc : List α) (j k : κ) :
    (acc.map fun a => if name a = j then again a else a).filter (fun a => name a = k)
      = (acc.filter fun a => name a = k).map fun a => if name a = j then again a else a := by
  rw [List.filter_map]
  congr 1
  refine List.filter_congr fun a _ => ?_
  rw [Function.comp_apply, name_again hagain]

theorem put_filter_same (hagain : ∀ a, name (again a) = name a) (hmake : ∀ r, name (make r) = key r)
    (acc : List α) (r : ρ) : (put key name make again acc r).filter (fun a => name a = key r)
      = put key name make again (acc.filter fun a => name a = key r) r := by
  have hmem : key r ∈ (acc.filter fun a => name a = key r).map name ↔ key r ∈ acc.map name := by
    simp only [List.mem_map, List.mem_filter, decide_eq_true_eq]
    exact ⟨fun ⟨a, ha, hk⟩ => ⟨a, ha.1, hk⟩, fun ⟨a, ha, hk⟩ => ⟨a, ⟨ha, hk⟩, hk⟩⟩
  unfold put
  by_cases h : key r ∈ acc.map name
  · rw [if_pos h, if_pos (hmem.mpr h), filter_again hagain]
  · rw [if_neg h, if_neg (fun hk => h (hmem.mp hk)), List.filter_append]
    simp [hmake]

theorem put_filter_other (hagain : ∀ a, name (again a) = name a) (hmake : ∀ r, name (make r) = key r)
    (acc : List α) {r : ρ} (hk : key r ≠ k) :
    (put key name make again acc r).filter (fun a => name a = k) = acc.filter fun a => name a = k := by
  unfold put
  split
  · rw [filter_again hagain, List.map_congr_left, List.map_id]
    intro a ha
    have hname : name a = k := by simpa using (List.mem_filter.mp ha).2
    rw [hname, if_neg (Ne.symm hk)]
    rfl
  · rw [List.filter_append]
    simp [hmake, hk]

/-- **A pass over the records of one key makes the summary of that key.** -/
theorem groups_group (hmake : ∀ r, name (make r) = key r) (hagain : ∀ a, name (again a) = name a)
    (rs : List ρ) (k : κ) : groups key make again (group key rs k)
      = (groups key make again rs).filter fun a => name a = k := by
  induction rs using List.reverseRecOn with
  | nil => rfl
  | append_singleton rs r ih =>
      rw [group_concat, groups_concat hmake hagain]
      by_cases hk : key r = k
      · subst hk
        rw [if_pos rfl, groups_concat hmake hagain, ih, put_filter_same hagain hmake]
      · rw [if_neg hk, List.append_nil, ih, put_filter_other hagain hmake _ hk]

end Groups
