/-
A heap whose blocks are owned by cells.

Blocks are numbered as they are allocated and a number is never used again, so that a
pointer to a freed block stays one (`Freed`).  Freeing and every access need a live block.

The cells of a program hold pointers.  `Owns` says which block each cell holds and that no
two cells hold the same one.  While that is so, what is done to the block of one cell
leaves the others alone: every operation is a change at one cell, of the pointers and of
the blocks (`Owns.malloc`, `Owns.free`, `Owns.put`, `Owns.realloc`), and moving pointers
between cells is a renaming of the cells (`Owns.rename`).
-/
import Mathlib.Data.List.Basic
import Mathlib.Logic.Function.Basic
import Mathlib.Tactic.Common

namespace Heaps

/-- The blocks in the order of their allocation; a freed one is `none`. -/
structure Heap (α : Type*) where
  blocks : List (Option (List α))

namespace Heap

variable {α : Type*}

def empty : Heap α := ⟨[]⟩

/-- The block that a pointer points to, while it is live. -/
def get (h : Heap α) (p : Nat) : Option (List α) := (h.blocks[p]?).join

/-- `malloc`, with what is in the block. -/
def malloc (h : Heap α) (b : List α) : Heap α × Nat := (⟨h.blocks ++ [some b]⟩, h.blocks.length)

/-- `free`; only a live block can be freed. -/
def free (h : Heap α) (p : Nat) : Option (Heap α) :=
  if (h.get p).isSome then some ⟨h.blocks.set p none⟩ else none

/-- Writing a block as a whole. -/
def put (h : Heap α) (p : Nat) (b : List α) : Heap α := ⟨h.blocks.set p (some b)⟩

/-- What a block of another size has in it. -/
def resize (b : List α) (n : Nat) (fill : α) : List α := b.take n ++ List.replicate (n - b.length) fill

/-- `realloc` to a size that is not zero: the block moves. -/
def realloc (h : Heap α) (p n : Nat) (fill : α) : Option (Heap α × Nat) := do
  let b ← h.get p
  let h ← h.free p
  some (h.malloc (resize b n fill))

/-- The block has been there, and is not any more. -/
def Freed (h : Heap α) (p : Nat) : Prop := p < h.blocks.length ∧ h.get p = none

/-- Freed blocks stay freed. -/
def Later (h h' : Heap α) : Prop := ∀ p, h.Freed p → h'.Freed p

variable {h h' h'' : Heap α} {p r : Nat} {b c : List α}

theorem Later.refl (h : Heap α) : h.Later h := fun _ hp => hp

theorem Later.trans (h₁ : h.Later h') (h₂ : h'.Later h'') : h.Later h'' := fun p hp => h₂ p (h₁ p hp)

/-! ### What a pointer points to afterwards -/

theorem lt_of_get (hp : h.get p = some b) : p < h.blocks.length := by
  by_contra hge
  rw [get, List.getElem?_eq_none (by omega)] at hp
  cases hp

theorem get_malloc (h : Heap α) (b : List α) (r : Nat) :
    (h.malloc b).1.get r = if r = h.blocks.length then some b else h.get r := by
  rw [malloc, get, get, List.getElem?_append]
  by_cases hr : r < h.blocks.length
  · rw [if_pos hr, if_neg (by omega)]
  · by_cases he : r = h.blocks.length
    · rw [if_neg hr, if_pos he, he, Nat.sub_self]
      rfl
    · rw [if_neg hr, if_neg he, List.getElem?_eq_none (by simp; omega),
        List.getElem?_eq_none (by omega)]

theorem get_malloc_self (h : Heap α) (b : List α) : (h.malloc b).1.get (h.malloc b).2 = some b := by
  rw [get_malloc]
  exact if_pos rfl

theorem get_set (hp : p < h.blocks.length) (o : Option (List α)) (r : Nat) :
    (⟨h.blocks.set p o⟩ : Heap α).get r = if r = p then o else h.get r := by
  rw [get, get, List.getElem?_set]
  by_cases hr : p = r
  · rw [if_pos hr, if_pos (by omega), if_pos hr.symm]
    rfl
  · rw [if_neg hr, if_neg (fun he => hr he.symm)]

/-- A live block can be freed. -/
theorem free_live (hp : h.get p = some b) : h.free p = some ⟨h.blocks.set p none⟩ := by
  rw [free, hp]
  rfl

/-- A freed block cannot be freed again. -/
theorem free_freed (hp : h.Freed p) : h.free p = none := by
  rw [free, hp.2]
  rfl

theorem later_malloc (h : Heap α) (b : List α) : h.Later (h.malloc b).1 := by
  intro r hr
  refine ⟨?_, ?_⟩
  · have := hr.1
    rw [malloc, List.length_append]
    omega
  · rw [get_malloc, if_neg (by have := hr.1; omega), hr.2]

theorem later_set (hp : h.get p = some b) (o : Option (List α)) :
    h.Later ⟨h.blocks.set p o⟩ := by
  intro r hr
  have hne : r ≠ p := by
    rintro rfl
    rw [hr.2] at hp
    cases hp
  refine ⟨?_, ?_⟩
  · have := hr.1
    rwa [List.length_set]
  · rw [get_set (lt_of_get hp), if_neg hne, hr.2]

theorem length_resize (b : List α) (n : Nat) (fill : α) : (resize b n fill).length = n := by
  rw [resize, List.length_append, List.length_take, List.length_replicate]
  omega

/-- Making a block larger keeps what is in it. -/
theorem take_resize {k n : Nat} (hb : k ≤ b.length) (hn : k ≤ n) (fill : α) :
    (resize b n fill).take k = b.take k := by
  rw [resize, List.take_append_of_le_length (by rw [List.length_take]; omega), List.take_take,
    Nat.min_eq_left hn]

end Heap

open Heap

variable {α ι : Type*}

/--
Each cell holds a live block or none, no two hold the same, and `v` is what is in the
blocks.
-/
structure Owns (h : Heap α) (held : ι → Option Nat) (v : ι → Option (List α)) : Prop where
  block : ∀ i p, held i = some p → ∃ b, v i = some b ∧ h.get p = some b
  nothing : ∀ i, held i = none → v i = none
  single : ∀ i j p, held i = some p → held j = some p → i = j

namespace Owns

variable {h : Heap α} {held : ι → Option Nat} {v : ι → Option (List α)} {i : ι} {p n : Nat}
  {b : List α}

/-- A cell with a block in it. -/
theorem get (ho : Owns h held v) (hi : held i = some p) (hv : v i = some b) : h.get p = some b := by
  obtain ⟨b', hv', hb'⟩ := ho.block i p hi
  rw [hv] at hv'
  rw [hb', ← hv']

/-- What is behind the pointer of a cell. -/
theorem bind_get (ho : Owns h held v) {o : Option Nat} (hi : held i = o) (hv : v i = some b) :
    o.bind h.get = some b := by
  subst hi
  cases hp : held i with
  | none => rw [ho.nothing i hp] at hv; cases hv
  | some p => exact ho.get hp hv

/-- Nothing is held. -/
theorem empty (h : Heap α) : Owns h (fun _ : ι => none) fun _ => none :=
  ⟨fun _ _ hp => by (cases hp), fun _ _ => rfl, fun _ _ _ hp => by (cases hp)⟩

/-- **Pointers move between cells**: cell `i` holds what `g i` held before. -/
theorem rename {κ : Type*} (ho : Owns h held v) (g : κ → Option ι)
    (hg : ∀ i j k, g i = some k → g j = some k → i = j) :
    Owns h (fun i => (g i).bind held) fun i => (g i).bind v := by
  refine ⟨fun i p hp => ?_, fun i hi => ?_, fun i j p hi hj => ?_⟩
  · obtain ⟨k, hk, hp⟩ := Option.bind_eq_some_iff.mp hp
    obtain ⟨b, hb, hget⟩ := ho.block k p hp
    exact ⟨b, by rw [hk]; exact hb, hget⟩
  · cases hk : g i with
    | none => rfl
    | some k =>
        rw [hk] at hi
        exact ho.nothing k hi
  · obtain ⟨k, hk, hp⟩ := Option.bind_eq_some_iff.mp hi
    obtain ⟨k', hk', hp'⟩ := Option.bind_eq_some_iff.mp hj
    obtain rfl := ho.single k k' p hp hp'
    exact hg i j k hk hk'

variable [DecidableEq ι]

/-- A cell drops its pointer. -/
theorem drop (ho : Owns h held v) (i : ι) :
    Owns h (Function.update held i none) (Function.update v i none) := by
  have hrename := ho.rename (fun j => if j = i then none else some j) (by
    intro a c k ha hc
    split at ha
    · cases ha
    · split at hc
      · cases hc
      · rw [Option.some.inj ha, Option.some.inj hc])
  convert hrename using 1 <;> funext j <;> by_cases hj : j = i <;> simp [hj]

/-- **A new block.** -/
theorem malloc (ho : Owns h held v) (i : ι) (b : List α) :
    Owns (h.malloc b).1 (Function.update held i (some (h.malloc b).2))
      (Function.update v i (some b)) := by
  have hfresh : ∀ j p, held j = some p → p ≠ h.blocks.length := by
    intro j p hj he
    obtain ⟨c, -, hc⟩ := ho.block j p hj
    have := lt_of_get hc
    omega
  refine ⟨fun j p hj => ?_, fun j hj => ?_, fun j k p hj hk => ?_⟩
  · by_cases hji : j = i
    · subst hji
      rw [Function.update_self] at hj ⊢
      obtain rfl := Option.some.inj hj
      exact ⟨b, rfl, by rw [get_malloc]; exact if_pos rfl⟩
    · rw [Function.update_of_ne hji] at hj ⊢
      obtain ⟨c, hv, hc⟩ := ho.block j p hj
      exact ⟨c, hv, by rw [get_malloc, if_neg (hfresh j p hj), hc]⟩
  · by_cases hji : j = i
    · subst hji
      rw [Function.update_self] at hj
      cases hj
    · rw [Function.update_of_ne hji] at hj ⊢
      exact ho.nothing j hj
  · by_cases hji : j = i <;> by_cases hki : k = i
    · rw [hji, hki]
    · subst hji
      rw [Function.update_self] at hj
      rw [Function.update_of_ne hki] at hk
      exact absurd (Option.some.inj hj).symm (hfresh k p hk)
    · subst hki
      rw [Function.update_self] at hk
      rw [Function.update_of_ne hji] at hj
      exact absurd (Option.some.inj hk).symm (hfresh j p hj)
    · rw [Function.update_of_ne hji] at hj
      rw [Function.update_of_ne hki] at hk
      exact ho.single j k p hj hk

/-- Changing the block of one cell. -/
theorem set (ho : Owns h held v) (hi : held i = some p) (b : List α) :
    Owns ⟨h.blocks.set p (some b)⟩ held (Function.update v i (some b)) := by
  obtain ⟨c, -, hc⟩ := ho.block i p hi
  refine ⟨fun j r hj => ?_, fun j hj => ?_, ho.single⟩
  · by_cases hji : j = i
    · subst hji
      obtain rfl := Option.some.inj (hi.symm.trans hj)
      exact ⟨b, Function.update_self .., by rw [get_set (lt_of_get hc)]; exact if_pos rfl⟩
    · obtain ⟨d, hv, hd⟩ := ho.block j r hj
      have hne : r ≠ p := fun he => hji (ho.single j i p (he ▸ hj) hi)
      exact ⟨d, by rw [Function.update_of_ne hji, hv], by rw [get_set (lt_of_get hc), if_neg hne, hd]⟩
  · have hji : j ≠ i := by
      rintro rfl
      rw [hi] at hj
      cases hj
    rw [Function.update_of_ne hji]
    exact ho.nothing j hj

/-- **Writing to the block of one cell.** -/
theorem put (ho : Owns h held v) (hi : held i = some p) (b : List α) :
    Owns (h.put p b) held (Function.update v i (some b)) := ho.set hi b

/-- **Freeing the block of one cell**, which then holds none. -/
theorem free (ho : Owns h held v) (hi : held i = some p) :
    ∃ h', h.free p = some h' ∧ h.Later h' ∧ h'.Freed p
      ∧ Owns h' (Function.update held i none) (Function.update v i none) := by
  obtain ⟨c, -, hc⟩ := ho.block i p hi
  have hlt := lt_of_get hc
  refine ⟨_, free_live hc, later_set hc none, ⟨?_, ?_⟩, ?_⟩
  · rwa [List.length_set]
  · rw [get_set hlt]
    exact if_pos rfl
  · have hdrop := ho.drop i
    refine ⟨fun j r hj => ?_, hdrop.nothing, hdrop.single⟩
    obtain ⟨d, hv, hd⟩ := hdrop.block j r hj
    have hji : j ≠ i := by
      rintro rfl
      rw [Function.update_self] at hj
      cases hj
    have hne : r ≠ p := by
      rintro rfl
      rw [Function.update_of_ne hji] at hj
      exact hji (ho.single j i r hj hi)
    exact ⟨d, hv, by rw [get_set hlt, if_neg hne, hd]⟩

/-- **Another size for the block of one cell.** -/
theorem realloc (ho : Owns h held v) (hi : held i = some p) (hv : v i = some b) (n : Nat) (fill : α) :
    ∃ h' p', h.realloc p n fill = some (h', p') ∧ h.Later h'
      ∧ Owns h' (Function.update held i (some p')) (Function.update v i (some (resize b n fill))) := by
  have hb := ho.get hi hv
  obtain ⟨h₁, hfree, hlater, -, ho₁⟩ := ho.free hi
  have hrealloc : h.realloc p n fill = some (h₁.malloc (resize b n fill)) := by
    rw [Heap.realloc, hb, Option.bind_eq_bind, Option.bind_some, hfree]
    rfl
  refine ⟨_, _, hrealloc, hlater.trans (later_malloc _ _), ?_⟩
  have hnew := ho₁.malloc i (resize b n fill)
  rwa [Function.update_idem, Function.update_idem] at hnew

end Owns

end Heaps
