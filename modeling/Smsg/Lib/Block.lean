/-
Writing to a block of memory.

A block is the list of its bytes.  What is written behind its end does not get lost:
`Written` keeps it apart, so that a function that writes too much can be told from one
that does not.  Writing pieces one behind the other is one write (`writeAll_eq`), which
is how a run of copies with a moving pointer is understood.
-/
import Mathlib.Data.List.Basic
import Mathlib.Tactic.Common

namespace Blocks

/-- A block that has been written to, and what was written behind its end. -/
structure Written (α : Type*) where
  block : List α
  spill : List α

variable {α : Type*}

/-- A block that nothing has been written behind. -/
def Written.clean (block : List α) : Written α := ⟨block, []⟩

/-- Writing `b` at offset `i`. -/
def Written.write (w : Written α) (i : Nat) (b : List α) : Written α where
  block := w.block.take i ++ (b.take (w.block.length - i) ++ w.block.drop (i + b.length))
  spill := w.spill ++ b.drop (w.block.length - i)

/-- Writing pieces one behind the other, from offset `i` on. -/
def Written.writeAll (w : Written α) (i : Nat) : List (List α) → Written α
  | [] => w
  | b :: bs => (w.write i b).writeAll (i + b.length) bs

/-- Moving `count` bytes inside of a block; `none` when they are not all in it. -/
def move (block : List α) (dst src count : Nat) : Option (List α) :=
  if src + count ≤ block.length ∧ dst + count ≤ block.length then
    some (block.take dst ++ ((block.drop src).take count ++ block.drop (dst + count)))
  else none

/-- Copying `b` to offset `i` of a block; `none` when it does not fit. -/
def copyIn (block : List α) (i : Nat) (b : List α) : Option (List α) :=
  if i + b.length ≤ block.length then some (block.take i ++ (b ++ block.drop (i + b.length))) else none

variable {w : Written α} {i : Nat} {a b : List α}

theorem length_write (w : Written α) (i : Nat) (b : List α) :
    (w.write i b).block.length = w.block.length := by
  simp only [Written.write, List.length_append, List.length_take, List.length_drop]
  omega

theorem write_nil (w : Written α) (i : Nat) : w.write i [] = w := by
  simp [Written.write]

/-- The byte at `k` behind a write. -/
theorem getElem?_write (w : Written α) (i : Nat) (b : List α) (k : Nat) :
    (w.write i b).block[k]?
      = if i ≤ k ∧ k < i + b.length ∧ k < w.block.length then b[k - i]? else w.block[k]? := by
  simp only [Written.write, List.getElem?_append, List.getElem?_take, List.getElem?_drop,
    List.length_take]
  by_cases hlen : k < w.block.length
  · by_cases hi : i ≤ k
    · by_cases hb : k < i + b.length
      · rw [if_neg (by omega), if_pos (by omega), if_pos (by omega), if_pos (by omega),
          show k - min i w.block.length = k - i by omega]
      · rw [if_neg (by omega), if_neg (by omega), if_neg (by omega)]
        congr 1
        omega
    · rw [if_pos (by omega), if_pos (by omega), if_neg (by omega)]
  · have hnone : ∀ m, w.block.length ≤ m → w.block[m]? = none :=
      fun m hm => List.getElem?_eq_none hm
    rw [if_neg (by omega), if_neg (by omega), if_neg (by omega), hnone _ (by omega),
      hnone _ (by omega)]

/-- Two writes, one behind the other. -/
theorem write_write (w : Written α) (i : Nat) (a b : List α) :
    (w.write i a).write (i + a.length) b = w.write i (a ++ b) := by
  have hlen := length_write w i a
  have hblock : ((w.write i a).write (i + a.length) b).block = (w.write i (a ++ b)).block := by
    refine List.ext_getElem? fun k => ?_
    rw [getElem?_write, getElem?_write, getElem?_write, hlen, List.length_append]
    by_cases hin : i ≤ k ∧ k < i + (a.length + b.length) ∧ k < w.block.length
    · rw [if_pos hin]
      by_cases hk : i + a.length ≤ k
      · -- in the second piece
        rw [if_pos (by omega), List.getElem?_append_right (by omega)]
        congr 1
        omega
      · rw [if_neg (by omega), if_pos (by omega), List.getElem?_append_left (by omega)]
    · rw [if_neg hin, if_neg (by omega), if_neg (by omega)]
  have hspill : ((w.write i a).write (i + a.length) b).spill = (w.write i (a ++ b)).spill := by
    show w.spill ++ a.drop _ ++ b.drop ((w.write i a).block.length - _) = w.spill ++ (a ++ b).drop _
    rw [hlen, List.append_assoc, List.drop_append]
    congr 3
    omega
  calc (w.write i a).write (i + a.length) b
      = ⟨((w.write i a).write (i + a.length) b).block,
          ((w.write i a).write (i + a.length) b).spill⟩ := rfl
    _ = w.write i (a ++ b) := by rw [hblock, hspill]

/-- **A run of writes is one write.** -/
theorem writeAll_eq (bs : List (List α)) :
    ∀ (w : Written α) (i : Nat), w.writeAll i bs = w.write i bs.flatten := by
  induction bs with
  | nil => intro w i; exact (write_nil w i).symm
  | cons b bs ih =>
      intro w i
      rw [Written.writeAll, ih, write_write, List.flatten_cons]

/-- A write that fits. -/
theorem write_fits (h : i + b.length ≤ w.block.length) :
    w.write i b = ⟨w.block.take i ++ (b ++ w.block.drop (i + b.length)), w.spill⟩ := by
  have htake : b.take (w.block.length - i) = b := List.take_of_length_le (by omega)
  have hdrop : b.drop (w.block.length - i) = [] := List.drop_of_length_le (by omega)
  rw [Written.write, htake, hdrop, List.append_nil]

/-- How much is written behind the end. -/
theorem length_spill (w : Written α) (i : Nat) (b : List α) :
    (w.write i b).spill.length = w.spill.length + (b.length - (w.block.length - i)) := by
  simp [Written.write]

theorem move_inside {block : List α} {dst src count : Nat} (hsrc : src + count ≤ block.length)
    (hdst : dst + count ≤ block.length) : move block dst src count
      = some (block.take dst ++ ((block.drop src).take count ++ block.drop (dst + count))) :=
  if_pos ⟨hsrc, hdst⟩

theorem copyIn_inside {block : List α} (h : i + b.length ≤ block.length) :
    copyIn block i b = some (block.take i ++ (b ++ block.drop (i + b.length))) :=
  if_pos h

/-! ### A text in the front part of a block

The first `n` bytes of a block are a text, and a copy or a move changes it. -/

variable {block block' text : List α} {n dst src count : Nat}

theorem length_copyIn (h : copyIn block i b = some block') : block'.length = block.length := by
  rw [copyIn] at h
  split at h
  · obtain rfl := Option.some.inj h
    simp only [List.length_append, List.length_take, List.length_drop]
    omega
  · cases h

theorem length_move (h : move block dst src count = some block') : block'.length = block.length := by
  rw [move] at h
  split at h
  · obtain rfl := Option.some.inj h
    simp only [List.length_append, List.length_take, List.length_drop]
    omega
  · cases h

theorem getElem?_copyIn (h : copyIn block i b = some block') (k : Nat) :
    block'[k]? = if i ≤ k ∧ k < i + b.length then b[k - i]? else block[k]? := by
  rw [copyIn] at h
  split at h
  · rename_i hfit
    obtain rfl := Option.some.inj h
    rw [List.getElem?_append, List.getElem?_append, List.length_take, Nat.min_eq_left (by omega),
      List.getElem?_take, List.getElem?_drop]
    by_cases hk : k < i
    · rw [if_pos hk, if_pos hk, if_neg (by omega)]
    · by_cases hb : k < i + b.length
      · rw [if_neg hk, if_pos (by omega), if_pos (by omega)]
      · rw [if_neg hk, if_neg (by omega), if_neg (by omega)]
        congr 1
        omega
  · cases h

/-- What is in front of the target of a move stays. -/
theorem take_move (h : move block dst src count = some block') : block'.take dst = block.take dst := by
  rw [move] at h
  split at h
  · rename_i hfit
    obtain rfl := Option.some.inj h
    exact List.take_left' (by rw [List.length_take]; omega)
  · cases h

theorem getElem?_move (h : move block dst src count = some block') (k : Nat) :
    block'[k]? = if dst ≤ k ∧ k < dst + count then block[src + (k - dst)]? else block[k]? := by
  rw [move] at h
  split at h
  · rename_i hfit
    obtain rfl := Option.some.inj h
    rw [List.getElem?_append, List.getElem?_append, List.length_take, Nat.min_eq_left (by omega),
      List.getElem?_take, List.getElem?_take, List.getElem?_drop, List.getElem?_drop, List.length_take,
      List.length_drop, Nat.min_eq_left (by omega)]
    by_cases hk : k < dst
    · rw [if_pos hk, if_pos hk, if_neg (by omega)]
    · by_cases hb : k < dst + count
      · rw [if_neg hk, if_pos (by omega), if_pos (by omega), if_pos (by omega)]
      · rw [if_neg hk, if_neg (by omega), if_neg (by omega)]
        congr 1
        omega
  · cases h

/-- The text, read at one place of the block. -/
theorem getElem?_text (ht : block.take n = text) (k : Nat) :
    text[k]? = if k < n then block[k]? else none := by
  rw [← ht, List.getElem?_take]

theorem take_eq_of_getElem? (h : ∀ k, text[k]? = if k < n then block[k]? else none) :
    block.take n = text :=
  List.ext_getElem? fun k => by rw [List.getElem?_take, h k]

/-- **Overwriting**: the text may become longer at its end. -/
theorem take_overwrite (ht : block.take n = text) (hn : n ≤ block.length) (hi : i ≤ n)
    (h : copyIn block i b = some block') :
    block'.take (max n (i + b.length)) = text.take i ++ (b ++ text.drop (i + b.length)) := by
  have hlen : text.length = n := by rw [← ht, List.length_take, Nat.min_eq_left hn]
  refine take_eq_of_getElem? fun k => ?_
  rw [getElem?_copyIn h, List.getElem?_append, List.getElem?_append, List.length_take, hlen,
    Nat.min_eq_left hi, List.getElem?_take, List.getElem?_drop, getElem?_text ht, getElem?_text ht]
  by_cases hk : k < i
  · rw [if_pos hk, if_pos hk, if_pos (by omega), if_pos (by omega), if_neg (by omega)]
  · by_cases hb : k < i + b.length
    · rw [if_neg hk, if_pos (by omega), if_pos (by omega), if_pos (by omega)]
    · rw [if_neg hk, if_neg (by omega), if_neg (c := i ≤ k ∧ _) (by omega),
        show i + b.length + (k - i - b.length) = k by omega]
      by_cases hkn : k < n
      · rw [if_pos hkn, if_pos (by omega)]
      · rw [if_neg hkn, if_neg (by omega)]

/-- **Inserting**: what is behind the place is moved out of the way first. -/
theorem take_insert (ht : block.take n = text) (hn : n ≤ block.length) (hi : i ≤ n)
    {opened : List α} (hmove : move block (i + b.length) i (n - i) = some opened)
    (h : copyIn opened i b = some block') :
    block'.take (n + b.length) = text.take i ++ (b ++ text.drop i) := by
  have hlen : text.length = n := by rw [← ht, List.length_take, Nat.min_eq_left hn]
  refine take_eq_of_getElem? fun k => ?_
  rw [getElem?_copyIn h, getElem?_move hmove, List.getElem?_append, List.getElem?_append,
    List.length_take, hlen, Nat.min_eq_left hi, List.getElem?_take, List.getElem?_drop,
    getElem?_text ht, getElem?_text ht]
  by_cases hk : k < i
  · rw [if_pos hk, if_pos hk, if_pos (by omega), if_pos (by omega), if_neg (by omega),
      if_neg (by omega)]
  · by_cases hb : k < i + b.length
    · rw [if_neg hk, if_pos (by omega), if_pos (by omega), if_pos (by omega)]
    · rw [if_neg hk, if_neg (by omega), if_neg (c := i ≤ k ∧ _) (by omega)]
      by_cases hkn : k < n + b.length
      · rw [if_pos (by omega), if_pos hkn, if_pos (by omega)]
        congr 1
        omega
      · rw [if_neg (by omega), if_neg hkn]

/-- **Deleting**: what is behind the place is moved over it, with at least the rest of the text. -/
theorem take_delete (ht : block.take n = text) (hi : i < n) (hcount : n ≤ i + 1 + count)
    (hmove : move block i (i + 1) count = some block') :
    block'.take (n - 1) = text.eraseIdx i := by
  refine take_eq_of_getElem? fun k => ?_
  rw [getElem?_move hmove, List.getElem?_eraseIdx, getElem?_text ht, getElem?_text ht]
  by_cases hk : k < i
  · rw [if_pos hk, if_pos (by omega), if_pos (by omega), if_neg (by omega)]
  · rw [if_neg hk, show i + 1 + (k - i) = k + 1 by omega]
    by_cases hkn : k < n - 1
    · rw [if_pos (by omega), if_pos hkn, if_pos (by omega)]
    · rw [if_neg (by omega), if_neg hkn]

end Blocks
