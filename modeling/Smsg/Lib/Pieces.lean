/-
Reading a file in pieces that end at the end of a line.

A reader with a buffer of fixed size gets a line at a time, or as much of it as fits.
`lines` are the lines of a file, each with the element that ends it, and `pieces` what the
reader gets.  Every line is cut into chunks of the size of the buffer (`pieces_eq`), and so
a property that shows at the front of a line is found once for each line that has it, and
once more for each later chunk that happens to have it (`countP_pieces`).
-/
import Mathlib.Data.List.Basic
import Mathlib.Tactic.Common

namespace Pieces

section

variable {α : Type*} [DecidableEq α]

/-- The lines, each with its end; the last one may have none. -/
def lines (nl : α) : List α → List (List α)
  | [] => []
  | c :: l =>
      if c = nl then [c] :: lines nl l
      else
        match lines nl l with
        | [] => [[c]]
        | a :: as => (c :: a) :: as

/-- No more than `n` elements up to the end of the line, and what is behind them. -/
def piece (nl : α) : Nat → List α → List α × List α
  | 0, l => ([], l)
  | _ + 1, [] => ([], [])
  | n + 1, c :: l =>
      if c = nl then ([c], l)
      else (c :: (piece nl n l).1, (piece nl n l).2)

theorem length_piece_le (nl : α) (n : Nat) (l : List α) : (piece nl n l).2.length ≤ l.length := by
  induction n generalizing l with
  | zero => exact Nat.le_refl _
  | succ n ih =>
      cases l with
      | nil => exact Nat.le_refl _
      | cons c l =>
          rw [piece]
          split
          · exact Nat.le_succ _
          · exact Nat.le_succ_of_le (ih l)

theorem length_piece_lt (nl : α) {n : Nat} (hn : 0 < n) {l : List α} (hl : l ≠ []) :
    (piece nl n l).2.length < l.length := by
  obtain ⟨n, rfl⟩ := Nat.exists_eq_succ_of_ne_zero (Nat.ne_of_gt hn)
  cases l with
  | nil => exact absurd rfl hl
  | cons c l =>
      rw [piece]
      split
      · exact Nat.lt_succ_self _
      · exact Nat.lt_succ_of_le (length_piece_le nl n l)

/-- One piece after the other. -/
def pieces (nl : α) (n : Nat) (l : List α) : List (List α) :=
  if _h : 0 < n ∧ l ≠ [] then (piece nl n l).1 :: pieces nl n (piece nl n l).2 else []
termination_by l.length
decreasing_by exact length_piece_lt nl _h.1 _h.2

end

/-- A list in chunks of `n` elements. -/
def chunks {α : Type*} (n : Nat) (l : List α) : List (List α) :=
  if _h : 0 < n ∧ l ≠ [] then l.take n :: chunks n (l.drop n) else []
termination_by l.length
decreasing_by
  have := List.length_pos_iff.mpr _h.2
  rw [List.length_drop]
  omega

variable {α : Type*} {nl : α} {a r l : List α} {n : Nat}

/-! ### The first line -/

/-- `a` is the first line of `a ++ r`. -/
structure FirstLine (nl : α) (a r : List α) : Prop where
  split : ∃ s c, a = s ++ [c] ∧ nl ∉ s ∧ (c = nl ∨ r = [])

theorem FirstLine.ne_nil (h : FirstLine nl a r) : a ≠ [] := by
  obtain ⟨s, c, rfl, -, -⟩ := h.split
  exact List.append_ne_nil_of_right_ne_nil _ (List.cons_ne_nil _ _)

theorem FirstLine.drop (h : FirstLine nl a r) (hn : n < a.length) : FirstLine nl (a.drop n) r := by
  obtain ⟨s, c, rfl, hs, hc⟩ := h.split
  rw [List.length_append, List.length_singleton] at hn
  exact ⟨s.drop n, c, List.drop_append_of_le_length (by omega),
    fun hmem => hs (List.mem_of_mem_drop hmem), hc⟩

/-! ### Chunks -/

theorem chunks_nil (n : Nat) : chunks n ([] : List α) = [] := by
  rw [chunks, dif_neg (by simp)]

theorem chunks_cons (hn : 0 < n) (hl : l ≠ []) : chunks n l = l.take n :: chunks n (l.drop n) := by
  rw [chunks, dif_pos ⟨hn, hl⟩]

theorem chunks_short (hn : 0 < n) (hl : l ≠ []) (hle : l.length ≤ n) : chunks n l = [l] := by
  rw [chunks_cons hn hl, List.take_of_length_le hle, List.drop_of_length_le hle, chunks_nil]

/-- The chunks are what starts at the multiples of `n`. -/
theorem mem_chunks (hn : 0 < n) {b : List α} :
    b ∈ chunks n l ↔ ∃ k, n * k < l.length ∧ b = (l.drop (n * k)).take n := by
  induction hm : l.length using Nat.strongRecOn generalizing l with
  | ind m ih =>
      by_cases hl : l = []
      · subst hl
        rw [chunks_nil]
        simp at hm
        simp [← hm]
      · have hpos := List.length_pos_iff.mpr hl
        have hdrop := ih (l.drop n).length (by rw [List.length_drop]; omega) (l := l.drop n) rfl
        rw [chunks_cons hn hl, List.mem_cons, hdrop]
        constructor
        · rintro (rfl | ⟨k, hk, rfl⟩)
          · exact ⟨0, by omega, by simp⟩
          · rw [List.length_drop] at hk
            refine ⟨k + 1, by rw [Nat.mul_add, Nat.mul_one]; omega, ?_⟩
            rw [List.drop_drop, Nat.mul_add, Nat.mul_one, Nat.add_comm]
        · rintro ⟨k, hk, rfl⟩
          cases k with
          | zero => exact .inl (by simp)
          | succ k =>
              rw [Nat.mul_add, Nat.mul_one] at hk
              refine .inr ⟨k, by rw [List.length_drop]; omega, ?_⟩
              rw [List.drop_drop, Nat.mul_add, Nat.mul_one, Nat.add_comm]

/-! ### The pieces of a line -/

theorem exists_firstLine (nl : α) (hl : l ≠ []) : ∃ a r, l = a ++ r ∧ FirstLine nl a r := by
  induction l with
  | nil => exact absurd rfl hl
  | cons c l ih =>
      by_cases hc : c = nl
      · exact ⟨[c], l, rfl, [], c, rfl, List.not_mem_nil, .inl hc⟩
      · by_cases hnil : l = []
        · subst hnil
          exact ⟨[c], [], rfl, [], c, rfl, List.not_mem_nil, .inr rfl⟩
        · obtain ⟨a, r, rfl, s, d, rfl, hs, hd⟩ := ih hnil
          refine ⟨c :: (s ++ [d]), r, rfl, c :: s, d, rfl, ?_, hd⟩
          rw [List.mem_cons, not_or]
          exact ⟨fun h => hc h.symm, hs⟩

variable [DecidableEq α]

/-- A line is the first one of what starts with it. -/
theorem lines_firstLine (h : FirstLine nl a r) : lines nl (a ++ r) = a :: lines nl r := by
  obtain ⟨s, c, rfl, hs, hc⟩ := h.split
  clear h
  induction s with
  | nil =>
      rw [List.nil_append, List.singleton_append, lines]
      rcases hc with rfl | rfl
      · rw [if_pos rfl]
      · split <;> rfl
  | cons d s ih =>
      have hd : d ≠ nl := fun hd => hs (by rw [hd]; exact List.mem_cons_self)
      rw [List.cons_append, List.cons_append, lines, if_neg hd,
        ih fun hmem => hs (List.mem_cons_of_mem _ hmem)]

/-- A piece of the first line. -/
theorem piece_firstLine (h : FirstLine nl a r) (n : Nat) :
    piece nl n (a ++ r) = (a.take n, a.drop n ++ r) := by
  obtain ⟨s, c, rfl, hs, hc⟩ := h.split
  clear h
  induction s generalizing n with
  | nil =>
      cases n with
      | zero => rfl
      | succ n =>
          rw [List.nil_append, List.singleton_append, piece]
          rcases hc with rfl | rfl
          · rw [if_pos rfl]
            simp
          · split
            · simp
            · cases n <;> simp [piece]
  | cons d s ih =>
      have hd : d ≠ nl := fun hd => hs (by rw [hd]; exact List.mem_cons_self)
      cases n with
      | zero => rfl
      | succ n =>
          rw [List.cons_append, List.cons_append, piece, if_neg hd,
            ih n fun hmem => hs (List.mem_cons_of_mem _ hmem)]
          rfl

theorem pieces_nil (nl : α) (n : Nat) : pieces nl n [] = [] := by
  rw [pieces, dif_neg (by simp)]

/-- **A line is read in chunks.** -/
theorem pieces_firstLine (hn : 0 < n) (h : FirstLine nl a r) :
    pieces nl n (a ++ r) = chunks n a ++ pieces nl n r := by
  induction hk : a.length using Nat.strongRecOn generalizing a with
  | ind k ih =>
      have hne := h.ne_nil
      rw [pieces, dif_pos ⟨hn, List.append_ne_nil_of_left_ne_nil hne r⟩, chunks_cons hn hne,
        piece_firstLine h, List.cons_append]
      congr 1
      by_cases hmore : n < a.length
      · have hlen : (a.drop n).length < k := by rw [List.length_drop]; omega
        exact ih _ hlen (h.drop hmore) rfl
      · rw [List.drop_of_length_le (by omega), chunks_nil]
        rfl

/-- **The pieces are the chunks of the lines.** -/
theorem pieces_eq (hn : 0 < n) (nl : α) (l : List α) :
    pieces nl n l = (lines nl l).flatMap (chunks n) := by
  induction hk : l.length using Nat.strongRecOn generalizing l with
  | ind k ih =>
      by_cases hl : l = []
      · subst hl
        exact pieces_nil nl n
      · obtain ⟨a, r, rfl, h⟩ := exists_firstLine nl hl
        have hpos := List.length_pos_iff.mpr h.ne_nil
        rw [List.length_append] at hk
        rw [pieces_firstLine hn h, lines_firstLine h, List.flatMap_cons, ih r.length (by omega) r rfl]

/-- Whole lines, each with its end. -/
def Whole (nl : α) (l : List α) : Prop := l = [] ∨ ∃ s, l = s ++ [nl]

omit [DecidableEq α] in
theorem Whole.append (h : Whole nl l) (h' : Whole nl r) : Whole nl (l ++ r) := by
  rcases h' with rfl | ⟨s, rfl⟩
  · rw [List.append_nil]
    exact h
  · exact Or.inr ⟨l ++ s, (List.append_assoc l s [nl]).symm⟩

/-- What follows whole lines starts a new one. -/
theorem lines_append (h : Whole nl l) (r : List α) : lines nl (l ++ r) = lines nl l ++ lines nl r := by
  rcases h with rfl | ⟨s, rfl⟩
  · rfl
  · induction s with
    | nil => simp [lines]
    | cons c s ih =>
        rw [List.cons_append, List.cons_append, lines, lines, ih]
        by_cases hc : c = nl
        · rw [if_pos hc, if_pos hc, List.cons_append]
        · rw [if_neg hc, if_neg hc]
          cases hs : lines nl (s ++ [nl]) with
          | nil =>
              have hne : s ++ [nl] ≠ [] := by simp
              obtain ⟨a, r', heq, hfirst⟩ := exists_firstLine nl hne
              rw [heq, lines_firstLine hfirst] at hs
              simp at hs
          | cons a as => rfl

theorem pieces_append (hn : 0 < n) (h : Whole nl l) (r : List α) :
    pieces nl n (l ++ r) = pieces nl n l ++ pieces nl n r := by
  rw [pieces_eq hn, pieces_eq hn, pieces_eq hn, lines_append h, List.flatMap_append]

theorem ne_nil_of_mem_lines (hmem : a ∈ lines nl l) : a ≠ [] := by
  induction hk : l.length using Nat.strongRecOn generalizing l with
  | ind k ih =>
      by_cases hl : l = []
      · subst hl
        cases hmem
      · obtain ⟨b, r, rfl, h⟩ := exists_firstLine nl hl
        have hpos := List.length_pos_iff.mpr h.ne_nil
        rw [List.length_append] at hk
        rw [lines_firstLine h] at hmem
        rcases List.mem_cons.mp hmem with rfl | hmem
        · exact h.ne_nil
        · exact ih r.length (by omega) hmem rfl

/-- Where every line fits the buffer, the reader gets the lines. -/
theorem pieces_short (hn : 0 < n) (hshort : ∀ a ∈ lines nl l, a.length ≤ n) :
    pieces nl n l = lines nl l := by
  rw [pieces_eq hn]
  have hne : ∀ a ∈ lines nl l, a ≠ [] := fun a ha => ne_nil_of_mem_lines ha
  generalize lines nl l = as at hshort hne
  induction as with
  | nil => rfl
  | cons a as ih =>
      rw [List.flatMap_cons, chunks_short hn (hne a List.mem_cons_self)
        (hshort a List.mem_cons_self), ih (fun b hb => hshort b (List.mem_cons_of_mem _ hb))
        (fun b hb => hne b (List.mem_cons_of_mem _ hb))]
      rfl

/-! ### Counting -/

variable {p : List α → Bool}

/-- **What is counted in pieces**: the lines that have it, and the later chunks that do. -/
theorem countP_pieces (hn : 0 < n) (hp : ∀ a, p (a.take n) = p a) (nl : α) (l : List α) :
    (pieces nl n l).countP p
      = (lines nl l).countP p + ((lines nl l).flatMap fun a => chunks n (a.drop n)).countP p := by
  rw [pieces_eq hn]
  have hne : ∀ a ∈ lines nl l, a ≠ [] := fun a ha => ne_nil_of_mem_lines ha
  generalize lines nl l = as at hne
  induction as with
  | nil => rfl
  | cons a as ih =>
      rw [List.flatMap_cons, List.countP_append, ih fun b hb => hne b (List.mem_cons_of_mem _ hb),
        chunks_cons hn (hne a List.mem_cons_self), List.countP_cons, List.countP_cons, hp,
        List.flatMap_cons, List.countP_append]
      omega

/-- **The count in pieces is the count in lines** when no later chunk of a line has it. -/
theorem countP_pieces_eq_iff (hn : 0 < n) (hp : ∀ a, p (a.take n) = p a) (nl : α) (l : List α) :
    (pieces nl n l).countP p = (lines nl l).countP p
      ↔ ∀ a ∈ lines nl l, ∀ k, 0 < k → n * k < a.length → p (a.drop (n * k)) = false := by
  have hzero : (pieces nl n l).countP p = (lines nl l).countP p
      ↔ ∀ a ∈ lines nl l, ∀ b ∈ chunks n (a.drop n), ¬ p b = true := by
    rw [countP_pieces hn hp, Nat.add_eq_left, List.countP_eq_zero, List.forall_mem_flatMap]
  rw [hzero]
  refine forall₂_congr fun a _ => ?_
  constructor
  · intro h k hk hlt
    obtain ⟨k, rfl⟩ := Nat.exists_eq_succ_of_ne_zero (Nat.ne_of_gt hk)
    rw [Nat.mul_succ] at hlt ⊢
    have hmem := h _ ((mem_chunks hn).mpr ⟨k, by rw [List.length_drop]; omega, rfl⟩)
    rw [hp, List.drop_drop, Nat.add_comm] at hmem
    exact Bool.eq_false_iff.mpr hmem
  · intro h b hb
    obtain ⟨k, hlt, rfl⟩ := (mem_chunks hn).mp hb
    rw [List.length_drop] at hlt
    have hfalse := h (k + 1) (Nat.succ_pos k) (by rw [Nat.mul_succ]; omega)
    rw [hp, List.drop_drop, Nat.add_comm, ← Nat.mul_succ, hfalse]
    exact Bool.false_ne_true

end Pieces
