/-
Cutting a line into words.

`words` says what the words of a line are: the runs without a separator, in order.  A
scanner that skips separators and then takes everything up to the next one (`token`,
`rest`) goes on until there is nothing behind the separator it stopped at.  What it
collects is `tokens`, and `tokens_eq` says how that differs from the words: a line that
ends at a separator has one more token, which is empty.
-/
import Mathlib.Data.List.TakeWhile
import Mathlib.Tactic.Common

namespace Tokens

variable {α : Type*}

/-- The runs without a separator. -/
def words (sep : α → Bool) (l : List α) : List (List α) := (l.splitOnP sep).filter fun w => !w.isEmpty

/-- A list without the separators in front of it. -/
def skip (sep : α → Bool) (l : List α) : List α := l.dropWhile sep

/-- The next token, behind the separators in front. -/
def token (sep : α → Bool) (l : List α) : List α := (skip sep l).takeWhile fun c => !sep c

/-- What is behind the separator that ends the next token, if there is one. -/
def rest (sep : α → Bool) (l : List α) : Option (List α) :=
  match (skip sep l).dropWhile fun c => !sep c with
  | [] => none
  | _ :: r => some r

/-- There is nothing behind the last separator. -/
def endsBlank (sep : α → Bool) (l : List α) : Bool := l.getLast?.all sep

variable {sep : α → Bool} {l r : List α} {c : α}

/-! ### One token -/

/-- The skipped list is the token, the separator and the rest. -/
theorem skip_of_rest (h : rest sep l = some r) :
    ∃ c, sep c = true ∧ skip sep l = token sep l ++ c :: r := by
  unfold rest at h
  cases hd : (skip sep l).dropWhile fun c => !sep c with
  | nil => rw [hd] at h; cases h
  | cons c r' =>
      rw [hd] at h
      obtain rfl : r' = r := by simpa using h
      have hhead : (!sep c) = false := by
        have := List.head?_dropWhile_not (fun c => !sep c) (skip sep l)
        rw [hd] at this
        simpa using this
      refine ⟨c, by simpa using hhead, ?_⟩
      rw [token, ← hd, List.takeWhile_append_dropWhile]

theorem skip_of_rest_none (h : rest sep l = none) : skip sep l = token sep l := by
  unfold rest at h
  cases hd : (skip sep l).dropWhile fun c => !sep c with
  | nil =>
      have hsplit := List.takeWhile_append_dropWhile (p := fun c => !sep c) (l := skip sep l)
      rw [hd, List.append_nil] at hsplit
      exact hsplit.symm
  | cons c r' => rw [hd] at h; cases h

theorem not_sep_token (hc : c ∈ token sep l) : sep c = false := by
  simpa using List.mem_takeWhile_imp hc

theorem infix_token (l : List α) : token sep l <:+: l :=
  (List.takeWhile_prefix _).isInfix.trans (List.dropWhile_suffix _).isInfix

theorem rest_suffix (h : rest sep l = some r) : r <:+ l := by
  obtain ⟨c, -, hskip⟩ := skip_of_rest h
  have hr : r <:+ skip sep l := by
    rw [hskip]
    exact (List.suffix_cons c r).trans (List.suffix_append _ _)
  exact hr.trans (List.dropWhile_suffix _)

theorem length_rest_lt (h : rest sep l = some r) : r.length < l.length := by
  obtain ⟨c, -, hskip⟩ := skip_of_rest h
  have hle := (List.dropWhile_sublist sep (l := l)).length_le
  rw [skip] at hskip
  rw [hskip, List.length_append, List.length_cons] at hle
  omega

/-- Every token of a list. -/
def tokens (sep : α → Bool) (l : List α) : List (List α) :=
  match h : rest sep l with
  | none => [token sep l]
  | some r =>
      have : r.length < l.length := length_rest_lt h
      token sep l :: tokens sep r
termination_by l.length

theorem tokens_none (h : rest sep l = none) : tokens sep l = [token sep l] := by
  rw [tokens]
  split
  · rfl
  · simp_all

theorem tokens_some (h : rest sep l = some r) : tokens sep l = token sep l :: tokens sep r := by
  rw [tokens]
  split <;> simp_all

/-- A token lies in the list. -/
theorem infix_of_mem_tokens {t : List α} (h : t ∈ tokens sep l) : t <:+: l := by
  induction l using tokens.induct sep with
  | case1 l hl =>
      rw [tokens_none hl, List.mem_singleton] at h
      exact h ▸ infix_token l
  | case2 l r hl _ ih =>
      rw [tokens_some hl] at h
      rcases List.mem_cons.mp h with rfl | h
      · exact infix_token l
      · exact (ih h).trans (rest_suffix hl).isInfix

/-! ### Words -/

@[simp] theorem words_nil (sep : α → Bool) : words sep [] = [] := by simp [words]

theorem ne_nil_of_mem_words {w : List α} (h : w ∈ words sep l) : w ≠ [] := by
  rintro rfl
  simp [words] at h

/-- A separator in front makes no difference. -/
theorem words_cons_sep (h : sep c = true) (l : List α) : words sep (c :: l) = words sep l := by
  simp [words, List.splitOnP_cons_eq_if_modifyHead, h]

theorem words_skip (sep : α → Bool) (l : List α) : words sep (skip sep l) = words sep l := by
  induction l with
  | nil => rfl
  | cons c l ih =>
      by_cases hc : sep c = true
      · rw [words_cons_sep hc, ← ih, skip, List.dropWhile_cons_of_pos hc]
        rfl
      · rw [skip, List.dropWhile_cons_of_neg hc]

/-- One run without a separator. -/
theorem words_run (h : ∀ c ∈ l, sep c = false) : words sep l = if l = [] then [] else [l] := by
  rw [words, List.splitOnP_eq_singleton h]
  by_cases hl : l = [] <;> simp [hl]

/-- A run, a separator and more. -/
theorem words_run_append (h : ∀ c ∈ l, sep c = false) (hc : sep c = true) (r : List α) :
    words sep (l ++ c :: r) = (if l = [] then [] else [l]) ++ words sep r := by
  rw [words, List.splitOnP_append_cons_of_forall_mem h c hc]
  by_cases hl : l = [] <;> simp [hl, words]

/-- A token is not empty as long as there is something that is no separator. -/
theorem token_eq_nil_iff : token sep l = [] ↔ skip sep l = [] := by
  constructor
  · intro h
    cases hs : skip sep l with
    | nil => rfl
    | cons c l' =>
        have hc : sep c = false := by
          have := List.head?_dropWhile_not sep l
          rw [← skip, hs] at this
          simpa using this
        rw [token, hs, List.takeWhile_cons_of_pos (by simp [hc])] at h
        cases h
  · intro h
    rw [token, h]
    rfl

theorem token_ne_nil_of_rest (h : rest sep l = some r) : token sep l ≠ [] := by
  intro ht
  rw [token_eq_nil_iff] at ht
  rw [rest, ht] at h
  cases h

/-- **The words are the next token and the words behind it.** -/
theorem words_of_rest (h : rest sep l = some r) : words sep l = token sep l :: words sep r := by
  obtain ⟨c, hc, hskip⟩ := skip_of_rest h
  rw [← words_skip, hskip, words_run_append (fun _ => not_sep_token) hc,
    if_neg (token_ne_nil_of_rest h)]
  rfl

theorem words_of_rest_none (h : rest sep l = none) :
    words sep l = if token sep l = [] then [] else [token sep l] := by
  rw [← words_skip, skip_of_rest_none h, words_run fun _ => not_sep_token]

/-- What is no separator is in a word. -/
theorem mem_words_of_mem (hc : sep c = false) (hmem : c ∈ l) : ∃ w ∈ words sep l, c ∈ w := by
  induction l using tokens.induct sep with
  | case1 l h =>
      have htok : c ∈ token sep l := by
        rw [← skip_of_rest_none h]
        exact mem_skip hc hmem
      rw [words_of_rest_none h, if_neg (List.ne_nil_of_mem htok)]
      exact ⟨_, List.mem_singleton_self _, htok⟩
  | case2 l r h _ ih =>
      obtain ⟨d, hd, hskip⟩ := skip_of_rest h
      have hin := mem_skip hc hmem
      rw [hskip] at hin
      rw [words_of_rest h]
      rcases List.mem_append.mp hin with hin | hin
      · exact ⟨_, List.mem_cons_self, hin⟩
      · rcases List.mem_cons.mp hin with rfl | hin
        · rw [hd] at hc; cases hc
        · obtain ⟨w, hw, hcw⟩ := ih hin
          exact ⟨w, List.mem_cons_of_mem _ hw, hcw⟩
where
  mem_skip {l : List α} {c : α} (hc : sep c = false) (hmem : c ∈ l) : c ∈ skip sep l := by
    rw [← List.takeWhile_append_dropWhile (p := sep) (l := l)] at hmem
    rcases List.mem_append.mp hmem with h | h
    · have := List.mem_takeWhile_imp h
      rw [hc] at this
      cases this
    · exact h

/-- The next token is the same when more is written behind its separator. -/
theorem rest_append (h : rest sep l = some r) (more : List α) :
    token sep (l ++ more) = token sep l ∧ rest sep (l ++ more) = some (r ++ more) := by
  obtain ⟨c, hc, hskip⟩ := skip_of_rest h
  have hmore : skip sep (l ++ more) = token sep l ++ c :: (r ++ more) := by
    have hne : skip sep l ≠ [] := fun hs => token_ne_nil_of_rest h (token_eq_nil_iff.mpr hs)
    rw [skip, List.dropWhile_append, if_neg (by simpa [skip] using hne), ← skip, hskip]
    simp
  have hrun : ∀ d ∈ token sep l, (!sep d) = true := fun d hd => by simp [not_sep_token hd]
  constructor
  · rw [token, hmore, List.takeWhile_append_of_pos hrun, List.takeWhile_cons_of_neg (by simp [hc]),
      List.append_nil]
  · rw [rest, hmore, List.dropWhile_append_of_pos hrun, List.dropWhile_cons_of_neg (by simp [hc])]

/-- Behind the last separator, what is written more becomes part of the token. -/
theorem token_append_of_rest_none (h : rest sep l = none) (hc : sep c = false) (more : List α) :
    c ∈ token sep (l ++ c :: more) := by
  have hmore : skip sep (l ++ c :: more) = token sep l ++ c :: more := by
    rw [← skip_of_rest_none h, skip, skip, List.dropWhile_append]
    split
    · rename_i he
      rw [List.isEmpty_iff.mp he, List.dropWhile_cons_of_neg (by simp [hc])]
      rfl
    · rfl
  have hrun : ∀ d ∈ token sep l, (!sep d) = true := fun d hd => by simp [not_sep_token hd]
  rw [token, hmore, List.takeWhile_append_of_pos hrun, List.takeWhile_cons_of_pos (by simp [hc])]
  exact List.mem_append_right _ List.mem_cons_self

/-- Words do not become fewer when more is written behind them. -/
theorem length_words_le (l more : List α) :
    (words sep l).length ≤ (words sep (l ++ more)).length := by
  induction l using tokens.induct sep with
  | case1 l h =>
      rw [words_of_rest_none h]
      by_cases ht : token sep l = []
      · rw [if_pos ht]
        exact Nat.zero_le _
      · rw [if_neg ht]
        obtain ⟨c, hc⟩ := List.exists_mem_of_ne_nil _ ht
        have hcl : c ∈ l ++ more := List.mem_append_left _ ((infix_token l).subset hc)
        obtain ⟨w, hw, -⟩ := mem_words_of_mem (not_sep_token hc) hcl
        exact List.length_pos_of_mem hw
  | case2 l r h _ ih =>
      obtain ⟨htoken, hrest⟩ := rest_append h more
      rw [words_of_rest h, words_of_rest hrest]
      simpa using ih

/-! ### The end of the line -/

theorem endsBlank_append (p : List α) (c : α) (h : sep c = true) :
    endsBlank sep (p ++ c :: l) = endsBlank sep l := by
  cases l with
  | nil => simp [endsBlank, h]
  | cons d l =>
      have hlast := List.getLast?_eq_some_getLast (List.cons_ne_nil d l)
      simp [endsBlank, List.getLast?_append, hlast]

theorem endsBlank_skip (sep : α → Bool) (l : List α) : endsBlank sep (skip sep l) = endsBlank sep l := by
  induction l with
  | nil => rfl
  | cons c l ih =>
      by_cases hc : sep c = true
      · have hl := endsBlank_append (l := l) [] c hc
        rw [List.nil_append] at hl
        rw [hl, ← ih, skip, List.dropWhile_cons_of_pos hc]
        rfl
      · rw [skip, List.dropWhile_cons_of_neg hc]

/-- **A line that ends at a separator has an empty token at its end.** -/
theorem tokens_eq (l : List α) :
    tokens sep l = words sep l ++ (if endsBlank sep l then [[]] else []) := by
  induction l using tokens.induct sep with
  | case1 l h =>
      rw [tokens_none h, words_of_rest_none h, ← endsBlank_skip, skip_of_rest_none h]
      by_cases ht : token sep l = []
      · rw [ht]
        rfl
      · have hlast : endsBlank sep (token sep l) = false := by
          rw [endsBlank, List.getLast?_eq_some_getLast ht]
          show sep ((token sep l).getLast ht) = false
          exact not_sep_token (List.getLast_mem ht)
        rw [if_neg ht, hlast]
        rfl
  | case2 l r h _ ih =>
      obtain ⟨c, hc, hskip⟩ := skip_of_rest h
      rw [tokens_some h, words_of_rest h, ih, ← endsBlank_skip (l := l), hskip, endsBlank_append _ _ hc]
      rfl

end Tokens
