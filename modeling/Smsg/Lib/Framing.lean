/-
Receivers that cut a byte stream into words.

A peer sends words one behind the other and the network hands the stream over in
chunks of its own choosing.  The receiver keeps a buffer, and a framing function
tells it how long the word at the front is, `some 0` when it is not there yet and
`none` when the framing has no defined answer.

Two receive loops are compared.  `drain` serves words for as long as the front of
the buffer holds one, `once` serves at most one word per chunk.  The first hands
over every word as soon as its last letter is there, whatever the chunks are
(`feed_drain`).  The second does so exactly when no chunk holds the end of more
than one word (`feed_once_iff`).

Everything rests on `Code`: the framing recognises a whole word whatever follows
it and answers `some 0` on a proper prefix.  `completed ws n` counts the words
that lie within the first `n` letters, and `Pending` says what is left over.
-/
import Mathlib.Data.List.Basic
import Mathlib.Data.List.Infix
import Mathlib.Tactic.Common

namespace Framing

variable {α β : Type*}

/-- Serve words until the front of the buffer holds none. -/
def drain (frame : List α → Option Nat) (view : List α → β) :
    Nat → List α → Option (List β × List α)
  | 0, _ => none
  | fuel + 1, buf =>
      match frame buf with
      | none => none
      | some 0 => some ([], buf)
      | some (k + 1) =>
          (drain frame view fuel (buf.drop (k + 1))).map fun r => (view buf :: r.1, r.2)

/-- Serve the word at the front of the buffer, if there is one. -/
def once (frame : List α → Option Nat) (view : List α → β) (buf : List α) :
    Option (List β × List α) :=
  match frame buf with
  | none => none
  | some 0 => some ([], buf)
  | some (k + 1) => some ([view buf], buf.drop (k + 1))

/-- Append each chunk to the buffer and serve it. -/
def feed (serve : List α → Option (List β × List α)) :
    List (List α) → List α → Option (List β × List α)
  | [], buf => some ([], buf)
  | c :: cs, buf =>
      match serve (buf ++ c) with
      | none => none
      | some (log, rest) => (feed serve cs rest).map fun r => (log ++ r.1, r.2)

/-- One more chunk at the end. -/
theorem feed_concat (serve : List α → Option (List β × List α)) (c : List α) :
    ∀ (cs : List (List α)) (buf : List α),
      feed serve (cs ++ [c]) buf =
        (feed serve cs buf).bind fun r =>
          (serve (r.2 ++ c)).map fun r' => (r.1 ++ r'.1, r'.2) := by
  intro cs
  induction cs with
  | nil =>
      intro buf
      simp only [List.nil_append, feed, Option.bind_some, List.nil_append]
      cases serve (buf ++ c) with
      | none => rfl
      | some r => simp
  | cons d cs ih =>
      intro buf
      simp only [List.cons_append, feed]
      cases serve (buf ++ d) with
      | none => rfl
      | some r =>
          simp only [ih]
          cases feed serve cs r.2 with
          | none => rfl
          | some r' =>
              simp only [Option.bind_some, Option.map_some]
              cases serve (r'.2 ++ c) with
              | none => rfl
              | some r'' => simp

/-! ### Words and what is left of a stream -/

/-- How many whole words the first `n` letters hold. -/
def completed : List (List α) → Nat → Nat
  | [], _ => 0
  | w :: ws, n => if w.length ≤ n then completed ws (n - w.length) + 1 else 0

/-- `p` is what may be left in front of the words `ws`: part of the first of them. -/
def Pending : List (List α) → List α → Prop
  | [], p => p = []
  | w :: _, p => p <+: w ∧ p ≠ w

theorem completed_le (ws : List (List α)) : ∀ n, completed ws n ≤ ws.length := by
  induction ws with
  | nil => intro n; simp [completed]
  | cons w ws ih =>
      intro n
      rw [completed]
      split
      · simpa using ih _
      · simp

theorem Pending.completed {ws : List (List α)} {p : List α} (h : Pending ws p) :
    completed ws p.length = 0 := by
  cases ws with
  | nil => rfl
  | cons w ws =>
      have hlt : p.length < w.length := by
        refine Nat.lt_of_le_of_ne h.1.length_le fun hlen => h.2 ?_
        exact h.1.eq_of_length hlen
      rw [Framing.completed, if_neg (by omega)]

/-- A prefix of the stream is some whole words and a part of the next one. -/
theorem split_prefix (ws : List (List α)) :
    ∀ (r : List α), r <+: ws.flatten →
      ∃ p, r = (ws.take (completed ws r.length)).flatten ++ p ∧
        Pending (ws.drop (completed ws r.length)) p := by
  induction ws with
  | nil =>
      intro r hr
      exact ⟨[], by simpa [completed] using hr, rfl⟩
  | cons w ws ih =>
      intro r hr
      rw [List.flatten_cons] at hr
      rw [completed]
      split
      · rename_i hle
        obtain ⟨r', rfl⟩ : w <+: r :=
          List.prefix_of_prefix_length_le (List.prefix_append w ws.flatten) hr hle
        obtain ⟨p, hp, hpend⟩ := ih r' ((List.prefix_append_right_inj w).mp hr)
        have hlen : (w ++ r').length - w.length = r'.length := by simp
        rw [hlen]
        refine ⟨p, ?_, hpend⟩
        rw [List.take_succ_cons, List.flatten_cons, List.append_assoc, ← hp]
      · rename_i hlt
        refine ⟨r, by simp, ?_, fun h => hlt (by rw [h])⟩
        exact List.prefix_of_prefix_length_le hr (List.prefix_append w ws.flatten) (by omega)

/-- Whole words in front of the counted letters are simply counted. -/
theorem completed_take (ws : List (List α)) :
    ∀ (m n : Nat), m ≤ ws.length →
      completed ws ((ws.take m).flatten.length + n) = m + completed (ws.drop m) n := by
  induction ws with
  | nil => intro m n hm; simp at hm; subst hm; simp
  | cons w ws ih =>
      intro m n hm
      cases m with
      | zero => simp
      | succ m =>
          have hm' : m ≤ ws.length := by simpa using hm
          rw [List.take_succ_cons, List.flatten_cons, List.length_append, List.drop_succ_cons,
            completed, if_pos (by omega),
            show w.length + (ws.take m).flatten.length + n - w.length
              = (ws.take m).flatten.length + n by omega, ih m n hm']
          omega

/-! ### Framings -/

/-- `frame` cuts streams of words from `C`. -/
structure Code (frame : List α → Option Nat) (C : List α → Prop) : Prop where
  /-- A whole word is recognised whatever follows it. -/
  whole : ∀ {w : List α}, C w → ∀ rest, frame (w ++ rest) = some w.length
  /-- A word whose end is missing is waited for. -/
  part : ∀ {w p : List α}, C w → p <+: w → p ≠ w → frame p = some 0
  /-- Nothing is expected of an empty buffer. -/
  empty : frame [] = some 0
  nonempty : ∀ {w : List α}, C w → w ≠ []

section

variable {frame : List α → Option Nat} {C : List α → Prop} {view v : List α → β}

theorem Code.pending (code : Code frame C) {ws : List (List α)} (hws : ∀ w ∈ ws, C w)
    {p : List α} (hp : Pending ws p) : frame p = some 0 := by
  cases ws with
  | nil => rw [show p = [] from hp]; exact code.empty
  | cons w ws => exact code.part (hws w List.mem_cons_self) hp.1 hp.2

theorem Code.length_pos (code : Code frame C) {w : List α} (hw : C w) : 0 < w.length :=
  List.length_pos_iff.mpr (code.nonempty hw)

/-- What the front word turns into when it is served. -/
theorem Code.front (code : Code frame C) {w : List α} (hw : C w) (rest : List α) :
    ∃ k, frame (w ++ rest) = some (k + 1) ∧ (w ++ rest).drop (k + 1) = rest := by
  have hpos := code.length_pos hw
  refine ⟨w.length - 1, ?_, ?_⟩
  · rw [code.whole hw, show w.length - 1 + 1 = w.length by omega]
  · rw [show w.length - 1 + 1 = w.length by omega, List.drop_left]

/-- The loop serves every whole word in the buffer and keeps the rest. -/
theorem drain_words (code : Code frame C) (hview : ∀ w, C w → ∀ rest, view (w ++ rest) = v w)
    {p : List α} (hp : frame p = some 0) (ws : List (List α)) :
    ∀ fuel, ws.length < fuel → (∀ w ∈ ws, C w) →
      drain frame view fuel (ws.flatten ++ p) = some (ws.map v, p) := by
  induction ws with
  | nil =>
      intro fuel hf _
      cases fuel with
      | zero => omega
      | succ fuel => simp [drain, hp]
  | cons w ws ih =>
      intro fuel hf hws
      cases fuel with
      | zero => omega
      | succ fuel =>
          have hw : C w := hws w List.mem_cons_self
          obtain ⟨k, hk, hdrop⟩ := code.front hw (ws.flatten ++ p)
          have hrest := ih fuel (by simpa using hf) fun u hu => hws u (List.mem_cons_of_mem _ hu)
          rw [List.flatten_cons, List.append_assoc]
          simp only [drain, hk, hdrop, hrest, Option.map_some, List.map_cons, hview w hw]

/-- Words are not empty, so there are no more of them than letters. -/
theorem Code.length_le (code : Code frame C) (ws : List (List α)) (hws : ∀ w ∈ ws, C w) :
    ws.length ≤ ws.flatten.length := by
  induction ws with
  | nil => simp
  | cons w ws ih =>
      have hpos := code.length_pos (hws w List.mem_cons_self)
      have := ih fun u hu => hws u (List.mem_cons_of_mem _ hu)
      simp only [List.length_cons, List.flatten_cons, List.length_append]
      omega

/--
**Draining in a loop is independent of the chunks.**  After any chunks that start
the stream, the words served are those whose last letter has arrived, and what is
left is part of the next one.
-/
theorem feed_drain (code : Code frame C) (hview : ∀ w, C w → ∀ rest, view (w ++ rest) = v w)
    (cs : List (List α)) :
    ∀ (ws : List (List α)) (p : List α), (∀ w ∈ ws, C w) → Pending ws p →
      p ++ cs.flatten <+: ws.flatten →
      ∃ q, feed (fun buf => drain frame view (buf.length + 1) buf) cs p
          = some ((ws.take (completed ws (p ++ cs.flatten).length)).map v, q) ∧
        Pending (ws.drop (completed ws (p ++ cs.flatten).length)) q ∧
        p ++ cs.flatten = (ws.take (completed ws (p ++ cs.flatten).length)).flatten ++ q := by
  induction cs with
  | nil =>
      intro ws p hws hp _
      refine ⟨p, ?_, ?_, ?_⟩ <;> simp [feed, hp.completed, hp]
  | cons c cs ih =>
      intro ws p hws hp hpre
      have hpre' : p ++ c <+: ws.flatten := by
        refine List.IsPrefix.trans ?_ hpre
        rw [List.flatten_cons, ← List.append_assoc]
        exact List.prefix_append _ _
      obtain ⟨q, hq, hpend⟩ := split_prefix ws (p ++ c) hpre'
      set m := completed ws (p ++ c).length with hm
      have hmle : m ≤ ws.length := completed_le ws _
      have hC : ∀ w ∈ ws.take m, C w := fun w hw => hws w (List.mem_of_mem_take hw)
      have hC' : ∀ w ∈ ws.drop m, C w := fun w hw => hws w (List.mem_of_mem_drop hw)
      have hserve : drain frame view ((p ++ c).length + 1) (p ++ c)
          = some ((ws.take m).map v, q) := by
        have hlen : (ws.take m).length < (p ++ c).length + 1 := by
          have := code.length_le _ hC
          rw [hq, List.length_append]
          omega
        rw [hq] at hlen ⊢
        exact drain_words code hview (code.pending hC' hpend) _ _ hlen hC
      have hstream : p ++ (c :: cs).flatten = (ws.take m).flatten ++ (q ++ cs.flatten) := by
        rw [List.flatten_cons, ← List.append_assoc, hq, List.append_assoc]
      have hpre'' : q ++ cs.flatten <+: (ws.drop m).flatten := by
        rw [hstream] at hpre
        have hsplit : ws.flatten = (ws.take m).flatten ++ (ws.drop m).flatten := by
          rw [← List.flatten_append, List.take_append_drop]
        rw [hsplit] at hpre
        exact (List.prefix_append_right_inj _).mp hpre
      obtain ⟨q', hfeed, hpend', hrest⟩ := ih (ws.drop m) q hC' hpend hpre''
      have hcount : completed ws (p ++ (c :: cs).flatten).length
          = m + completed (ws.drop m) (q ++ cs.flatten).length := by
        rw [hstream, List.length_append, completed_take ws m _ hmle]
      rw [hcount]
      refine ⟨q', ?_, ?_, ?_⟩
      · rw [List.take_add, List.map_append]
        simp only [feed, hserve, hfeed, Option.map_some]
      · rw [← List.drop_drop]; exact hpend'
      · rw [List.take_add, List.flatten_append, hstream, List.append_assoc, ← hrest]

/-! ### At most one word per chunk -/

/-- No chunk holds the end of more than one word. -/
def OneEndPerChunk (ws cs : List (List α)) : Prop :=
  ∀ pre c post, cs = pre ++ c :: post →
    completed ws (pre ++ [c]).flatten.length ≤ completed ws pre.flatten.length + 1

/-- The same over the numbers of chunks. -/
theorem oneEndPerChunk_iff {ws cs : List (List α)} : OneEndPerChunk ws cs ↔
    ∀ k < cs.length, completed ws (cs.take (k + 1)).flatten.length
      ≤ completed ws (cs.take k).flatten.length + 1 := by
  constructor
  · intro h k hk
    have hsplit : cs = cs.take k ++ cs[k] :: cs.drop (k + 1) := by
      rw [List.getElem_cons_drop, List.take_append_drop]
    rw [List.take_succ_eq_append_getElem hk]
    exact h _ _ _ hsplit
  · intro h pre c post hsplit
    subst hsplit
    have hk := h pre.length (by simp)
    have htake : (pre ++ c :: post).take (pre.length + 1) = pre ++ [c] := by
      rw [List.take_add, List.take_left, List.drop_left, List.take_succ_cons, List.take_zero]
    rw [htake, List.take_left] at hk
    exact hk

instance (ws cs : List (List α)) : Decidable (OneEndPerChunk ws cs) :=
  decidable_of_iff _ oneEndPerChunk_iff.symm

/-- After every chunk the buffer holds no whole word from `D`, and `log` is served in all. -/
def Served (serve : List α → Option (List β × List α)) (D : List α → Prop) (cs : List (List α))
    (log : List β) : Prop :=
  (∃ buf, feed serve cs [] = some (log, buf)) ∧
    ∀ pre, pre ≠ [] → pre <+: cs → ∀ l buf, feed serve pre [] = some (l, buf) →
      ∀ w, D w → ¬ w <+: buf

/-- The condition seen from a buffer that already holds `p`. -/
private def OneEnd (ws : List (List α)) (p : List α) (cs : List (List α)) : Prop :=
  ∀ pre c post, cs = pre ++ c :: post →
    completed ws (p ++ (pre ++ [c]).flatten).length ≤ completed ws (p ++ pre.flatten).length + 1

/-- The outcome seen from a buffer that already holds `p`. -/
private def ServedFrom (serve : List α → Option (List β × List α)) (D : List α → Prop)
    (p : List α) (cs : List (List α)) (log : List β) : Prop :=
  (∃ buf, feed serve cs p = some (log, buf)) ∧
    ∀ pre, pre ≠ [] → pre <+: cs → ∀ l buf, feed serve pre p = some (l, buf) →
      ∀ w, D w → ¬ w <+: buf

private theorem servedFrom_cons {serve : List α → Option (List β × List α)} {p q c : List α}
    {l : List β} (D : List α → Prop) (cs : List (List α)) (log : List β)
    (hserve : serve (p ++ c) = some (l, q)) :
    ServedFrom serve D p (c :: cs) (l ++ log) ↔
      (∀ w, D w → ¬ w <+: q) ∧ ServedFrom serve D q cs log := by
  constructor
  · intro h
    obtain ⟨⟨buf, hfeed⟩, hclean⟩ := h
    refine ⟨?_, ⟨buf, ?_⟩, ?_⟩
    · refine hclean [c] (by simp) (by simp) l q ?_
      simp [feed, hserve]
    · simp only [feed, hserve] at hfeed
      cases hf : feed serve cs q with
      | none => simp [hf] at hfeed
      | some r =>
          simp only [hf, Option.map_some, Option.some.injEq, Prod.mk.injEq] at hfeed
          rw [← hfeed.2, ← List.append_cancel_left hfeed.1]
    · intro pre hne hpre l' buf' hf w hw
      refine hclean (c :: pre) (by simp) ?_ (l ++ l') buf' ?_ w hw
      · exact (List.prefix_cons_inj c).mpr hpre
      · simp [feed, hserve, hf]
  · intro h
    obtain ⟨hq, ⟨buf, hfeed⟩, hclean⟩ := h
    refine ⟨⟨buf, by simp [feed, hserve, hfeed]⟩, ?_⟩
    intro pre hne hpre l' buf' hf w hw
    cases pre with
    | nil => exact absurd rfl hne
    | cons d pre =>
        obtain ⟨rfl, htail⟩ := List.cons_prefix_cons.mp hpre
        simp only [feed, hserve] at hf
        cases hf' : feed serve pre q with
        | none => simp [hf'] at hf
        | some r =>
            simp only [hf', Option.map_some, Option.some.injEq, Prod.mk.injEq] at hf
            rw [← hf.2]
            cases pre with
            | nil =>
                simp only [feed, Option.some.injEq] at hf'
                rw [← hf']
                exact hq w hw
            | cons e pre => exact hclean (e :: pre) (by simp) htail r.1 r.2 hf' w hw

private theorem oneEnd_cons {ws : List (List α)} {p q c : List α} {cs : List (List α)} {m : Nat}
    (hp : completed ws p.length = 0) (hm : m = completed ws (p ++ c).length)
    (hq : p ++ c = (ws.take m).flatten ++ q) (hmle : m ≤ ws.length) :
    OneEnd ws p (c :: cs) ↔ m ≤ 1 ∧ OneEnd (ws.drop m) q cs := by
  -- counting behind the first `m` words
  have hcount : ∀ l : List (List α), completed ws (p ++ (c :: l).flatten).length
      = m + completed (ws.drop m) (q ++ l.flatten).length := by
    intro l
    rw [List.flatten_cons, ← List.append_assoc, hq, List.append_assoc, List.length_append,
      completed_take ws m _ hmle]
  constructor
  · intro h
    refine ⟨?_, ?_⟩
    · have := h [] c cs rfl
      simp only [List.nil_append, List.flatten_cons, List.flatten_nil, List.append_nil, hp,
        ← hm] at this
      omega
    · intro pre d post hcs
      have := h (c :: pre) d post (by rw [hcs]; rfl)
      rw [List.cons_append, hcount, hcount] at this
      omega
  · intro h pre d post hcs
    obtain ⟨hm1, h⟩ := h
    cases pre with
    | nil =>
        simp only [List.nil_append, List.cons.injEq] at hcs
        obtain ⟨rfl, rfl⟩ := hcs
        simp only [List.nil_append, List.flatten_cons, List.flatten_nil, List.append_nil, hp, ← hm]
        omega
    | cons e pre =>
        simp only [List.cons_append, List.cons.injEq] at hcs
        obtain ⟨rfl, hcs⟩ := hcs
        have := h pre d post hcs
        rw [List.cons_append, hcount, hcount]
        omega

/-- A part of the words to come holds no whole word of a prefix-free set. -/
private theorem no_word_pending {D : List α → Prop} (hCD : ∀ w, C w → D w)
    (hfree : ∀ u w, D u → D w → u <+: w → u = w) (hne : ∀ w, D w → w ≠ [])
    {ws : List (List α)} (hws : ∀ w ∈ ws, C w) {q : List α} (hq : Pending ws q) :
    ∀ w, D w → ¬ w <+: q := by
  intro w hw hwq
  cases ws with
  | nil =>
      rw [show q = [] from hq] at hwq
      exact hne w hw (List.prefix_nil.mp hwq)
  | cons u us =>
      have hu : C u := hws u List.mem_cons_self
      have heq : w = u := hfree w u hw (hCD u hu) (hwq.trans hq.1)
      subst heq
      exact hq.2 (hq.1.eq_of_length_le hwq.length_le)

/-- Nothing is left to send only when nothing is pending. -/
private theorem Pending.nil_of_flatten {ws : List (List α)} {p : List α} (hp : Pending ws p)
    (h : p = ws.flatten) : ws = [] := by
  cases ws with
  | nil => rfl
  | cons w ws =>
      have hlen := congrArg List.length h
      have hlt : p.length ≠ w.length := fun h => hp.2 (hp.1.eq_of_length h)
      have hle := hp.1.length_le
      rw [List.flatten_cons, List.length_append] at hlen
      omega

/-- What is left of a word is kept, and nothing is served. -/
theorem once_pending (code : Code frame C) {ws : List (List α)} (hws : ∀ w ∈ ws, C w)
    {p : List α} (hp : Pending ws p) : once frame view p = some ([], p) := by
  simp only [once, code.pending hws hp]

/-- A word at the front is served, and what follows it is kept. -/
theorem once_word (code : Code frame C) (hview : ∀ w, C w → ∀ rest, view (w ++ rest) = v w)
    {w : List α} (hw : C w) (rest : List α) :
    once frame view (w ++ rest) = some ([v w], rest) := by
  obtain ⟨n, hn, hdrop⟩ := code.front hw rest
  simp only [once, hn, hdrop, hview w hw]

/-- Of two words that end in one chunk, the second stays in the buffer. -/
private theorem not_servedFrom_two (code : Code frame C)
    (hview : ∀ w, C w → ∀ rest, view (w ++ rest) = v w) {D : List α → Prop}
    {w₁ w₂ : List α} (hw₁ : C w₁) (hw₂ : D w₂) {p c rest : List α}
    (hbuf : p ++ c = w₁ ++ (w₂ ++ rest)) (cs : List (List α)) (log : List β) :
    ¬ ServedFrom (once frame view) D p (c :: cs) log := by
  intro h
  have hserve : once frame view (p ++ c) = some ([v w₁], w₂ ++ rest) := by
    rw [hbuf, once_word code hview hw₁]
  refine h.2 [c] (by simp) (by simp) [v w₁] (w₂ ++ rest) ?_ w₂ hw₂ (List.prefix_append _ _)
  simp [feed, hserve]

/--
**Serving one word per chunk keeps up exactly when no chunk ends two words.**  `D`
is any prefix-free set of words that contains the ones sent; the claim about the
buffer is that it never holds a whole one of them after a chunk was served.
-/
theorem feed_once_iff (code : Code frame C) (hview : ∀ w, C w → ∀ rest, view (w ++ rest) = v w)
    {D : List α → Prop} (hCD : ∀ w, C w → D w)
    (hfree : ∀ u w, D u → D w → u <+: w → u = w) (hne : ∀ w, D w → w ≠ [])
    {ws cs : List (List α)} (hws : ∀ w ∈ ws, C w) (hcs : cs.flatten = ws.flatten) :
    Served (once frame view) D cs (ws.map v) ↔ OneEndPerChunk ws cs := by
  -- generalise the empty buffer to what is left of the word being received
  suffices h : ∀ (cs ws : List (List α)) (p : List α), (∀ w ∈ ws, C w) → Pending ws p →
      p ++ cs.flatten = ws.flatten →
      (ServedFrom (once frame view) D p cs (ws.map v) ↔ OneEnd ws p cs) by
    have hpend : Pending ws [] := by
      cases ws with
      | nil => rfl
      | cons w ws =>
          exact ⟨List.nil_prefix, fun h => code.nonempty (hws w List.mem_cons_self) h.symm⟩
    exact h cs ws [] hws hpend (by simpa using hcs)
  intro cs
  induction cs with
  | nil =>
      intro ws p hws hp hstream
      obtain rfl : ws = [] := hp.nil_of_flatten (by simpa using hstream)
      have hL : ServedFrom (once frame view) D p [] (([] : List (List α)).map v) :=
        ⟨⟨p, by simp [feed]⟩, fun pre hne' hpre => absurd (List.prefix_nil.mp hpre) hne'⟩
      have hR : OneEnd ([] : List (List α)) p [] := fun pre c post h => by simp at h
      exact ⟨fun _ => hR, fun _ => hL⟩
  | cons c cs ih =>
      intro ws p hws hp hstream
      have hpre : p ++ c <+: ws.flatten := by
        rw [← hstream, List.flatten_cons, ← List.append_assoc]
        exact List.prefix_append _ _
      obtain ⟨q, hq, hpend⟩ := split_prefix ws (p ++ c) hpre
      obtain ⟨m, hm⟩ : ∃ m, m = completed ws (p ++ c).length := ⟨_, rfl⟩
      rw [← hm] at hq hpend
      have hmle : m ≤ ws.length := by rw [hm]; exact completed_le ws _
      have hrest : q ++ cs.flatten = (ws.drop m).flatten := by
        have h1 : (ws.take m).flatten ++ (q ++ cs.flatten)
            = (ws.take m).flatten ++ (ws.drop m).flatten := by
          rw [← List.append_assoc, ← hq, List.append_assoc, ← List.flatten_append,
            List.take_append_drop, ← hstream, List.flatten_cons]
        exact List.append_cancel_left h1
      have hC' : ∀ w ∈ ws.drop m, C w := fun w hw => hws w (List.mem_of_mem_drop hw)
      rw [oneEnd_cons hp.completed hm hq hmle, ← ih (ws.drop m) q hC' hpend hrest]
      have hclean := no_word_pending hCD hfree hne hC' hpend
      clear hm
      match m, ws with
      | 0, ws =>
          -- no word ends in this chunk
          simp only [List.take_zero, List.flatten_nil, List.nil_append, List.drop_zero] at hq hC' hpend
          have hserve : once frame view (p ++ c) = some ([], q) := by
            rw [hq, once_pending code hC' hpend]
          have := servedFrom_cons D cs (ws.map v) hserve
          rw [List.nil_append] at this
          rw [this, List.drop_zero]
          exact ⟨fun h => ⟨by omega, h.2⟩, fun h => ⟨hclean, h.2⟩⟩
      | 1, w :: us =>
          -- one word ends in this chunk, and it is served
          have hw : C w := hws w List.mem_cons_self
          simp only [List.take_succ_cons, List.take_zero, List.flatten_cons,
            List.flatten_nil, List.append_nil] at hq
          have hserve : once frame view (p ++ c) = some ([v w], q) := by
            rw [hq, once_word code hview hw]
          have := servedFrom_cons D cs (us.map v) hserve
          rw [List.singleton_append] at this
          rw [List.map_cons, this, List.drop_succ_cons, List.drop_zero]
          exact ⟨fun h => ⟨by omega, h.2⟩, fun h => ⟨hclean, h.2⟩⟩
      | k + 2, w₁ :: w₂ :: us =>
          -- two words end in this chunk: the second one stays in the buffer
          have hbuf : p ++ c = w₁ ++ (w₂ ++ ((us.take k).flatten ++ q)) := by
            rw [hq]
            simp
          have hw₁ : C w₁ := hws w₁ (by simp)
          have hw₂ : C w₂ := hws w₂ (by simp)
          have hnot := not_servedFrom_two code hview hw₁ (hCD w₂ hw₂) hbuf cs
          exact ⟨fun h => absurd h (hnot _), fun h => absurd h.1 (by omega)⟩
      | 1, [] => simp at hmle
      | k + 2, [] => simp at hmle
      | k + 2, [_] => simp at hmle

end

end Framing
