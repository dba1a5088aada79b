/-
What becomes of standard input, a destination and a nick in `main`.

None of the three is right.  `get_stdin` cuts the NUL off that it has just written: it ends
in a `realloc` to the number of characters, and the NUL is behind them (`getStdin_spec`).
The block for the user of a destination is large enough, but the NUL is written one byte
too far, and the byte where it belongs is never written (`userBlock_eq`).  The filter for
the nick moves one byte too many, so that the first illegal character makes it read behind
the string (`filterNick_from`).
-/
import Smsg.Main
import Smsg.Proofs.Malloc

namespace Smsg

open Heaps Blocks

/-! ### Strings in blocks -/

/-- Characters are counted, and what is behind them decides. -/
theorem strText_append (t : Bytes) (ht : (0 : UInt8) ∉ t) (rest : List (Option UInt8)) :
    strText (t.map some ++ rest) = (strText rest).map (t ++ ·) := by
  induction t with
  | nil =>
      rw [List.map_nil, List.nil_append]
      cases strText rest <;> rfl
  | cons c t ih =>
      have hc : c ≠ 0 := fun hc => ht (by rw [hc]; exact List.mem_cons_self)
      rw [List.map_cons, List.cons_append, strText, if_neg hc,
        ih fun hmem => ht (List.mem_cons_of_mem _ hmem)]
      cases strText rest <;> rfl

theorem strText_unterminated (t : Bytes) (ht : (0 : UInt8) ∉ t) :
    strText (t.map some) = .error .outside := by
  have h := strText_append t ht []
  rwa [List.append_nil] at h

/-- A string is read up to its NUL. -/
theorem strText_cstr (t : Bytes) (ht : (0 : UInt8) ∈ t) : strText (t.map some) = .ok (cstr t).chars := by
  induction t with
  | nil => cases ht
  | cons c t ih =>
      rw [List.map_cons, strText]
      by_cases hc : c = 0
      · subst hc
        rfl
      · have hmem : (0 : UInt8) ∈ t := (List.mem_cons.mp ht).resolve_left (Ne.symm hc)
        rw [if_neg hc, ih hmem]
        simp [cstr, hc, Except.map]

theorem idxOf_first {c : UInt8} {u : Bytes} (hfirst : c ∉ u) (rest : Bytes) :
    (u ++ c :: rest).idxOf? c = some u.length := by
  induction u with
  | nil => simp [List.idxOf?_cons]
  | cons x u ih =>
      have hx : x ≠ c := fun hx => hfirst (by rw [hx]; exact List.mem_cons_self)
      rw [List.cons_append, List.idxOf?_cons, if_neg (by simpa using hx),
        ih fun hmem => hfirst (List.mem_cons_of_mem _ hmem)]
      rfl

/-! ### Standard input -/

/-- The characters that `get_stdin` takes with `n` of them in the block already. -/
def captured (n : Nat) (input : Bytes) : Bytes :=
  (input.takeWhile (· != eofChar)).take (msgMaxLen - 1 - n)

section

variable {h : Mem} {p : Nat} {b : List (Option UInt8)}

theorem memcpy_live (hp : h.get p = some b) (i : Nat) (data : Bytes) (hfit : i + data.length ≤ b.length) :
    ∃ h', memcpy h (some p) i data = .ok h'
      ∧ h'.get p = some (b.take i ++ (data.map some ++ b.drop (i + data.length))) := by
  have hfit' : i + (data.map some).length ≤ b.length := by rwa [List.length_map]
  have hcopy := Blocks.copyIn_inside hfit'
  rw [List.length_map] at hcopy
  refine ⟨h.put p (b.take i ++ (data.map some ++ b.drop (i + data.length))), ?_, ?_⟩
  · simp only [memcpy, memWrite, hp, hcopy]
  · rw [Heap.put, Heap.get_set (Heap.lt_of_get hp), if_pos rfl]

/-- The characters of `t` stand at the front of the block of `get_stdin`. -/
structure Filled (h : Mem) (p : Nat) (t : Bytes) : Prop where
  block : ∃ b, h.get p = some b ∧ b.length = msgMaxLen ∧ b.take t.length = t.map some
  room : t.length ≤ msgMaxLen - 1

theorem take_front {t : Bytes} {c : UInt8} (htake : b.take (t.length + 1) = (t ++ [c]).map some) :
    b.take t.length = t.map some := by
  have hfront := congrArg (List.take t.length) htake
  rwa [List.take_take, Nat.min_eq_left (Nat.le_succ _), List.map_append,
    List.take_left' (List.length_map _)] at hfront

/-- One character more. -/
theorem Filled.write {t : Bytes} (hf : Filled h p t) (c : UInt8) :
    ∃ h' b, memcpy h (some p) t.length [c] = .ok h' ∧ h'.get p = some b ∧ b.length = msgMaxLen
      ∧ b.take (t.length + 1) = (t ++ [c]).map some := by
  obtain ⟨b, hp, hlen, htake⟩ := hf.block
  have hroom := hf.room
  have hle : t.length + 1 ≤ b.length := by rw [hlen]; rw [msgMaxLen] at hroom ⊢; omega
  obtain ⟨h', hcopy, hget⟩ := memcpy_live hp t.length [c] hle
  refine ⟨h', _, hcopy, hget, ?_, ?_⟩
  · simp only [List.length_append, List.length_take, List.length_drop, List.length_map,
      List.length_singleton]
    omega
  · have hfront : (b.take t.length ++ [some c]).length = t.length + 1 := by
      rw [List.length_append, List.length_take, List.length_singleton]
      omega
    rw [List.map_singleton, ← List.append_assoc, ← hfront, List.take_left, htake, List.map_append,
      List.map_singleton]

/-- A character is taken, when it is none that ends the input and there is room for it. -/
theorem captured_cons {c : UInt8} {t input : Bytes} (hc : c ≠ eofChar)
    (hroom : t.length < msgMaxLen - 1) :
    t ++ captured t.length (c :: input) = (t ++ [c]) ++ captured (t ++ [c]).length input := by
  have hsub : msgMaxLen - 1 - t.length = (msgMaxLen - 1 - (t.length + 1)) + 1 := by omega
  rw [captured, captured, List.takeWhile_cons_of_pos (by simpa using hc), hsub,
    List.take_succ_cons, List.length_append, List.length_singleton]
  simp

theorem captured_stop {c : UInt8} {n : Nat} (input : Bytes)
    (h : ¬ (c ≠ eofChar ∧ n < msgMaxLen - 1)) : captured n (c :: input) = [] := by
  rw [captured]
  by_cases hc : c = eofChar
  · rw [List.takeWhile_cons_of_neg (by simp [hc]), List.take_nil]
  · have hfull : msgMaxLen - 1 - n = 0 := by
      have : ¬ n < msgMaxLen - 1 := fun hlt => h ⟨hc, hlt⟩
      omega
    rw [hfull, List.take_zero]

/-- **The loop** fills the block with the characters up to `EOF` or the limit. -/
theorem stdinLoop_spec (input : Bytes) :
    ∀ (h : Mem) (t : Bytes), Filled h p t →
      ∃ h', stdinLoop h (some p) t.length t.length input
          = .ok (h', (t ++ captured t.length input).length + 1, (t ++ captured t.length input).length)
        ∧ Filled h' p (t ++ captured t.length input) := by
  induction input with
  | nil =>
      intro h t hf
      obtain ⟨h', b, hcopy, hget, hlen, htake⟩ := hf.write eofChar
      have hnil : t ++ captured t.length [] = t := by simp [captured]
      rw [hnil, stdinLoop, hcopy]
      exact ⟨h', rfl, ⟨b, hget, hlen, take_front htake⟩, hf.room⟩
  | cons c input ih =>
      intro h t hf
      obtain ⟨h', b, hcopy, hget, hlen, htake⟩ := hf.write c
      rw [stdinLoop, hcopy]
      by_cases hmore : c ≠ eofChar ∧ t.length < msgMaxLen - 1
      · -- the character is kept
        have hf' : Filled h' p (t ++ [c]) := by
          refine ⟨⟨b, hget, hlen, ?_⟩, ?_⟩
          · rw [List.length_append, List.length_singleton]
            exact htake
          · rw [List.length_append, List.length_singleton]
            exact hmore.2
        obtain ⟨h'', hloop, hf''⟩ := ih h' (t ++ [c]) hf'
        rw [captured_cons hmore.1 hmore.2]
        refine ⟨h'', ?_, hf''⟩
        show (if _ then _ else _) = _
        rw [if_pos hmore, ← hloop, List.length_append, List.length_singleton]
      · -- it is `EOF`, or the block is full
        rw [captured_stop input hmore, List.append_nil]
        refine ⟨h', ?_, ⟨b, hget, hlen, take_front htake⟩, hf.room⟩
        show (if _ then _ else _) = _
        rw [if_neg hmore]

/-- **What `get_stdin` leaves**: the characters, without the NUL, if there are any. -/
theorem getStdin_spec (m : Malloc) (h : Mem) (input : Bytes) (hm : m.grants msgMaxLen = true) :
    ∃ h' rdata, getStdin m h input = .ok (0, h', rdata)
      ∧ rdata.bind h'.get
        = if captured 0 input = [] ∨ m.grants (captured 0 input).length = false then none
          else some ((captured 0 input).map some) := by
  obtain ⟨h₀, p, hmalloc, hf⟩ : ∃ h₀ p, m.cMalloc h msgMaxLen = (h₀, some p) ∧ Filled h₀ p [] := by
    exact ⟨_, _, if_pos hm, ⟨_, Heap.get_malloc_self h _, List.length_replicate, rfl⟩, Nat.zero_le _⟩
  obtain ⟨h₁, hloop, hf₁⟩ := stdinLoop_spec input h₀ [] hf
  rw [List.nil_append, List.length_nil] at hloop hf₁
  generalize captured 0 input = t at hloop hf₁ ⊢
  -- the NUL is written behind the characters
  obtain ⟨h₂, b, hcopy, hget, hlen, htake⟩ := hf₁.write 0
  have hfront : b.take t.length = t.map some := take_front htake
  have hcall : getStdin m h input = (m.cRealloc h₂ (some p) t.length).map fun r => (0, r.1, r.2) := by
    rw [getStdin, hmalloc]
    show (stdinLoop h₀ (some p) 0 0 input >>= _) = _
    rw [hloop]
    show (memcpy h₁ (some p) t.length [0] >>= _) = _
    rw [hcopy]
    show (m.cRealloc h₂ (some p) t.length >>= _) = _
    cases m.cRealloc h₂ (some p) t.length <;> rfl
  rw [hcall, Malloc.cRealloc]
  by_cases hnil : t = []
  · -- a size of zero frees the block
    subst hnil
    refine ⟨⟨h₂.blocks.set p none⟩, none, ?_, by simp⟩
    rw [List.length_nil, if_pos rfl, cFree, Heap.free_live hget]
    rfl
  · have hne : t.length ≠ 0 := fun hz => hnil (List.length_eq_zero_iff.mp hz)
    rw [if_neg hne]
    cases hgrant : m.grants t.length with
    | false =>
        refine ⟨h₂, none, ?_, by simp⟩
        rw [if_neg Bool.false_ne_true]
        rfl
    | true =>
        -- the block is cut off behind the characters
        have hresize : Heap.resize b t.length none = t.map some := by
          have hroom := hf₁.room
          rw [Heap.resize, hfront, hlen, Nat.sub_eq_zero_of_le (by omega), List.replicate_zero,
            List.append_nil]
        have hrealloc : h₂.realloc p t.length none
            = some ((⟨h₂.blocks.set p none⟩ : Mem).malloc (t.map some)) := by
          rw [Heap.realloc, hget, Option.bind_eq_bind, Option.bind_some, Heap.free_live hget, hresize]
          rfl
        refine ⟨((⟨h₂.blocks.set p none⟩ : Mem).malloc (t.map some)).1,
          some ((⟨h₂.blocks.set p none⟩ : Mem).malloc (t.map some)).2, ?_, ?_⟩
        · rw [if_pos rfl, Smsg.cRealloc, hrealloc]
          rfl
        · rw [if_neg (by simp [hnil]), Option.bind_some, Heap.get_malloc_self]

end

/-- What `get_stdin` owes: the characters and a NUL in the block, so that they can be sent. -/
structure SendsInput (h : Mem) (msgdata : Option Nat) (input : Bytes) : Prop where
  block : ∃ b, msgdata.bind h.get = some b ∧ (input.take (msgMaxLen - 1) ++ [0]).map some <+: b
  sent : ∀ pwName, sendmessageCmd pwName none (msgdata.bind h.get)
    = .ok ⟨.msg, [pwName.chars, [], (cstr (input.take (msgMaxLen - 1))).chars]⟩

theorem length_captured_le (input : Bytes) :
    (captured 0 input).length ≤ (input.take (msgMaxLen - 1)).length := by
  have htake : (input.takeWhile (· != eofChar)).length ≤ input.length :=
    (List.takeWhile_sublist _).length_le
  rw [captured, Nat.sub_zero, List.length_take, List.length_take]
  omega

theorem captured_unterminated (input : Bytes) :
    ¬ (input.take (msgMaxLen - 1) ++ [0]).map some <+: (captured 0 input).map some := by
  intro hpre
  have hlen := hpre.length_le
  have hle := length_captured_le input
  rw [List.length_map, List.length_map, List.length_append, List.length_singleton] at hlen
  omega

/-- What is behind the pointer that `get_stdin` leaves is no more than what is captured. -/
theorem getStdin_block {m : Malloc} {h h' : Mem} {input : Bytes} {rdata : Option Nat}
    {b : List (Option UInt8)} (hcall : getStdin m h input = .ok (0, h', rdata))
    (hb : rdata.bind h'.get = some b) : b = (captured 0 input).map some := by
  cases hm : m.grants msgMaxLen with
  | false =>
      have hnull : getStdin m h input = .ok (1, h, none) := by
        rw [getStdin, Malloc.cMalloc, hm]
        rfl
      rw [hnull] at hcall
      have := (Prod.mk.inj (Except.ok.inj hcall)).1
      omega
  | true =>
      obtain ⟨h₁, r₁, hcall₁, hblock⟩ := getStdin_spec m h input hm
      rw [hcall] at hcall₁
      obtain ⟨-, hrest⟩ := Prod.mk.inj (Except.ok.inj hcall₁)
      obtain ⟨rfl, rfl⟩ := Prod.mk.inj hrest
      rw [hb] at hblock
      split at hblock
      · cases hblock
      · exact Option.some.inj hblock

/--
**Standard input is never captured with its NUL**, whatever it is: the block that
`get_stdin` leaves ends with the last character, or has been freed.
-/
theorem stdin_cut_off (m : Malloc) (h : Mem) (input : Bytes) :
    ¬ ∃ h' msgdata, getStdin m h input = .ok (0, h', msgdata) ∧ SendsInput h' msgdata input := by
  rintro ⟨h', msgdata, hcall, hsends⟩
  obtain ⟨b, hb, hpre⟩ := hsends.block
  rw [getStdin_block hcall hb] at hpre
  exact captured_unterminated input hpre

/-- What `strlen(msgdata)` comes to: it finds a NUL only if one has been entered. -/
theorem stdin_text (m : Malloc) (h : Mem) (input : Bytes) (hm : m.grants msgMaxLen = true)
    (hn : m.grants (captured 0 input).length = true) :
    ∃ h' msgdata, getStdin m h input = .ok (0, h', msgdata)
      ∧ ((∃ text, ptrText (msgdata.bind h'.get) = .ok text) ↔ (0 : UInt8) ∈ captured 0 input) := by
  obtain ⟨h', msgdata, hcall, hblock⟩ := getStdin_spec m h input hm
  refine ⟨h', msgdata, hcall, ?_⟩
  rw [hblock]
  by_cases hnil : captured 0 input = []
  · rw [if_pos (.inl hnil), hnil]
    exact iff_of_false (fun ⟨_, h⟩ => by (cases h)) List.not_mem_nil
  · rw [if_neg (by simp [hnil, hn])]
    show (∃ text, strText _ = .ok text) ↔ _
    by_cases hnul : (0 : UInt8) ∈ captured 0 input
    · exact iff_of_true ⟨_, strText_cstr _ hnul⟩ hnul
    · rw [strText_unterminated _ hnul]
      exact iff_of_false (fun ⟨_, h⟩ => by (cases h)) hnul

/-- Two characters are entered. -/
theorem not_stdin_captured : ¬ ∀ (m : Malloc) (h : Mem) (input : Bytes),
    m.grants msgMaxLen = true → m.grants input.length = true →
      ∃ h' msgdata, getStdin m h input = .ok (0, h', msgdata) ∧ SendsInput h' msgdata input := by
  intro hall
  obtain ⟨h', msgdata, hcall, hsends⟩ := hall .ample Heap.empty [104, 105] (by decide) (by decide)
  obtain ⟨b, hb, hpre⟩ := hsends.block
  obtain rfl := getStdin_block hcall hb
  exact captured_unterminated [104, 105] hpre

/-! ### The destination -/

section

variable {m : Malloc} {optarg : CString} {u host : Bytes} {d : Dest}

/-- **The block of the user**: the NUL is written behind it, and its last byte never. -/
theorem userBlock_eq (u rest : Bytes) :
    userBlock (u ++ rest) u.length = ⟨u.map some ++ [none], [some 0]⟩ := by
  have hcopy : (Written.clean (List.replicate (u.length + 1) (none : Option UInt8))).write 0
      (((u ++ rest).take u.length).map some) = ⟨u.map some ++ [none], []⟩ := by
    rw [List.take_left, write_fits (by simp [Written.clean])]
    simp [Written.clean]
  have hlen : u.length + 1 = (u.map some ++ [none]).length := by
    rw [List.length_append, List.length_map, List.length_singleton]
  rw [userBlock, hcopy, Written.write, hlen]
  simp only [List.take_length, Nat.sub_self, List.take_zero, List.nil_append, List.drop_zero]
  rw [List.drop_of_length_le (by rw [List.length_singleton]; omega), List.append_nil]

/-- What `main` makes of `user@host` when it gets its memory. -/
theorem mainDest_at (hsplit : optarg.chars = u ++ 64 :: host) (hfirst : (64 : UInt8) ∉ u)
    (h : mainDest m optarg = some d) :
    d.targethost.chars = host ∧ d.targetuser = some ⟨u.map some ++ [none], [some 0]⟩ := by
  have hhost : (optarg.behind (u.length + 1)).chars = host := by
    show optarg.chars.drop (u.length + 1) = host
    rw [hsplit, ← List.drop_drop, List.drop_left]
    rfl
  rw [mainDest, hsplit, idxOf_first hfirst] at h
  simp only at h
  split at h
  · cases h
  · split at h
    · cases h
    · obtain rfl := Option.some.inj h
      exact ⟨hhost, congrArg some (userBlock_eq u _)⟩

/-- What a destination `u@host` owes: the host, and the user in its block. -/
structure SplitsInto (m : Malloc) (optarg : CString) (u host : Bytes) : Prop where
  split : ∃ d w, mainDest m optarg = some d ∧ d.targethost.chars = host ∧ d.targetuser = some w
    ∧ w.spill = [] ∧ strText w.block = .ok u

/--
**A destination is never split right.**  The host is, but a byte is written behind the block
of the user, and `strlen` comes upon one that was never written.
-/
theorem dest_split (m : Malloc) (hsplit : optarg.chars = u ++ 64 :: host) (hfirst : (64 : UInt8) ∉ u) :
    ¬ SplitsInto m optarg u host ∧ ∀ d, mainDest m optarg = some d → d.targethost.chars = host
      ∧ ∃ w, d.targetuser = some w ∧ w.spill = [some 0] ∧ strText w.block = .error .uninit := by
  have hnul : (0 : UInt8) ∉ u := fun hu => optarg.nulFree (by rw [hsplit]; exact List.mem_append_left _ hu)
  refine ⟨?_, fun d hd => ?_⟩
  · rintro ⟨d, w, hd, -, hw, hspill, -⟩
    have huser := (mainDest_at hsplit hfirst hd).2
    rw [hw] at huser
    obtain rfl := Option.some.inj huser
    cases hspill
  · obtain ⟨hhost, huser⟩ := mainDest_at hsplit hfirst hd
    exact ⟨hhost, _, huser, rfl, strText_append u hnul [none]⟩

end

/-- `a@b`. -/
def aAtB : CString := ⟨[97, 64, 98], by decide⟩

theorem aAtB_chars : aAtB.chars = [97] ++ 64 :: [98] := rfl

theorem dest_split_aAtB : ¬ SplitsInto .ample aAtB [97] [98] :=
  (dest_split .ample aAtB_chars (by decide)).1

/-- There is memory for `a@b`, and `main` goes on with it. -/
theorem not_dest_split : ¬ ∀ (m : Malloc) (optarg : CString) (u host : Bytes),
    (∀ n, n ≤ optarg.chars.length + 1 → m.grants n = true) → optarg.chars = u ++ 64 :: host →
      (64 : UInt8) ∉ u → SplitsInto m optarg u host := by
  intro hall
  obtain ⟨d, w, hd, -, hw, hspill, -⟩ := hall .ample aAtB [97] [98]
    (fun n hn => decide_eq_true (by
      have : aAtB.chars.length = 3 := rfl
      omega)) rfl (by decide)
  have huser := (mainDest_at aAtB_chars (by decide) hd).2
  rw [hw] at huser
  obtain rfl := Option.some.inj huser
  cases hspill

/-! ### The nick -/

theorem illegal_eq (c : UInt8) : illegal c = !decide (33 ≤ c ∧ c ≤ 126) := by
  have key : ∀ n : Fin 256, illegal (UInt8.ofNat n.val)
      = !decide (33 ≤ UInt8.ofNat n.val ∧ UInt8.ofNat n.val ≤ 126) := by
    decide +kernel
  have h := key ⟨c.toNat, c.toNat_lt⟩
  rwa [UInt8.ofNat_toNat] at h

section

variable {nick : Bytes} {p : Nat} {c : UInt8}

/-- The loop ends at a NUL. -/
theorem filterNick_nul (h : nick[p]? = some 0) : filterNick nick p = some nick := by
  rw [filterNick]
  split
  · rename_i hc
    rw [h] at hc
    cases hc
  · rename_i c hc
    rw [if_pos (Option.some.inj (hc.symm.trans h))]

theorem filterNick_legal (h : nick[p]? = some c) (hc : c ≠ 0) (hlegal : illegal c = false) :
    filterNick nick p = filterNick nick (p + 1) := by
  rw [filterNick]
  split
  · rename_i hnone
    rw [h] at hnone
    cases hnone
  · rename_i c' hc'
    obtain rfl := Option.some.inj (h.symm.trans hc')
    rw [if_neg hc, if_neg (by rw [hlegal]; exact Bool.false_ne_true)]

/-- A move that leaves the block. -/
theorem filterNick_outside (h : nick[p]? = some c) (hc : c ≠ 0) (hill : illegal c = true) {len : Nat}
    (hlen : strlenAt nick p = some len) (hmove : Blocks.move nick p (p + 1) (len + 1) = none) :
    filterNick nick p = none := by
  rw [filterNick]
  split
  · rfl
  · rename_i c' hc'
    obtain rfl := Option.some.inj (h.symm.trans hc')
    rw [if_neg hc, if_pos hill]
    simp only [hlen]
    split
    · rfl
    · rename_i nick' hmove'
      rw [hmove] at hmove'
      cases hmove'

/-- A move inside of the block. -/
theorem filterNick_move (h : nick[p]? = some c) (hc : c ≠ 0) (hill : illegal c = true) {len : Nat}
    (hlen : strlenAt nick p = some len) {nick' : Bytes}
    (hmove : Blocks.move nick p (p + 1) (len + 1) = some nick') :
    filterNick nick p = filterNick nick' (p + 1) := by
  rw [filterNick]
  split
  · rename_i hnone
    rw [h] at hnone
    cases hnone
  · rename_i c' hc'
    obtain rfl := Option.some.inj (h.symm.trans hc')
    rw [if_neg hc, if_pos hill]
    simp only [hlen]
    split
    · rename_i hmove'
      rw [hmove] at hmove'
      cases hmove'
    · rename_i nick'' hmove'
      rw [Option.some.inj (hmove.symm.trans hmove')]

/-- The loop leaves alone what it has been past. -/
theorem filterNick_take {b : Bytes} (h : filterNick nick p = some b) :
    b.take p = nick.take p := by
  induction hn : nick.length - p using Nat.strongRecOn generalizing nick p with
  | ind n ih =>
      have hstep : ∀ {nick' : Bytes}, nick'.length = nick.length → p < nick.length →
          filterNick nick' (p + 1) = some b → b.take p = nick'.take p := by
        intro nick' hlen hp hrest
        have htake := congrArg (List.take p) (ih _ (by omega) hrest rfl)
        rwa [List.take_take, List.take_take, Nat.min_eq_left (Nat.le_succ p)] at htake
      rw [filterNick] at h
      split at h
      · cases h
      · rename_i c hc
        have hp := (List.getElem?_eq_some_iff.mp hc).1
        split at h
        · rw [Option.some.inj h]
        · split at h
          · split at h
            · cases h
            · split at h
              · cases h
              · rename_i nick' hmove
                rw [hstep (Blocks.length_move hmove) hp h, take_move hmove]
          · exact hstep rfl hp h

end

/-- **The filter gets through** where there is nothing to take out, and nowhere else. -/
theorem filterNick_from (rest : Bytes) : ∀ pre : Bytes, (0 : UInt8) ∉ rest →
    filterNick (pre ++ (rest ++ [0])) pre.length
      = if rest.any illegal then none else some (pre ++ (rest ++ [0])) := by
  induction rest with
  | nil =>
      intro pre _
      exact filterNick_nul (by simp)
  | cons c rest ih =>
      intro pre hnul
      obtain ⟨hc0, hrest⟩ : 0 ≠ c ∧ (0 : UInt8) ∉ rest := by simpa [not_or] using hnul
      have hget : (pre ++ (c :: rest ++ [0]))[pre.length]? = some c := by simp
      rw [List.any_cons]
      cases hill : illegal c with
      | true =>
          -- the move is one byte longer than the rest of the string with its NUL
          have hlen : strlenAt (pre ++ (c :: rest ++ [0])) pre.length = some (rest.length + 1) := by
            rw [strlenAt, List.drop_left]
            exact idxOf_first hnul []
          have hmove : Blocks.move (pre ++ (c :: rest ++ [0])) pre.length (pre.length + 1)
              (rest.length + 1 + 1) = none :=
            if_neg fun hfit => by
              have := hfit.1
              simp only [List.length_append, List.length_cons, List.length_nil] at this
              omega
          rw [filterNick_outside hget (Ne.symm hc0) hill hlen hmove, Bool.true_or, if_pos rfl]
      | false =>
          have hstep : pre ++ (c :: rest ++ [0]) = (pre ++ [c]) ++ (rest ++ [0]) := by simp
          have h := ih (pre ++ [c]) hrest
          rw [List.length_append, List.length_singleton] at h
          rw [filterNick_legal hget (Ne.symm hc0) hill, hstep, h, Bool.false_or]

/-- What the filter owes: the legal characters of the nick, with nothing else touched. -/
def FiltersTo (nick : CString) (legal : Bytes) : Prop :=
  ∃ b, filterNick (nick.chars ++ [0]) 0 = some b ∧ (cstr b).chars = legal

/--
**The nick is filtered right** exactly when there is nothing to filter: the first illegal
character makes the move read one byte behind the string.
-/
theorem filters_iff (nick : CString) :
    FiltersTo nick (nick.chars.filter fun c => decide (33 ≤ c ∧ c ≤ 126))
      ↔ ∀ c ∈ nick.chars, 33 ≤ c ∧ c ≤ 126 := by
  have hfrom := filterNick_from nick.chars [] nick.nulFree
  rw [List.nil_append, List.length_nil] at hfrom
  constructor
  · rintro ⟨b, hb, -⟩
    rw [hfrom] at hb
    split at hb
    · cases hb
    · rename_i hany
      intro c hc
      have hlegal : illegal c = false := by
        have hall := List.any_eq_false.mp (Bool.not_eq_true _ ▸ hany) c hc
        exact Bool.eq_false_iff.mpr hall
      rw [illegal_eq, Bool.not_eq_false', decide_eq_true_eq] at hlegal
      exact hlegal
  · intro hall
    have hnone : ¬ nick.chars.any illegal = true := by
      rw [List.any_eq_true]
      rintro ⟨c, hc, hill⟩
      rw [illegal_eq, decide_eq_true (hall c hc)] at hill
      cases hill
    rw [if_neg hnone] at hfrom
    refine ⟨_, hfrom, ?_⟩
    rw [List.filter_eq_self.mpr fun c hc => decide_eq_true (hall c hc)]
    exact congrArg CString.chars (cstr_terminated nick [])

/-- A nick with a blank at its end. -/
theorem not_filters : ¬ ∀ nick : CString,
    FiltersTo nick (nick.chars.filter fun c => decide (33 ≤ c ∧ c ≤ 126)) := by
  intro hall
  obtain ⟨b, hb, -⟩ := hall ⟨[98, 111, 98, 32], by decide⟩
  have hfrom := filterNick_from [98, 111, 98, 32] [] (by decide)
  rw [if_pos (by decide)] at hfrom
  rw [List.nil_append, List.length_nil] at hfrom
  rw [hfrom] at hb
  cases hb

end Smsg
