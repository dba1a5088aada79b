/-
Lines that have been entered, and who owns them.

Entering a line moves the pointers of `iqueue` around: the line takes the place of the
fresh one, its copy takes the place of the line, the oldest line is freed, and every other
one becomes one older.  `enteredCell` and `olderCell` say where the pointer of each cell
comes from, and as long as the cells own what they point to, the blocks come along
(`takeEntered_owned`, `dropOldest_owned`).

The loop that is to free copies looks at the copy of the line that was entered, which is
gone by then.  So the copies stay where they are when the lines move on (`shiftLoop_null`),
and the pointer to the copy of the oldest line stays, too, after it has been freed.

A copy is also said to be as large as its line, and has no more bytes than the text.  So
the buffers are owned just as long as no line has been recalled (`history_owned`).
-/
import Smsg.Proofs.Editor

namespace Smsg

open Heaps Lines

/-! ### Where the pointers go -/

/-- The cell that a cell's pointer comes from when line `q` has been entered. -/
def enteredCell (q : Nat) (c : Cell) : Option Cell :=
  if c = (0, 0) then some (q, 0) else if c = (q, 0) then some (q, 1) else if c = (q, 1) then none
  else some c

/-- The buffers then. -/
def enteredQueue (q : Nat) (iq : Cell → Ibuf) (c : Cell) : Ibuf :=
  if c = (0, 0) then iq (q, 0) else if c = (q, 0) then iq (q, 1)
  else if c = (q, 1) then { iq (q, 1) with ibuf := none } else iq c

/-- The cell that a cell's pointer comes from when the lines become one older. -/
def olderCell (histlen : Nat) (c : Cell) : Option Cell :=
  if c.2 = 0 then if c.1 = 0 then none else if c.1 < histlen then some (c.1 - 1, 0) else some c
  else if c.1 = histlen - 1 then none else some c

/-- The buffers then. -/
def olderQueue (histlen : Nat) (iq : Cell → Ibuf) (c : Cell) : Ibuf :=
  if c.2 = 0 then
    if c.1 = 0 then { iq (0, 0) with ibuf := none }
    else if c.1 < histlen then iq (c.1 - 1, 0) else iq c
  else iq c

theorem cell_cases (c : Cell) : c = (c.1, 0) ∨ c = (c.1, 1) := by
  obtain ⟨i, j⟩ := c
  fin_cases j
  · exact .inl rfl
  · exact .inr rfl

theorem enteredCell_inj (q : Nat) :
    ∀ c d k, enteredCell q c = some k → enteredCell q d = some k → c = d := by
  intro c d k hc hd
  simp only [enteredCell] at hc hd
  grind

theorem olderCell_inj (histlen : Nat) :
    ∀ c d k, olderCell histlen c = some k → olderCell histlen d = some k → c = d := by
  intro c d k hc hd
  simp only [olderCell] at hc hd
  rcases cell_cases c with hc' | hc' <;> rcases cell_cases d with hd' | hd' <;> grind

section Pointers

variable {held : Cell → Option Nat} {iq : Cell → Ibuf} {q i : Nat} {c : Cell}

theorem entered_self (iq : Cell → Ibuf) (hq : q ≠ 0) :
    enteredCell q (q, 0) = some (q, 1) ∧ enteredQueue q iq (q, 0) = iq (q, 1) := by
  constructor <;> simp [enteredCell, enteredQueue, hq]

theorem entered_other (iq : Cell → Ibuf) (hfresh : c ≠ (0, 0)) (hq : c.1 ≠ q) :
    enteredCell q c = some c ∧ enteredQueue q iq c = iq c := by
  have hline : c ≠ (q, 0) := fun hc => hq (by rw [hc])
  have hcopy : c ≠ (q, 1) := fun hc => hq (by rw [hc])
  constructor <;> simp [enteredCell, enteredQueue, hfresh, hline, hcopy]

/-- When a line has been taken out, every cell holds what its buffer points to. -/
theorem enteredCell_held (hptr : ∀ c, held c = (iq c).ibuf) (c : Cell) :
    (enteredCell q c).bind held = (enteredQueue q iq c).ibuf := by
  simp only [enteredCell, enteredQueue]
  split
  · exact hptr _
  · split
    · exact hptr _
    · split
      · rfl
      · exact hptr _

theorem older_line (iq : Cell → Ibuf) {histlen : Nat} (hi : i ≠ 0) (hlt : i < histlen) :
    olderCell histlen (i, 0) = some (i - 1, 0) ∧ olderQueue histlen iq (i, 0) = iq (i - 1, 0) := by
  constructor <;> simp [olderCell, olderQueue, hi, hlt]

theorem older_copy (histlen : Nat) (iq : Cell → Ibuf) (i : Nat) :
    olderQueue histlen iq (i, 1) = iq (i, 1) := by
  simp [olderQueue]

theorem olderCell_held (histlen : Nat) (hptr : ∀ c, held c = (iq c).ibuf)
    (hc : c ≠ (histlen - 1, 1)) :
    (olderCell histlen c).bind held = (olderQueue histlen iq c).ibuf := by
  rcases cell_cases c with hc' | hc' <;> rw [hc'] at hc ⊢ <;> simp only [olderQueue, olderCell]
  · by_cases h0 : c.1 = 0
    · simp [h0]
    · by_cases hlt : c.1 < histlen <;> simp [h0, hlt, hptr]
  · have hlast : c.1 ≠ histlen - 1 := fun h => hc (by rw [h])
    simp [hlast, hptr]

end Pointers

section Shift

variable {held : Cell → Option Nat} {v : Cell → Option (List (Option UInt8))} {st : Editor}
  {h : Mem} {c : Cell} {p : Option Nat} {histlen : Nat}

/-- Freeing what a cell holds, if it holds anything. -/
theorem cFree_owned (ho : Owns h held v) (hp : held c = p) :
    ∃ h', cFree h p = .ok h' ∧ h.Later h' ∧ (∀ r, p = some r → h'.Freed r)
      ∧ Owns h' (Function.update held c none) (Function.update v c none) := by
  subst hp
  cases hc : held c with
  | none =>
      refine ⟨h, rfl, Heap.Later.refl h, fun r hr => by (cases hr), ?_⟩
      rw [← hc, Function.update_eq_self, ← ho.nothing c hc, Function.update_eq_self]
      exact ho
  | some r =>
      obtain ⟨h', hfree, hlater, hfreed, ho'⟩ := ho.free hc
      refine ⟨h', by rw [cFree, hfree], hlater, fun r' hr => ?_, ho'⟩
      obtain rfl := Option.some.inj hr
      exact hfreed

/-- A pointer to a freed block cannot be freed. -/
theorem cFree_freed {r : Nat} (hr : h.Freed r) : cFree h (some r) = .error .badFree := by
  rw [cFree, Heap.free_freed hr]

/-- **The loop moves the lines and frees nothing** when line `ibqi` has no copy. -/
theorem shiftLoop_null (h : Mem) (ibqi n : Nat) :
    ∀ q : Cell → Ibuf, (q (ibqi, 1)).ibuf = none → shiftLoop ibqi n h q
      = .ok (h, fun c => if c.2 = 0 ∧ 0 < c.1 ∧ c.1 ≤ n then q (c.1 - 1, 0) else q c) := by
  induction n with
  | zero =>
      intro q _
      rw [shiftLoop]
      congr 2
      funext c
      rw [if_neg (by omega)]
  | succ n ih =>
      intro q hq
      have hclean : cleanCopy ibqi n h q = .ok (h, q) := if_neg (not_not.mpr hq)
      have hq' : (Function.update q (n + 1, 0) (q (n, 0)) (ibqi, 1)).ibuf = none := by
        rw [Function.update_of_ne (by simp)]
        exact hq
      rw [shiftLoop, hclean]
      show shiftLoop ibqi n h (Function.update q (n + 1, 0) (q (n, 0))) = _
      rw [ih _ hq']
      congr 2
      funext c
      obtain ⟨i, j⟩ := c
      by_cases hlast : (i, j) = (n + 1, 0)
      · obtain ⟨rfl, rfl⟩ := Prod.mk.inj hlast
        rw [if_neg (by simp), if_pos (by simp), Function.update_self]
        rfl
      · rw [Function.update_of_ne hlast]
        by_cases hin : j = 0 ∧ 0 < i ∧ i ≤ n
        · rw [if_pos hin, if_pos ⟨hin.1, hin.2.1, by simp; omega⟩, Function.update_of_ne (by simp; omega)]
        · rw [if_neg hin, if_neg]
          rintro ⟨hj, hi, hn⟩
          dsimp only at hj hi hn
          have hne : i ≠ n + 1 := fun hi => hlast (by rw [hi, hj])
          exact hin ⟨hj, hi, by omega⟩

/-- **The lines become one older**, and the oldest one is freed with its copy. -/
theorem dropOldest_owned (hpos : 0 < histlen) (ho : Owns st.heap held v)
    (hcopy : (st.iqueue (st.ibqi, 1)).ibuf = none)
    (hold : held (histlen - 1, 0) = (st.iqueue (histlen - 1, 0)).ibuf)
    (hlast : held (histlen - 1, 1) = (st.iqueue (histlen - 1, 1)).ibuf) :
    ∃ st', dropOldest histlen st = .ok st' ∧ st'.iqueue = olderQueue histlen st.iqueue
      ∧ st'.ibqi = 0 ∧ st'.ibufPos = 0 ∧ st.heap.Later st'.heap
      ∧ (∀ r, (st.iqueue (histlen - 1, 1)).ibuf = some r → st'.heap.Freed r)
      ∧ Owns st'.heap (fun c => (olderCell histlen c).bind held)
          fun c => (olderCell histlen c).bind v := by
  obtain ⟨h₁, hfree₁, hlater₁, -, ho₁⟩ := cFree_owned ho hold
  obtain ⟨h₂, hfree₂, hlater₂, hfreed, ho₂⟩ := cFree_owned (c := (histlen - 1, 1)) ho₁
    ((Function.update_of_ne (by simp) ..).trans hlast)
  refine ⟨⟨h₂, olderQueue histlen st.iqueue, 0, 0, st.insertmode⟩, ?_, rfl, rfl, rfl,
    hlater₁.trans hlater₂, hfreed, ?_⟩
  · simp only [dropOldest, hfree₁, hfree₂, shiftLoop_null h₂ _ _ _ hcopy, bind, Except.bind]
    congr 2
    funext c
    rw [olderQueue]
    by_cases hc : c = (0, 0)
    · subst hc
      rw [Function.update_self, if_pos rfl, if_pos rfl, if_neg (by simp)]
    · rw [Function.update_of_ne hc]
      rcases cell_cases c with hc' | hc'
      · have h0 : c.2 = 0 := by rw [hc']
        have hi : c.1 ≠ 0 := fun hi => hc (by rw [hc', hi])
        rw [if_pos h0, if_neg hi]
        by_cases hlt : c.1 < histlen
        · rw [if_pos hlt, if_pos ⟨h0, by omega, by omega⟩]
        · rw [if_neg hlt, if_neg (by omega)]
      · have h1 : c.2 ≠ 0 := by rw [hc']; simp
        rw [if_neg h1, if_neg (fun hc => h1 hc.1)]
  · have hrename := ho₂.rename (olderCell histlen) (olderCell_inj histlen)
    have hfresh : ∀ c k, olderCell histlen c = some k → k ≠ (histlen - 1, 0) ∧ k ≠ (histlen - 1, 1) := by
      intro c k hk
      simp only [olderCell] at hk
      rcases cell_cases c with hc' | hc' <;> grind
    convert hrename using 1 <;>
    · funext c
      cases hk : olderCell histlen c with
      | none => rfl
      | some k =>
          obtain ⟨hne₀, hne₁⟩ := hfresh c k hk
          simp only [Option.bind_some, Function.update_of_ne hne₁, Function.update_of_ne hne₀]

/-- **The entered line takes the place of the fresh one**, and its copy takes its own. -/
theorem takeEntered_owned (hq : st.ibqi ≠ 0) (ho : Owns st.heap held v)
    (hfresh : held (0, 0) = (st.iqueue (0, 0)).ibuf) :
    ∃ st', takeEntered st = .ok st' ∧ st'.iqueue = enteredQueue st.ibqi st.iqueue
      ∧ st'.ibqi = st.ibqi ∧ st.heap.Later st'.heap
      ∧ Owns st'.heap (fun c => (enteredCell st.ibqi c).bind held)
          fun c => (enteredCell st.ibqi c).bind v := by
  obtain ⟨h₁, hfree, hlater, -, ho₁⟩ := cFree_owned ho hfresh
  refine ⟨{ st with heap := h₁, iqueue := enteredQueue st.ibqi st.iqueue }, ?_, rfl, rfl, hlater, ?_⟩
  · have hne : ((st.ibqi, 0) : Cell) ≠ (0, 0) := fun he => hq (Prod.mk.inj he).1
    rw [takeEntered, if_pos hq, hfree]
    simp only [bind, Except.bind]
    congr 2
    funext c
    rw [enteredQueue]
    by_cases h1 : c = (st.ibqi, 1)
    · subst h1
      rw [Function.update_self, Function.update_of_ne (by simp), Function.update_of_ne (by simp),
        if_neg (by simp), if_neg (by simp), if_pos rfl]
    · rw [Function.update_of_ne h1, if_neg h1]
      by_cases h2 : c = (st.ibqi, 0)
      · subst h2
        rw [Function.update_self, Function.update_of_ne (by simp), if_neg hne, if_pos rfl]
      · rw [Function.update_of_ne h2, if_neg h2]
        by_cases h3 : c = (0, 0)
        · rw [h3, Function.update_self, if_pos rfl]
        · rw [Function.update_of_ne h3, if_neg h3]
  · have hrename := ho₁.rename (enteredCell st.ibqi) (enteredCell_inj st.ibqi)
    have hne : ∀ c k, enteredCell st.ibqi c = some k → k ≠ (0, 0) := by
      intro c k hk
      simp only [enteredCell] at hk
      grind
    convert hrename using 1 <;>
    · funext c
      cases hk : enteredCell st.ibqi c with
      | none => rfl
      | some k => simp only [Option.bind_some, Function.update_of_ne (hne c k hk)]

end Shift

/-! ### Moving to another line -/

section Move

variable {held : Cell → Option Nat} {v : Cell → Option (List (Option UInt8))} {st : Editor}
  {b : List (Option UInt8)}

/-- There is a copy already, or it is the fresh line. -/
theorem cursorMovement_stay (ho : Owns st.heap held v)
    (hp : held (st.ibqi, 0) = (st.iqueue (st.ibqi, 0)).ibuf) (hb : v (st.ibqi, 0) = some b)
    (hle : (st.iqueue (st.ibqi, 0)).ulen ≤ b.length)
    (hcopy : st.ibqi ≠ 0 → (st.iqueue (st.ibqi, 1)).ibuf ≠ none) :
    cursorMovement st = .ok { st with ibufPos := (st.iqueue (st.ibqi, 0)).ulen } := by
  have hcond : ¬ (st.ibqi ≠ 0 ∧ (st.iqueue (st.ibqi, 1)).ibuf = none) := fun h => hcopy h.1 h.2
  simp only [cursorMovement, memRead_owned ho hp hb hle, bind, Except.bind, if_neg hcond]

/-- The first time, the line is copied. -/
theorem cursorMovement_copy (ho : Owns st.heap held v)
    (hp : held (st.ibqi, 0) = (st.iqueue (st.ibqi, 0)).ibuf) (hb : v (st.ibqi, 0) = some b)
    (hle : (st.iqueue (st.ibqi, 0)).ulen ≤ b.length) (hq : st.ibqi ≠ 0)
    (hcopy : (st.iqueue (st.ibqi, 1)).ibuf = none) :
    ∃ st' p, cursorMovement st = .ok st' ∧ st'.ibqi = st.ibqi
      ∧ st'.ibufPos = (st.iqueue (st.ibqi, 0)).ulen ∧ st.heap.Later st'.heap
      ∧ st'.iqueue = Function.update st.iqueue (st.ibqi, 1)
          { st.iqueue (st.ibqi, 0) with ibuf := some p }
      ∧ Owns st'.heap (Function.update held (st.ibqi, 1) (some p))
          (Function.update v (st.ibqi, 1) (some (b.take (st.iqueue (st.ibqi, 0)).ulen))) := by
  refine ⟨{ st with
      heap := (st.heap.malloc (b.take (st.iqueue (st.ibqi, 0)).ulen)).1
      iqueue := Function.update st.iqueue (st.ibqi, 1)
        { st.iqueue (st.ibqi, 0) with
          ibuf := some (st.heap.malloc (b.take (st.iqueue (st.ibqi, 0)).ulen)).2 }
      ibufPos := (st.iqueue (st.ibqi, 0)).ulen },
    _, ?_, rfl, rfl, Heap.later_malloc _ _, rfl, ho.malloc _ _⟩
  simp only [cursorMovement, memRead_owned ho hp hb hle, bind, Except.bind, if_pos (And.intro hq hcopy)]

end Move

/-! ### What is so at every key -/

section AtKeys

variable {histlen : Nat} {st : Editor}

/-- What must be so whenever a key is pressed in a run. -/
def AtKeys (P : Editor → Key → Prop) (histlen : Nat) (keys : List Key) : Prop :=
  ∀ pre key post s, keys = pre ++ key :: post → Session.start.pressAll histlen pre = .ok s →
    P s.ed key

/-- Looking at the keys of a run one after the other. -/
def checkKeys (P : Editor → Key → Prop) [∀ st key, Decidable (P st key)] (histlen : Nat) :
    Session → List Key → Bool
  | _, [] => true
  | s, key :: keys =>
      decide (P s.ed key) && match s.press histlen key with
        | .ok s => checkKeys P histlen s keys
        | .error _ => true

theorem checkKeys_iff {P : Editor → Key → Prop} [∀ st key, Decidable (P st key)] (keys : List Key) :
    ∀ s, checkKeys P histlen s keys = true ↔ ∀ pre key post s', keys = pre ++ key :: post →
      s.pressAll histlen pre = .ok s' → P s'.ed key := by
  induction keys with
  | nil =>
      intro s
      refine iff_of_true rfl fun pre key post s' hsplit => ?_
      have hlen := congrArg List.length hsplit
      simp at hlen
  | cons key keys ih =>
      intro s
      rw [checkKeys, Bool.and_eq_true, decide_eq_true_eq]
      constructor
      · rintro ⟨hnow, hthen⟩ pre k post s' hsplit hs'
        cases pre with
        | nil =>
            obtain ⟨rfl, -⟩ := List.cons.inj hsplit
            obtain rfl := Except.ok.inj hs'
            exact hnow
        | cons k' pre =>
            obtain ⟨rfl, hkeys⟩ := List.cons.inj hsplit
            rw [pressAll_cons] at hs'
            cases hpress : s.press histlen key with
            | error e =>
                rw [hpress] at hs'
                cases hs'
            | ok s₁ =>
                rw [hpress] at hs' hthen
                exact (ih s₁).mp hthen pre k post s' hkeys hs'
      · intro hall
        refine ⟨hall [] key keys s rfl rfl, ?_⟩
        cases hpress : s.press histlen key with
        | error e => rfl
        | ok s₁ =>
            refine (ih s₁).mpr fun pre k post s' hsplit hs' => ?_
            refine hall (key :: pre) k post s' (by rw [hsplit]; rfl) ?_
            rw [pressAll_cons, hpress]
            exact hs'

instance (P : Editor → Key → Prop) [∀ st key, Decidable (P st key)] (histlen : Nat) (keys : List Key) :
    Decidable (AtKeys P histlen keys) :=
  decidable_of_iff _ (checkKeys_iff keys .start)

theorem AtKeys.nil (P : Editor → Key → Prop) (histlen : Nat) : AtKeys P histlen [] := by
  intro pre key post s hsplit
  have hlen := congrArg List.length hsplit
  simp at hlen

theorem AtKeys.before {P : Editor → Key → Prop} {keys more : List Key}
    (h : AtKeys P histlen (keys ++ more)) : AtKeys P histlen keys := by
  intro pre key post s hsplit
  refine h pre key (post ++ more) s ?_
  rw [hsplit]
  simp

theorem AtKeys.now {P : Editor → Key → Prop} {keys more : List Key} {key : Key} {s : Session}
    (h : AtKeys P histlen (keys ++ key :: more)) (hs : Session.start.pressAll histlen keys = .ok s) :
    P s.ed key :=
  h keys key more s rfl hs

/-- One key more. -/
theorem AtKeys.concat {P : Editor → Key → Prop} {keys : List Key} {key : Key}
    (h : AtKeys P histlen keys) (hlast : ∀ s, Session.start.pressAll histlen keys = .ok s → P s.ed key) :
    AtKeys P histlen (keys ++ [key]) := by
  intro p k q s hsplit hs
  rcases List.eq_nil_or_concat q with rfl | ⟨q, k', rfl⟩
  · obtain ⟨rfl, hkey⟩ := List.append_inj' hsplit rfl
    obtain rfl := List.singleton_inj.mp hkey
    exact hlast s hs
  · have hsplit' : keys ++ [key] = (p ++ k :: q) ++ [k'] := by
      rw [hsplit]
      simp
    exact h p k q s (List.append_inj' hsplit' rfl).1 hs

/-! ### Room for an `int` -/

/-- What the buffer of a cell says. -/
def cellText (st : Editor) (c : Cell) : Except EditFault Bytes :=
  readText st.heap (st.iqueue c).ibuf (st.iqueue c).ulen

/-- What the fresh line has in it. -/
def freshText (st : Editor) : Except EditFault Bytes :=
  if (st.iqueue (0, 0)).ibuf = none then .ok [] else cellText st (0, 0)

/-- The reference with the fresh line in it. -/
def freshEditor (st : Editor) (t : Bytes) (hpos : st.ibufPos ≤ t.length) : RefEditor :=
  ⟨⟨t, st.ibufPos, hpos⟩, st.insertmode⟩

/-- The computations with `int` that a key makes on the fresh line do not overflow. -/
def FitsInt (st : Editor) (key : Key) : Prop :=
  ∀ t, freshText st = .ok t → ∀ hpos : st.ibufPos ≤ t.length,
    t.length + 110 ≤ intMax ∧ t.length + ((freshEditor st t hpos).written key).length ≤ intMax

instance (st : Editor) (key : Key) : Decidable (FitsInt st key) :=
  match h : freshText st with
  | .error _ => isTrue fun t ht => by
      rw [h] at ht
      cases ht
  | .ok t =>
      decidable_of_iff (∀ hpos : st.ibufPos ≤ t.length, t.length + 110 ≤ intMax
        ∧ t.length + ((freshEditor st t hpos).written key).length ≤ intMax) <| by
      constructor
      · intro hfits u hu
        obtain rfl := Except.ok.inj (h.symm.trans hu)
        exact hfits
      · exact fun hfits => hfits t h

/-- The fresh line can be read. -/
theorem freshText_eq {held : Cell → Option Nat} {v : Cell → Option (List (Option UInt8))} {st : Editor}
    {t : Bytes} (ho : Owns st.heap held v) (hp : held (0, 0) = (st.iqueue (0, 0)).ibuf)
    (hline : LineIn v (0, 0) (st.iqueue (0, 0)) t) : freshText st = .ok t := by
  rcases hline with ⟨hnone, hnil⟩ | ⟨b, hb, ht⟩
  · rw [freshText, if_pos hnone, hnil]
  · have hle : (st.iqueue (0, 0)).ulen ≤ b.length := by rw [ht.size]; exact ht.room
    have hsome : (st.iqueue (0, 0)).ibuf ≠ none := by
      intro hnone
      rw [ho.nothing _ (hp.trans hnone)] at hb
      cases hb
    rw [freshText, if_neg hsome]
    exact readText_owned ho hp hb hle ht.text

theorem FitsInt.up {key : Key} (hfits : FitsInt st key) : FitsInt st .keyUp := by
  intro t ht hpos
  have hroom := (hfits t ht hpos).1
  refine ⟨hroom, ?_⟩
  show t.length + 0 ≤ intMax
  omega

/-- No key overflows an `int`, and neither would Up at the end. -/
def NoOverflow (histlen : Nat) (keys : List Key) : Prop :=
  AtKeys (fun st key => st.ibqi = 0 → FitsInt st key) histlen (keys ++ [.keyUp])

instance (histlen : Nat) (keys : List Key) : Decidable (NoOverflow histlen keys) :=
  inferInstanceAs (Decidable (AtKeys _ _ _))

theorem NoOverflow.before {pre post : List Key} (hfits : NoOverflow histlen (pre ++ post)) :
    NoOverflow histlen pre := by
  have hpre : AtKeys (fun st key => st.ibqi = 0 → FitsInt st key) histlen pre :=
    AtKeys.before (AtKeys.before hfits)
  refine hpre.concat fun s hs hq => ?_
  -- Up at the end, where another key may come next
  cases post with
  | nil => exact hfits pre .keyUp [] s (by simp) hs hq
  | cons key post => exact (hfits pre key (post ++ [.keyUp]) s (by simp) hs hq).up

theorem NoOverflow.up {keys : List Key} (hfits : NoOverflow histlen keys) {s : Session}
    (hs : Session.start.pressAll histlen keys = .ok s) (hq : s.ed.ibqi = 0) : FitsInt s.ed .keyUp :=
  hfits keys .keyUp [] s rfl hs hq

end AtKeys

/-! ### Without recalling a line -/

/-- No line has been recalled: there are no copies, and every buffer is as large as it says. -/
structure Plain (st : Editor) (v : Cell → Option (List (Option UInt8))) : Prop where
  owns : Owns st.heap (fun c => (st.iqueue c).ibuf) v
  ibqi : st.ibqi = 0
  copies : ∀ i, (st.iqueue (i, 1)).ibuf = none
  lines : ∀ i, ∃ t, LineIn v (i, 0) (st.iqueue (i, 0)) t ∧ (i = 0 → st.ibufPos ≤ t.length)
  slack : ∀ i, 0 < i → (st.iqueue (i, 0)).ibuf ≠ none →
    (st.iqueue (i, 0)).ulen + 10 < (st.iqueue (i, 0)).ttlen

section Plain

variable {st st' : Editor} {v : Cell → Option (List (Option UInt8))} {histlen : Nat}

theorem LineIn.update_ne {v : Cell → Option (List (Option UInt8))} {c d : Cell} {bs : Ibuf} {t : Bytes}
    (hl : LineIn v c bs t) (hne : c ≠ d) (o : Option (List (Option UInt8))) :
    LineIn (Function.update v d o) c bs t := by
  rcases hl with hnone | ⟨b, hb, ht⟩
  · exact .inl hnone
  · exact .inr ⟨b, by rw [Function.update_of_ne hne, hb], ht⟩

/-- Another buffer for the fresh line. -/
theorem Plain.changed (hp : Plain st v) {bs : Ibuf} {t : Bytes}
    (hqueue : st'.iqueue = Function.update st.iqueue (0, 0) bs)
    (hc : Changed st.heap (fun c => (st.iqueue c).ibuf) v (0, 0) st'.heap bs t) (hq : st'.ibqi = 0)
    (hpos : st'.ibufPos ≤ t.length) :
    ∃ b, TextIn bs b t ∧ Plain st' (Function.update v (0, 0) (some b)) := by
  obtain ⟨b, ht, ho⟩ := hc.block
  have hself : st'.iqueue (0, 0) = bs := by rw [hqueue, Function.update_self]
  have hother : ∀ c : Cell, c ≠ (0, 0) → st'.iqueue c = st.iqueue c :=
    fun c hc => by rw [hqueue, Function.update_of_ne hc]
  refine ⟨b, ht, { owns := ?owns, ibqi := hq, copies := ?copies, lines := ?lines, slack := ?slack }⟩
  case owns =>
    convert ho using 1
    funext c
    by_cases hc : c = (0, 0)
    · rw [hc, hself, Function.update_self]
    · rw [hother c hc, Function.update_of_ne hc]
  case copies =>
    intro i
    rw [hother _ (by simp)]
    exact hp.copies i
  case lines =>
    intro i
    by_cases hi : i = 0
    · subst hi
      refine ⟨t, .inr ⟨b, Function.update_self .., by rwa [hself]⟩, fun _ => hpos⟩
    · have hne : ((i, 0) : Cell) ≠ (0, 0) := by simpa using hi
      obtain ⟨u, hu, -⟩ := hp.lines i
      refine ⟨u, ?_, fun h0 => absurd h0 hi⟩
      rw [hother _ hne]
      exact hu.update_ne hne _
  case slack =>
    intro i hi
    rw [hother _ (by simp; omega)]
    exact hp.slack i hi

theorem Plain.lineState (hp : Plain st v) :
    ∃ r, LineState (fun c => (st.iqueue c).ibuf) v st r ∧ r.insertmode = st.insertmode := by
  obtain ⟨t, ht, hpos⟩ := hp.lines 0
  refine ⟨⟨⟨t, st.ibufPos, hpos rfl⟩, st.insertmode⟩, ⟨hp.owns, rfl, ?_, rfl, rfl⟩, rfl⟩
  rw [hp.ibqi]
  exact ht

/-- The state in which the switch finds the editor. -/
theorem Plain.room (histlen : Nat) (hp : Plain st v) (key : Key) :
    (chatterKey histlen st key = .error .overflow ∧ ¬ FitsInt st .keyUp)
      ∨ ∃ st' v' b t, chatterKey histlen st key = switchKey histlen st' key
        ∧ (∀ c, c ≠ (0, 0) → st'.iqueue c = st.iqueue c) ∧ Plain st' v'
        ∧ v' (0, 0) = some b ∧ TextIn (st'.iqueue (0, 0)) b t
        ∧ (st'.iqueue (0, 0)).ulen + 10 < (st'.iqueue (0, 0)).ttlen := by
  obtain ⟨t, ht, hpos⟩ := hp.lines 0
  rcases makeRoom_spec hp.owns rfl ht with ⟨hover, hlong⟩ | ⟨h, bs, hok, hc, hslack⟩
  · rw [← hp.ibqi] at hover
    refine .inl ⟨chatterKey_room key hover, fun hfits => ?_⟩
    have hroom := (hfits t (freshText_eq hp.owns rfl ht) (hpos rfl)).1
    omega
  · have hok' := hok
    rw [← hp.ibqi] at hok'
    have hswitch := chatterKey_switch histlen key hok'
    generalize hst : ({ st with heap := h, iqueue := Function.update st.iqueue (st.ibqi, 0) bs } : Editor)
      = st' at hswitch
    have hqueue : st'.iqueue = Function.update st.iqueue (0, 0) bs := by rw [← hst, hp.ibqi]
    have hheap : st'.heap = h := by rw [← hst]
    have hself : st'.iqueue (0, 0) = bs := by rw [hqueue, Function.update_self]
    obtain ⟨b, hu, hp'⟩ := hp.changed hqueue (by rwa [hheap]) (by rw [← hst]; exact hp.ibqi)
      (by rw [← hst]; exact hpos rfl)
    exact .inr ⟨st', _, b, t, hswitch, fun c hne => by rw [hqueue, Function.update_of_ne hne], hp',
      Function.update_self .., by rwa [hself], by rwa [hself]⟩

/-- **A line is entered.** -/
theorem Plain.enter (hp : Plain st v) (hpos : 0 < histlen) {b : List (Option UInt8)} {t : Bytes}
    (hb : v (0, 0) = some b) (ht : TextIn (st.iqueue (0, 0)) b t)
    (hslack : (st.iqueue (0, 0)).ulen + 10 < (st.iqueue (0, 0)).ttlen) :
    ∃ st' v', keyEnter histlen st = .ok (st', some t) ∧ Plain st' v' := by
  have hle : (st.iqueue (0, 0)).ulen ≤ b.length := by rw [ht.size]; exact ht.room
  have hshown : shownLine st = .ok t := by
    rw [shownLine, hp.ibqi]
    exact readText_owned (c := ((0, 0) : Cell)) hp.owns rfl hb hle ht.text
  have htake : takeEntered st = .ok st := if_neg (not_not.mpr hp.ibqi)
  obtain ⟨st', hdrop, hqueue, hq, hpos', -, -, ho⟩ :=
    dropOldest_owned hpos hp.owns (hp.copies _) rfl rfl
  refine ⟨st', fun c => (olderCell histlen c).bind v, ?_,
    { owns := ?owns, ibqi := hq, copies := ?copies, lines := ?lines, slack := ?slack }⟩
  · rw [keyEnter, hshown, shiftHistory, htake]
    simp only [bind, Except.bind, hdrop]
  case owns =>
    convert ho using 1
    funext c
    rw [hqueue]
    by_cases hlast : c = (histlen - 1, 1)
    · subst hlast
      simp [olderQueue, olderCell, hp.copies]
    · exact (olderCell_held histlen (fun _ => rfl) hlast).symm
  case copies =>
    intro i
    rw [hqueue, older_copy]
    exact hp.copies i
  case lines =>
    intro i
    rw [hqueue, hpos']
    by_cases h0 : i = 0
    · subst h0
      exact ⟨[], .inl ⟨by simp [olderQueue], rfl⟩, fun _ => Nat.zero_le _⟩
    · by_cases hlt : i < histlen
      · obtain ⟨u, hu, -⟩ := hp.lines (i - 1)
        refine ⟨u, ?_, fun hi => absurd hi h0⟩
        obtain ⟨hcell, hsame⟩ := older_line st.iqueue h0 hlt
        rw [LineIn, hsame, hcell]
        exact hu
      · obtain ⟨u, hu, -⟩ := hp.lines i
        refine ⟨u, ?_, fun hi => absurd hi h0⟩
        simpa [LineIn, olderQueue, olderCell, h0, hlt] using hu
  case slack =>
    intro i hi
    have h0 : i ≠ 0 := by omega
    rw [hqueue]
    by_cases hlt : i < histlen
    · rw [(older_line st.iqueue h0 hlt).2]
      by_cases h1 : i = 1
      · subst h1
        exact fun _ => hslack
      · exact hp.slack (i - 1) (by omega)
    · simpa [olderQueue, h0, hlt] using hp.slack i hi

/-- The keys that neither edit the line nor leave it. -/
theorem switchKey_other : switchKey histlen st .other = .ok (st, none) := by
  have hq : Function.update st.iqueue (st.ibqi, 0) (st.iqueue (st.ibqi, 0)) = st.iqueue :=
    Function.update_eq_self ..
  show (stayOnLine st .other).map (·, none) = _
  simp only [stayOnLine, editKey_other, bind, Except.bind, hq]
  rfl

theorem hasOlder_congr (hq : st'.ibqi = st.ibqi)
    (hqueue : ∀ c, c ≠ (st.ibqi, 0) → st'.iqueue c = st.iqueue c) :
    hasOlder histlen st' ↔ hasOlder histlen st := by
  rw [hasOlder, hasOlder, hq, hqueue _ (by simp)]

/-- **A key keeps the buffers as large as they say**, unless it recalls a line. -/
theorem Plain.press (hp : Plain st v) (hpos : 0 < histlen) (key : Key)
    (hup : key = .keyUp → ¬ hasOlder histlen st) :
    chatterKey histlen st key = .error .overflow
      ∨ ∃ st' line v', chatterKey histlen st key = .ok (st', line) ∧ Plain st' v' := by
  by_cases hedit : key.isEdit = true
  · obtain ⟨r, hl, -⟩ := hp.lineState
    rcases edit_refines histlen hl key hedit with ⟨herr, -⟩ | ⟨st', hok, hedited⟩
    · exact .inl herr
    · obtain ⟨bs, hqueue, hc⟩ := hedited.queue
      rw [hp.ibqi] at hqueue hc
      obtain ⟨b, -, hp'⟩ := hp.changed hqueue hc (hedited.ibqi.trans hp.ibqi)
        (by rw [hedited.cursor]; exact (r.key key).line.inside)
      exact .inr ⟨st', none, _, hok, hp'⟩
  · rcases hp.room histlen key with
      ⟨hover, -⟩ | ⟨st', v', b, t, hswitch, hsame, hp', hb, ht, hslack⟩
    · exact .inl hover
    · rw [hswitch]
      right
      cases key with
      | keyUp =>
          have holder : ¬ hasOlder histlen st' := by
            rw [hasOlder_congr (hp'.ibqi.trans hp.ibqi.symm) (by rw [hp.ibqi]; exact hsame)]
            exact hup rfl
          exact ⟨st', none, v', by rw [switchKey, keyUp, if_neg holder]; rfl, hp'⟩
      | keyDown =>
          exact ⟨st', none, v', by rw [switchKey, keyDown, if_neg (by rw [hp'.ibqi]; omega)]; rfl, hp'⟩
      | keyEnter =>
          obtain ⟨st'', v'', henter, hp''⟩ := hp'.enter hpos hb ht hslack
          exact ⟨st'', some t, v'', henter, hp''⟩
      | other => exact ⟨st', none, v', switchKey_other, hp'⟩
      | _ => exact absurd rfl hedit

end Plain

/-! ### Who owns the buffers -/

/--
Every pointer of `iqueue` points to a live block that is its own, and the sizes beside it
are right.
-/
def CellsOwned (histlen : Nat) (st : Editor) : Prop :=
  ∀ c p, c.1 < histlen → (st.iqueue c).ibuf = some p →
    (∃ b, st.heap.get p = some b ∧ (st.iqueue c).ulen ≤ (st.iqueue c).ttlen
        ∧ (st.iqueue c).ttlen ≤ b.length)
      ∧ ∀ d, d.1 < histlen → (st.iqueue d).ibuf = some p → d = c

/-- Wherever a run gets to: the buffers are owned, and nothing goes wrong but an overflow. -/
def HistoryOwned (histlen : Nat) (keys : List Key) : Prop :=
  ∀ pre post, keys = pre ++ post →
    match Session.start.pressAll histlen pre with
    | .ok s => CellsOwned histlen s.ed
    | .error e => e = .overflow

/-- `KEY_UP` is not pressed where there is an older line. -/
def NeverRecalls (histlen : Nat) : List Key → Prop :=
  AtKeys (fun st key => key = .keyUp → ¬ hasOlder histlen st) histlen

instance (histlen : Nat) (keys : List Key) : Decidable (NeverRecalls histlen keys) :=
  inferInstanceAs (Decidable (AtKeys _ _ _))

theorem Plain.cellsOwned {st : Editor} {v : Cell → Option (List (Option UInt8))} (hp : Plain st v)
    (histlen : Nat) : CellsOwned histlen st := by
  intro c p _ hc
  refine ⟨?_, fun d _ hd => hp.owns.single d c p hd hc⟩
  rcases cell_cases c with hc' | hc'
  · rw [hc'] at hc ⊢
    obtain ⟨t, hline, -⟩ := hp.lines c.1
    rcases hline with ⟨hnone, -⟩ | ⟨b, hb, ht⟩
    · rw [hnone] at hc
      cases hc
    · exact ⟨b, hp.owns.get hc hb, ht.room, Nat.le_of_eq ht.size.symm⟩
  · rw [hc', hp.copies] at hc
    cases hc

theorem plain_init : Plain .init fun _ => none :=
  ⟨Owns.empty _, rfl, fun _ => rfl, fun _ => ⟨[], .inl ⟨rfl, rfl⟩, fun _ => Nat.le_refl 0⟩,
    fun _ _ hne => absurd rfl hne⟩

/-- **The copy of a recalled line is said to be larger than it is.** -/
theorem Plain.recall {st : Editor} {v : Cell → Option (List (Option UInt8))} (hp : Plain st v)
    {histlen : Nat} (holder : hasOlder histlen st) (hfits : FitsInt st .keyUp) :
    ∃ st' line, chatterKey histlen st .keyUp = .ok (st', line) ∧ ¬ CellsOwned histlen st' := by
  rcases hp.room histlen .keyUp with
    ⟨-, hnot⟩ | ⟨st₁, v₁, -, -, hswitch, hsame, hp₁, -⟩
  · exact absurd hfits hnot
  · have holder₁ : hasOlder histlen st₁ := by
      rw [hasOlder_congr (hp₁.ibqi.trans hp.ibqi.symm) (by rw [hp.ibqi]; exact hsame)]
      exact holder
    have hsome : (st₁.iqueue (1, 0)).ibuf ≠ none := by
      have h := holder₁.2
      rwa [hp₁.ibqi] at h
    obtain ⟨t, hline, -⟩ := hp₁.lines 1
    rcases hline with ⟨hnone, -⟩ | ⟨b, hb, ht⟩
    · exact absurd hnone hsome
    · have hle : (st₁.iqueue (1, 0)).ulen ≤ b.length := by rw [ht.size]; exact ht.room
      obtain ⟨st', p, hmove, -, -, -, hqueue, ho⟩ :=
        @cursorMovement_copy _ v₁ { st₁ with ibqi := 1 } b hp₁.owns rfl hb hle (by simp) (hp₁.copies 1)
      refine ⟨st', none, ?_, fun howned => ?_⟩
      · rw [hswitch, switchKey, keyUp, if_pos holder₁, hp₁.ibqi, hmove]
        rfl
      · have hself : st'.iqueue (1, 1) = { st₁.iqueue (1, 0) with ibuf := some p } := by
          rw [hqueue, Function.update_self]
        have hlt : 1 < histlen := by
          have := holder₁.1
          omega
        obtain ⟨⟨d, hd, -, hsize⟩, -⟩ := howned (1, 1) p hlt (by rw [hself])
        have hcopy : st'.heap.get p = some (b.take (st₁.iqueue (1, 0)).ulen) :=
          ho.get (Function.update_self ..) (Function.update_self ..)
        obtain rfl := Option.some.inj (hd.symm.trans hcopy)
        have hslack := hp₁.slack 1 (by decide) hsome
        rw [hself, List.length_take] at hsize
        dsimp only at hsize
        omega

/-- **A run that recalls no line.** -/
theorem run_plain {histlen : Nat} (hpos : 0 < histlen) (keys : List Key) :
    NeverRecalls histlen keys → Session.start.pressAll histlen keys = .error .overflow
      ∨ ∃ s v, Session.start.pressAll histlen keys = .ok s ∧ Plain s.ed v := by
  induction keys using List.reverseRecOn with
  | nil => exact fun _ => .inr ⟨.start, _, rfl, plain_init⟩
  | append_singleton keys key ih =>
      intro hnever
      rcases ih hnever.before with herr | ⟨s, v, hok, hp⟩
      · exact .inl (pressAll_error herr _)
      · rw [pressAll_concat hok]
        rcases hp.press hpos key (hnever.now hok) with herr | ⟨st', line, v', hok', hp'⟩
        · exact .inl (press_error herr)
        · exact .inr ⟨_, v', press_ok hok', hp'⟩

theorem HistoryOwned.before {histlen : Nat} {pre post : List Key}
    (h : HistoryOwned histlen (pre ++ post)) : HistoryOwned histlen pre := by
  intro p q hsplit
  refine h p (q ++ post) ?_
  rw [hsplit]
  simp

theorem NeverRecalls.owned {histlen : Nat} (hpos : 0 < histlen) {keys : List Key}
    (hnever : NeverRecalls histlen keys) : HistoryOwned histlen keys := by
  intro pre post hsplit
  rw [hsplit] at hnever
  rcases run_plain hpos pre (AtKeys.before hnever) with herr | ⟨s, v, hok, hp⟩
  · rw [herr]
  · rw [hok]
    exact hp.cellsOwned histlen

/-- No line has been recalled where the buffers are owned. -/
theorem HistoryOwned.neverRecalls {histlen : Nat} (hpos : 0 < histlen) (keys : List Key) :
    NoOverflow histlen keys → HistoryOwned histlen keys → NeverRecalls histlen keys := by
  induction keys using List.reverseRecOn with
  | nil => exact fun _ _ => AtKeys.nil _ _
  | append_singleton keys key ih =>
      intro hfits howned
      have hnever := ih hfits.before howned.before
      refine hnever.concat fun s hok hkey holder => ?_
      subst hkey
      rcases run_plain hpos keys hnever with herr | ⟨s', v, hok', hp⟩
      · rw [hok] at herr
        cases herr
      · obtain rfl := Except.ok.inj (hok.symm.trans hok')
        obtain ⟨st', line, hpress, hnot⟩ := hp.recall holder (hfits.before.up hok hp.ibqi)
        have hlast := howned (keys ++ [.keyUp]) [] (by simp)
        rw [pressAll_concat hok, press_ok hpress] at hlast
        exact hnot hlast

/--
**While no line is recalled, every buffer is owned** by its cell and as large as it says,
and no key writes past a block, uses a freed one or frees one twice.  As soon as a line is
recalled, its copy is not as large as it says.
-/
theorem history_owned (histlen : Nat) (h3 : 3 ≤ histlen) (keys : List Key) :
    (NeverRecalls histlen keys → HistoryOwned histlen keys)
      ∧ (NoOverflow histlen keys → HistoryOwned histlen keys → NeverRecalls histlen keys) :=
  ⟨fun h => h.owned (by omega), fun hfits h => h.neverRecalls (by omega) keys hfits⟩

/-- Up where no line has been entered yet, then more lines than are kept. -/
def enteringRun : List Key :=
  [.keyUp, .data 97, .keyLeft, .data 98, .keyEnter, .data 99, .keyDown,
    .keyEnter, .keyEnter, .data 100, .keyBackspace, .data 101, .keyEnter, .data 102, .keyEnter]

theorem history_owned_entering : HistoryOwned 3 enteringRun ∧
    (Session.start.pressAll 3 enteringRun).map (fun s => s.entered.map (·.length))
      = .ok [1, 1, 0, 1, 2] :=
  ⟨(history_owned 3 (by decide) enteringRun).1 (by decide), by decide⟩

/-- Entering `a` and `b`, going to both and back, and entering two empty lines. -/
def doubleFreeRun : List Key :=
  [.data 97, .keyEnter, .data 98, .keyEnter, .keyUp, .keyUp, .keyDown, .keyDown, .keyEnter, .keyEnter]

/-- The copy of the oldest line is freed with each of the empty lines. -/
theorem not_history_owned : ¬ ∀ histlen keys, 3 ≤ histlen → HistoryOwned histlen keys := by
  intro hall
  have hrun := hall 3 doubleFreeRun (by decide) doubleFreeRun [] (List.append_nil _).symm
  have hfree : (Session.start.pressAll 3 doubleFreeRun).map (fun _ => ()) = .error .badFree := by decide
  cases hs : Session.start.pressAll 3 doubleFreeRun with
  | ok s =>
      rw [hs] at hfree
      cases hfree
  | error e =>
      rw [hs] at hrun hfree
      have he : e = .badFree := Except.error.inj hfree
      rw [hrun] at he
      cases he

end Smsg
