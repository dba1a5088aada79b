/-
Recalling a line shows the line that was entered.

`Hist` is what holds of the editor while recalled lines are left as they are: the line of
each cell of `iqueue`, as `lines` has it, can be read from its block, and so can the copies
that there are, whatever they are copies of.  Only the pointer to the copy of the oldest
line may point to a block that is not there any more.

A key other than Enter changes no line.  Enter puts the line in front of the others, and
puts the copy that is kept beside it in the line's own place (`Hist.enter`); so the history
is right again as long as the copy is one of that line.
-/
import Smsg.Proofs.History

namespace Smsg

open Heaps Lines

/-! ### The history -/

/-- A text at the front of a block, with more room said to be there. -/
structure LineKept (bs : Ibuf) (b : List (Option UInt8)) (t : Bytes) : Prop where
  used : bs.ulen = t.length
  text : b.take bs.ulen = t.map some
  slack : bs.ulen + 10 < bs.ttlen

theorem LineKept.le {bs : Ibuf} {b : List (Option UInt8)} {t : Bytes} (h : LineKept bs b t) :
    bs.ulen ≤ b.length := by
  have hlen := congrArg List.length h.text
  rw [List.length_take, List.length_map, ← h.used] at hlen
  omega

/-- The line that the cursor is in. -/
def currentLine (st : Editor) (fresh : Bytes) (lines : Nat → Option Bytes) : Bytes :=
  if st.ibqi = 0 then fresh else (lines st.ibqi).getD []

/-- The lines of the history can be read, and the copies that there are. -/
structure Hist (histlen : Nat) (st : Editor) (lines : Nat → Option Bytes)
    (held : Cell → Option Nat) (v : Cell → Option (List (Option UInt8))) (fresh : Bytes) : Prop where
  owns : Owns st.heap held v
  ptr : ∀ c, c ≠ (histlen - 1, 1) → held c = (st.iqueue c).ibuf
  /-- The oldest line's copy may have been freed. -/
  last : held (histlen - 1, 1) = (st.iqueue (histlen - 1, 1)).ibuf
    ∨ held (histlen - 1, 1) = none
      ∧ ∃ p, (st.iqueue (histlen - 1, 1)).ibuf = some p ∧ st.heap.Freed p
  top : LineIn v (0, 0) (st.iqueue (0, 0)) fresh
  line : ∀ i t, lines i = some t →
    0 < i ∧ i < histlen ∧ ∃ b, v (i, 0) = some b ∧ LineKept (st.iqueue (i, 0)) b t
  noLine : ∀ i, 0 < i → lines i = none → (st.iqueue (i, 0)).ibuf = none
  copy : ∀ i b, v (i, 1) = some b → ∃ t, LineKept (st.iqueue (i, 1)) b t
  noCopy : (st.iqueue (0, 1)).ibuf = none
  older : ∀ i, 0 < i → i ≤ st.ibqi → lines i ≠ none
  seen : st.ibqi ≠ 0 → (st.iqueue (st.ibqi, 1)).ibuf ≠ none ∧ (st.iqueue (0, 0)).ibuf ≠ none
  pos : st.ibufPos ≤ (currentLine st fresh lines).length

section Hist

variable {histlen : Nat} {st st' : Editor} {lines : Nat → Option Bytes} {held : Cell → Option Nat}
  {v : Cell → Option (List (Option UInt8))} {fresh : Bytes}

/-- Another buffer for the fresh line. -/
theorem Hist.changed (hh : Hist histlen st lines held v fresh) {bs : Ibuf} {t : Bytes}
    (hqueue : st'.iqueue = Function.update st.iqueue (0, 0) bs)
    (hc : Changed st.heap held v (0, 0) st'.heap bs t) (hq : st'.ibqi = 0)
    (hpos : st'.ibufPos ≤ t.length) :
    ∃ b, TextIn bs b t ∧ Hist histlen st' lines (Function.update held (0, 0) bs.ibuf)
      (Function.update v (0, 0) (some b)) t := by
  obtain ⟨b, ht, ho⟩ := hc.block
  have hself : st'.iqueue (0, 0) = bs := by rw [hqueue, Function.update_self]
  have hother : ∀ c : Cell, c ≠ (0, 0) → st'.iqueue c = st.iqueue c :=
    fun c hc => by rw [hqueue, Function.update_of_ne hc]
  have hcopy : ∀ i : Nat, ((i, 1) : Cell) ≠ (0, 0) := fun i => by simp
  have hline : ∀ i : Nat, 0 < i → ((i, 0) : Cell) ≠ (0, 0) := fun i hi => by simp; omega
  refine ⟨b, ht, { owns := ho, ptr := ?ptr, last := ?last, top := ?top, line := ?line, noLine := ?noLine,
                   copy := ?copy, noCopy := ?noCopy, older := fun i hi hle => by omega,
                   seen := fun hne => absurd hq hne, pos := ?pos }⟩
  case ptr =>
    intro c hne
    by_cases hc : c = (0, 0)
    · rw [hc, hself, Function.update_self]
    · rw [hother c hc, Function.update_of_ne hc]
      exact hh.ptr c hne
  case last =>
    rw [Function.update_of_ne (hcopy _), hother _ (hcopy _)]
    rcases hh.last with hlive | ⟨hnone, p, hp, hfreed⟩
    · exact .inl hlive
    · exact .inr ⟨hnone, p, hp, hc.later p hfreed⟩
  case top => exact .inr ⟨b, Function.update_self .., by rwa [hself]⟩
  case line =>
    intro i u hu
    obtain ⟨hi, hlt, d, hd, hk⟩ := hh.line i u hu
    rw [Function.update_of_ne (hline i hi), hother _ (hline i hi)]
    exact ⟨hi, hlt, d, hd, hk⟩
  case noLine =>
    intro i hi hu
    rw [hother _ (hline i hi)]
    exact hh.noLine i hi hu
  case copy =>
    intro i d hd
    rw [Function.update_of_ne (hcopy i)] at hd
    rw [hother _ (hcopy i)]
    exact hh.copy i d hd
  case noCopy =>
    rw [hother _ (hcopy 0)]
    exact hh.noCopy
  case pos =>
    rw [currentLine, if_pos hq]
    exact hpos

/-- The cursor may be elsewhere, as long as there are lines to where it is. -/
theorem Hist.cursor (hh : Hist histlen st lines held v fresh) (hheap : st'.heap = st.heap)
    (hqueue : st'.iqueue = st.iqueue) (hq : ∀ i, 0 < i → i ≤ st'.ibqi → lines i ≠ none)
    (hseen : st'.ibqi ≠ 0 → (st.iqueue (st'.ibqi, 1)).ibuf ≠ none ∧ (st.iqueue (0, 0)).ibuf ≠ none)
    (hpos : st'.ibufPos ≤ (currentLine st' fresh lines).length) :
    Hist histlen st' lines held v fresh where
  owns := by rw [hheap]; exact hh.owns
  ptr := by rw [hqueue]; exact hh.ptr
  last := by rw [hqueue, hheap]; exact hh.last
  top := by rw [hqueue]; exact hh.top
  line := by rw [hqueue]; exact hh.line
  noLine := by rw [hqueue]; exact hh.noLine
  copy := by rw [hqueue]; exact hh.copy
  noCopy := by rw [hqueue]; exact hh.noCopy
  older := hq
  seen := by rw [hqueue]; exact hseen
  pos := hpos

/-- **The state in which the switch finds the editor.** -/
theorem Hist.room (hh : Hist histlen st lines held v fresh) (key : Key) :
    (st.ibqi = 0 ∧ intMax < fresh.length + 110)
      ∨ ∃ st' held' v' b, chatterKey histlen st key = switchKey histlen st' key
        ∧ Hist histlen st' lines held' v' fresh ∧ v' (st'.ibqi, 0) = some b
        ∧ LineKept (st'.iqueue (st'.ibqi, 0)) b (currentLine st' fresh lines)
        ∧ st'.ibqi = st.ibqi ∧ held' (histlen - 1, 1) = held (histlen - 1, 1)
        ∧ (∀ c, c ≠ (0, 0) → st'.iqueue c = st.iqueue c) ∧ (st.ibqi ≠ 0 → st' = st) := by
  by_cases hq : st.ibqi = 0
  · have hpos := hh.pos
    rw [currentLine, if_pos hq] at hpos
    rcases makeRoom_spec hh.owns (hh.ptr (0, 0) (by simp)) hh.top with
      ⟨-, hlong⟩ | ⟨h, bs, hok, hc, hslack⟩
    · exact .inl ⟨hq, hlong⟩
    · have hok' := hok
      rw [← hq] at hok'
      have hswitch := chatterKey_switch histlen key hok'
      generalize hst : ({ st with heap := h, iqueue := Function.update st.iqueue (st.ibqi, 0) bs } : Editor)
        = st' at hswitch
      have hqueue : st'.iqueue = Function.update st.iqueue (0, 0) bs := by rw [← hst, hq]
      have hself : st'.iqueue (0, 0) = bs := by rw [hqueue, Function.update_self]
      have hq' : st'.ibqi = 0 := by rw [← hst]; exact hq
      obtain ⟨b, hu, hh'⟩ := hh.changed hqueue (by rw [← hst]; exact hc) hq'
        (by rw [← hst]; exact hpos)
      refine .inr ⟨st', _, _, b, hswitch, hh', ?_, ?_, hq'.trans hq.symm,
        Function.update_of_ne (by simp) .., fun c hne => by rw [hqueue, Function.update_of_ne hne],
        fun hne => absurd hq hne⟩
      · rw [hq']
        exact Function.update_self ..
      · rw [hq', hself, currentLine, if_pos hq']
        exact ⟨hu.used, hu.text, hslack⟩
  · -- a line of the history has room enough
    obtain ⟨t, ht⟩ := Option.ne_none_iff_exists'.mp (hh.older st.ibqi (by omega) (Nat.le_refl _))
    obtain ⟨hi, hlt, b, hb, hk⟩ := hh.line _ t ht
    have hp : held (st.ibqi, 0) = (st.iqueue (st.ibqi, 0)).ibuf := hh.ptr _ (by simp)
    have hroom : makeRoom st.heap (st.iqueue (st.ibqi, 0)) = .ok (st.heap, st.iqueue (st.ibqi, 0)) := by
      cases hi : (st.iqueue (st.ibqi, 0)).ibuf with
      | none =>
          rw [hh.owns.nothing _ (hp.trans hi)] at hb
          cases hb
      | some p =>
          have hslack := hk.slack
          rw [makeRoom, hi]
          simp only
          rw [if_neg (by rw [lccBufEnlargeZone]; omega)]
    have hswitch := chatterKey_switch histlen key hroom
    rw [Function.update_eq_self] at hswitch
    refine .inr ⟨st, held, v, b, hswitch, hh, hb, ?_, rfl, rfl, fun _ _ => rfl, fun _ => rfl⟩
    rw [currentLine, if_neg hq, ht]
    exact hk

/-- The line of a cell can be read. -/
theorem Hist.readable (hh : Hist histlen st lines held v fresh) (q : Nat)
    (htop : (st.iqueue (0, 0)).ibuf ≠ none) (hq : q ≠ 0 → lines q ≠ none) :
    ∃ b, v (q, 0) = some b ∧ (st.iqueue (q, 0)).ulen ≤ b.length
      ∧ b.take (st.iqueue (q, 0)).ulen = (if q = 0 then fresh else (lines q).getD []).map some
      ∧ (q ≠ 0 → (st.iqueue (q, 0)).ulen + 10 < (st.iqueue (q, 0)).ttlen) := by
  by_cases h0 : q = 0
  · subst h0
    rcases hh.top with ⟨hnone, -⟩ | ⟨b, hb, ht⟩
    · exact absurd hnone htop
    · exact ⟨b, hb, by rw [ht.size]; exact ht.room, ht.text, fun hne => absurd rfl hne⟩
  · obtain ⟨t, ht⟩ := Option.ne_none_iff_exists'.mp (hq h0)
    obtain ⟨-, -, b, hb, hk⟩ := hh.line q t ht
    refine ⟨b, hb, hk.le, ?_, fun _ => hk.slack⟩
    rw [if_neg h0, ht]
    exact hk.text

/-- A line that can be read gets a copy. -/
theorem Hist.copied (hh : Hist histlen st lines held v fresh) {q p : Nat} {b : List (Option UInt8)}
    {t : Bytes} (hused : (st.iqueue (q, 0)).ulen = t.length)
    (htext : b.take (st.iqueue (q, 0)).ulen = t.map some)
    (hslack : (st.iqueue (q, 0)).ulen + 10 < (st.iqueue (q, 0)).ttlen)
    (htop : (st.iqueue (0, 0)).ibuf ≠ none) (hq : q ≠ 0) (hq' : st'.ibqi = q)
    (hlater : st.heap.Later st'.heap)
    (hqueue : st'.iqueue = Function.update st.iqueue (q, 1) { st.iqueue (q, 0) with ibuf := some p })
    (ho : Owns st'.heap (Function.update held (q, 1) (some p))
      (Function.update v (q, 1) (some (b.take (st.iqueue (q, 0)).ulen))))
    (holder : ∀ i, 0 < i → i ≤ q → lines i ≠ none)
    (hpos : st'.ibufPos ≤ (currentLine st' fresh lines).length) :
    Hist histlen st' lines (Function.update held (q, 1) (some p))
      (Function.update v (q, 1) (some (b.take (st.iqueue (q, 0)).ulen))) fresh := by
  have hself : st'.iqueue (q, 1) = { st.iqueue (q, 0) with ibuf := some p } := by
    rw [hqueue, Function.update_self]
  have hother : ∀ c : Cell, c ≠ (q, 1) → st'.iqueue c = st.iqueue c :=
    fun c hc => by rw [hqueue, Function.update_of_ne hc]
  have hline : ∀ i : Nat, ((i, 0) : Cell) ≠ (q, 1) := fun i => by simp
  refine { owns := ho, ptr := ?ptr, last := ?last, top := ?top, line := ?line, noLine := ?noLine,
           copy := ?copy, noCopy := ?noCopy, older := by rw [hq']; exact holder, seen := ?seen,
           pos := hpos }
  case ptr =>
    intro c hne
    by_cases hc : c = (q, 1)
    · rw [hc, hself, Function.update_self]
    · rw [hother c hc, Function.update_of_ne hc]
      exact hh.ptr c hne
  case last =>
    by_cases hc : ((histlen - 1, 1) : Cell) = (q, 1)
    · rw [hc, hself, Function.update_self]
      exact .inl rfl
    · rw [hother _ hc, Function.update_of_ne hc]
      rcases hh.last with hlive | ⟨hnone, r, hr, hfreed⟩
      · exact .inl hlive
      · exact .inr ⟨hnone, r, hr, hlater r hfreed⟩
  case top =>
    rw [hother _ (hline 0)]
    exact hh.top.update_ne (hline 0) _
  case line =>
    intro i u hu
    obtain ⟨hi, hlt, d, hd, hk⟩ := hh.line i u hu
    rw [hother _ (hline i), Function.update_of_ne (hline i)]
    exact ⟨hi, hlt, d, hd, hk⟩
  case noLine =>
    intro i hi hu
    rw [hother _ (hline i)]
    exact hh.noLine i hi hu
  case copy =>
    intro i d hd
    by_cases hc : ((i, 1) : Cell) = (q, 1)
    · rw [hc, Function.update_self] at hd
      obtain rfl := Option.some.inj hd
      rw [hc, hself]
      refine ⟨t, hused, ?_, hslack⟩
      rw [List.take_take, Nat.min_self]
      exact htext
    · rw [Function.update_of_ne hc] at hd
      rw [hother _ hc]
      exact hh.copy i d hd
  case noCopy =>
    rw [hother _ (by simpa using hq.symm)]
    exact hh.noCopy
  case seen =>
    intro _
    rw [hq', hself, hother _ (hline 0)]
    exact ⟨by simp, htop⟩

/-- **Moving to another line**, which leaves the history as it is. -/
theorem Hist.move (hh : Hist histlen st lines held v fresh) (htop : (st.iqueue (0, 0)).ibuf ≠ none)
    (mid : Editor) (hheap : mid.heap = st.heap) (hqueue : mid.iqueue = st.iqueue)
    (hq : ∀ i, 0 < i → i ≤ mid.ibqi → lines i ≠ none) :
    ∃ st' held' v', cursorMovement mid = .ok st' ∧ st'.ibqi = mid.ibqi
      ∧ Hist histlen st' lines held' v' fresh := by
  obtain ⟨b, hb, hle, htext, hslack⟩ := hh.readable mid.ibqi htop
    fun hne => hq mid.ibqi (by omega) (Nat.le_refl _)
  have ho : Owns mid.heap held v := by rw [hheap]; exact hh.owns
  have hp : held (mid.ibqi, 0) = (mid.iqueue (mid.ibqi, 0)).ibuf := by
    rw [hqueue]
    exact hh.ptr _ (by simp)
  have hlen := congrArg List.length htext
  rw [List.length_take, List.length_map, Nat.min_eq_left hle] at hlen
  rw [← hqueue] at hle
  by_cases hcond : mid.ibqi ≠ 0 ∧ (mid.iqueue (mid.ibqi, 1)).ibuf = none
  · -- the line is copied
    obtain ⟨st', p, hok, hq', hpos, hlater, hqueue', ho'⟩ :=
      cursorMovement_copy ho hp hb hle hcond.1 hcond.2
    rw [hqueue] at hqueue' hpos ho'
    rw [hheap] at hlater
    refine ⟨st', _, _, hok, hq', hh.copied hlen htext (hslack hcond.1) htop hcond.1 hq' hlater hqueue' ho'
      hq ?_⟩
    rw [hpos, currentLine, hq']
    exact Nat.le_of_eq hlen
  · -- there is a copy already, or it is the fresh line
    have hcopy : mid.ibqi ≠ 0 → (mid.iqueue (mid.ibqi, 1)).ibuf ≠ none := fun h0 hn => hcond ⟨h0, hn⟩
    have hok := cursorMovement_stay ho hp hb hle hcopy
    refine ⟨_, held, v, hok, rfl, hh.cursor hheap hqueue hq (fun hne => ⟨?_, htop⟩) ?_⟩
    · rw [← hqueue]
      exact hcopy hne
    · rw [hqueue, currentLine]
      exact Nat.le_of_eq hlen

/-! ### Entering a line -/

/-- The lines when one is entered: the others become one older, up to the last. -/
def pushLine (histlen : Nat) (t : Bytes) (lines : Nat → Option Bytes) (i : Nat) : Option Bytes :=
  if i = 0 ∨ histlen ≤ i then none else if i = 1 then some t else lines (i - 1)

/-- The lines when the one of cell `q` has been taken out, and `u` is in its place. -/
def replaceLine (q : Nat) (u : Bytes) (lines : Nat → Option Bytes) : Nat → Option Bytes :=
  if q = 0 then lines else Function.update lines q (some u)

/-- Between the two halves: the entered line is in the place of the fresh one. -/
structure Taken (histlen : Nat) (st : Editor) (t : Bytes) (lines : Nat → Option Bytes)
    (held : Cell → Option Nat) (v : Cell → Option (List (Option UInt8))) : Prop where
  owns : Owns st.heap held v
  ptr : ∀ c, held c = (st.iqueue c).ibuf
  top : ∃ b, v (0, 0) = some b ∧ LineKept (st.iqueue (0, 0)) b t
  line : ∀ i t, lines i = some t →
    0 < i ∧ i < histlen ∧ ∃ b, v (i, 0) = some b ∧ LineKept (st.iqueue (i, 0)) b t
  noLine : ∀ i, 0 < i → lines i = none → (st.iqueue (i, 0)).ibuf = none
  copy : ∀ i b, v (i, 1) = some b → ∃ t, LineKept (st.iqueue (i, 1)) b t
  noCopy : (st.iqueue (0, 1)).ibuf = none
  gone : (st.iqueue (st.ibqi, 1)).ibuf = none

/-- The lines when one has been taken out: what was kept beside it is in its place. -/
theorem Hist.line_taken (hh : Hist histlen st lines held v fresh) (hq : st.ibqi ≠ 0)
    (hlt : st.ibqi < histlen) {d : List (Option UInt8)} {u w : Bytes} (hd : v (st.ibqi, 1) = some d)
    (hu : LineKept (st.iqueue (st.ibqi, 1)) d u) {i : Nat}
    (hw : replaceLine st.ibqi u lines i = some w) :
    0 < i ∧ i < histlen ∧ ∃ b, (enteredCell st.ibqi (i, 0)).bind v = some b ∧
      LineKept (enteredQueue st.ibqi st.iqueue (i, 0)) b w := by
  rw [replaceLine, if_neg hq] at hw
  by_cases hi : i = st.ibqi
  · subst hi
    rw [Function.update_self] at hw
    obtain rfl := Option.some.inj hw
    obtain ⟨hcell, hsame⟩ := entered_self st.iqueue hq
    rw [hcell, hsame]
    exact ⟨by omega, hlt, d, hd, hu⟩
  · rw [Function.update_of_ne hi] at hw
    obtain ⟨hpos, hlt, hrest⟩ := hh.line i w hw
    have h0 : ((i, 0) : Cell) ≠ (0, 0) := by simp; omega
    obtain ⟨hcell, hsame⟩ := entered_other st.iqueue h0 hi
    rw [hcell, hsame]
    exact ⟨hpos, hlt, hrest⟩

theorem Hist.noLine_taken (hh : Hist histlen st lines held v fresh) (hq : st.ibqi ≠ 0) {u : Bytes}
    {i : Nat} (hi : 0 < i) (hw : replaceLine st.ibqi u lines i = none) :
    (enteredQueue st.ibqi st.iqueue (i, 0)).ibuf = none := by
  rw [replaceLine, if_neg hq] at hw
  by_cases hne : i = st.ibqi
  · subst hne
    rw [Function.update_self] at hw
    cases hw
  · rw [Function.update_of_ne hne] at hw
    have h0 : ((i, 0) : Cell) ≠ (0, 0) := by simp; omega
    rw [(entered_other st.iqueue h0 hne).2]
    exact hh.noLine i hi hw

theorem Hist.copy_taken (hh : Hist histlen st lines held v fresh) {i : Nat}
    {b : List (Option UInt8)} (hb : (enteredCell st.ibqi (i, 1)).bind v = some b) :
    ∃ t, LineKept (enteredQueue st.ibqi st.iqueue (i, 1)) b t := by
  by_cases hne : i = st.ibqi
  · subst hne
    simp [enteredCell] at hb
  · obtain ⟨hcell, hsame⟩ := entered_other st.iqueue (show ((i, 1) : Cell) ≠ (0, 0) by simp) hne
    rw [hcell] at hb
    rw [hsame]
    exact hh.copy i b hb

/-- **The entered line is taken out**, and what is kept beside it gets into its place. -/
theorem Hist.take (hh : Hist histlen st lines held v fresh)
    (hlive : held (histlen - 1, 1) = (st.iqueue (histlen - 1, 1)).ibuf) {b : List (Option UInt8)}
    {t : Bytes} (hb : v (st.ibqi, 0) = some b) (hk : LineKept (st.iqueue (st.ibqi, 0)) b t) :
    ∃ st' held' v' u, takeEntered st = .ok st' ∧ (st.ibqi ≠ 0 → cellText st (st.ibqi, 1) = .ok u)
      ∧ Taken histlen st' t (replaceLine st.ibqi u lines) held' v' := by
  have hptr : ∀ c, held c = (st.iqueue c).ibuf := by
    intro c
    by_cases hc : c = (histlen - 1, 1)
    · rw [hc]
      exact hlive
    · exact hh.ptr c hc
  by_cases hq : st.ibqi = 0
  · rw [hq] at hb hk
    refine ⟨st, held, v, [], if_neg (not_not.mpr hq), fun hne => absurd hq hne, hh.owns, hptr,
      ⟨b, hb, hk⟩, ?_, ?_, hh.copy, hh.noCopy, by rw [hq]; exact hh.noCopy⟩
    · rw [replaceLine, if_pos hq]
      exact hh.line
    · rw [replaceLine, if_pos hq]
      exact hh.noLine
  · -- what is kept beside the line
    obtain ⟨p, hp⟩ := Option.ne_none_iff_exists'.mp (hh.seen hq).1
    obtain ⟨d, hd, hget⟩ := hh.owns.block (st.ibqi, 1) p ((hptr _).trans hp)
    obtain ⟨u, hu⟩ := hh.copy st.ibqi d hd
    have htext : cellText st (st.ibqi, 1) = .ok u :=
      readText_owned hh.owns (hptr (st.ibqi, 1)) hd hu.le hu.text
    have hlt : st.ibqi < histlen := by
      obtain ⟨w, hw⟩ := Option.ne_none_iff_exists'.mp (hh.older st.ibqi (by omega) (Nat.le_refl _))
      exact (hh.line _ w hw).2.1
    obtain ⟨st', hok, hqueue, hq', -, ho⟩ := takeEntered_owned hq hh.owns (hptr (0, 0))
    refine ⟨st', _, _, u, hok, fun _ => htext,
      { owns := ho, ptr := ?ptr, top := ⟨b, hb, ?top⟩, line := ?line, noLine := ?noLine, copy := ?copy,
        noCopy := ?noCopy, gone := ?gone }⟩ <;> rw [hqueue]
    case ptr => exact enteredCell_held hptr
    case top => exact hk
    case line => exact fun i w hw => hh.line_taken hq hlt hd hu hw
    case noLine => exact fun i hi hw => hh.noLine_taken hq hi hw
    case copy => exact fun i w hw => hh.copy_taken hw
    case noCopy =>
      rw [(entered_other st.iqueue (show ((0, 1) : Cell) ≠ (0, 0) by simp) fun h0 => hq h0.symm).2]
      exact hh.noCopy
    case gone =>
      rw [hq']
      simp [enteredQueue]

/-- **The lines become one older.** -/
theorem Taken.drop {t : Bytes} (hh : Taken histlen st t lines held v) (hpos : 0 < histlen) :
    ∃ st' held' v', dropOldest histlen st = .ok st' ∧ st'.ibqi = 0
      ∧ Hist histlen st' (pushLine histlen t lines) held' v' [] := by
  obtain ⟨st', hok, hqueue, hq, hpos', -, hfreed, ho⟩ :=
    dropOldest_owned hpos hh.owns hh.gone (hh.ptr _) (hh.ptr _)
  refine ⟨st', _, _, hok, hq,
    { owns := ho, ptr := ?ptr, last := ?last, top := .inl ⟨?top, rfl⟩, line := ?line, noLine := ?noLine,
      copy := ?copy, noCopy := ?noCopy, older := fun i hi hle => by omega,
      seen := fun hne => absurd hq hne, pos := ?pos }⟩
  case ptr =>
    intro c hc
    rw [hqueue]
    exact olderCell_held histlen hh.ptr hc
  case last =>
    have hnone : (olderCell histlen (histlen - 1, 1)).bind held = none := by simp [olderCell]
    rw [hnone, hqueue, older_copy]
    cases hr : (st.iqueue (histlen - 1, 1)).ibuf with
    | none => exact .inl rfl
    | some r => exact .inr ⟨rfl, r, rfl, hfreed r hr⟩
  case top =>
    rw [hqueue]
    simp [olderQueue]
  case line =>
    intro i u hu
    rw [pushLine] at hu
    split at hu
    · cases hu
    · rename_i hrange
      have h0 : i ≠ 0 := fun h => hrange (.inl h)
      have hlt : i < histlen := Nat.lt_of_not_le fun h => hrange (.inr h)
      obtain ⟨hcell, hsame⟩ := older_line st.iqueue h0 hlt
      rw [hqueue, hcell, hsame]
      refine ⟨by omega, hlt, ?_⟩
      split at hu
      · rename_i h1
        obtain rfl := Option.some.inj hu
        subst h1
        exact hh.top
      · exact (hh.line _ u hu).2.2
  case noLine =>
    intro i hi hu
    by_cases hlt : i < histlen
    · rw [pushLine, if_neg (by omega)] at hu
      split at hu
      · cases hu
      · rename_i h1
        rw [hqueue, (older_line st.iqueue (by omega) hlt).2]
        exact hh.noLine (i - 1) (by omega) hu
    · have hcell : st'.iqueue (i, 0) = st.iqueue (i, 0) := by
        rw [hqueue]
        simp [olderQueue, show i ≠ 0 by omega, hlt]
      rw [hcell]
      refine hh.noLine i hi ?_
      cases hl : lines i with
      | none => rfl
      | some w => exact absurd (hh.line i w hl).2.1 hlt
  case copy =>
    intro i d hd
    have hne : i ≠ histlen - 1 := by
      rintro rfl
      simp [olderCell] at hd
    rw [hqueue, older_copy]
    refine hh.copy i d ?_
    simpa [olderCell, hne] using hd
  case noCopy =>
    rw [hqueue, older_copy]
    exact hh.noCopy
  case pos =>
    rw [hpos']
    exact Nat.zero_le _

/-- **A line is entered**, when the copy of the oldest line is there or has never been made. -/
theorem Hist.enter (hh : Hist histlen st lines held v fresh) (hpos : 0 < histlen)
    (hlive : held (histlen - 1, 1) = (st.iqueue (histlen - 1, 1)).ibuf) {b : List (Option UInt8)}
    {t : Bytes} (hb : v (st.ibqi, 0) = some b) (hk : LineKept (st.iqueue (st.ibqi, 0)) b t) :
    ∃ st' held' v' u, keyEnter histlen st = .ok (st', some t) ∧ st'.ibqi = 0
      ∧ (st.ibqi ≠ 0 → cellText st (st.ibqi, 1) = .ok u)
      ∧ Hist histlen st' (pushLine histlen t (replaceLine st.ibqi u lines)) held' v' [] := by
  have hshown : shownLine st = .ok t :=
    readText_owned (c := (st.ibqi, 0)) hh.owns (hh.ptr _ (by simp)) hb hk.le hk.text
  obtain ⟨st₁, held₁, v₁, u, htake, hu, htaken⟩ := hh.take hlive hb hk
  obtain ⟨st', held', v', hdrop, hq, hh'⟩ := htaken.drop hpos
  refine ⟨st', held', v', u, ?_, hq, hu, hh'⟩
  simp only [keyEnter, shiftHistory, hshown, htake, hdrop, bind, Except.bind]

end Hist

end Smsg
