/-
What Up shows, in every run.

A run keeps the history (`Hist`) as long as recalled lines are left as they are and Enter
finds a copy that can be put in the line's place (`EnterOk`).  The lines of the history are
then the ones that were entered, the last one first, and Up goes from one to the next.

The copy goes wrong because it stays in its cell when the lines move on: after another line
has been entered, the cell has the copy of a line that is not there any more.  Going to the
line does not renew the copy, and entering the line puts it into the history.
-/
import Smsg.Proofs.Recall

namespace Smsg

open Heaps Lines


/-! ### Keys that do not enter a line -/

section Keys

variable {histlen : Nat} {st st' : Editor} {lines : Nat → Option Bytes} {held : Cell → Option Nat}
  {v : Cell → Option (List (Option UInt8))} {fresh : Bytes}

/-- A key would change the line that the cursor is in. -/
def touches (st : Editor) : Key → Bool
  | .data _ => true
  | .tab culist =>
      match readText st.heap (st.iqueue (st.ibqi, 0)).ibuf st.ibufPos with
      | .ok buf => (tabData buf culist).isSome
      | .error _ => false
  | .keyDc => decide (st.ibufPos < (st.iqueue (st.ibqi, 0)).ulen)
  | .keyBackspace => decide (0 < st.ibufPos)
  | .ctrlU => decide (0 < (st.iqueue (st.ibqi, 0)).ulen)
  | _ => false

/-- A key that would not change the line leaves it alone. -/
theorem editKey_untouched (key : Key) (ht : touches st key = false) {t : Bytes}
    (hread : readText st.heap (st.iqueue (st.ibqi, 0)).ibuf st.ibufPos = .ok t)
    (hpos : st.ibufPos ≤ (st.iqueue (st.ibqi, 0)).ulen) :
    ∃ e, editKey ⟨st.heap, st.iqueue (st.ibqi, 0), st.ibufPos, st.insertmode⟩ key = .ok e
      ∧ e.heap = st.heap ∧ e.bs = st.iqueue (st.ibqi, 0)
      ∧ e.ipos ≤ (st.iqueue (st.ibqi, 0)).ulen := by
  have hsame : editKey ⟨st.heap, st.iqueue (st.ibqi, 0), st.ibufPos, st.insertmode⟩ key
      = .ok ⟨st.heap, st.iqueue (st.ibqi, 0), st.ibufPos, st.insertmode⟩ →
      ∃ e, editKey ⟨st.heap, st.iqueue (st.ibqi, 0), st.ibufPos, st.insertmode⟩ key = .ok e
        ∧ e.heap = st.heap ∧ e.bs = st.iqueue (st.ibqi, 0)
        ∧ e.ipos ≤ (st.iqueue (st.ibqi, 0)).ulen := fun he => ⟨_, he, rfl, rfl, hpos⟩
  cases key with
  | data cch => cases ht
  | tab culist =>
      have hnone : tabData t culist = none := by
        have htab : (match readText st.heap (st.iqueue (st.ibqi, 0)).ibuf st.ibufPos with
            | .ok buf => (tabData buf culist).isSome
            | .error _ => false) = false := ht
        rw [hread] at htab
        exact Option.not_isSome_iff_eq_none.mp (by simp [htab])
      refine hsame ?_
      simp only [editKey_tab, tabKey, hread, hnone, bind, Except.bind]
  | keyHome => exact ⟨_, rfl, rfl, rfl, Nat.zero_le _⟩
  | keyEnd => exact ⟨_, rfl, rfl, rfl, Nat.max_le.mpr ⟨hpos, Nat.le_refl _⟩⟩
  | keyLeft => exact ⟨_, rfl, rfl, rfl, (Nat.sub_le _ _).trans hpos⟩
  | keyRight =>
      refine ⟨_, rfl, rfl, rfl, ?_⟩
      dsimp only
      split <;> omega
  | keyDc => exact hsame (if_neg (of_decide_eq_false ht))
  | keyBackspace => exact hsame (if_neg (of_decide_eq_false ht))
  | ctrlU =>
      have hzero : (st.iqueue (st.ibqi, 0)).ulen = 0 := Nat.eq_zero_of_not_pos (of_decide_eq_false ht)
      refine ⟨_, rfl, rfl, ?_, Nat.zero_le _⟩
      show ({ st.iqueue (st.ibqi, 0) with ulen := 0 } : Ibuf) = _
      rw [← hzero]
  | keyIc => exact ⟨_, rfl, rfl, rfl, hpos⟩
  | keyUp => exact hsame rfl
  | keyDown => exact hsame rfl
  | keyEnter => exact hsame rfl
  | other => exact hsame rfl

theorem Hist.freshText (hh : Hist histlen st lines held v fresh) : freshText st = .ok fresh :=
  freshText_eq hh.owns (hh.ptr _ (by simp)) hh.top

/-- What is known about the fresh line when a key is pressed in it. -/
theorem Hist.fits (hh : Hist histlen st lines held v fresh) (hq : st.ibqi = 0) {key : Key}
    (hfits : FitsInt st key) :
    ∃ r, LineState held v st r ∧ r.line.text = fresh ∧ fresh.length + 110 ≤ intMax
      ∧ fresh.length + (r.written key).length ≤ intMax := by
  have hpos := hh.pos
  rw [currentLine, if_pos hq] at hpos
  refine ⟨freshEditor st fresh hpos, ⟨hh.owns, hh.ptr _ (by simp), ?_, rfl, rfl⟩, rfl,
    hfits fresh hh.freshText hpos⟩
  rw [hq]
  exact hh.top

/-- The state in which the switch finds the editor, when nothing overflows. -/
theorem Hist.roomy (hh : Hist histlen st lines held v fresh) (key : Key)
    (hfits : st.ibqi = 0 → FitsInt st key) :
    ∃ st' held' v' b, chatterKey histlen st key = switchKey histlen st' key
      ∧ Hist histlen st' lines held' v' fresh ∧ v' (st'.ibqi, 0) = some b
      ∧ LineKept (st'.iqueue (st'.ibqi, 0)) b (currentLine st' fresh lines)
      ∧ st'.ibqi = st.ibqi ∧ held' (histlen - 1, 1) = held (histlen - 1, 1)
      ∧ (∀ c, c ≠ (0, 0) → st'.iqueue c = st.iqueue c) ∧ (st.ibqi ≠ 0 → st' = st) := by
  rcases hh.room key with ⟨hq, hlong⟩ | hroom
  · obtain ⟨-, -, -, hint, -⟩ := hh.fits hq (hfits hq)
    omega
  · exact hroom

theorem Hist.top_ne (hh : Hist histlen st lines held v fresh) {b : List (Option UInt8)}
    (hb : v (st.ibqi, 0) = some b) : (st.iqueue (0, 0)).ibuf ≠ none := by
  by_cases hq : st.ibqi = 0
  · intro hnone
    rw [hq, hh.owns.nothing _ ((hh.ptr _ (by simp)).trans hnone)] at hb
    cases hb
  · exact (hh.seen hq).2

/-- There is an older line to go to. -/
theorem Hist.hasOlder_iff (hh : Hist histlen st lines held v fresh) :
    hasOlder histlen st ↔ lines (st.ibqi + 1) ≠ none := by
  constructor
  · intro holder hnone
    exact holder.2 (hh.noLine _ (Nat.succ_pos _) hnone)
  · intro hsome
    obtain ⟨t, ht⟩ := Option.ne_none_iff_exists'.mp hsome
    obtain ⟨-, hlt, b, hb, -⟩ := hh.line _ t ht
    refine ⟨by omega, fun hnone => ?_⟩
    rw [hh.owns.nothing _ ((hh.ptr _ (by simp)).trans hnone)] at hb
    cases hb

/-- **Up** goes to the next older line, if there is one. -/
theorem Hist.pressUp (hh : Hist histlen st lines held v fresh)
    (hfits : st.ibqi = 0 → FitsInt st .keyUp) :
    ∃ st' held' v', chatterKey histlen st .keyUp = .ok (st', none)
      ∧ Hist histlen st' lines held' v' fresh
      ∧ (lines (st.ibqi + 1) ≠ none → st'.ibqi = st.ibqi + 1) := by
  obtain ⟨st₁, held₁, v₁, b, hswitch, hh₁, hb, -, hq, -⟩ := hh.roomy .keyUp hfits
  rw [hswitch, ← hq, ← hh₁.hasOlder_iff]
  by_cases holder : hasOlder histlen st₁
  · have hlines : ∀ i, 0 < i → i ≤ st₁.ibqi + 1 → lines i ≠ none := by
      intro i hi hle
      by_cases hlast : i = st₁.ibqi + 1
      · rw [hlast]
        exact hh₁.hasOlder_iff.mp holder
      · exact hh₁.older i hi (by omega)
    obtain ⟨st', held', v', hok, hq', hh'⟩ :=
      hh₁.move (hh₁.top_ne hb) { st₁ with ibqi := st₁.ibqi + 1 } rfl rfl hlines
    refine ⟨st', held', v', ?_, hh', fun _ => hq'⟩
    rw [switchKey, keyUp, if_pos holder, hok]
    rfl
  · refine ⟨st₁, held₁, v₁, ?_, hh₁, fun hyes => absurd hyes holder⟩
    rw [switchKey, keyUp, if_neg holder]
    rfl

/-- **Down** goes back to the next newer line. -/
theorem Hist.pressDown (hh : Hist histlen st lines held v fresh)
    (hfits : st.ibqi = 0 → FitsInt st .keyDown) :
    ∃ st' held' v', chatterKey histlen st .keyDown = .ok (st', none)
      ∧ Hist histlen st' lines held' v' fresh := by
  obtain ⟨st₁, held₁, v₁, b, hswitch, hh₁, hb, -, hq, -⟩ := hh.roomy .keyDown hfits
  rw [hswitch]
  by_cases hpos : 0 < st₁.ibqi
  · obtain ⟨st', held', v', hok, -, hh'⟩ :=
      hh₁.move (hh₁.top_ne hb) { st₁ with ibqi := st₁.ibqi - 1 } rfl rfl
        fun i hi hle => hh₁.older i hi (hle.trans (Nat.sub_le _ _))
    refine ⟨st', held', v', ?_, hh'⟩
    rw [switchKey, keyDown, if_pos hpos, hok]
    rfl
  · refine ⟨st₁, held₁, v₁, ?_, hh₁⟩
    rw [switchKey, keyDown, if_neg hpos]
    rfl

/-- A key in a recalled line that leaves it as it is. -/
theorem Hist.pressUntouched (hh : Hist histlen st lines held v fresh) (hq : st.ibqi ≠ 0) (key : Key)
    (ht : touches st key = false) (hstay : switchKey histlen st key = (stayOnLine st key).map (·, none)) :
    ∃ st', chatterKey histlen st key = .ok (st', none) ∧ Hist histlen st' lines held v fresh := by
  obtain ⟨st₁, held₁, v₁, b, hswitch, hh₁, hb, hk, -, -, -, hsame⟩ :=
    hh.roomy key fun h0 => absurd h0 hq
  obtain rfl := hsame hq
  have hpos₁ := hh₁.pos
  have hpos : st₁.ibufPos ≤ (st₁.iqueue (st₁.ibqi, 0)).ulen := by
    rw [hk.used]
    exact hpos₁
  -- what is in front of the cursor can be read
  have hfront : b.take st₁.ibufPos = ((currentLine st₁ fresh lines).take st₁.ibufPos).map some := by
    rw [← Nat.min_eq_left hpos, ← List.take_take, hk.text, List.map_take]
    rw [Nat.min_eq_left hpos]
  have hread := readText_owned hh₁.owns (hh₁.ptr (st₁.ibqi, 0) (by simp)) hb (hpos.trans hk.le) hfront
  obtain ⟨e, he, hheap, hbs, hle⟩ := editKey_untouched key ht hread hpos
  refine ⟨⟨e.heap, Function.update st₁.iqueue (st₁.ibqi, 0) e.bs, st₁.ibqi, e.ipos, e.insertmode⟩, ?_,
    hh.cursor hheap (by rw [hbs]; exact Function.update_eq_self ..) hh.older hh.seen ?_⟩
  · rw [hswitch, hstay, stayOnLine, he]
    rfl
  · rw [hk.used] at hle
    exact hle

/-- **A key other than Enter leaves the lines of the history as they are.** -/
theorem Hist.press (hh : Hist histlen st lines held v fresh) (key : Key) (hne : key ≠ .keyEnter)
    (hfits : st.ibqi = 0 → FitsInt st key) (ht : st.ibqi ≠ 0 → touches st key = false) :
    ∃ st' held' v' fresh', chatterKey histlen st key = .ok (st', none)
      ∧ Hist histlen st' lines held' v' fresh' := by
  by_cases hedit : key.isEdit = true
  · by_cases hq : st.ibqi = 0
    · obtain ⟨r, hl, hr, hint, hint'⟩ := hh.fits hq (hfits hq)
      rcases edit_refines histlen hl key hedit with ⟨-, hlong⟩ | ⟨st', hok, hedited⟩
      · rw [hr] at hlong
        omega
      · obtain ⟨bs, hqueue, hc⟩ := hedited.queue
        rw [hq] at hqueue hc
        obtain ⟨b, -, hh'⟩ := hh.changed hqueue hc (hedited.ibqi.trans hq)
          (by rw [hedited.cursor]; exact (r.key key).line.inside)
        exact ⟨st', _, _, _, hok, hh'⟩
    · obtain ⟨st', hok, hh'⟩ := hh.pressUntouched hq key (ht hq) (switchKey_edit key hedit)
      exact ⟨st', _, _, _, hok, hh'⟩
  · cases key with
    | keyUp =>
        obtain ⟨st', held', v', hok, hh', -⟩ := hh.pressUp hfits
        exact ⟨st', held', v', fresh, hok, hh'⟩
    | keyDown =>
        obtain ⟨st', held', v', hok, hh'⟩ := hh.pressDown hfits
        exact ⟨st', held', v', fresh, hok, hh'⟩
    | keyEnter => exact absurd rfl hne
    | other =>
        obtain ⟨st₁, held₁, v₁, b, hswitch, hh₁, -⟩ := hh.roomy .other hfits
        exact ⟨st₁, held₁, v₁, fresh, by rw [hswitch, switchKey_other], hh₁⟩
    | _ => exact absurd rfl hedit

/-! ### Entering a line -/

/--
Enter finds the history in order: the copy of the oldest line is there if there is a pointer
to it, and the copy of the line that is entered says the same as the line, unless the line
is the fresh one or the oldest one.
-/
def EnterOk (histlen : Nat) (st : Editor) : Prop :=
  (∀ p ∈ (st.iqueue (histlen - 1, 1)).ibuf, (st.heap.get p).isSome = true)
    ∧ (st.ibqi = 0 ∨ st.ibqi = histlen - 1 ∨ cellText st (st.ibqi, 1) = cellText st (st.ibqi, 0))

instance (histlen : Nat) (st : Editor) : Decidable (EnterOk histlen st) :=
  inferInstanceAs (Decidable (_ ∧ _))

theorem Hist.lastOk (hh : Hist histlen st lines held v fresh)
    (hlive : ∀ p ∈ (st.iqueue (histlen - 1, 1)).ibuf, (st.heap.get p).isSome = true) :
    held (histlen - 1, 1) = (st.iqueue (histlen - 1, 1)).ibuf := by
  rcases hh.last with hp | ⟨-, p, hp, hfreed⟩
  · exact hp
  · have hsome := hlive p hp
    rw [hfreed.2] at hsome
    cases hsome

/-- **Enter**, which needs the pointer to the oldest line's copy to be right. -/
theorem Hist.pressEnter (hh : Hist histlen st lines held v fresh) (hpos : 0 < histlen)
    (hfits : st.ibqi = 0 → FitsInt st .keyEnter)
    (hlive : ∀ p ∈ (st.iqueue (histlen - 1, 1)).ibuf, (st.heap.get p).isSome = true) :
    ∃ st' held' v' u,
      chatterKey histlen st .keyEnter = .ok (st', some (currentLine st fresh lines)) ∧ st'.ibqi = 0
        ∧ (st.ibqi ≠ 0 → cellText st (st.ibqi, 1) = .ok u
          ∧ cellText st (st.ibqi, 0) = .ok (currentLine st fresh lines))
        ∧ Hist histlen st' (pushLine histlen (currentLine st fresh lines) (replaceLine st.ibqi u lines))
          held' v' [] := by
  obtain ⟨st₁, held₁, v₁, b, hswitch, hh₁, hb, hk, hq, hheld, hsame, hstay⟩ := hh.roomy .keyEnter hfits
  have hlive₁ : held₁ (histlen - 1, 1) = (st₁.iqueue (histlen - 1, 1)).ibuf := by
    rw [hheld, hsame _ (by simp)]
    exact hh.lastOk hlive
  have hline : currentLine st₁ fresh lines = currentLine st fresh lines := by
    rw [currentLine, currentLine, hq]
  rw [hline] at hk
  obtain ⟨st', held', v', u, henter, hq', hu, hh'⟩ := hh₁.enter hpos hlive₁ hb hk
  rw [hq] at hh'
  refine ⟨st', held', v', u, hswitch.trans henter, hq', fun hne => ?_, hh'⟩
  obtain rfl := hstay hne
  exact ⟨hu hne, readText_owned (c := (st₁.ibqi, 0)) hh₁.owns (hh₁.ptr _ (by simp)) hb hk.le hk.text⟩

/-- The oldest line and its copy cannot be freed when there is no block for one of them. -/
theorem dropOldest_dead {p : Nat} (ho : Owns st.heap held v) (hfreed : st.heap.Freed p)
    (hp : (st.iqueue (histlen - 1, 0)).ibuf = some p
      ∨ held (histlen - 1, 0) = (st.iqueue (histlen - 1, 0)).ibuf
        ∧ (st.iqueue (histlen - 1, 1)).ibuf = some p) :
    dropOldest histlen st = .error .badFree := by
  rcases hp with hp | ⟨hold, hp⟩
  · simp only [dropOldest, hp, cFree_freed hfreed, bind, Except.bind]
  · obtain ⟨h₁, hfree, hlater, -, -⟩ := cFree_owned ho hold
    simp only [dropOldest, hfree, hp, cFree_freed (hlater p hfreed), bind, Except.bind]

/-- **Enter frees the copy of the oldest line twice** when it has been freed before. -/
theorem Hist.pressEnter_dead (hh : Hist histlen st lines held v fresh) (hpos : 1 < histlen)
    (hfits : st.ibqi = 0 → FitsInt st .keyEnter) {p : Nat}
    (hp : (st.iqueue (histlen - 1, 1)).ibuf = some p) (hdead : st.heap.get p = none) :
    chatterKey histlen st .keyEnter = .error .badFree := by
  obtain ⟨st₁, held₁, v₁, b, hswitch, hh₁, hb, hk, -, hheld, hsame, -⟩ := hh.roomy .keyEnter hfits
  have hnone : held (histlen - 1, 1) = none := by
    rcases hh.last with hlive | ⟨hnone, -⟩
    · obtain ⟨d, -, hd⟩ := hh.owns.block _ p (hlive.trans hp)
      rw [hdead] at hd
      cases hd
    · exact hnone
  have hp₁ : (st₁.iqueue (histlen - 1, 1)).ibuf = some p := by rw [hsame _ (by simp), hp]
  have hfreed : st₁.heap.Freed p := by
    rcases hh₁.last with hlive | ⟨-, r, hr, hfreed⟩
    · rw [hheld, hnone, hp₁] at hlive
      cases hlive
    · rw [hp₁] at hr
      rwa [Option.some.inj hr]
  have hold : ∀ i, held₁ (i, 0) = (st₁.iqueue (i, 0)).ibuf := fun i => hh₁.ptr _ (by simp)
  have hshown : shownLine st₁ = .ok (currentLine st₁ fresh lines) :=
    readText_owned (c := (st₁.ibqi, 0)) hh₁.owns (hold _) hb hk.le hk.text
  have hshift : shiftHistory histlen st₁ = .error .badFree := by
    by_cases hq : st₁.ibqi = 0
    · have htake : takeEntered st₁ = .ok st₁ := if_neg (not_not.mpr hq)
      have hdrop := dropOldest_dead hh₁.owns hfreed (.inr ⟨hold _, hp₁⟩)
      simp only [shiftHistory, htake, hdrop, bind, Except.bind]
    · obtain ⟨st₂, htake, hqueue, -, hlater, ho₂⟩ := takeEntered_owned hq hh₁.owns (hold 0)
      have hdrop : dropOldest histlen st₂ = .error .badFree := by
        refine dropOldest_dead ho₂ (hlater p hfreed) ?_
        rw [hqueue]
        by_cases hlast : st₁.ibqi = histlen - 1
        · exact .inl (by simp [enteredQueue, hlast, hp₁, show histlen - 1 ≠ 0 by omega])
        · have hlast' : histlen - 1 ≠ st₁.ibqi := fun h => hlast h.symm
          refine .inr ⟨?_, by simp [enteredQueue, hlast', hp₁]⟩
          simp [enteredCell, enteredQueue, hlast', hold, show histlen - 1 ≠ 0 by omega]
      simp only [shiftHistory, htake, hdrop, bind, Except.bind]
  rw [hswitch, switchKey]
  simp only [keyEnter, hshown, hshift, bind, Except.bind]

/-! ### The lines that were entered -/

/-- The history, from the lines that were entered, the last one first. -/
def histLines (histlen : Nat) (entered : List Bytes) (i : Nat) : Option Bytes :=
  if i = 0 ∨ histlen ≤ i then none else entered[i - 1]?

/-- What is left in the place of the line has to be the line, or to go away. -/
theorem pushLine_histLines {entered : List Bytes} {q : Nat} {u : Bytes} (t : Bytes)
    (hu : q = 0 ∨ q = histlen - 1 ∨ histLines histlen entered q = some u) :
    pushLine histlen t (replaceLine q u (histLines histlen entered))
      = histLines histlen (t :: entered) := by
  funext i
  rw [pushLine, histLines]
  by_cases hrange : i = 0 ∨ histlen ≤ i
  · rw [if_pos hrange, if_pos hrange]
  · rw [if_neg hrange, if_neg hrange]
    obtain _ | _ | i := i
    · exact absurd (.inl rfl) hrange
    · rfl
    · have hlines : replaceLine q u (histLines histlen entered) (i + 1)
          = histLines histlen entered (i + 1) := by
        rw [replaceLine]
        split
        · rfl
        · rename_i hq
          by_cases hi : i + 1 = q
          · rcases hu with h0 | hlast | hu
            · exact absurd h0 hq
            · omega
            · rw [hi, Function.update_self, hu]
          · rw [Function.update_of_ne hi]
      rw [if_neg (by omega)]
      show replaceLine q u (histLines histlen entered) (i + 1) = _
      rw [hlines, histLines, if_neg (by omega)]
      rfl

theorem pushLine_replaceLine {q : Nat} (hq : q ≠ 0) (hlt : q + 1 < histlen) (t u : Bytes) :
    pushLine histlen t (replaceLine q u lines) (q + 1) = some u := by
  rw [pushLine, if_neg (by omega), if_neg (by omega), replaceLine, if_neg hq]
  exact Function.update_self ..

/-- There are lines up to the one behind the place of a line that has been entered. -/
theorem pushLine_ne_none {q : Nat} (hlt : q + 1 < histlen) (t u : Bytes)
    (hlines : ∀ i, 0 < i → i ≤ q → lines i ≠ none) {i : Nat} (hi : 0 < i) (hle : i ≤ q + 1) :
    pushLine histlen t (replaceLine q u lines) i ≠ none := by
  rw [pushLine, if_neg (by omega)]
  split
  · simp
  · rename_i h1
    rw [replaceLine, if_neg (by omega)]
    by_cases hlast : i - 1 = q
    · rw [hlast, Function.update_self]
      simp
    · rw [Function.update_of_ne hlast]
      exact hlines _ (by omega) (by omega)

/-- The lines of the history are the ones that were entered. -/
def SessionHist (histlen : Nat) (s : Session) : Prop :=
  ∃ held v fresh, Hist histlen s.ed (histLines histlen s.entered) held v fresh

/-- A key at which the history stays right. -/
structure KeyOk (histlen : Nat) (st : Editor) (key : Key) : Prop where
  fits : st.ibqi = 0 → FitsInt st key
  untouched : st.ibqi ≠ 0 → touches st key = false
  enter : key = .keyEnter → EnterOk histlen st

/-- **A key keeps the history.** -/
theorem SessionHist.press {s : Session} (hs : SessionHist histlen s) (hpos : 0 < histlen) (key : Key)
    (hkey : KeyOk histlen s.ed key) :
    ∃ s', s.press histlen key = .ok s' ∧ SessionHist histlen s' := by
  obtain ⟨held, v, fresh, hh⟩ := hs
  by_cases henter : key = .keyEnter
  · subst henter
    obtain ⟨hlive, hcopy⟩ := hkey.enter rfl
    obtain ⟨st', held', v', u, hok, -, htexts, hh'⟩ := hh.pressEnter hpos hkey.fits hlive
    refine ⟨_, press_ok hok, held', v', [], ?_⟩
    rw [pushLine_histLines] at hh'
    · exact hh'
    · refine or_iff_not_imp_left.mpr fun hne => ?_
      refine (hcopy.resolve_left hne).imp_right fun hsame => ?_
      obtain ⟨hu, ht⟩ := htexts hne
      obtain ⟨t, hline⟩ := Option.ne_none_iff_exists'.mp (hh.older s.ed.ibqi (by omega) (Nat.le_refl _))
      rw [hu, ht, currentLine, if_neg hne, hline] at hsame
      rw [hline, Except.ok.inj hsame]
      rfl
  · obtain ⟨st', held', v', fresh', hok, hh'⟩ := hh.press key henter hkey.fits hkey.untouched
    exact ⟨_, press_ok hok, held', v', fresh', hh'⟩

theorem sessionHist_start (histlen : Nat) : SessionHist histlen .start := by
  have hnone : ∀ i, histLines histlen [] i = none := by
    intro i
    rw [histLines]
    split <;> rfl
  refine ⟨fun _ => none, fun _ => none, [],
    { owns := Owns.empty _, ptr := fun _ _ => rfl, last := .inl rfl, top := .inl ⟨rfl, rfl⟩,
      line := ?line, noLine := fun _ _ _ => rfl, copy := fun i b hb => by (cases hb), noCopy := rfl,
      older := ?older, seen := fun hne => absurd rfl hne, pos := Nat.zero_le _ }⟩
  case line =>
    intro i t ht
    rw [show Session.start.entered = [] from rfl, hnone] at ht
    cases ht
  case older =>
    intro i hi hle
    rw [show Session.start.ed.ibqi = 0 from rfl] at hle
    omega

/-- **A run keeps the history.** -/
theorem run_hist (hpos : 0 < histlen) (keys : List Key) :
    AtKeys (KeyOk histlen) histlen keys →
      ∃ s, Session.start.pressAll histlen keys = .ok s ∧ SessionHist histlen s := by
  induction keys using List.reverseRecOn with
  | nil => exact fun _ => ⟨.start, rfl, sessionHist_start histlen⟩
  | append_singleton keys key ih =>
      intro hkeys
      obtain ⟨s, hok, hs⟩ := ih hkeys.before
      rw [pressAll_concat hok]
      exact hs.press hpos key (hkeys.now hok)

/-- **Up, so many times**, from the fresh line. -/
theorem Hist.ups {s : Session} (hh : Hist histlen s.ed lines held v fresh) (hq : s.ed.ibqi = 0)
    (hfits : FitsInt s.ed .keyUp) (k : Nat) :
    (∀ i, 0 < i → i ≤ k → lines i ≠ none) →
      ∃ s', s.pressAll histlen (List.replicate k .keyUp) = .ok s' ∧ s'.ed.ibqi = k
        ∧ (∃ held' v', Hist histlen s'.ed lines held' v' fresh) ∧ (k = 0 → s' = s) := by
  induction k with
  | zero => exact fun _ => ⟨s, rfl, hq, ⟨held, v, hh⟩, fun _ => rfl⟩
  | succ k ih =>
      intro hlines
      obtain ⟨s₁, hok, hq₁, ⟨held₁, v₁, hh₁⟩, hzero⟩ := ih fun i hi hle => hlines i hi (by omega)
      have hfits₁ : s₁.ed.ibqi = 0 → FitsInt s₁.ed .keyUp := by
        intro h0
        rw [hzero (hq₁.symm.trans h0)]
        exact hfits
      obtain ⟨st', held', v', hok', hh', hmove⟩ := hh₁.pressUp hfits₁
      refine ⟨⟨st', s₁.entered⟩, ?_, ?_, ⟨held', v', hh'⟩, fun h0 => by omega⟩
      · rw [List.replicate_succ', pressAll_append, hok]
        show s₁.pressAll histlen [.keyUp] = _
        rw [pressAll_cons, press_ok hok']
        rfl
      · rw [← hq₁]
        exact hmove (hlines _ (Nat.succ_pos _) (by omega))

/-- In a line of the history, the window shows it. -/
theorem Hist.shown (hh : Hist histlen st lines held v fresh) {t : Bytes}
    (ht : lines st.ibqi = some t) : shownLine st = .ok t := by
  obtain ⟨-, -, b, hb, hk⟩ := hh.line _ t ht
  exact readText_owned (c := (st.ibqi, 0)) hh.owns (hh.ptr _ (by simp)) hb hk.le hk.text

/-- **What Up shows** is the line of the history. -/
theorem Hist.upShows {s : Session} (hh : Hist histlen s.ed lines held v fresh) (hq : s.ed.ibqi = 0)
    (hfits : FitsInt s.ed .keyUp) {k : Nat} {t : Bytes} (hlines : ∀ i, 0 < i → i ≤ k → lines i ≠ none)
    (ht : lines k = some t) :
    ∃ s', s.pressAll histlen (List.replicate k .keyUp) = .ok s' ∧ shownLine s'.ed = .ok t := by
  obtain ⟨s', hok, hq', ⟨held', v', hh'⟩, -⟩ := hh.ups hq hfits k hlines
  exact ⟨s', hok, hh'.shown (by rw [hq', ht])⟩

/-! ### Recalling -/

/-- Up, `k` times, shows the line that was entered `k` lines ago. -/
def ShowsEntered (histlen : Nat) (s : Session) : Prop :=
  ∀ k t, k < histlen - 1 → s.entered[k]? = some t →
    ∃ s', s.pressAll histlen (List.replicate (k + 1) .keyUp) = .ok s' ∧ shownLine s'.ed = .ok t

/-- The run goes on, and from every fresh line the history shows what was entered. -/
def Recalls (histlen : Nat) (keys : List Key) : Prop :=
  ∀ pre post, keys = pre ++ post →
    ∃ s, Session.start.pressAll histlen pre = .ok s ∧ (s.ed.ibqi = 0 → ShowsEntered histlen s)

/-- Recalled lines are left as they are. -/
def LeavesRecalled (histlen : Nat) : List Key → Prop :=
  AtKeys (fun st key => st.ibqi ≠ 0 → touches st key = false) histlen

instance (histlen : Nat) (keys : List Key) : Decidable (LeavesRecalled histlen keys) :=
  inferInstanceAs (Decidable (AtKeys _ _ _))

/-- Whenever a line is entered, the history is in order. -/
def EntersOk (histlen : Nat) : List Key → Prop :=
  AtKeys (fun st key => key = .keyEnter → EnterOk histlen st) histlen

instance (histlen : Nat) (keys : List Key) : Decidable (EntersOk histlen keys) :=
  inferInstanceAs (Decidable (AtKeys _ _ _))

theorem histLines_ne_none {entered : List Bytes} {k i : Nat} (hk : k ≤ entered.length)
    (hlast : k < histlen) (hi : 0 < i) (hle : i ≤ k) : histLines histlen entered i ≠ none := by
  rw [histLines, if_neg (by omega)]
  simp only [ne_eq, List.getElem?_eq_none_iff]
  omega

theorem SessionHist.shows {s : Session} (hs : SessionHist histlen s) (hq : s.ed.ibqi = 0)
    (hfits : FitsInt s.ed .keyUp) : ShowsEntered histlen s := by
  intro k t hk ht
  obtain ⟨held, v, fresh, hh⟩ := hs
  have hlen : k < s.entered.length := (List.getElem?_eq_some_iff.mp ht).1
  refine hh.upShows hq hfits (fun i hi hle => histLines_ne_none hlen (by omega) hi hle) ?_
  rw [histLines, if_neg (by omega)]
  exact ht

theorem keysOk {keys : List Key} (hleaves : LeavesRecalled histlen keys) (hfits : NoOverflow histlen keys)
    (henters : EntersOk histlen keys) : AtKeys (KeyOk histlen) histlen keys :=
  fun pre key post s hsplit hs => ⟨AtKeys.before hfits pre key post s hsplit hs,
    hleaves pre key post s hsplit hs, henters pre key post s hsplit hs⟩

theorem Recalls.before {pre post : List Key} (h : Recalls histlen (pre ++ post)) :
    Recalls histlen pre := by
  intro p q hsplit
  refine h p (q ++ post) ?_
  rw [hsplit]
  simp

/-- **The history is right** as long as Enter finds it in order. -/
theorem EntersOk.recalls (hpos : 0 < histlen) {keys : List Key} (hleaves : LeavesRecalled histlen keys)
    (hfits : NoOverflow histlen keys) (henters : EntersOk histlen keys) : Recalls histlen keys := by
  intro pre post hsplit
  subst hsplit
  obtain ⟨s, hok, hs⟩ :=
    run_hist hpos pre (keysOk (AtKeys.before hleaves) hfits.before (AtKeys.before henters))
  exact ⟨s, hok, fun hq => hs.shows hq (hfits.before.up hok hq)⟩

/-- **Enter has found the history in order** when Up shows what was entered afterwards. -/
theorem SessionHist.enterOk {s s' : Session} (hs : SessionHist histlen s) (h3 : 3 ≤ histlen)
    (hfits : s.ed.ibqi = 0 → FitsInt s.ed .keyEnter) (hok : s.press histlen .keyEnter = .ok s')
    (hfits' : s'.ed.ibqi = 0 → FitsInt s'.ed .keyUp)
    (hshows : s'.ed.ibqi = 0 → ShowsEntered histlen s') : EnterOk histlen s.ed := by
  obtain ⟨held, v, fresh, hh⟩ := hs
  have hlive : ∀ p ∈ (s.ed.iqueue (histlen - 1, 1)).ibuf, (s.ed.heap.get p).isSome = true := by
    intro p hp
    by_contra hdead
    have hbad := press_error (hh.pressEnter_dead (by omega) hfits hp (by simpa using hdead))
    rw [hok] at hbad
    cases hbad
  refine ⟨hlive, or_iff_not_imp_left.mpr fun hne => or_iff_not_imp_left.mpr fun hlast => ?_⟩
  obtain ⟨t, hline⟩ := Option.ne_none_iff_exists'.mp (hh.older s.ed.ibqi (by omega) (Nat.le_refl _))
  obtain ⟨hpos, hlt, -⟩ := hh.line _ t hline
  obtain ⟨st', held', v', u, hkey, hq', htexts, hh'⟩ := hh.pressEnter (by omega) hfits hlive
  obtain ⟨hu, ht⟩ := htexts hne
  obtain rfl := Except.ok.inj (hok.symm.trans (press_ok hkey))
  -- the copy is what Up shows now, and the line is what was entered
  have hlt' : s.ed.ibqi + 1 < histlen := by omega
  obtain ⟨s₁, hups₁, hshown₁⟩ := hh'.upShows hq' (hfits' hq')
    (fun i hi hle => pushLine_ne_none hlt' _ u hh.older hi hle) (pushLine_replaceLine hne hlt' _ u)
  have hentered : s.entered[s.ed.ibqi - 1]? = some t := by
    rwa [histLines, if_neg (by omega)] at hline
  obtain ⟨s₂, hups₂, hshown₂⟩ := hshows hq' s.ed.ibqi t (by omega) (by
    obtain ⟨q, hq⟩ := Nat.exists_eq_succ_of_ne_zero hne
    rw [hq] at hentered ⊢
    exact hentered)
  obtain rfl := Except.ok.inj (hups₁.symm.trans hups₂)
  rw [hu, ht, currentLine, if_neg hne, hline]
  exact hshown₁.symm.trans hshown₂

/-- **Enter has found the history in order** wherever Up shows what was entered. -/
theorem Recalls.entersOk (h3 : 3 ≤ histlen) (keys : List Key) :
    LeavesRecalled histlen keys → NoOverflow histlen keys → Recalls histlen keys →
      EntersOk histlen keys := by
  induction keys using List.reverseRecOn with
  | nil => exact fun _ _ _ => AtKeys.nil _ _
  | append_singleton keys key ih =>
      intro hleaves hfits hrecalls
      have henters := ih (AtKeys.before hleaves) hfits.before hrecalls.before
      obtain ⟨s, hs, hhist⟩ := run_hist (by omega) keys
        (keysOk (AtKeys.before hleaves) hfits.before henters)
      refine henters.concat fun s₀ hs₀ henter => ?_
      obtain rfl := Except.ok.inj (hs.symm.trans hs₀)
      obtain ⟨s', hs', hshows⟩ := hrecalls (keys ++ [key]) [] (by simp)
      have hpress := (pressAll_concat hs key).symm.trans hs'
      have hkey := AtKeys.now (AtKeys.before hfits) hs
      rw [henter] at hpress hkey
      exact hhist.enterOk h3 hkey hpress (fun hq => hfits.up hs' hq) hshows

/--
**Up shows the lines that were entered** exactly as long as every Enter finds the history in
order, in the runs in which recalled lines are left as they are.
-/
theorem recalls_iff (histlen : Nat) (h3 : 3 ≤ histlen) (keys : List Key)
    (hleaves : LeavesRecalled histlen keys) (hfits : NoOverflow histlen keys) :
    Recalls histlen keys ↔ EntersOk histlen keys :=
  ⟨fun h => h.entersOk h3 keys hleaves hfits, fun h => h.recalls (by omega) hleaves hfits⟩

/-- Entering `a`, going to it and back, and entering `b`. -/
theorem recalls_ab : Recalls 3 [.data 97, .keyEnter, .keyUp, .keyDown, .data 98, .keyEnter] :=
  (recalls_iff 3 (by decide) _ (by decide) (by decide)).mpr (by decide)

/-- Entering `a`, going to it and back, entering `b`, and entering that again. -/
def staleRun : List Key :=
  [.data 97, .keyEnter, .keyUp, .keyDown, .data 98, .keyEnter, .keyUp, .keyEnter]

/-- The copy of `a` stays where `b` gets, and takes its place when `b` is entered again. -/
theorem not_recalls : ¬ ∀ histlen keys, 3 ≤ histlen → LeavesRecalled histlen keys →
    NoOverflow histlen keys → Recalls histlen keys := by
  intro hall
  obtain ⟨s, hs, hshows⟩ :=
    hall 3 staleRun (by decide) (by decide) (by decide) staleRun [] (List.append_nil _).symm
  have hfresh : (Session.start.pressAll 3 staleRun).map (fun s => (s.ed.ibqi, s.entered[1]?))
      = .ok (0, some [98]) := by decide
  have hups : ((Session.start.pressAll 3 staleRun).bind fun s =>
      (s.pressAll 3 (List.replicate 2 .keyUp)).bind fun s => shownLine s.ed) = .ok [97] := by decide
  rw [hs] at hfresh hups
  obtain ⟨hq, hentered⟩ := Prod.mk.inj (Except.ok.inj hfresh)
  obtain ⟨s', hs', hshown⟩ := hshows hq 1 [98] (by decide) hentered
  have hstale : ((s.pressAll 3 (List.replicate 2 .keyUp)).bind fun s => shownLine s.ed) = .ok [97] :=
    hups
  rw [hs'] at hstale
  have hsame := Except.ok.inj (hshown.symm.trans hstale)
  exact absurd hsame (by decide)

end Keys

end Smsg
