/-
Machines that react to events, and what holds along their runs.

A machine is a set of initial states and a partial step.  `none` means that the
event cannot happen in that state, so an execution never contains it.  An
execution keeps its whole history, newest step first, because several of the
properties proved with it speak about the past: "since the connection was
accepted", "since that user last joined".

A few rules carry the rest of the development.  `Exec.invariant` is the usual
induction over steps, with a side condition that every step of the execution has
to meet.  `Exec.history` is the same induction for a property of the state and of
the history behind it.  `Exec.length_le` bounds the number of steps by what each of
them uses up, and `Exec.queue` keeps the books of a queue.  `Simulation.exec` moves an
execution of one machine to another one that it refines, where a step may be matched
by no step at all, and `Exec.seen` does so where it is known which step that is.
-/
import Mathlib.Data.List.Basic
import Mathlib.Tactic.Common

namespace Machines

/-- A machine over states `σ`, events `ε` and outputs `ω`. -/
structure Machine (σ ε ω : Type*) where
  init : σ → Prop
  step : σ → ε → Option (σ × ω)

/-- One step of an execution, with the states around it. -/
structure Step (σ ε ω : Type*) where
  pre : σ
  ev : ε
  post : σ
  out : ω

variable {σ ε ω : Type*} {m : Machine σ ε ω}

/-- Executions from `s₀`; the history is newest first. -/
inductive Exec (m : Machine σ ε ω) (s₀ : σ) : List (Step σ ε ω) → σ → Prop
  | nil : Exec m s₀ [] s₀
  | snoc {hist : List (Step σ ε ω)} {s s' : σ} {e : ε} {o : ω} (h : Exec m s₀ hist s)
      (hs : m.step s e = some (s', o)) : Exec m s₀ (⟨s, e, s', o⟩ :: hist) s'

/-- An execution that starts where the machine starts. -/
def Run (m : Machine σ ε ω) (hist : List (Step σ ε ω)) (s : σ) : Prop :=
  ∃ s₀, m.init s₀ ∧ Exec m s₀ hist s

theorem Run.snoc {hist : List (Step σ ε ω)} {s s' : σ} {e : ε} {o : ω} (h : Run m hist s)
    (hs : m.step s e = some (s', o)) : Run m (⟨s, e, s', o⟩ :: hist) s' := by
  obtain ⟨s₀, h₀, hx⟩ := h
  exact ⟨s₀, h₀, hx.snoc hs⟩

/-- Feeding a list of events, oldest first. -/
def exec (m : Machine σ ε ω) : σ → List ε → List (Step σ ε ω) → Option (List (Step σ ε ω) × σ)
  | s, [], hist => some (hist, s)
  | s, e :: es, hist =>
      match m.step s e with
      | none => none
      | some (s', o) => exec m s' es (⟨s, e, s', o⟩ :: hist)

/-- What `exec` computes is an execution. -/
theorem exec_sound (es : List ε) :
    ∀ {s₀ s s' : σ} {hist hist' : List (Step σ ε ω)}, Exec m s₀ hist s →
      exec m s es hist = some (hist', s') → Exec m s₀ hist' s' := by
  induction es with
  | nil =>
      intro s₀ s s' hist hist' h he
      simp only [exec, Option.some.injEq, Prod.mk.injEq] at he
      obtain ⟨rfl, rfl⟩ := he
      exact h
  | cons e es ih =>
      intro s₀ s s' hist hist' h he
      rw [exec] at he
      split at he
      · simp at he
      · rename_i s₁ o hs
        exact ih (h.snoc hs) he

/-! ### Invariants -/

/-- What every allowed step preserves, every allowed execution preserves. -/
theorem Exec.invariant {s₀ s : σ} {hist : List (Step σ ε ω)} (Inv : σ → Prop)
    (ok : Step σ ε ω → Prop) (h₀ : Inv s₀)
    (hstep : ∀ s e s' o, Inv s → m.step s e = some (s', o) → ok ⟨s, e, s', o⟩ → Inv s')
    (h : Exec m s₀ hist s) (hok : ∀ st ∈ hist, ok st) : Inv s := by
  induction h with
  | nil => exact h₀
  | snoc _ hs ih =>
      exact hstep _ _ _ _ (ih fun st hst => hok st (List.mem_cons_of_mem _ hst)) hs
        (hok _ List.mem_cons_self)

/-- The same for a property of the state together with its past. -/
theorem Exec.history {s₀ s : σ} {hist : List (Step σ ε ω)}
    (P : List (Step σ ε ω) → σ → Prop) (ok : Step σ ε ω → Prop) (h₀ : P [] s₀)
    (hstep : ∀ hist s e s' o, P hist s → m.step s e = some (s', o) → ok ⟨s, e, s', o⟩ →
      P (⟨s, e, s', o⟩ :: hist) s')
    (h : Exec m s₀ hist s) (hok : ∀ st ∈ hist, ok st) : P hist s := by
  induction h with
  | nil => exact h₀
  | snoc _ hs ih =>
      exact hstep _ _ _ _ _ (ih fun st hst => hok st (List.mem_cons_of_mem _ hst)) hs
        (hok _ List.mem_cons_self)

/-- Steps that each use something up are no more than there was to use. -/
theorem Exec.length_le {s₀ s : σ} {hist : List (Step σ ε ω)} (Inv : σ → Prop)
    (ok : Step σ ε ω → Prop) (work : σ → Nat) (h₀ : Inv s₀)
    (hstep : ∀ s e s' o, Inv s → m.step s e = some (s', o) → ok ⟨s, e, s', o⟩ →
      Inv s' ∧ work s' < work s)
    (h : Exec m s₀ hist s) (hok : ∀ st ∈ hist, ok st) : Inv s ∧ hist.length + work s ≤ work s₀ := by
  induction h with
  | nil => exact ⟨h₀, by simp⟩
  | snoc _ hs ih =>
      obtain ⟨hinv, hle⟩ := ih fun st hst => hok st (List.mem_cons_of_mem _ hst)
      obtain ⟨hinv', hlt⟩ := hstep _ _ _ _ hinv hs (hok _ List.mem_cons_self)
      refine ⟨hinv', ?_⟩
      rw [List.length_cons]
      omega

/-- What was in a queue and what the steps put in comes out in this order, or is still there. -/
theorem Exec.queue {α : Type*} {s₀ s : σ} {hist : List (Step σ ε ω)} (queue : σ → List α)
    (put take : Step σ ε ω → List α) (h : Exec m s₀ hist s)
    (hstep : ∀ st ∈ hist, queue st.pre ++ put st = take st ++ queue st.post) :
    queue s₀ ++ hist.reverse.flatMap put = hist.reverse.flatMap take ++ queue s := by
  induction h with
  | nil => simp
  | @snoc hist s s' e o _ _ ih =>
      have hbefore := ih fun st hst => hstep st (List.mem_cons_of_mem _ hst)
      have hlast := hstep _ List.mem_cons_self
      dsimp only at hlast
      simp only [List.reverse_cons, List.flatMap_append, List.flatMap_cons, List.flatMap_nil,
        List.append_nil]
      rw [← List.append_assoc, hbefore, List.append_assoc, hlast, List.append_assoc]

/-- One execution after the other. -/
theorem Exec.append {s₀ s s' : σ} {hist later : List (Step σ ε ω)} (h : Exec m s₀ hist s)
    (h' : Exec m s later s') : Exec m s₀ (later ++ hist) s' := by
  induction h' with
  | nil => exact h
  | snoc _ hs ih => exact ih.snoc hs

/-- A step of an execution splits it into what came before and what came after. -/
theorem Exec.split {s₀ s : σ} {later earlier : List (Step σ ε ω)} {st : Step σ ε ω}
    (h : Exec m s₀ (later ++ st :: earlier) s) :
    Exec m s₀ earlier st.pre ∧ m.step st.pre st.ev = some (st.post, st.out) ∧
      Exec m st.post later s := by
  induction later generalizing s with
  | nil =>
      cases h with
      | snoc h hs => exact ⟨h, hs, .nil⟩
  | cons st' later ih =>
      cases h with
      | snoc h hs =>
          obtain ⟨h₁, h₂, h₃⟩ := ih h
          exact ⟨h₁, h₂, h₃.snoc hs⟩

theorem Run.split {s : σ} {later earlier : List (Step σ ε ω)} {st : Step σ ε ω}
    (h : Run m (later ++ st :: earlier) s) :
    Run m earlier st.pre ∧ m.step st.pre st.ev = some (st.post, st.out) ∧
      Exec m st.post later s := by
  obtain ⟨s₀, h₀, hx⟩ := h
  obtain ⟨h₁, h₂, h₃⟩ := hx.split
  exact ⟨⟨s₀, h₀, h₁⟩, h₂, h₃⟩

/-! ### Refinement

`R` relates the states of the two machines.  A step of `m` is either invisible to
`m'` or is one step of it; `ok` is what the concrete steps may assume and `ok'`
what the abstract ones guarantee.
-/

/-- A forward simulation of `m` by `m'`. -/
structure Simulation {σ' ε' ω' : Type*} (m : Machine σ ε ω) (m' : Machine σ' ε' ω')
    (ok : Step σ ε ω → Prop) (ok' : Step σ' ε' ω' → Prop) (R : σ → σ' → Prop) : Prop where
  init : ∀ s, m.init s → ∃ t, m'.init t ∧ R s t
  step : ∀ s t e s' o, R s t → m.step s e = some (s', o) → ok ⟨s, e, s', o⟩ →
    R s' t ∨ ∃ e' t' o', m'.step t e' = some (t', o') ∧ ok' ⟨t, e', t', o'⟩ ∧ R s' t'

theorem Simulation.exec {σ' ε' ω' : Type*} {m' : Machine σ' ε' ω'} {ok : Step σ ε ω → Prop}
    {ok' : Step σ' ε' ω' → Prop} {R : σ → σ' → Prop} (sim : Simulation m m' ok ok' R)
    {hist : List (Step σ ε ω)} {s : σ} (h : Run m hist s) (hok : ∀ st ∈ hist, ok st) :
    ∃ hist' t, Run m' hist' t ∧ (∀ st ∈ hist', ok' st) ∧ R s t := by
  obtain ⟨s₀, h₀, hx⟩ := h
  induction hx with
  | nil =>
      obtain ⟨t, ht, hR⟩ := sim.init _ h₀
      exact ⟨[], t, ⟨t, ht, .nil⟩, by simp, hR⟩
  | snoc _ hs ih =>
      obtain ⟨hist', t, hrun, hall, hR⟩ := ih fun st hst => hok st (List.mem_cons_of_mem _ hst)
      rcases sim.step _ _ _ _ _ hR hs (hok _ List.mem_cons_self) with hstay | hmove
      · exact ⟨hist', t, hrun, hall, hstay⟩
      · obtain ⟨e', t', o', hs', hok', hR'⟩ := hmove
        refine ⟨_, t', hrun.snoc hs', ?_, hR'⟩
        intro st hst
        rcases List.mem_cons.mp hst with rfl | hst
        · exact hok'
        · exact hall st hst

/--
An execution as another machine sees it: `see` finds the step of that machine, where there
is one.
-/
theorem Exec.seen {σ' ε' ω' : Type*} {m' : Machine σ' ε' ω'} {s₀ s : σ}
    {hist : List (Step σ ε ω)} (proj : σ → σ')
    (see : Step σ ε ω → Option (Step σ' ε' ω')) (h : Exec m s₀ hist s)
    (hnone : ∀ st, m.step st.pre st.ev = some (st.post, st.out) → see st = none →
      proj st.post = proj st.pre)
    (hsome : ∀ st st', m.step st.pre st.ev = some (st.post, st.out) → see st = some st' →
      st'.pre = proj st.pre ∧ st'.post = proj st.post ∧
        m'.step st'.pre st'.ev = some (st'.post, st'.out)) :
    Exec m' (proj s₀) (hist.filterMap see) (proj s) := by
  induction h with
  | nil => exact .nil
  | @snoc hist s s' e o _ hs ih =>
      cases hsee : see ⟨s, e, s', o⟩ with
      | none =>
          have hstay : proj s' = proj s := hnone ⟨s, e, s', o⟩ hs hsee
          rw [List.filterMap_cons_none hsee, hstay]
          exact ih
      | some st' =>
          obtain ⟨hpre, hpost, hstep⟩ := hsome ⟨s, e, s', o⟩ st' hs hsee
          rw [List.filterMap_cons_some hsee]
          obtain ⟨pre, ev, post, out⟩ := st'
          dsimp only at hpre hpost hstep
          subst hpre hpost
          exact ih.snoc hstep

end Machines
