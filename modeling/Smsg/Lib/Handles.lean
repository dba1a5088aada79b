/-
Handles that are opened, used and closed.

`replay` does what a system does with the handles of a program.  It stops when a handle is
opened that is open already, or when one is used or closed that is not.  So a trace that
is replayed to its end uses nothing after it has been closed and closes nothing twice,
and whatever is not in the set in the end has not been leaked.

`replay_exec` takes this from the steps of a machine to its executions.
-/
import Mathlib.Data.Finset.Basic
import Smsg.Lib.Machine

namespace Handles

open Machines

variable {H : Type*} [DecidableEq H]

inductive Op (H : Type*)
  | opens (h : H)
  | uses (h : H)
  | closes (h : H)

/-- The handles that are open after all this, unless one is misused. -/
def replay : Finset H → List (Op H) → Option (Finset H)
  | s, [] => some s
  | s, .opens h :: l => if h ∈ s then none else replay (insert h s) l
  | s, .uses h :: l => if h ∈ s then replay s l else none
  | s, .closes h :: l => if h ∈ s then replay (s.erase h) l else none

theorem replay_append (l l' : List (Op H)) :
    ∀ s, replay s (l ++ l') = (replay s l).bind fun s' => replay s' l' := by
  induction l with
  | nil => exact fun _ => rfl
  | cons op l ih =>
      intro s
      cases op with
      | opens h =>
          by_cases hs : h ∈ s
          · simp [replay, hs]
          · simp [replay, hs, ih]
      | uses h =>
          by_cases hs : h ∈ s
          · simp [replay, hs, ih]
          · simp [replay, hs]
      | closes h =>
          by_cases hs : h ∈ s
          · simp [replay, hs, ih]
          · simp [replay, hs]

/-- Using what is open leaves everything as it is. -/
theorem replay_uses {s : Finset H} {l : List (Op H)} (h : ∀ op ∈ l, ∃ h ∈ s, op = .uses h) :
    replay s l = some s := by
  induction l with
  | nil => rfl
  | cons op l ih =>
      obtain ⟨a, ha, rfl⟩ := h op List.mem_cons_self
      rw [replay, if_pos ha]
      exact ih fun op hop => h op (List.mem_cons_of_mem _ hop)

/-- A machine whose steps take care of their handles does so all along. -/
theorem replay_exec {σ ε ω : Type*} {m : Machine σ ε ω} {s₀ s : σ} {hist : List (Step σ ε ω)}
    (handles : σ → Finset H) (ops : Step σ ε ω → List (Op H)) (h : Exec m s₀ hist s)
    (hstep : ∀ st ∈ hist, replay (handles st.pre) (ops st) = some (handles st.post)) :
    replay (handles s₀) (hist.reverse.flatMap ops) = some (handles s) := by
  induction h with
  | nil => rfl
  | snoc _ _ ih =>
      rw [List.reverse_cons, List.flatMap_append, replay_append,
        ih fun st hst => hstep st (List.mem_cons_of_mem _ hst)]
      simpa using hstep _ List.mem_cons_self

end Handles
