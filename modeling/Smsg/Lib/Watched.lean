/-
Computations that are watched.

A watched computation writes down, in order, what it does, and gives a value or stops with
an error.  What it has written down by then stays.  `Every` says that all of it is allowed:
one computation behind another one is so if the first is, and the second is for the value
that the first gives (`every_bind`).  `result` forgets what was written down, and is the
computation that nobody watches (`result_bind`).
-/
import Mathlib.Data.List.Basic
import Mathlib.Tactic.Common

namespace Watching

/-- A computation of an `α` that writes down `ω`s and may stop with an `ε`. -/
structure Watched (ω ε : Type*) (α : Type*) where
  log : List ω
  result : Except ε α

namespace Watched

universe u

variable {ω ε : Type*} {α β : Type u}

/-- Nothing is done. -/
protected def pure (a : α) : Watched ω ε α := ⟨[], .ok a⟩

/-- One after the other, unless the first one stops. -/
protected def bind (p : Watched ω ε α) (f : α → Watched ω ε β) : Watched ω ε β :=
  match p.result with
  | .error e => ⟨p.log, .error e⟩
  | .ok a => ⟨p.log ++ (f a).log, (f a).result⟩

instance {ω ε : Type*} : Monad (Watched ω ε) where
  pure := Watched.pure
  bind := Watched.bind

/-- Something that cannot be watched. -/
def lift (r : Except ε α) : Watched ω ε α := ⟨[], r⟩

/-- Doing one thing. -/
def act (w : ω) (r : Except ε α) : Watched ω ε α := ⟨[w], r⟩

/-! ### The result -/

@[simp] theorem result_pure (a : α) : (pure a : Watched ω ε α).result = .ok a := rfl
@[simp] theorem result_lift (r : Except ε α) : (lift r : Watched ω ε α).result = r := rfl
@[simp] theorem result_act (w : ω) (r : Except ε α) : (act w r).result = r := rfl

@[simp] theorem result_bind (p : Watched ω ε α) (f : α → Watched ω ε β) :
    (p >>= f).result = p.result >>= fun a => (f a).result := by
  show (Watched.bind p f).result = _
  unfold Watched.bind
  cases p.result <;> rfl

/-- A thing done whose value is known. -/
theorem result_act_bind (w : ω) (a : α) (f : α → Watched ω ε β) :
    (act w (.ok a) >>= f).result = (f a).result := by
  rw [result_bind]
  rfl

@[simp] theorem result_ite (c : Prop) [Decidable c] (p q : Watched ω ε α) :
    (if c then p else q).result = if c then p.result else q.result := apply_ite _ _ _ _

/-! ### What was written down -/

/-- All that was written down is allowed. -/
def Every (P : ω → Prop) (p : Watched ω ε α) : Prop := ∀ w ∈ p.log, P w

variable {P : ω → Prop}

@[simp] theorem every_pure (a : α) : (pure a : Watched ω ε α).Every P := by
  intro w hw
  exact absurd hw (List.not_mem_nil)

@[simp] theorem every_lift (r : Except ε α) : (lift r : Watched ω ε α).Every P := by
  intro w hw
  exact absurd hw (List.not_mem_nil)

@[simp] theorem every_act (w : ω) (r : Except ε α) : (act w r).Every P ↔ P w := by
  simp [Every, act]

/-- The second computation only matters for what the first one gives. -/
theorem every_bind (p : Watched ω ε α) (f : α → Watched ω ε β) :
    (p >>= f).Every P ↔ p.Every P ∧ ∀ a, p.result = .ok a → (f a).Every P := by
  show (Watched.bind p f).Every P ↔ _
  unfold Watched.bind Every
  cases p.result with
  | error e => simp
  | ok a => simp [or_imp, forall_and]

theorem every_act_bind (w : ω) (a : α) (f : α → Watched ω ε β) :
    (act w (.ok a) >>= f).Every P ↔ P w ∧ (f a).Every P := by
  rw [every_bind, every_act]
  simp [act]

theorem every_ite (c : Prop) [Decidable c] (p q : Watched ω ε α) :
    (if c then p else q).Every P ↔ if c then p.Every P else q.Every P := by
  split <;> rfl

end Watched

end Watching
