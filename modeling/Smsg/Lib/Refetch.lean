/-
A copy that is asked for again.

Somebody has a value, and somebody else keeps a copy of it.  Between the two there are
queues: one for requests, and one for messages, of which some say that the copy is out
of date and some bring the value as it was when they were sent.  The holder of the copy
sends a request for every message that says it is out of date.

The copy may be wrong for a while.  `Follows` is what can be said all the same: there is
a request under way, or a message that will cause one, or what is under way already
makes the copy right.  It is kept as long as every change of the value is told and every
request is answered with the value, so with nothing under way the copy is right
(`Follows.settled`).
-/
import Mathlib.Data.List.Basic
import Mathlib.Tactic.Common

namespace Refetch

/-- What a message is to the holder of the copy. -/
inductive Kind (V : Type*)
  /-- The copy is out of date. -/
  | stale
  /-- The value. -/
  | fresh (v : V)
  | other

variable {V : Type*}

/-- The copy after a message. -/
def Kind.keep (k : Kind V) (v : V) : V :=
  match k with
  | fresh w => w
  | _ => v

/-- The copy after messages, the oldest first. -/
def keepAll (ks : List (Kind V)) (v : V) : V := ks.foldl (fun v k => k.keep v) v

@[simp] theorem keepAll_nil (v : V) : keepAll [] v = v := rfl

@[simp] theorem keepAll_cons (k : Kind V) (ks : List (Kind V)) (v : V) :
    keepAll (k :: ks) v = keepAll ks (k.keep v) := rfl

theorem keepAll_append (ks ks' : List (Kind V)) (v : V) :
    keepAll (ks ++ ks') v = keepAll ks' (keepAll ks v) :=
  List.foldl_append

/-- The message says nothing, or it brings `v`. -/
def Kind.Keeps (v : V) (k : Kind V) : Prop := k = .other ∨ k = .fresh v

/-- Messages that bring nothing but the value of the copy. -/
theorem keepAll_keeps {v : V} {ks : List (Kind V)} (h : ∀ k ∈ ks, k.Keeps v) :
    keepAll ks v = v := by
  induction ks with
  | nil => rfl
  | cons k ks ih =>
      have hk : k.keep v = v := by
        rcases h k List.mem_cons_self with hk | hk <;> rw [hk] <;> rfl
      rw [keepAll_cons, hk]
      exact ih fun k' hk' => h k' (List.mem_cons_of_mem _ hk')

/-- The last one that brings a value decides. -/
theorem keepAll_fresh {v : V} {ks : List (Kind V)} (h : ∀ k ∈ ks, k.Keeps v)
    (hfresh : .fresh v ∈ ks) (w : V) : keepAll ks w = v := by
  obtain ⟨front, back, rfl⟩ := List.append_of_mem hfresh
  rw [keepAll_append, keepAll_cons]
  exact keepAll_keeps fun k hk =>
    h k (List.mem_append_right _ (List.mem_cons_of_mem _ hk))

/--
The copy gets to be `value`: a request is under way, or a message that causes one, or
the messages under way lead to it.
-/
def Follows (asked : Prop) (copy : V) (down : List (Kind V)) (value : V) : Prop :=
  asked ∨ .stale ∈ down ∨ keepAll down copy = value

variable {asked asked' : Prop} {copy value value' : V} {down sent : List (Kind V)} {k : Kind V}

/-- **Nothing is under way: the copy is right.** -/
theorem Follows.settled (h : Follows asked copy [] value) (hasked : ¬ asked) : copy = value := by
  rcases h with h | h | h
  · exact absurd h hasked
  · simp at h
  · exact h

theorem Follows.mono (h : Follows asked copy down value) (hasked : asked → asked') :
    Follows asked' copy down value :=
  h.imp_left hasked

/-- What is sent when the value changes, or stays as it is. -/
theorem Follows.send (h : Follows asked copy down value)
    (hsent : .stale ∈ sent ∨ (value' = value ∧ ∀ k ∈ sent, k.Keeps value)) :
    Follows asked copy (down ++ sent) value' := by
  rcases hsent with hstale | ⟨rfl, hkeeps⟩
  · exact Or.inr (Or.inl (List.mem_append_right _ hstale))
  · refine h.imp_right fun h => ?_
    rcases h with h | h
    · exact Or.inl (List.mem_append_left _ h)
    · right
      rw [keepAll_append, h]
      exact keepAll_keeps hkeeps

/-- A request is answered. -/
theorem Follows.answer (hkeeps : ∀ k ∈ sent, k.Keeps value) (hfresh : .fresh value ∈ sent) :
    Follows asked copy (down ++ sent) value := by
  refine Or.inr (Or.inr ?_)
  rw [keepAll_append]
  exact keepAll_fresh hkeeps hfresh _

/-- The holder reads a message, and asks again if it is to. -/
theorem Follows.read (h : Follows asked copy (k :: down) value)
    (hask : asked ∨ k = .stale → asked') : Follows asked' (k.keep copy) down value := by
  rcases h with h | h | h
  · exact Or.inl (hask (Or.inl h))
  · rcases List.mem_cons.mp h with h | h
    · exact Or.inl (hask (Or.inr h.symm))
    · exact Or.inr (Or.inl h)
  · exact Or.inr (Or.inr h)

end Refetch
