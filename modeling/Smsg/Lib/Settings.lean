/-
Settings that are given one after the other.

A program goes through its options and stops at the first one that it does not like.  A
setting is what the last option gives that gives anything for it (`lastOr`).  When
every option that is accepted turns the settings of the options before it into those of
the options with it, what the program ends up with can be read off the whole list, and
there is a list for which it gets to its end just when each option is accepted where it
stands (`foldlM_settles`).
-/
import Mathlib.Data.List.Basic
import Mathlib.Data.List.Induction

namespace Settings

variable {σ α β ε : Type*}

/-- What the last option gives that gives anything, and otherwise the value from before. -/
def lastOr (gives : α → Option β) (l : List α) (b : β) : β := (l.filterMap gives).getLast?.getD b

@[simp] theorem lastOr_nil (gives : α → Option β) (b : β) : lastOr gives [] b = b := rfl

/-- One more option. -/
@[simp] theorem lastOr_concat (gives : α → Option β) (l : List α) (a : α) (b : β) :
    lastOr gives (l ++ [a]) b = (gives a).getD (lastOr gives l b) := by
  rw [lastOr, List.filterMap_append, List.filterMap_cons]
  cases gives a with
  | none => simp [lastOr]
  | some c => simp

/-- What holds of the value from before, and of all that the options give. -/
theorem lastOr_of_forall {P : β → Prop} {gives : α → Option β} {l : List α} {b : β} (hb : P b)
    (h : ∀ a ∈ l, ∀ c ∈ gives a, P c) : P (lastOr gives l b) := by
  rw [lastOr]
  cases hlast : (l.filterMap gives).getLast? with
  | none => exact hb
  | some c =>
      obtain ⟨a, ha, hc⟩ := List.mem_filterMap.mp (List.mem_of_getLast? hlast)
      exact h a ha c hc

/-- Every option is accepted behind those that are in front of it. -/
def EachOk (ok : List α → α → Prop) (l : List α) : Prop :=
  ∀ pre a post, l = pre ++ a :: post → ok pre a

theorem eachOk_nil (ok : List α → α → Prop) : EachOk ok [] := by
  intro pre a post h
  exact absurd h.symm (List.append_ne_nil_of_right_ne_nil pre (List.cons_ne_nil a post))

theorem EachOk.of_mem {ok : List α → α → Prop} {l : List α} {a : α} (h : EachOk ok l)
    (ha : a ∈ l) : ∃ pre, ok pre a := by
  obtain ⟨pre, post, heq⟩ := List.append_of_mem ha
  exact ⟨pre, h pre a post heq⟩

theorem eachOk_concat {ok : List α → α → Prop} {l : List α} {a : α} :
    EachOk ok (l ++ [a]) ↔ EachOk ok l ∧ ok l a := by
  constructor
  · intro h
    refine ⟨fun pre b post hl => h pre b (post ++ [a]) ?_, h l a [] rfl⟩
    rw [hl, List.append_assoc, List.cons_append]
  · intro ⟨hl, ha⟩ pre b post heq
    rcases List.eq_nil_or_concat post with rfl | ⟨post', c, rfl⟩
    · obtain ⟨rfl, hb⟩ := List.append_inj' heq rfl
      obtain rfl := (List.cons.inj hb).1
      exact ha
    · rw [List.concat_eq_append, ← List.cons_append, ← List.append_assoc] at heq
      exact hl pre b post' (List.append_inj' heq rfl).1

/-- **Going through the options**, when one option does to the settings what it should. -/
theorem foldlM_settles {step : σ → α → Except ε σ} {spec : List α → σ}
    {ok : List α → α → Prop} (hstep : ∀ pre a s,
      step (spec pre) a = .ok s ↔ ok pre a ∧ s = spec (pre ++ [a])) (l : List α) (s : σ) :
    l.foldlM step (spec []) = .ok s ↔ EachOk ok l ∧ s = spec l := by
  induction l using List.reverseRecOn generalizing s with
  | nil =>
      rw [List.foldlM_nil]
      exact ⟨fun h => ⟨eachOk_nil ok, (Except.ok.inj h).symm⟩, fun h => by rw [h.2]; rfl⟩
  | append_singleton l a ih =>
      rw [List.foldlM_append, eachOk_concat]
      have hlast : ∀ s', [a].foldlM step s' = step s' a := by
        intro s'
        rw [List.foldlM_cons]
        cases step s' a <;> rfl
      constructor
      · intro h
        cases hl : l.foldlM step (spec []) with
        | error e =>
            rw [hl] at h
            cases h
        | ok s' =>
            rw [hl] at h
            obtain ⟨heach, rfl⟩ := (ih s').mp hl
            obtain ⟨ha, hs⟩ := (hstep l a s).mp ((hlast _).symm.trans h)
            exact ⟨⟨heach, ha⟩, hs⟩
      · intro ⟨⟨heach, ha⟩, hs⟩
        rw [(ih (spec l)).mpr ⟨heach, rfl⟩]
        exact (hlast _).trans ((hstep l a s).mpr ⟨ha, hs⟩)

end Settings
