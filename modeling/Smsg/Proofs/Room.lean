/-
What holds in a room.

Flags only ever take six values (`Room.Legal`), so nobody is banned and present at
once, and operators are present.  As long as nobody is given a nick that is in use, no
two users in the room answer to the same one (`Room.NicksUnique`); as long as nobody
joins on a connection that is in use, no two share one (`Room.Apart`).
-/
import Smsg.Room

namespace Smsg

open Machines

/-! ### Flags -/

/-- The values that the flags of a user take. -/
def legalFlags : List Flags :=
  [0, udcFlagBanned, udcFlagPresent, udcFlagPresent ||| udcFlagOperator,
    udcFlagPresent ||| udcFlagAway, udcFlagPresent ||| udcFlagOperator ||| udcFlagAway]

/-- Everybody's flags are legal. -/
def Room.Legal {User Nick : Type*} (r : Room User Nick) : Prop :=
  ∀ v s, r v = some s → s.flags ∈ legalFlags

theorem legal_flags : ∀ f ∈ legalFlags,
    clearFlags sessionFlags f ∈ legalFlags ∧
      clearFlags sessionFlags (setFlags udcFlagBanned f) ∈ legalFlags ∧
      (f &&& udcFlagPresent ≠ 0 → toggleAway f ∈ legalFlags ∧
        setFlags udcFlagOperator f ∈ legalFlags ∧ clearFlags udcFlagOperator f ∈ legalFlags ∧
        clearFlags udcFlagBanned f ∈ legalFlags) := by
  simp [legalFlags, clearFlags, setFlags, toggleAway, sessionFlags, udcFlagOperator, udcFlagAway,
    udcFlagPresent, udcFlagBanned, udcFlagSuperuser]

section

variable {User Nick : Type*} [DecidableEq User] {fd : Int} {r : Room User Nick}
  {act : Act User Nick}

/-- The seat of the subject, behind an act that changes flags only. -/
private theorem legal_modify (hr : r.Legal) {user : User} {f : Flags → Flags}
    (h : ∀ s, r user = some s → f s.flags ∈ legalFlags) :
    Room.Legal (r.modify user (·.mapFlags f)) := by
  intro v s hs
  by_cases hv : v = user
  · subst hv
    rw [Room.modify_self, Option.map_eq_some_iff] at hs
    obtain ⟨s₀, hs₀, rfl⟩ := hs
    exact h s₀ hs₀
  · rw [Room.modify_ne _ hv] at hs
    exact hr v s hs

theorem Room.Legal.present_ne_zero {s : Seat Nick} (h : s.present) :
    s.flags &&& udcFlagPresent ≠ 0 := by
  simpa [Seat.present, Seat.has] using h

/-- **Acts keep flags legal.** -/
theorem Room.Legal.apply (hr : r.Legal) (hp : act.permits fd r) : (act.apply fd r).Legal := by
  have hkeep : ∀ {user : User} {s : Seat Nick}, r user = some s → s.present →
      toggleAway s.flags ∈ legalFlags ∧ setFlags udcFlagOperator s.flags ∈ legalFlags ∧
        clearFlags udcFlagOperator s.flags ∈ legalFlags ∧
        clearFlags udcFlagBanned s.flags ∈ legalFlags :=
    fun hs hpres => (legal_flags _ (hr _ _ hs)).2.2 (present_ne_zero hpres)
  cases act with
  | idle => exact hr
  | enrol user =>
      intro v s hs
      by_cases hv : v = user
      · subst hv
        obtain rfl : Seat.unused = s := by simpa [Act.apply] using hs
        show (0 : Flags) ∈ legalFlags
        decide +kernel
      · exact hr v s (by simpa [Act.apply, hv] using hs)
  | join user nick =>
      intro v s hs
      by_cases hv : v = user
      · subst hv
        obtain rfl : (⟨fd, nick, udcFlagPresent⟩ : Seat Nick) = s := by simpa [Act.apply] using hs
        show udcFlagPresent ∈ legalFlags
        decide +kernel
      · exact hr v s (by simpa [Act.apply, hv] using hs)
  | leave user => exact legal_modify hr fun s hs => (legal_flags _ (hr _ _ hs)).1
  | kick user => exact legal_modify hr fun s hs => (legal_flags _ (hr _ _ hs)).1
  | ban user => exact legal_modify hr fun s hs => (legal_flags _ (hr _ _ hs)).2.1
  | rename user nick =>
      intro v s hs
      by_cases hv : v = user
      · subst hv
        simp only [Act.apply, modify_self, Option.map_eq_some_iff] at hs
        obtain ⟨s₀, hs₀, rfl⟩ := hs
        exact hr v s₀ hs₀
      · exact hr v s (by simpa [Act.apply, hv] using hs)
  | away user => exact legal_modify hr fun s hs => (hkeep hs (hp.present hs)).1
  | oper user => exact legal_modify hr fun s hs => (hkeep hs (hp.present hs)).2.1
  | op user => exact legal_modify hr fun s hs => (hkeep hs (hp.2.present hs)).2.1
  | deop user => exact legal_modify hr fun s hs => (hkeep hs (hp.2.present hs)).2.2.1
  | unban user => exact legal_modify hr fun s hs => (hkeep hs (hp.2.present hs)).2.2.2

/-! ### Nicks -/

/-- Those in the room have a connection and a nick, and no two of them the same nick. -/
structure Room.NicksUnique (r : Room User Nick) : Prop where
  fd : ∀ v s, r v = some s → s.present → 0 ≤ s.fd
  nick : ∀ v s, r v = some s → s.present → s.nick ≠ none
  unique : ∀ v w s t, r v = some s → r w = some t → s.present → t.present → s.nick = t.nick →
    v = w

omit [DecidableEq User] in
/-- Seats that keep connection and nick, and are not taken anew, keep nicks unique. -/
theorem Room.NicksUnique.mono {r' : Room User Nick} (hr : r.NicksUnique)
    (h : ∀ v s', r' v = some s' → s'.present →
      ∃ s, r v = some s ∧ s.present ∧ s'.fd = s.fd ∧ s'.nick = s.nick) : r'.NicksUnique where
  fd v s' hs' hp' := by
    obtain ⟨s, hs, hp, hfd, -⟩ := h v s' hs' hp'
    rw [hfd]
    exact hr.fd v s hs hp
  nick v s' hs' hp' := by
    obtain ⟨s, hs, hp, -, hnick⟩ := h v s' hs' hp'
    rw [hnick]
    exact hr.nick v s hs hp
  unique v w s' t' hs' ht' hps' hpt' heq := by
    obtain ⟨s, hs, hps, -, hsn⟩ := h v s' hs' hps'
    obtain ⟨t, ht, hpt, -, htn⟩ := h w t' ht' hpt'
    exact hr.unique v w s t hs ht hps hpt (by rw [← hsn, ← htn, heq])

/-- Somebody who takes a nick that was free. -/
theorem Room.NicksUnique.take {r' : Room User Nick} {user : User} {seat : Seat Nick} {nick : Nick}
    (hr : r.NicksUnique) (hfree : r.FreeNick nick) (hself : r' user = some seat)
    (hfd : 0 ≤ seat.fd) (hnick : seat.nick = some nick) (hother : ∀ v, v ≠ user → r' v = r v) :
    r'.NicksUnique := by
  have hseat : ∀ s, r' user = some s → s = seat := by
    intro s hs
    rw [hself] at hs
    exact (Option.some.inj hs).symm
  have hne : ∀ w t, w ≠ user → r' w = some t → t.present → t.nick ≠ some nick := by
    intro w t hw ht hp
    rw [hother w hw] at ht
    exact hfree w t ht hp (hr.fd w t ht hp)
  refine ⟨?_, ?_, ?_⟩
  · intro v s hs hp
    by_cases hv : v = user
    · subst hv
      rw [hseat s hs]
      exact hfd
    · rw [hother v hv] at hs
      exact hr.fd v s hs hp
  · intro v s hs hp
    by_cases hv : v = user
    · subst hv
      rw [hseat s hs, hnick]
      simp
    · rw [hother v hv] at hs
      exact hr.nick v s hs hp
  · intro v w s t hs ht hps hpt heq
    by_cases hv : v = user <;> by_cases hw : w = user
    · rw [hv, hw]
    · subst hv
      rw [hseat s hs, hnick] at heq
      exact absurd heq.symm (hne w t hw ht hpt)
    · subst hw
      rw [hseat t ht, hnick] at heq
      exact absurd heq (hne v s hv hs hps)
    · rw [hother v hv] at hs
      rw [hother w hw] at ht
      exact hr.unique v w s t hs ht hps hpt heq

/-- A change of flags that does not set some of them. -/
theorem Room.has_modify {user v : User} {b : Flags} {f : Flags → Flags}
    (h : ∀ g, f g &&& b ≠ 0 → g &&& b ≠ 0) {t' : Seat Nick}
    (ht' : r.modify user (·.mapFlags f) v = some t') (hb : t'.has b = true) :
    ∃ t, r v = some t ∧ t.has b = true ∧ t'.fd = t.fd ∧ t'.nick = t.nick := by
  by_cases hv : v = user
  · subst hv
    rw [Room.modify_self, Option.map_eq_some_iff] at ht'
    obtain ⟨t, ht, rfl⟩ := ht'
    refine ⟨t, ht, ?_, rfl, rfl⟩
    have hbit := h t.flags (by simpa [Seat.has] using hb)
    simpa [Seat.has] using hbit
  · rw [Room.modify_ne _ hv] at ht'
    exact ⟨t', ht', hb, rfl, rfl⟩

private theorem unique_flags (hr : r.NicksUnique) {user : User} {f : Flags → Flags}
    (h : ∀ g, f g &&& udcFlagPresent ≠ 0 → g &&& udcFlagPresent ≠ 0) :
    Room.NicksUnique (r.modify user (·.mapFlags f)) :=
  hr.mono fun _ _ ht' hpres => Room.has_modify h ht' hpres

theorem clearFlags_bit {b : Flags} (f g : Flags) (h : clearFlags f g &&& b ≠ 0) : g &&& b ≠ 0 := by
  intro hb
  apply h
  rw [clearFlags, BitVec.and_assoc, BitVec.and_comm (~~~f), ← BitVec.and_assoc, hb]
  exact BitVec.zero_and

theorem setFlags_bit {f b : Flags} (hf : f &&& b = 0) (g : Flags) (h : setFlags f g &&& b ≠ 0) :
    g &&& b ≠ 0 := by
  rw [setFlags, BitVec.and_or_distrib_right, hf] at h
  simpa using h

theorem toggleAway_bit {b : Flags} (hb : udcFlagAway &&& b = 0) (g : Flags)
    (h : toggleAway g &&& b ≠ 0) : g &&& b ≠ 0 := by
  unfold toggleAway at h
  split at h
  · exact clearFlags_bit _ g h
  · exact setFlags_bit hb g h

/-- Only a join lets somebody in. -/
theorem Act.apply_present {v : User} {t' : Seat Nick} (ht' : act.apply fd r v = some t')
    (hpres : t'.present) :
    (∃ nick, act = .join v nick ∧ t' = ⟨fd, nick, udcFlagPresent⟩) ∨
      ∃ t, r v = some t ∧ t.present ∧ t'.fd = t.fd := by
  have hkeep : ∀ {user : User} {f : Flags → Flags},
      (∀ g, f g &&& udcFlagPresent ≠ 0 → g &&& udcFlagPresent ≠ 0) →
      r.modify user (·.mapFlags f) v = some t' → ∃ t, r v = some t ∧ t.present ∧ t'.fd = t.fd := by
    intro user f hf h
    obtain ⟨t, ht, hp, hfd, -⟩ := Room.has_modify hf h hpres
    exact ⟨t, ht, hp, hfd⟩
  cases act with
  | idle => exact Or.inr ⟨t', ht', hpres, rfl⟩
  | enrol user =>
      by_cases hv : v = user
      · subst hv
        rw [Act.apply, Room.set_self, Option.some.injEq] at ht'
        exact absurd hpres (ht' ▸ Seat.not_present_unused)
      · rw [Act.apply, Room.set_ne _ hv] at ht'
        exact Or.inr ⟨t', ht', hpres, rfl⟩
  | join user nick =>
      by_cases hv : v = user
      · subst hv
        rw [Act.apply, Room.set_self, Option.some.injEq] at ht'
        exact Or.inl ⟨nick, rfl, ht'.symm⟩
      · rw [Act.apply, Room.set_ne _ hv] at ht'
        exact Or.inr ⟨t', ht', hpres, rfl⟩
  | rename user nick =>
      refine Or.inr ?_
      by_cases hv : v = user
      · subst hv
        simp only [Act.apply, Room.modify_self, Option.map_eq_some_iff] at ht'
        obtain ⟨t, ht, rfl⟩ := ht'
        exact ⟨t, ht, hpres, rfl⟩
      · rw [Act.apply, Room.modify_ne _ hv] at ht'
        exact ⟨t', ht', hpres, rfl⟩
  | leave user => exact Or.inr (hkeep (clearFlags_bit _) ht')
  | kick user => exact Or.inr (hkeep (clearFlags_bit _) ht')
  | deop user => exact Or.inr (hkeep (clearFlags_bit _) ht')
  | unban user => exact Or.inr (hkeep (clearFlags_bit _) ht')
  | oper user => exact Or.inr (hkeep (setFlags_bit (by decide)) ht')
  | op user => exact Or.inr (hkeep (setFlags_bit (by decide)) ht')
  | away user => exact Or.inr (hkeep (toggleAway_bit (by decide)) ht')
  | ban user =>
      refine Or.inr (hkeep (fun g h => ?_) ht')
      exact setFlags_bit (by decide) g (clearFlags_bit _ _ h)

/-- Only the two acts for it make an operator. -/
theorem Act.apply_operator {v : User} {t' : Seat Nick} (ht' : act.apply fd r v = some t')
    (hoper : t'.has udcFlagOperator = true) :
    (act = .oper v ∨ act = .op v) ∨ ∃ t, r v = some t ∧ t.has udcFlagOperator = true := by
  have hkeep : ∀ {user : User} {f : Flags → Flags},
      (∀ g, f g &&& udcFlagOperator ≠ 0 → g &&& udcFlagOperator ≠ 0) →
      r.modify user (·.mapFlags f) v = some t' →
      ∃ t, r v = some t ∧ t.has udcFlagOperator = true := by
    intro user f hf h
    obtain ⟨t, ht, ho, -⟩ := Room.has_modify hf h hoper
    exact ⟨t, ht, ho⟩
  have hset : ∀ {user : User} {t₀ : Seat Nick}, t₀.has udcFlagOperator = false →
      r.set user t₀ v = some t' → ∃ t, r v = some t ∧ t.has udcFlagOperator = true := by
    intro user t₀ ht₀ h
    by_cases hv : v = user
    · rw [hv, Room.set_self, Option.some.injEq] at h
      rw [h, hoper] at ht₀
      simp at ht₀
    · rw [Room.set_ne _ hv] at h
      exact ⟨t', h, hoper⟩
  cases act with
  | idle => exact Or.inr ⟨t', ht', hoper⟩
  | enrol user => exact Or.inr (hset (by simp [Seat.has, Seat.unused]) ht')
  | join user nick =>
      exact Or.inr (hset (by simp [Seat.has, udcFlagPresent, udcFlagOperator]) ht')
  | rename user nick =>
      refine Or.inr ?_
      by_cases hv : v = user
      · subst hv
        simp only [Act.apply, Room.modify_self, Option.map_eq_some_iff] at ht'
        obtain ⟨t, ht, rfl⟩ := ht'
        exact ⟨t, ht, hoper⟩
      · rw [Act.apply, Room.modify_ne _ hv] at ht'
        exact ⟨t', ht', hoper⟩
  | leave user => exact Or.inr (hkeep (clearFlags_bit _) ht')
  | kick user => exact Or.inr (hkeep (clearFlags_bit _) ht')
  | deop user => exact Or.inr (hkeep (clearFlags_bit _) ht')
  | unban user => exact Or.inr (hkeep (clearFlags_bit _) ht')
  | away user => exact Or.inr (hkeep (toggleAway_bit (by decide)) ht')
  | ban user =>
      refine Or.inr (hkeep (fun g h => ?_) ht')
      exact setFlags_bit (by decide) g (clearFlags_bit _ _ h)
  | oper user =>
      by_cases hv : v = user
      · exact Or.inl (Or.inl (by rw [hv]))
      · rw [Act.apply, Room.modify_ne _ hv] at ht'
        exact Or.inr ⟨t', ht', hoper⟩
  | op user =>
      by_cases hv : v = user
      · exact Or.inl (Or.inr (by rw [hv]))
      · rw [Act.apply, Room.modify_ne _ hv] at ht'
        exact Or.inr ⟨t', ht', hoper⟩

omit [DecidableEq User] in
theorem Room.Legal.not_banned {v : User} {t : Seat Nick} (hr : r.Legal) (ht : r v = some t)
    (hpres : t.present) : t.has udcFlagBanned = false := by
  have hlegal := hr v t ht
  have hflags : t.flags &&& udcFlagPresent ≠ 0 := present_ne_zero hpres
  have hall : ∀ f ∈ legalFlags, f &&& udcFlagPresent ≠ 0 → f &&& udcFlagBanned = 0 := by
    simp [legalFlags, udcFlagOperator, udcFlagAway, udcFlagPresent, udcFlagBanned]
  simpa [Seat.has] using hall t.flags hlegal hflags

omit [DecidableEq User] in
theorem Room.Legal.operator_present {v : User} {t : Seat Nick} (hr : r.Legal) (ht : r v = some t)
    (hoper : t.has udcFlagOperator = true) : t.present := by
  have hlegal := hr v t ht
  have hflags : t.flags &&& udcFlagOperator ≠ 0 := by simpa [Seat.has] using hoper
  have hall : ∀ f ∈ legalFlags, f &&& udcFlagOperator ≠ 0 → f &&& udcFlagPresent ≠ 0 := by
    simp [legalFlags, udcFlagOperator, udcFlagAway, udcFlagPresent, udcFlagBanned]
  simpa [Seat.present, Seat.has] using hall t.flags hlegal hflags

/-- A ban leaves its mark. -/
theorem Act.apply_ban {v : User} {t : Seat Nick} (fd : Int) (ht : r v = some t) :
    ∃ t', (Act.ban v).apply fd r v = some t' ∧ t'.has udcFlagBanned = true := by
  refine ⟨t.mapFlags fun f => clearFlags sessionFlags (setFlags udcFlagBanned f), ?_, ?_⟩
  · rw [Act.apply, Room.modify_self, ht]
    rfl
  · have hkeep : ~~~sessionFlags &&& udcFlagBanned = udcFlagBanned := by decide
    have hbit : t.flags &&& udcFlagBanned ||| udcFlagBanned ≠ 0 := by
      intro hzero
      have hself := congrArg (· &&& udcFlagBanned) hzero
      simp [BitVec.and_or_distrib_right, udcFlagBanned] at hself
    simp only [Seat.has, Seat.mapFlags_flags, clearFlags, setFlags, BitVec.and_assoc, hkeep,
      BitVec.and_or_distrib_right, BitVec.and_self, bne_iff_ne]
    exact hbit

/-- Banned users stay banned: nobody can find them to take the ban back. -/
theorem Act.apply_banned {v : User} {t : Seat Nick} (hr : r.Legal) (hp : act.permits fd r)
    (ht : r v = some t) (hban : t.has udcFlagBanned = true) :
    ∃ t', act.apply fd r v = some t' ∧ t'.has udcFlagBanned = true := by
  by_cases hsub : act.subject = some v
  · have hout : ¬ t.present := by
      intro hpres
      rw [hr.not_banned ht hpres] at hban
      simp at hban
    have hsits : ¬ r.Sits v fd := fun h => hout (h.present ht)
    have hnamed : ¬ r.Named v := fun h => hout (h.present ht)
    have hset : ∀ f : Flags → Flags, f t.flags &&& udcFlagBanned ≠ 0 →
        ∃ t', r.modify v (·.mapFlags f) v = some t' ∧ t'.has udcFlagBanned = true := by
      intro f hf
      exact ⟨t.mapFlags f, by rw [Room.modify_self, ht]; rfl, by simpa [Seat.has] using hf⟩
    have hclear : ∀ g : Flags, clearFlags sessionFlags g &&& udcFlagBanned = g &&& udcFlagBanned := by
      intro g
      rw [clearFlags, BitVec.and_assoc,
        show ~~~sessionFlags &&& udcFlagBanned = udcFlagBanned by decide]
    have hbit : t.flags &&& udcFlagBanned ≠ 0 := by simpa [Seat.has] using hban
    cases act with
    | idle => simp [subject] at hsub
    | enrol user =>
        obtain rfl : user = v := Option.some.inj hsub
        have hnone : r user = none := hp
        rw [ht] at hnone
        simp at hnone
    | join user nick =>
        obtain rfl : user = v := Option.some.inj hsub
        exact absurd hban (hp.2 t ht).1
    | leave user =>
        obtain rfl : user = v := Option.some.inj hsub
        exact hset _ (by rw [hclear]; exact hbit)
    | kick user =>
        obtain rfl : user = v := Option.some.inj hsub
        exact hset _ (by rw [hclear]; exact hbit)
    | ban user =>
        obtain rfl : user = v := Option.some.inj hsub
        exact apply_ban fd ht
    | rename user nick =>
        obtain rfl : user = v := Option.some.inj hsub
        exact absurd hp hsits
    | away user =>
        obtain rfl : user = v := Option.some.inj hsub
        exact absurd hp hsits
    | oper user =>
        obtain rfl : user = v := Option.some.inj hsub
        exact absurd hp hsits
    | op user =>
        obtain rfl : user = v := Option.some.inj hsub
        exact absurd hp.2 hnamed
    | deop user =>
        obtain rfl : user = v := Option.some.inj hsub
        exact absurd hp.2 hnamed
    | unban user =>
        obtain rfl : user = v := Option.some.inj hsub
        exact absurd hp.2 hnamed
  · exact ⟨t, by rw [apply_ne hsub, ht], hban⟩

/-- Those who leave and those who are thrown out are not in the room any more. -/
theorem Act.apply_left {v : User} {t : Seat Nick}
    (hact : act = .leave v ∨ act = .kick v ∨ act = .ban v) (ht : act.apply fd r v = some t) :
    ¬ t.present := by
  have hgone : ∀ f : Flags, clearFlags sessionFlags f &&& udcFlagPresent = 0 := by
    intro f
    rw [clearFlags, BitVec.and_assoc,
      show ~~~sessionFlags &&& udcFlagPresent = (0 : Flags) by decide]
    exact BitVec.and_zero
  have hclear : ∀ g : Flags → Flags,
      r.modify v (·.mapFlags fun f => clearFlags sessionFlags (g f)) v = some t → ¬ t.present := by
    intro g h hpres
    rw [Room.modify_self, Option.map_eq_some_iff] at h
    obtain ⟨t₀, -, rfl⟩ := h
    simp [Seat.present, Seat.has, hgone] at hpres
  rcases hact with rfl | rfl | rfl
  · exact hclear id ht
  · exact hclear id ht
  · exact hclear _ ht

/-- No two users in the room share a connection. -/
def Room.Apart (r : Room User Nick) : Prop :=
  ∀ v w s t, r v = some s → r w = some t → s.present → t.present → s.fd = t.fd → v = w

/-- Who joins on a connection of its own keeps it so. -/
theorem Room.Apart.apply (hr : r.Apart)
    (hjoin : ∀ v nick, act = .join v nick → ∀ w t, r w = some t → t.present → t.fd ≠ fd) :
    (act.apply fd r).Apart := by
  intro v w s t hs ht hsp htp hfd
  rcases Act.apply_present hs hsp with ⟨nick, hact, rfl⟩ | ⟨s₀, hs₀, hsp₀, hsfd⟩
  · rcases Act.apply_present ht htp with ⟨nick', hact', -⟩ | ⟨t₀, ht₀, htp₀, htfd⟩
    · rw [hact] at hact'
      exact (Act.join.inj hact').1
    · exact absurd (htfd.symm.trans hfd.symm) (hjoin v nick hact w t₀ ht₀ htp₀)
  · rcases Act.apply_present ht htp with ⟨nick', hact', rfl⟩ | ⟨t₀, ht₀, htp₀, htfd⟩
    · exact absurd (hsfd.symm.trans hfd) (hjoin w nick' hact' v s₀ hs₀ hsp₀)
    · exact hr v w s₀ t₀ hs₀ ht₀ hsp₀ htp₀ (by rw [← hsfd, ← htfd, hfd])

/-- **Acts that hand out free nicks keep nicks unique.** -/
theorem Room.NicksUnique.apply (hr : r.NicksUnique) (hp : act.permits fd r) (hc : act.clean r) :
    (act.apply fd r).NicksUnique := by
  cases act with
  | idle => exact hr
  | enrol user =>
      refine hr.mono fun v s' hs' hp' => ?_
      by_cases hv : v = user
      · subst hv
        obtain rfl : Seat.unused = s' := by simpa [Act.apply] using hs'
        exact absurd hp' Seat.not_present_unused
      · exact ⟨s', by simpa [Act.apply, hv] using hs', hp', rfl, rfl⟩
  | join user nick =>
      obtain ⟨n, rfl, hfree⟩ := hc
      exact hr.take hfree (set_self _ _ _) hp.1 rfl fun v hv => set_ne _ hv
  | rename user nick =>
      obtain ⟨s, hs, hpres, hfd⟩ := hp
      have hself : Act.apply fd r (.rename user nick) user
          = some { s with nick := some nick } := by
        simp [Act.apply, hs]
      exact hr.take hc hself (hr.fd user s hs hpres) rfl fun v hv => modify_ne _ hv
  | leave user => exact unique_flags hr (clearFlags_bit _)
  | kick user => exact unique_flags hr (clearFlags_bit _)
  | deop user => exact unique_flags hr (clearFlags_bit _)
  | unban user => exact unique_flags hr (clearFlags_bit _)
  | oper user => exact unique_flags hr (setFlags_bit (by decide))
  | op user => exact unique_flags hr (setFlags_bit (by decide))
  | away user => exact unique_flags hr (toggleAway_bit (by decide))
  | ban user =>
      exact unique_flags hr fun g h => setFlags_bit (by decide) g (clearFlags_bit _ _ h)

end

/-! ### Runs -/

section

variable {User Nick : Type*} [DecidableEq User]

theorem room_legal {tidy : Prop} {hist : List (RoomStep User Nick)} {r : Room User Nick}
    (h : Run (roomMachine User Nick tidy) hist r) : r.Legal := by
  obtain ⟨r₀, rfl, hx⟩ := h
  refine hx.invariant Room.Legal (fun _ => True) (by intro v s hs; simp at hs) ?_ (by simp)
  intro r e r' o hr hs _
  obtain ⟨fd, act⟩ := e
  obtain ⟨hp, -, rfl⟩ := roomMachine_step.mp hs
  exact hr.apply hp

theorem room_nicks {hist : List (RoomStep User Nick)} {r : Room User Nick}
    (h : Run (roomMachine User Nick True) hist r) : r.NicksUnique := by
  obtain ⟨r₀, rfl, hx⟩ := h
  refine hx.invariant Room.NicksUnique (fun _ => True) ?_ ?_ (by simp)
  · exact ⟨by simp, by simp, by simp⟩
  · intro r e r' o hr hs _
    obtain ⟨fd, act⟩ := e
    obtain ⟨hp, hc, rfl⟩ := roomMachine_step.mp hs
    exact hr.apply hp (hc trivial)

end

end Smsg
