/-
Capacity: when a connection is turned away.

`num_clients` is as high as there have ever been connections at once and never goes
down (`run_counted`).  A connection is turned away when it has come to `MAX_CLIENTS`,
so from the moment on that all slots have been live, nobody gets into a slot that has
become free (`reclaimed_iff`).
-/
import Smsg.Proofs.Select

namespace Smsg

open Machines Table

variable {t t' : Table} {c : Sclient} {i j : Slot} {a : Action} {log log' : List Action}
  {newfd : Int}

/-! ### Live slots -/

@[simp] theorem mem_liveSlots : i ∈ t.liveSlots ↔ t.live i := by
  simp [liveSlots]

theorem liveSlots_subset (t : Table) : t.liveSlots.image Fin.val ⊆ Finset.range t.numClients := by
  intro n hn
  obtain ⟨i, hi, rfl⟩ := Finset.mem_image.mp hn
  exact Finset.mem_range.mpr (mem_liveSlots.mp hi).1

theorem card_liveSlots (t : Table) : (t.liveSlots.image Fin.val).card = t.liveSlots.card :=
  Finset.card_image_of_injective _ Fin.val_injective

theorem card_liveSlots_le : t.liveSlots.card ≤ t.numClients := by
  have hcard := Finset.card_le_card (liveSlots_subset t)
  rwa [card_liveSlots, Finset.card_range] at hcard

theorem card_liveSlots_lt (hlow : i.val < t.numClients) (hdead : ¬ t.live i) :
    t.liveSlots.card < t.numClients := by
  have hstrict : t.liveSlots.image Fin.val ⊂ Finset.range t.numClients := by
    refine ⟨liveSlots_subset t, fun hsub => hdead ?_⟩
    obtain ⟨j, hj, hval⟩ := Finset.mem_image.mp (hsub (Finset.mem_range.mpr hlow))
    exact Fin.ext hval ▸ mem_liveSlots.mp hj
  have hcard := Finset.card_lt_card hstrict
  rwa [card_liveSlots, Finset.card_range] at hcard

theorem card_liveSlots_eq (hbound : t.numClients ≤ maxClients)
    (h : ∀ j : Slot, j.val < t.numClients → t.live j) : t.liveSlots.card = t.numClients := by
  have hsub : Finset.range t.numClients ⊆ t.liveSlots.image Fin.val := by
    intro n hn
    have hlt := Finset.mem_range.mp hn
    exact Finset.mem_image.mpr ⟨⟨n, by omega⟩, mem_liveSlots.mpr (h ⟨n, by omega⟩ hlt), rfl⟩
  have hcard := Finset.card_le_card hsub
  rw [card_liveSlots, Finset.card_range] at hcard
  exact le_antisymm card_liveSlots_le hcard

theorem live_of_card (h : t.liveSlots.card = maxClients) (i : Slot) : t.live i := by
  have huniv : t.liveSlots = Finset.univ :=
    Finset.eq_univ_of_card _ (h.trans (Fintype.card_fin maxClients).symm)
  rw [← mem_liveSlots, huniv]
  exact Finset.mem_univ i

/-- A new connection is put behind the others only if they are all live. -/
theorem live_of_acceptSlot (hslot : t.acceptSlot = some i) (hi : i.val = t.numClients) (j : Slot)
    (hj : j.val < t.numClients) : t.live j := by
  refine ⟨hj, fun hdead => ?_⟩
  have hlt : t.numClients < maxClients := hi ▸ i.isLt
  rw [Table.acceptSlot, dif_pos hlt, Option.some.injEq] at hslot
  cases hfind : (List.finRange maxClients).find? fun i =>
      decide (i.val < t.numClients) && (t.clients i).fd == -1 with
  | none =>
      have := List.find?_eq_none.mp hfind j (List.mem_finRange j)
      simp [hj, hdead] at this
  | some k =>
      rw [hfind] at hslot
      obtain rfl : k = i := hslot
      have := List.find?_some hfind
      simp only [Bool.and_eq_true, decide_eq_true_eq] at this
      omega

/-! ### Counting -/

/-- The log tells how many connections there are, and `num_clients` how many there have been. -/
structure Counted (log : List Action) (t : Table) : Prop where
  bound : t.numClients ≤ maxClients
  now : connections log = t.liveSlots.card
  most : peak log = t.numClients

theorem Counted.le (h : Counted log t) : connections log ≤ peak log := by
  rw [h.now, h.most]
  exact card_liveSlots_le

theorem Counted.same (h : Counted log t) (hnum : t'.numClients = t.numClients)
    (hfd : ∀ i, (t'.clients i).fd = (t.clients i).fd) : Counted log t' := by
  have hlive : t'.liveSlots = t.liveSlots := by
    ext i
    rw [mem_liveSlots, mem_liveSlots, live, live, hnum, hfd]
  exact ⟨hnum ▸ h.bound, by rw [hlive, h.now], by rw [hnum, h.most]⟩

theorem Counted.said (h : Counted log t) (ha : ∀ log, connections (a :: log) = connections log) :
    Counted (a :: log) t := by
  refine ⟨h.bound, (ha log).trans h.now, ?_⟩
  rw [peak, ha, max_eq_right h.le, h.most]

theorem Counted.seat (h : Counted log t) (hslot : t.acceptSlot = some i) (hfd : 0 ≤ newfd) :
    Counted (.accepted i newfd :: log) (t.seat i newfd) := by
  have hdead := not_live_acceptSlot hslot
  have hlive : (t.seat i newfd).liveSlots = insert i t.liveSlots := by
    ext j
    rw [mem_liveSlots, live_seat_iff hslot hfd, Finset.mem_insert, mem_liveSlots]
  have hnow : connections (.accepted i newfd :: log) = (t.seat i newfd).liveSlots.card := by
    rw [hlive, Finset.card_insert_of_notMem (by rwa [mem_liveSlots]), ← h.now]
    rfl
  have hnum : (t.seat i newfd).numClients
      = if i.val = t.numClients then t.numClients + 1 else t.numClients := rfl
  have hmost : peak (.accepted i newfd :: log) = max (t.liveSlots.card + 1) t.numClients := by
    rw [peak, h.most, ← h.now]
    rfl
  refine ⟨?_, hnow, ?_⟩
  · have := i.isLt
    have := h.bound
    rw [hnum]
    split <;> omega
  · rw [hmost, hnum]
    rcases acceptSlot_spec hslot with ⟨hlow, -⟩ | heq
    · -- a slot is used again: there have been more before
      have := card_liveSlots_lt hlow hdead
      rw [if_neg (by omega)]
      omega
    · -- there have never been as many
      have := card_liveSlots_eq h.bound (live_of_acceptSlot hslot heq)
      rw [if_pos heq]
      omega

theorem Counted.release (h : Counted log t) (hi : t.live i) :
    Counted (.closed i :: log) (t.release i) := by
  have hlive : (t.release i).liveSlots = t.liveSlots.erase i := by
    ext j
    rw [mem_liveSlots, live_release_iff, Finset.mem_erase, mem_liveSlots]
  have hnow : connections (.closed i :: log) = connections log - 1 := rfl
  refine ⟨h.bound, ?_, ?_⟩
  · rw [hlive, Finset.card_erase_of_mem (mem_liveSlots.mpr hi), hnow, h.now]
  · have := h.le
    rw [peak, hnow, max_eq_right (by omega), h.most]
    rfl

/-! ### Rounds -/

theorem Counted.called (h : Counted log t) (call : Handler) :
    Counted (((call.slot t).map Action.closed).toList ++ log) (t.called call) := by
  unfold Table.called Handler.slot
  cases call.kick t with
  | none => exact h.same rfl fun _ => rfl
  | some r => exact (h.release r.2).same rfl fun _ => rfl

theorem Counted.serve (h : Counted log t) (hi : t.live i) {receipt : Receipt}
    (hserve : t.serve i receipt = some (t', log')) : Counted (log' ++ log) t' := by
  cases receipt with
  | error =>
      obtain ⟨rfl, rfl⟩ : t = t' ∧ [] = log' := by simpa [Table.serve] using hserve
      exact h
  | closed =>
      obtain ⟨rfl, rfl⟩ : t.release i = t' ∧ [.closed i] = log' := by
        simpa [Table.serve] using hserve
      exact h.release hi
  | bytes rbuf grown call shrunk =>
      have hgot : Counted (.received i rbuf :: log) t := h.said fun _ => rfl
      have hbuf : Counted (.received i rbuf :: log)
          (t.setClient i ((t.clients i).recvbuf rbuf)) := hgot.same rfl (setClient_fd rfl)
      rcases serve_bytes_cases hserve with ⟨rfl, rfl | rfl⟩ | ⟨c, cmd, rfl, hfd, rfl⟩
      · exact hgot
      · exact hbuf
      · rw [List.cons_append, List.append_assoc]
        exact ((hbuf.called call).said fun _ => rfl).same rfl (setClient_fd hfd)

theorem Counted.serveAll {r : Round} (is : List Slot) : ∀ {t t' : Table} {log log' : List Action},
    Counted log t → serveAll r is t = some (t', log') → Counted (log' ++ log) t' := by
  induction is with
  | nil =>
      intro t t' log log' h hall
      obtain ⟨rfl, rfl⟩ : t = t' ∧ [] = log' := by simpa [Table.serveAll] using hall
      exact h
  | cons i is ih =>
      intro t t' log log' h hall
      rw [Table.serveAll] at hall
      split at hall
      · rename_i hready
        simp only [Option.bind_eq_bind, Option.bind_eq_some_iff, Option.some.injEq,
          Prod.mk.injEq] at hall
        obtain ⟨⟨t₁, log₁⟩, hserve, ⟨t₂, log₂⟩, hrest, rfl, rfl⟩ := hall
        rw [List.append_assoc]
        exact ih (h.serve hready.1 hserve) hrest
      · exact ih h hall

theorem Counted.accept (h : Counted log t) {newfd : Option Int} (hfd : ∀ fd ∈ newfd, 0 ≤ fd)
    (haccept : t.accept newfd = some (t', log')) : Counted (log' ++ log) t' := by
  unfold Table.accept at haccept
  split at haccept
  · obtain ⟨rfl, rfl⟩ : t = t' ∧ [.refused] = log' := by simpa using haccept
    exact h.said fun _ => rfl
  · rename_i i hslot
    split at haccept
    · obtain ⟨rfl, rfl⟩ : t = t' ∧ [] = log' := by simpa using haccept
      exact h
    · rename_i fd
      simp only [Option.ite_none_left_eq_some, Option.some.injEq, Prod.mk.injEq] at haccept
      obtain ⟨-, rfl, rfl⟩ := haccept
      exact h.seat hslot (hfd fd rfl)

/-- A round keeps count. -/
theorem Counted.round (h : Counted log t) {r : Round} (hr : t.Enabled r)
    (hround : t.round r = some (t', log')) : Counted (log' ++ log) t' := by
  simp only [Table.round, Option.bind_eq_bind, Option.bind_eq_some_iff, Option.some.injEq,
    Prod.mk.injEq] at hround
  obtain ⟨⟨t₁, log₁⟩, hwelcome, ⟨t₂, log₂⟩, hall, rfl, rfl⟩ := hround
  have hfirst : Counted (log₁ ++ log) t₁ := by
    unfold welcome at hwelcome
    split at hwelcome
    · exact h.accept (fun fd hfd => (hr.2.1 fd hfd).1) hwelcome
    · obtain ⟨rfl, rfl⟩ : t = t₁ ∧ [] = log₁ := by simpa using hwelcome
      exact h
  rw [List.append_assoc]
  exact hfirst.serveAll _ hall

/-- **In every run, `num_clients` is the most connections there have been at once.** -/
theorem run_counted {hist : List (Step Table Round (List Action))} (hrun : Run selectLoop hist t) :
    Counted (actions hist) t := by
  obtain ⟨t₀, ⟨servfd, opened, -, -, rfl⟩, hx⟩ := hrun
  refine hx.history (fun hist t => Counted (actions hist) t) (fun _ => True) ?_ ?_
    fun _ _ => trivial
  · refine ⟨Nat.zero_le _, ?_, rfl⟩
    have : (Table.initial servfd opened).liveSlots.card ≤ 0 := card_liveSlots_le
    exact (Nat.le_zero.mp this).symm
  · intro hist t r t' log h hstep _
    simp only [selectLoop, Option.ite_none_right_eq_some] at hstep
    exact h.round hstep.1 hstep.2

/-! ### Being turned away -/

theorem accept_full (hfull : maxClients ≤ t.numClients) (newfd : Option Int) :
    t.accept newfd = some (t, [.refused]) := by
  rw [accept, Table.acceptSlot, dif_neg (by omega)]

theorem accept_room (hroom : t.numClients < maxClients) (newfd : Int) :
    ∃ i, t.acceptSlot = some i ∧ t.accept (some newfd) =
      if fdSetsize ≤ newfd then none else some (t.seat i newfd, [.accepted i newfd]) := by
  obtain ⟨i, hi⟩ : ∃ i, t.acceptSlot = some i := ⟨_, dif_pos hroom⟩
  exact ⟨i, hi, by rw [accept, hi]⟩

/--
**A connection is turned away for want of a slot only, as long as there have never been
as many connections as slots**; from then on, only when there are as many now.
-/
theorem reclaimed_iff {hist : List (Step Table Round (List Action))} {t : Table}
    (hrun : Run selectLoop hist t) {newfd : Int} (hfd : 0 ≤ newfd) :
    Reclaimed t newfd ↔ t.liveSlots.card = maxClients ∨
      (peak (actions hist) < maxClients ∧ newfd < fdSetsize) := by
  have hcounted := run_counted hrun
  have hle := card_liveSlots_le (t := t)
  have hbound := hcounted.bound
  rw [hcounted.most]
  constructor
  · intro hr
    by_cases hall : t.liveSlots.card = maxClients
    · exact Or.inl hall
    · obtain ⟨i, t', -, haccept, -⟩ := hr.accepted (by omega)
      refine Or.inr ?_
      have hroom : t.numClients < maxClients := by
        by_contra hfull
        rw [accept_full (by omega)] at haccept
        simp at haccept
      obtain ⟨k, -, hseat⟩ := accept_room hroom newfd
      refine ⟨hroom, ?_⟩
      by_contra hlarge
      rw [hseat, if_pos (by omega)] at haccept
      simp at haccept
  · intro hcond
    by_cases hroom : t.numClients < maxClients
    · have hfits : newfd < fdSetsize := by
        rcases hcond with hall | ⟨-, hfits⟩
        · omega
        · exact hfits
      obtain ⟨i, hslot, hseat⟩ := accept_room hroom newfd
      rw [if_neg (by omega)] at hseat
      refine ⟨fun hrefused => ?_, fun _ => ⟨i, _, not_live_acceptSlot hslot, hseat, ?_, ?_⟩⟩
      · rw [hseat] at hrefused
        simp at hrefused
      · exact (live_seat_iff hslot hfd).mpr (Or.inl rfl)
      · rw [seat_self]
    · have hall : t.liveSlots.card = maxClients := by
        rcases hcond with hall | ⟨hlow, -⟩
        · exact hall
        · exact absurd hlow hroom
      exact ⟨fun _ => hall, fun hlow => absurd hall (by omega)⟩

theorem reclaimed_first : Reclaimed firstTable 5 :=
  (reclaimed_iff run_first (by decide)).mpr (Or.inr ⟨by decide, by decide⟩)

/-- One connection after the other, up to all slots. -/
theorem run_full (n : Nat) (hn : n ≤ maxClients) : ∃ hist t, Run selectLoop hist t ∧
    Kept (actions hist) t ∧ t.numClients = n ∧ (∀ i : Slot, i.val < n → t.live i) ∧
    ∀ fd ∈ t.opened, fd < 4 + n := by
  induction n with
  | zero =>
      refine ⟨[], .initial 3 {0, 1, 2, 3}, ⟨_, ⟨3, _, by decide, by decide, rfl⟩, .nil⟩,
        kept_initial (by decide), rfl, fun i hi => absurd hi (Nat.not_lt_zero _), ?_⟩
      decide
  | succ n ih =>
      obtain ⟨hist, t, hrun, hkept, hnum, hlive, hopened⟩ := ih (by omega)
      have hnew : (4 + n : Int) ∉ t.opened := fun hc => by have := hopened _ hc; omega
      have hfits : (4 + n : Int) < fdSetsize := by
        have : maxClients = 111 := rfl
        have : fdSetsize = 1024 := rfl
        omega
      have hlt : t.numClients < maxClients := by omega
      have hslot := acceptSlot_next hlt (by rw [hnum]; exact hlive)
      have hstep := (step_arrival hkept (by omega) hnew hfits).trans (accept_some hslot hfits)
      have hlive' : ∀ {j}, (t.seat ⟨t.numClients, hlt⟩ (4 + n)).live j
          ↔ j = ⟨t.numClients, hlt⟩ ∨ t.live j := live_seat_iff hslot (by omega)
      refine ⟨_, _, hrun.snoc hstep, step_kept hkept hstep (tame_arrival hfits), ?_, ?_, ?_⟩
      · exact (if_pos rfl).trans (by rw [hnum])
      · intro i hi
        by_cases heq : i.val = t.numClients
        · exact hlive'.mpr (Or.inl (Fin.ext heq))
        · exact hlive'.mpr (Or.inr (hlive i (by omega)))
      · intro fd hfd
        rcases Finset.mem_insert.mp hfd with rfl | hfd
        · omega
        · have := hopened fd hfd
          omega

/-- All slots have been live, one connection has gone, and the next one is turned away. -/
theorem not_reclaimed_after_full : ¬ ∀ hist t, Run selectLoop hist t → ∀ newfd, 0 ≤ newfd →
    newfd ∉ t.opened → newfd < fdSetsize → Reclaimed t newfd := by
  intro h
  obtain ⟨hist, t, hrun, hkept, hnum, hlive, hopened⟩ := run_full maxClients le_rfl
  have hfirst : t.live ⟨0, by decide⟩ := hlive _ (by decide)
  have hclosed : selectLoop.step t (turnOf t ⟨0, by decide⟩ .closed)
      = some (t.release ⟨0, by decide⟩, [.closed ⟨0, by decide⟩]) := step_turnOf hkept hfirst rfl
  have hnew : (200 : Int) ∉ (t.release ⟨0, by decide⟩).opened := by
    intro hc
    have := hopened 200 (Finset.mem_of_mem_erase hc)
    have : maxClients = 111 := rfl
    omega
  have hr := h _ _ (hrun.snoc hclosed) 200 (by decide) hnew (by decide)
  have hall := hr.refused (accept_full (by rw [show (t.release ⟨0, by decide⟩).numClients
    = t.numClients from rfl, hnum]) _)
  exact (live_release_iff.mp (live_of_card hall ⟨0, by decide⟩)).1 rfl

end Smsg
