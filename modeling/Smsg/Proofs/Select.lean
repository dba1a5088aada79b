/-
The client table: what it holds at every loop head.

Each of the three things the loop does to the table, seating a connection, writing to
the buffer of one, and closing one, keeps what `Kept` says.  A round is a row of these
things, and the connections that are served later in it are as they were at its start
or gone (`serve_kept`).  So a round in which memory is there and `ncmd_iscomplete` stays
in the buffers has an outcome, and the table is right at the end of it
(`slotTable_kept`).  The first half is where the loop goes wrong: with the length
field of an argument, a peer can have it move memory from in front of the buffer.
-/
import Smsg.Select
import Smsg.Proofs.Runserver
import Smsg.Proofs.Drain

namespace Smsg

open Machines

/-! ### Logs -/

section

variable {α β : Type*} {starts : α → Bool} {gives : α → List β} {a : α} {log : List α}

theorem since_start (h : starts a = true) : since starts gives (a :: log) = [] := by
  rw [since, if_pos h]

theorem since_cons (h : starts a = false) :
    since starts gives (a :: log) = since starts gives log ++ gives a := by
  rw [since, if_neg (by simp [h])]

end

/-- The action says nothing about the connection in slot `i`. -/
def Action.Silent (i : Slot) (a : Action) : Prop :=
  a.seats i = false ∧ a.got i = [] ∧ a.took i = []

variable {i j : Slot} {a : Action} {log : List Action} {newfd : Int} {rbuf cmd : Bytes}

theorem Action.Silent.receivedOn (h : a.Silent i) : receivedOn i (a :: log) = receivedOn i log := by
  rw [Smsg.receivedOn, since_cons h.1, h.2.1, List.append_nil, Smsg.receivedOn]

theorem Action.Silent.handledSince (h : a.Silent i) : handledSince i (a :: log) = handledSince i log := by
  rw [Smsg.handledSince, since_cons h.1, h.2.2, List.append_nil, Smsg.handledSince]

theorem silent_accepted (h : j ≠ i) : (Action.accepted i newfd).Silent j :=
  ⟨by simpa [Action.seats] using h.symm, rfl, rfl⟩

theorem silent_received (h : j ≠ i) : (Action.received i rbuf).Silent j :=
  ⟨rfl, if_neg h.symm, rfl⟩

theorem silent_handled (h : j ≠ i) : (Action.handled i cmd).Silent j :=
  ⟨rfl, rfl, if_neg h.symm⟩

theorem silent_closed (i j : Slot) : (Action.closed i).Silent j := ⟨rfl, rfl, rfl⟩

theorem silent_refused (j : Slot) : Action.refused.Silent j := ⟨rfl, rfl, rfl⟩

/-! ### One slot -/

namespace Table

variable {t t' : Table} {c : Sclient} {fd : Int}

@[simp] theorem setClient_self (t : Table) (i : Slot) (c : Sclient) :
    (t.setClient i c).clients i = c := by
  simp [setClient]

@[simp] theorem setClient_ne (t : Table) (c : Sclient) (h : j ≠ i) :
    (t.setClient i c).clients j = t.clients j := by
  simp [setClient, h]

theorem setClient_fd (hfd : c.fd = (t.clients i).fd) (j : Slot) :
    ((t.setClient i c).clients j).fd = (t.clients j).fd := by
  by_cases hj : j = i
  · rw [hj, setClient_self, hfd]
  · rw [setClient_ne t c hj]

theorem live_setClient_iff (hfd : c.fd = (t.clients i).fd) :
    (t.setClient i c).live j ↔ t.live j := by
  rw [live, setClient_fd hfd, live]
  exact Iff.rfl

theorem setClient_same (t : Table) (i : Slot) : t.setClient i (t.clients i) = t := by
  have hclients : (fun j => if j = i then t.clients i else t.clients j) = t.clients := by
    funext j
    split
    · rename_i hj
      rw [hj]
    · rfl
  rw [setClient, hclients]

@[simp] theorem release_self (t : Table) (i : Slot) : (t.release i).clients i = .empty :=
  setClient_self t i .empty

theorem release_ne (t : Table) (h : j ≠ i) : (t.release i).clients j = t.clients j :=
  setClient_ne t .empty h

theorem live_release_iff : (t.release i).live j ↔ j ≠ i ∧ t.live j := by
  by_cases hj : j = i
  · refine ⟨fun h => ?_, fun h => absurd hj h.1⟩
    refine absurd ?_ h.2
    rw [hj, release_self]
    rfl
  · rw [live, release_ne t hj]
    exact ⟨fun h => ⟨hj, h⟩, fun h => h.2⟩

/-! ### Accepting -/

/-- What the server over commands sees of the table. -/
def seen (t : Table) : Server :=
  ⟨t.servfd, t.numClients, fun i => ⟨(t.clients i).fd, ⟨0, 0, 0, 0⟩⟩, .empty, false⟩

theorem acceptSlot_spec (h : t.acceptSlot = some i) :
    (i.val < t.numClients ∧ (t.clients i).fd = -1) ∨ i.val = t.numClients :=
  Server.acceptSlot_spec (s := t.seen) h

theorem not_live_acceptSlot (h : t.acceptSlot = some i) : ¬ t.live i :=
  Server.not_live_acceptSlot (s := t.seen) h

@[simp] theorem seat_self (t : Table) (i : Slot) (newfd : Int) :
    (t.seat i newfd).clients i = ⟨newfd, .null, 0⟩ := by
  simp [seat]

theorem seat_ne (t : Table) (newfd : Int) (h : j ≠ i) :
    (t.seat i newfd).clients j = t.clients j := by
  simp [seat, h]

theorem live_seat_iff (hslot : t.acceptSlot = some i) (hfd : 0 ≤ newfd) :
    (t.seat i newfd).live j ↔ j = i ∨ t.live j := by
  have hspec := acceptSlot_spec hslot
  by_cases hj : j = i
  · subst hj
    refine ⟨fun _ => Or.inl rfl, fun _ => ⟨?_, ?_⟩⟩
    · show j.val < if j.val = t.numClients then t.numClients + 1 else t.numClients
      split <;> omega
    · rw [seat_self]
      show newfd ≠ -1
      omega
  · have hne : j.val ≠ i.val := fun hc => hj (Fin.ext hc)
    rw [live, seat_ne t newfd hj]
    simp only [hj, false_or]
    refine and_congr_left fun _ => ?_
    show (j.val < if i.val = t.numClients then t.numClients + 1 else t.numClients) ↔ _
    split <;> omega

end Table

/-! ### What is kept -/

/-- The table is right, and no connection has the descriptor of the listening socket. -/
structure Kept (log : List Action) (t : Table) : Prop extends SlotTable log t where
  serving : t.servfd ∈ t.opened
  apart : ∀ i, t.live i → (t.clients i).fd ≠ t.servfd

variable {t t' : Table} {c : Sclient}

open Table

theorem kept_initial {servfd : Int} {opened : Finset Int} (h : servfd ∈ opened) :
    Kept [] (.initial servfd opened) where
  count := Nat.zero_le _
  distinct := fun i j hi => absurd hi.1 (Nat.not_lt_zero _)
  opened := fun i hi => absurd hi.1 (Nat.not_lt_zero _)
  master := by
    intro fd
    refine ⟨fun hfd => Or.inl (Finset.mem_singleton.mp hfd), fun hfd => ?_⟩
    rcases hfd with rfl | ⟨i, hi, -⟩
    · exact Finset.mem_singleton_self _
    · exact absurd hi.1 (Nat.not_lt_zero _)
  maxfd := fun fd hfd => (Finset.mem_singleton.mp hfd).le
  dead := fun i hi => absurd hi (Nat.not_lt_zero _)
  block := fun i hi => absurd hi.1 (Nat.not_lt_zero _)
  stream := fun i hi => absurd hi.1 (Nat.not_lt_zero _)
  serving := h
  apart := fun i hi => absurd hi.1 (Nat.not_lt_zero _)

theorem Kept.master_opened (h : Kept log t) {fd : Int} (hfd : fd ∈ t.master) : fd ∈ t.opened := by
  rcases (h.master fd).mp hfd with rfl | ⟨i, hi, rfl⟩
  · exact h.serving
  · exact h.opened i hi

theorem Kept.bytes (h : Kept log t) (hi : t.live i) :
    (t.clients i).bytes = (t.clients i).buf.bytes :=
  List.take_of_length_le (h.block i hi).le

theorem Kept.seat_cases (h : Kept log t) (hslot : t.acceptSlot = some i) (hfd : 0 ≤ newfd)
    (hopen : newfd ∉ t.opened) {j : Slot} (hj : (t.seat i newfd).live j) :
    (j = i ∧ (t.seat i newfd).clients j = ⟨newfd, .null, 0⟩)
      ∨ (j ≠ i ∧ t.live j ∧ (t.seat i newfd).clients j = t.clients j ∧ (t.clients j).fd ≠ newfd) := by
  by_cases hji : j = i
  · refine .inl ⟨hji, ?_⟩
    rw [hji, seat_self]
  · have hlive := ((live_seat_iff hslot hfd).mp hj).resolve_left hji
    exact .inr ⟨hji, hlive, seat_ne t newfd hji, fun hc => hopen (hc ▸ h.opened j hlive)⟩

/-- A connection is put into a slot that was not live. -/
theorem Kept.seat (h : Kept log t) (hslot : t.acceptSlot = some i) (hfd : 0 ≤ newfd)
    (hopen : newfd ∉ t.opened) : Kept (.accepted i newfd :: log) (t.seat i newfd) := by
  have hspec := acceptSlot_spec hslot
  have hcases : ∀ {j}, (t.seat i newfd).live j → _ := fun hj => h.seat_cases hslot hfd hopen hj
  refine { count := ?count, distinct := ?distinct, opened := ?opened, master := ?master,
           maxfd := ?maxfd, dead := ?dead, block := ?block, stream := ?stream,
           serving := ?serving, apart := ?apart }
  case count =>
    show (if i.val = t.numClients then t.numClients + 1 else t.numClients) ≤ maxClients
    have := i.isLt
    have := h.count
    split <;> omega
  case distinct =>
    intro j k hj hk heq
    rcases hcases hj with ⟨hji, hjc⟩ | ⟨-, hj', hjc, hjne⟩ <;>
      rcases hcases hk with ⟨hki, hkc⟩ | ⟨-, hk', hkc, hkne⟩ <;> rw [hjc, hkc] at heq
    · rw [hji, hki]
    · exact absurd heq.symm hkne
    · exact absurd heq hjne
    · exact h.distinct j k hj' hk' heq
  case opened =>
    intro j hj
    rcases hcases hj with ⟨-, hjc⟩ | ⟨-, hj', hjc, -⟩ <;> rw [hjc]
    · exact Finset.mem_insert_self _ _
    · exact Finset.mem_insert_of_mem (h.opened j hj')
  case master =>
    intro fd
    have hold : ∀ {j}, t.live j → (t.seat i newfd).live j ∧ (t.seat i newfd).clients j = t.clients j := by
      intro j hj
      have hji : j ≠ i := fun hc => not_live_acceptSlot hslot (hc ▸ hj)
      exact ⟨(live_seat_iff hslot hfd).mpr (.inr hj), seat_ne t newfd hji⟩
    refine Finset.mem_insert.trans ⟨fun hfd' => ?_, fun hfd' => ?_⟩
    · rcases hfd' with rfl | hfd'
      · exact Or.inr ⟨i, (live_seat_iff hslot hfd).mpr (.inl rfl), by rw [seat_self]⟩
      · rcases (h.master fd).mp hfd' with hserv | ⟨j, hj, heq⟩
        · exact Or.inl hserv
        · exact Or.inr ⟨j, (hold hj).1, by rw [(hold hj).2, heq]⟩
    · rcases hfd' with hserv | ⟨j, hj, heq⟩
      · exact Or.inr ((h.master fd).mpr (Or.inl hserv))
      · rcases hcases hj with ⟨-, hjc⟩ | ⟨-, hj', hjc, -⟩ <;> rw [hjc] at heq
        · exact Or.inl heq.symm
        · exact Or.inr ((h.master fd).mpr (Or.inr ⟨j, hj', heq⟩))
  case maxfd =>
    intro fd hfd
    show fd ≤ if t.maxfd < newfd then newfd else t.maxfd
    rcases Finset.mem_insert.mp hfd with rfl | hfd
    · split <;> omega
    · have := h.maxfd fd hfd
      split <;> omega
  case dead =>
    intro j hj hdead
    by_cases hji : j = i
    · rw [hji, seat_self] at hdead
      have : newfd = -1 := hdead
      omega
    · rw [seat_ne t newfd hji] at hdead ⊢
      refine h.dead j ?_ hdead
      have hne : j.val ≠ i.val := fun hc => hji (Fin.ext hc)
      replace hj : j.val < if i.val = t.numClients then t.numClients + 1 else t.numClients := hj
      split at hj <;> omega
  case block =>
    intro j hj
    rcases hcases hj with ⟨-, hjc⟩ | ⟨-, hj', hjc, -⟩ <;> rw [hjc]
    · rfl
    · exact h.block j hj'
  case stream =>
    intro j hj
    rcases hcases hj with ⟨rfl, hjc⟩ | ⟨hji, hj', hjc, -⟩
    · -- nothing has been received yet
      have hseats : (Action.accepted j newfd).seats j = true := by simp [Action.seats]
      rw [receivedOn, handledSince, since_start hseats, since_start hseats, hjc]
      rfl
    · have hsilent : (Action.accepted i newfd).Silent j := silent_accepted hji
      rw [hsilent.receivedOn, hsilent.handledSince, hjc]
      exact h.stream j hj'
  case serving =>
    exact Finset.mem_insert_of_mem h.serving
  case apart =>
    intro j hj
    rcases hcases hj with ⟨-, hjc⟩ | ⟨-, hj', hjc, -⟩ <;> rw [hjc]
    · intro hc
      have heq : newfd = t.servfd := hc
      exact hopen (heq ▸ h.serving)
    · exact h.apart j hj'

/-- The buffer of a connection is written to, and the log says what was done to it. -/
theorem Kept.write (h : Kept log t) (hi : t.live i) (hfd : c.fd = (t.clients i).fd)
    (hlen : c.buf.bytes.length = c.buflen) (hother : ∀ j, j ≠ i → a.Silent j)
    (hstream : receivedOn i (a :: log) = handledSince i (a :: log) ++ c.buf.bytes) :
    Kept (a :: log) (t.setClient i c) := by
  have hlive : ∀ {j}, (t.setClient i c).live j ↔ t.live j := live_setClient_iff hfd
  have hfds := setClient_fd (t := t) hfd
  refine { count := h.count, distinct := ?distinct, opened := ?opened, master := ?master,
           maxfd := h.maxfd, dead := ?dead, block := ?block, stream := ?stream,
           serving := h.serving, apart := ?apart }
  case distinct =>
    intro j k hj hk heq
    rw [hfds, hfds] at heq
    exact h.distinct j k (hlive.mp hj) (hlive.mp hk) heq
  case opened =>
    intro j hj
    rw [hfds]
    exact h.opened j (hlive.mp hj)
  case master =>
    intro fd
    refine (h.master fd).trans (or_congr_right (exists_congr fun j => ?_))
    rw [hlive, hfds]
  case dead =>
    intro j hj hdead
    rw [hfds] at hdead
    have hji : j ≠ i := fun hc => hi.2 (hc ▸ hdead)
    rw [setClient_ne t c hji]
    exact h.dead j hj hdead
  case block =>
    intro j hj
    by_cases hji : j = i
    · rw [hji, setClient_self]
      exact hlen
    · rw [setClient_ne t c hji]
      exact h.block j (hlive.mp hj)
  case stream =>
    intro j hj
    by_cases hji : j = i
    · rw [hji, setClient_self]
      exact hstream
    · rw [(hother j hji).receivedOn, (hother j hji).handledSince, setClient_ne t c hji]
      exact h.stream j (hlive.mp hj)
  case apart =>
    intro j hj
    rw [hfds]
    exact h.apart j (hlive.mp hj)

/-- A connection is closed. -/
theorem Kept.release (h : Kept log t) (hi : t.live i) :
    Kept (.closed i :: log) (t.release i) := by
  have hne : ∀ {j}, (t.release i).live j → j ≠ i ∧ t.live j := fun hj => live_release_iff.mp hj
  have hfds : ∀ {j}, (t.release i).live j → ((t.release i).clients j).fd = (t.clients j).fd := by
    intro j hj
    rw [release_ne t (hne hj).1]
  -- the descriptor that is closed is nobody else's
  have hother : ∀ {j}, (t.release i).live j → (t.clients j).fd ≠ (t.clients i).fd := by
    intro j hj hc
    exact (hne hj).1 (h.distinct j i (hne hj).2 hi hc)
  refine { count := h.count, distinct := ?distinct, opened := ?opened, master := ?master,
           maxfd := ?maxfd, dead := ?dead, block := ?block, stream := ?stream,
           serving := ?serving, apart := ?apart }
  case distinct =>
    intro j k hj hk heq
    rw [hfds hj, hfds hk] at heq
    exact h.distinct j k (hne hj).2 (hne hk).2 heq
  case opened =>
    intro j hj
    rw [hfds hj]
    exact Finset.mem_erase.mpr ⟨hother hj, h.opened j (hne hj).2⟩
  case master =>
    intro fd
    refine Finset.mem_erase.trans ⟨fun hfd => ?_, fun hfd => ?_⟩
    · rcases (h.master fd).mp hfd.2 with hserv | ⟨j, hj, heq⟩
      · exact Or.inl hserv
      · have hji : j ≠ i := fun hc => hfd.1 (by rw [← heq, hc])
        exact Or.inr ⟨j, live_release_iff.mpr ⟨hji, hj⟩, by rw [release_ne t hji, heq]⟩
    · rcases hfd with hserv | ⟨j, hj, heq⟩
      · exact ⟨fun hc => h.apart i hi (hc ▸ hserv), (h.master fd).mpr (Or.inl hserv)⟩
      · rw [hfds hj] at heq
        rw [← heq]
        exact ⟨hother hj, (h.master _).mpr (Or.inr ⟨j, (hne hj).2, rfl⟩)⟩
  case maxfd =>
    intro fd hfd
    exact h.maxfd fd (Finset.mem_of_mem_erase hfd)
  case dead =>
    intro j hj hdead
    by_cases hji : j = i
    · rw [hji, release_self]
      exact ⟨rfl, rfl⟩
    · rw [release_ne t hji] at hdead ⊢
      exact h.dead j hj hdead
  case block =>
    intro j hj
    rw [release_ne t (hne hj).1]
    exact h.block j (hne hj).2
  case stream =>
    intro j hj
    rw [(silent_closed i j).receivedOn, (silent_closed i j).handledSince, release_ne t (hne hj).1]
    exact h.stream j (hne hj).2
  case serving =>
    exact Finset.mem_erase.mpr ⟨(h.apart i hi).symm, h.serving⟩
  case apart =>
    intro j hj
    rw [hfds hj]
    exact h.apart j (hne hj).2

theorem Kept.said (h : Kept log t) (hsilent : ∀ i, t.live i → a.Silent i) :
    Kept (a :: log) t := by
  refine { h with stream := ?_ }
  intro i hi
  rw [(hsilent i hi).receivedOn, (hsilent i hi).handledSince]
  exact h.stream i hi

theorem Kept.leaves (h : Kept log t) (fds : Finset Int) :
    Kept log { t with opened := t.opened ∪ fds } :=
  { h with
    opened := fun j hj => Finset.mem_union_left _ (h.opened j hj)
    serving := Finset.mem_union_left _ h.serving }

/-! ### One slot served -/

theorem ncmdRemove_fd {c' : Sclient} {shrunk : Bool} (h : c.ncmdRemove shrunk = some c') :
    c'.fd = c.fd := by
  simp only [Sclient.ncmdRemove, Option.bind_eq_bind, Option.bind_eq_some_iff] at h
  obtain ⟨cl, -, h⟩ := h
  split_ifs at h <;> cases h <;> rfl

/-- What `ncmd_remove` leaves when `ncmd_iscomplete` has found a command of `k` bytes. -/
theorem ncmdRemove_front {k : Nat} (shrunk : Bool) (hlen : c.buf.bytes.length = c.buflen)
    (hk : ncmdIscomplete c.buf.bytes = some (k : Int)) (hpos : 0 < k)
    (hshrunk : k < c.buf.bytes.length → shrunk = true) :
    ∃ c', c.ncmdRemove shrunk = some c' ∧ c'.fd = c.fd ∧
      c'.buf.bytes = c.buf.bytes.drop k ∧ c'.buf.bytes.length = c'.buflen := by
  have hbytes : c.bytes = c.buf.bytes := List.take_of_length_le hlen.le
  have hne : ¬ (k : Int) = 0 := by omega
  have hneg : ¬ (k : Int) < 0 := by omega
  have hremove : c.ncmdRemove shrunk = if c.buf.bytes.drop k = [] then
      some { c with buf := .null, buflen := c.buflen - k }
      else if shrunk then some { c with buf := .blk (c.buf.bytes.drop k), buflen := c.buflen - k }
      else some { c with buf := .blk (c.buf.bytes.drop k ++
        c.buf.bytes.drop (c.buf.bytes.drop k).length) } := by
    rw [Sclient.ncmdRemove, hbytes, hk]
    exact (if_neg hne).trans (if_neg hneg)
  rw [hremove]
  by_cases hnil : c.buf.bytes.drop k = []
  · refine ⟨_, if_pos hnil, rfl, hnil.symm, ?_⟩
    have := List.drop_eq_nil_iff.mp hnil
    show 0 = c.buflen - k
    omega
  · have hlt : k < c.buf.bytes.length := by
      rw [List.drop_eq_nil_iff] at hnil
      omega
    refine ⟨_, (if_neg hnil).trans (if_pos (hshrunk hlt)), rfl, rfl, ?_⟩
    show (c.buf.bytes.drop k).length = c.buflen - k
    rw [List.length_drop, hlen]

theorem Kept.called (h : Kept log t) (call : Handler) :
    Kept (((call.slot t).map Action.closed).toList ++ log) (t.called call) := by
  unfold Table.called Handler.slot
  refine Kept.leaves ?_ call.leaves
  cases call.kick t with
  | none => exact h
  | some r => exact h.release r.2

/-- The slot itself is emptied by the handler, or is as it was. -/
theorem called_self (hi : t.live i) (call : Handler) :
    (call.slot t = some i ∧ (t.called call).clients i = .empty) ∨
      ((t.called call).live i ∧ (t.called call).clients i = t.clients i) := by
  unfold Table.called
  cases call.slot t with
  | none => exact Or.inr ⟨hi, rfl⟩
  | some r =>
      by_cases hr : i = r
      · exact Or.inl ⟨by rw [hr], by rw [hr]; exact release_self t r⟩
      · exact Or.inr ⟨live_release_iff.mpr ⟨hr, hi⟩, release_ne t hr⟩

/-- **A command is handled**: whoever is kicked out, its bytes are gone from the buffer. -/
theorem Kept.handled (h : Kept log t) (hi : t.live i) {k : Nat} (shrunk : Bool)
    (hk : ncmdIscomplete (t.clients i).buf.bytes = some (k : Int)) (hpos : 0 < k)
    (hshrunk : k < (t.clients i).buf.bytes.length → shrunk = true) (call : Handler) :
    ∃ c, ((t.called call).clients i).ncmdRemove shrunk = some c ∧
      Kept (.handled i ((t.clients i).buf.bytes.take k) ::
          (((call.slot t).map Action.closed).toList ++ log)) ((t.called call).setClient i c) := by
  have hcalled := h.called call
  rcases called_self hi call with ⟨-, hempty⟩ | ⟨hlive, hsame⟩
  · -- it kicked out the connection that it was called for
    refine ⟨.empty, by rw [hempty]; rfl, ?_⟩
    rw [← hempty, setClient_same]
    refine hcalled.said fun j hj => silent_handled ?_
    intro hc
    rw [hc, live, hempty] at hj
    exact hj.2 rfl
  · obtain ⟨c, hrem, hfd, hrest, hlen⟩ := ncmdRemove_front shrunk (h.block i hi) hk hpos hshrunk
    have hfd' : c.fd = ((t.called call).clients i).fd := by rw [hfd, hsame]
    refine ⟨c, by rw [hsame, hrem], ?_⟩
    refine hcalled.write hlive hfd' hlen (fun j hj => silent_handled hj) ?_
    have hstream := hcalled.stream i hlive
    have htook : (Action.handled i ((t.clients i).buf.bytes.take k)).took i
        = (t.clients i).buf.bytes.take k := if_pos rfl
    rw [hsame] at hstream
    rw [receivedOn, handledSince, since_cons rfl, since_cons rfl, htook, hrest, List.append_assoc,
      List.take_append_drop]
    exact (List.append_nil _).trans hstream

/-- A command is there: the handler is called, and the command is removed. -/
theorem serve_command {k : Int} (call : Handler) (shrunk : Bool)
    (hc : c = (t.clients i).recvbuf rbuf) (hk : ncmdIscomplete c.bytes = some k) (hne : k ≠ 0) :
    t.serve i (.bytes rbuf true call shrunk) =
      ((((t.setClient i c).called call).clients i).ncmdRemove shrunk).map fun c' =>
        (((t.setClient i c).called call).setClient i c',
          .handled i (c.bytes.take k.toNat) ::
            (((call.slot (t.setClient i c)).map Action.closed).toList ++ [.received i rbuf])) := by
  subst hc
  rw [serve, if_pos rfl]
  simp only [setClient_self, hk, Option.bind_eq_bind, Option.bind_some, if_neg hne]
  exact (Option.map_eq_bind ..).symm

theorem serve_none (call : Handler) (shrunk : Bool)
    (hk : ncmdIscomplete ((t.clients i).recvbuf rbuf).bytes = none) :
    t.serve i (.bytes rbuf true call shrunk) = none := by
  simp [serve, hk]

theorem Kept.recvbuf_bytes (h : Kept log t) (hi : t.live i) (rbuf : Bytes) :
    ((t.clients i).recvbuf rbuf).buf.bytes = (t.clients i).buf.bytes ++ rbuf := by
  rw [Sclient.recvbuf, h.bytes hi]
  rfl

/-- Received bytes are appended. -/
theorem Kept.recvbuf (h : Kept log t) (hi : t.live i) (rbuf : Bytes) :
    Kept (.received i rbuf :: log) (t.setClient i ((t.clients i).recvbuf rbuf)) := by
  have hbuf := h.recvbuf_bytes hi rbuf
  refine h.write hi rfl ?_ (fun j hj => silent_received hj) ?_
  · rw [hbuf, List.length_append, h.block i hi]
    rfl
  · have hgot : (Action.received i rbuf).got i = rbuf := if_pos rfl
    have htook : (Action.received i rbuf).took i = [] := rfl
    rw [receivedOn, handledSince, since_cons rfl, since_cons rfl, hgot, htook, hbuf,
      List.append_nil, ← List.append_assoc]
    exact congrArg (· ++ rbuf) (h.stream i hi)

/-- **Serving a slot keeps the table right.** -/
theorem serve_kept (h : Kept log t) (hi : t.live i) {receipt : Receipt}
    (htame : receipt.Tame (t.clients i).bytes) :
    ∃ t' log', t.serve i receipt = some (t', log') ∧ Kept (log' ++ log) t' := by
  cases receipt with
  | error => exact ⟨t, [], rfl, h⟩
  | closed => exact ⟨t.release i, [.closed i], rfl, h.release hi⟩
  | bytes rbuf grown call shrunk =>
      obtain ⟨rfl, k, hk, hshrunk⟩ := htame
      obtain ⟨c, hc⟩ : ∃ c, c = (t.clients i).recvbuf rbuf := ⟨_, rfl⟩
      have hreceived := h.recvbuf hi rbuf
      have hlive : (t.setClient i c).live i := (live_setClient_iff (by rw [hc]; rfl)).mpr hi
      rw [h.bytes hi, ← h.recvbuf_bytes hi rbuf, ← hc] at hk hshrunk
      rw [← hc] at hreceived
      have hbytes : c.bytes = c.buf.bytes := by simpa using hreceived.bytes hlive
      by_cases hk0 : k = 0
      · refine ⟨t.setClient i c, [.received i rbuf], ?_, hreceived⟩
        rw [serve, if_pos rfl, ← hc]
        simp [hbytes, hk, hk0]
      · obtain ⟨c', hrem, hkept⟩ := hreceived.handled hlive (k := k) shrunk
          (by rw [setClient_self]; exact hk) (by omega)
          (by rw [setClient_self]; exact hshrunk (by omega)) call
        have hserve := serve_command call shrunk hc (by rw [hbytes]; exact hk)
          (Int.natCast_ne_zero.mpr hk0)
        rw [hrem, Option.map_some, Int.toNat_natCast, hbytes] at hserve
        rw [setClient_self] at hkept
        refine ⟨_, _, hserve, ?_⟩
        rw [List.cons_append, List.append_assoc]
        exact hkept

/-- What becomes of a slot that bytes arrive for. -/
theorem serve_bytes_cases {t' : Table} {log' : List Action} {grown shrunk : Bool} {call : Handler}
    (h : t.serve i (.bytes rbuf grown call shrunk) = some (t', log')) :
    (log' = [.received i rbuf] ∧ (t' = t ∨ t' = t.setClient i ((t.clients i).recvbuf rbuf))) ∨
      ∃ c cmd, t' = ((t.setClient i ((t.clients i).recvbuf rbuf)).called call).setClient i c ∧
        c.fd = (((t.setClient i ((t.clients i).recvbuf rbuf)).called call).clients i).fd ∧
        log' = .handled i cmd :: (((call.slot (t.setClient i
          ((t.clients i).recvbuf rbuf))).map Action.closed).toList ++ [.received i rbuf]) := by
  cases grown with
  | false =>
      simp only [serve, Bool.false_eq_true, if_false, Option.some.injEq, Prod.mk.injEq] at h
      exact Or.inl ⟨h.2.symm, Or.inl h.1.symm⟩
  | true =>
      cases hk : ncmdIscomplete ((t.clients i).recvbuf rbuf).bytes with
      | none => simp [serve_none call shrunk hk] at h
      | some k =>
          by_cases hk0 : k = 0
          · simp only [serve, if_true, setClient_self, hk, hk0, Option.bind_eq_bind,
              Option.bind_some, Option.some.injEq, Prod.mk.injEq] at h
            exact Or.inl ⟨h.2.symm, Or.inr h.1.symm⟩
          · rw [serve_command call shrunk rfl hk hk0, Option.map_eq_some_iff] at h
            obtain ⟨c, hrem, heq⟩ := h
            rw [Prod.mk.injEq] at heq
            exact Or.inr ⟨c, _, heq.1.symm, ncmdRemove_fd hrem, heq.2.symm⟩

/-- The slots but `i` are as they were, or their connections have been closed. -/
theorem serve_spares {t' : Table} {log' : List Action} {receipt : Receipt}
    (h : t.serve i receipt = some (t', log')) (hj : j ≠ i) (hlive : t'.live j) :
    t.live j ∧ t'.clients j = t.clients j := by
  have hwrite : ∀ {t : Table} {c : Sclient}, (t.setClient i c).live j →
      t.live j ∧ (t.setClient i c).clients j = t.clients j := by
    intro t c hlive
    have heq := setClient_ne t c hj
    exact ⟨by rw [live, ← heq]; exact hlive, heq⟩
  have hrelease : ∀ {t : Table} {k : Slot}, (t.release k).live j →
      t.live j ∧ (t.release k).clients j = t.clients j := by
    intro t k hlive
    obtain ⟨hne, hlive⟩ := live_release_iff.mp hlive
    exact ⟨hlive, release_ne t hne⟩
  cases receipt with
  | error =>
      obtain ⟨rfl, -⟩ : t = t' ∧ [] = log' := by simpa [serve] using h
      exact ⟨hlive, rfl⟩
  | closed =>
      obtain ⟨rfl, -⟩ : t.release i = t' ∧ [.closed i] = log' := by simpa [serve] using h
      exact hrelease hlive
  | bytes rbuf grown call shrunk =>
      rcases serve_bytes_cases h with ⟨-, rfl | rfl⟩ | ⟨c, cmd, rfl, -, -⟩
      · exact ⟨hlive, rfl⟩
      · exact hwrite hlive
      · obtain ⟨hcalled, heq⟩ := hwrite hlive
        rw [heq]
        obtain ⟨hlive', heq'⟩ : (t.setClient i ((t.clients i).recvbuf rbuf)).live j ∧
            ((t.setClient i ((t.clients i).recvbuf rbuf)).called call).clients j
              = (t.setClient i ((t.clients i).recvbuf rbuf)).clients j := by
          unfold Table.called at hcalled ⊢
          cases hslot : call.slot (t.setClient i ((t.clients i).recvbuf rbuf)) with
          | none =>
              rw [hslot] at hcalled
              exact ⟨hcalled, rfl⟩
          | some k =>
              rw [hslot] at hcalled
              exact hrelease hcalled
        rw [heq']
        exact hwrite hlive'

/-! ### A round -/

/-- The loop over the slots, with each slot as it was at the start or gone. -/
theorem serveAll_kept (r : Round) (is : List Slot) : ∀ {t : Table} {log : List Action},
    Kept log t → is.Nodup →
    (∀ i ∈ is, t.live i → (t.clients i).fd ∈ r.ready → (r.recv i).Tame (t.clients i).bytes) →
    ∃ t' log', serveAll r is t = some (t', log') ∧ Kept (log' ++ log) t' := by
  induction is with
  | nil => intro t log h _ _; exact ⟨t, [], rfl, h⟩
  | cons i is ih =>
      intro t log h hnodup htame
      obtain ⟨hi, hnodup⟩ := List.nodup_cons.mp hnodup
      rw [serveAll]
      by_cases hready : t.live i ∧ (t.clients i).fd ∈ r.ready
      · obtain ⟨t₁, log₁, hserve, hkept⟩ :=
          serve_kept h hready.1 (htame i List.mem_cons_self hready.1 hready.2)
        obtain ⟨t₂, log₂, hall, hkept₂⟩ := ih hkept hnodup (by
          intro j hj hlive hfd
          have hne : j ≠ i := fun hc => hi (hc ▸ hj)
          obtain ⟨hlive', heq⟩ := serve_spares hserve hne hlive
          rw [heq] at hfd ⊢
          exact htame j (List.mem_cons_of_mem _ hj) hlive' hfd)
        refine ⟨t₂, log₂ ++ log₁, ?_, ?_⟩
        · rw [if_pos hready, hserve]
          simp [hall]
        · rw [List.append_assoc]
          exact hkept₂
      · rw [if_neg hready]
        exact ih h hnodup fun j hj => htame j (List.mem_cons_of_mem _ hj)

/-- An accept leaves the connections that are ready alone. -/
theorem welcome_kept (h : Kept log t) {r : Round} (hr : t.Enabled r) (htame : r.Tame t) :
    ∃ t' log', t.welcome r = some (t', log') ∧ Kept (log' ++ log) t' ∧
      ∀ i, t'.live i → (t'.clients i).fd ∈ r.ready → t.live i ∧ t'.clients i = t.clients i := by
  obtain ⟨hready, hopen, -⟩ := hr
  by_cases hserv : t.servfd ∈ r.ready
  · rw [welcome, if_pos hserv, accept]
    cases hslot : t.acceptSlot with
    | none =>
        exact ⟨t, [.refused], rfl, h.said fun i _ => silent_refused i, fun i hi _ => ⟨hi, rfl⟩⟩
    | some i =>
        cases hacc : r.accepted with
        | none => exact ⟨t, [], rfl, h, fun j hj _ => ⟨hj, rfl⟩⟩
        | some newfd =>
            obtain ⟨hfd, hnew⟩ := hopen newfd (by rw [hacc]; rfl)
            have hfits : newfd < fdSetsize := by
              refine htame.fits hserv ?_ newfd (by rw [hacc]; rfl)
              by_contra hfull
              rw [acceptSlot, dif_neg hfull] at hslot
              simp at hslot
            refine ⟨t.seat i newfd, [.accepted i newfd], if_neg (by omega),
              h.seat hslot hfd hnew, fun j hj hready' => ?_⟩
            rcases (live_seat_iff hslot hfd).mp hj with rfl | hj
            · -- the new connection is not among those that select has told of
              rw [seat_self] at hready'
              exact absurd (h.master_opened (hready hready')) hnew
            · have hne : j ≠ i := fun hc => not_live_acceptSlot hslot (hc ▸ hj)
              exact ⟨hj, seat_ne t newfd hne⟩
  · rw [welcome, if_neg hserv]
    exact ⟨t, [], rfl, h, fun i hi _ => ⟨hi, rfl⟩⟩

/-- **A round keeps the table right.** -/
theorem round_kept (h : Kept log t) {r : Round} (hr : t.Enabled r) (htame : r.Tame t) :
    ∃ t' log', t.round r = some (t', log') ∧ Kept (log' ++ log) t' := by
  obtain ⟨t₁, log₁, hwelcome, hkept, hsame⟩ := welcome_kept h hr htame
  obtain ⟨t₂, log₂, hall, hkept₂⟩ := serveAll_kept r (List.finRange maxClients) hkept
    (List.nodup_finRange _) (by
      intro i _ hi hfd
      obtain ⟨hi', heq⟩ := hsame i hi hfd
      rw [heq] at hfd ⊢
      exact htame.bytes i hi' hfd)
  refine ⟨t₂, log₂ ++ log₁, ?_, ?_⟩
  · simp [Table.round, hwelcome, hall]
  · rw [List.append_assoc]
    exact hkept₂

/-! ### Rounds with one thing to do -/

theorem serveAll_skip {r : Round} {is js : List Slot}
    (h : ∀ i ∈ is, t.live i → (t.clients i).fd ∉ r.ready) :
    serveAll r (is ++ js) t = serveAll r js t := by
  induction is with
  | nil => rfl
  | cons i is ih =>
      rw [List.cons_append, serveAll, if_neg fun hready =>
        h i List.mem_cons_self hready.1 hready.2]
      exact ih fun j hj => h j (List.mem_cons_of_mem _ hj)

theorem serveAll_quiet {r : Round} {is : List Slot}
    (h : ∀ i ∈ is, t.live i → (t.clients i).fd ∉ r.ready) : serveAll r is t = some (t, []) := by
  have hskip : serveAll r (is ++ []) t = serveAll r [] t := serveAll_skip h
  rw [List.append_nil] at hskip
  exact hskip

theorem round_quiet {t' : Table} {r : Round} (hw : t.welcome r = some (t', log))
    (h : ∀ i, t'.live i → (t'.clients i).fd ∉ r.ready) : t.round r = some (t', log) := by
  rw [Table.round, hw]
  simp [serveAll_quiet fun i (_ : i ∈ List.finRange maxClients) => h i]

/-- Only the connection in slot `i` is ready. -/
theorem round_one {r : Round} (hserv : t.servfd ∉ r.ready) (hi : t.live i)
    (hfd : (t.clients i).fd ∈ r.ready)
    (hother : ∀ j, j ≠ i → t.live j → (t.clients j).fd ∉ r.ready) :
    t.round r = t.serve i (r.recv i) := by
  obtain ⟨before, after, hall⟩ := List.append_of_mem (List.mem_finRange i)
  have hnodup := List.nodup_finRange maxClients
  rw [hall, List.nodup_append] at hnodup
  obtain ⟨-, hafter, hbefore⟩ := hnodup
  have hskip : serveAll r (before ++ i :: after) t = serveAll r (i :: after) t := by
    refine serveAll_skip fun j hj => hother j fun hc => ?_
    exact hbefore j hj i List.mem_cons_self hc
  rw [Table.round, welcome, if_neg hserv, hall]
  simp only [Option.bind_eq_bind, Option.bind_some, hskip, serveAll, if_pos (And.intro hi hfd)]
  cases hserve : t.serve i (r.recv i) with
  | none => rfl
  | some p =>
      obtain ⟨t', log'⟩ := p
      have hquiet : serveAll r after t' = some (t', []) := by
        refine serveAll_quiet fun j hj hlive => ?_
        have hne : j ≠ i := fun hc => (List.nodup_cons.mp hafter).1 (hc ▸ hj)
        obtain ⟨hlive', heq⟩ := serve_spares hserve hne hlive
        rw [heq]
        exact hother j hne hlive'
      simp [hquiet]

/-! ### Runs -/

theorem selectLoop_step {r : Round} (hr : t.Enabled r) : selectLoop.step t r = t.round r :=
  if_pos hr

theorem step_kept (h : Kept log t) {r : Round} {t' : Table} {log' : List Action}
    (hstep : selectLoop.step t r = some (t', log')) (htame : r.Tame t) :
    Kept (log' ++ log) t' := by
  simp only [selectLoop, Option.ite_none_right_eq_some] at hstep
  obtain ⟨henabled, hround⟩ := hstep
  obtain ⟨t₁, log₁, hround', hkept⟩ := round_kept h henabled htame
  rw [hround, Option.some.injEq, Prod.mk.injEq] at hround'
  rw [hround'.1, hround'.2]
  exact hkept

theorem run_kept {hist : List (Step Table Round (List Action))} (hrun : Run selectLoop hist t)
    (htame : ∀ st ∈ hist, st.ev.Tame st.pre) : Kept (actions hist) t := by
  obtain ⟨t₀, ⟨servfd, opened, -, hserv, rfl⟩, hx⟩ := hrun
  refine hx.history (fun hist t => Kept (actions hist) t) (fun st => st.ev.Tame st.pre)
    (kept_initial hserv) ?_ htame
  intro hist t r t' log h hstep hr
  exact step_kept h hstep hr

/-! ### One connection -/

/-- A connection arrives and nothing else happens. -/
def arrival (t : Table) (newfd : Int) : Round := ⟨{t.servfd}, some newfd, fun _ => .error⟩

/-- Nothing happens but on the connection in slot `i`. -/
def turnOf (t : Table) (i : Slot) (receipt : Receipt) : Round :=
  ⟨{(t.clients i).fd}, none, fun _ => receipt⟩

theorem acceptSlot_next (hlt : t.numClients < maxClients)
    (h : ∀ i : Slot, i.val < t.numClients → t.live i) :
    t.acceptSlot = some ⟨t.numClients, hlt⟩ := by
  obtain ⟨i, hi⟩ : ∃ i, t.acceptSlot = some i := ⟨_, dif_pos hlt⟩
  rcases acceptSlot_spec hi with ⟨hlow, hdead⟩ | heq
  · exact absurd hdead (h i hlow).2
  · rw [hi]
    exact congrArg some (Fin.ext heq)

/-- A round in which a connection arrives is what becomes of the connection. -/
theorem step_arrival (h : Kept log t) (hfd : 0 ≤ newfd) (hopen : newfd ∉ t.opened)
    (hfits : newfd < fdSetsize) :
    selectLoop.step t (arrival t newfd) = t.accept (some newfd) := by
  have henabled : t.Enabled (arrival t newfd) := by
    refine ⟨Finset.singleton_subset_iff.mpr ((h.master _).mpr (Or.inl rfl)), ?_, fun _ => rfl⟩
    intro fd hmem
    obtain rfl : newfd = fd := by simpa [arrival] using hmem
    exact ⟨hfd, hopen⟩
  have hready : t.servfd ∈ (arrival t newfd).ready := Finset.mem_singleton_self _
  have hwelcome : t.welcome (arrival t newfd) = t.accept (some newfd) := if_pos hready
  obtain ⟨t', log', haccept, hkept, hserv⟩ : ∃ t' log', t.accept (some newfd) = some (t', log') ∧
      Kept (log' ++ log) t' ∧ t'.servfd = t.servfd := by
    cases hslot : t.acceptSlot with
    | none =>
        refine ⟨t, [.refused], by rw [accept, hslot], h.said fun i _ => silent_refused i, rfl⟩
    | some i =>
        refine ⟨t.seat i newfd, [.accepted i newfd], ?_, h.seat hslot hfd hopen, rfl⟩
        rw [accept, hslot]
        exact if_neg (by omega)
  rw [selectLoop_step henabled, haccept]
  refine round_quiet (hwelcome.trans haccept) fun j hj hmem => ?_
  exact hkept.apart j hj ((Finset.mem_singleton.mp hmem).trans hserv.symm)

theorem accept_some (hslot : t.acceptSlot = some i) (hfits : newfd < fdSetsize) :
    t.accept (some newfd) = some (t.seat i newfd, [.accepted i newfd]) := by
  rw [accept, hslot]
  exact if_neg (by omega)

theorem enabled_turnOf (h : Kept log t) (hi : t.live i) {receipt : Receipt}
    (hfits : receipt.fits = true) : t.Enabled (turnOf t i receipt) := by
  refine ⟨Finset.singleton_subset_iff.mpr ((h.master _).mpr (Or.inr ⟨i, hi, rfl⟩)), ?_,
    fun _ => hfits⟩
  intro fd hmem
  simp [turnOf] at hmem

theorem step_turnOf (h : Kept log t) (hi : t.live i) {receipt : Receipt}
    (hfits : receipt.fits = true) :
    selectLoop.step t (turnOf t i receipt) = t.serve i receipt := by
  rw [selectLoop_step (enabled_turnOf h hi hfits)]
  refine round_one ?_ hi (Finset.mem_singleton_self _) fun j hj hlive hready => ?_
  · exact fun hready => h.apart i hi (Finset.mem_singleton.mp hready).symm
  · exact hj (h.distinct j i hlive hi (Finset.mem_singleton.mp hready))

theorem tame_arrival (hfits : newfd < fdSetsize) : (arrival t newfd).Tame t := by
  refine ⟨fun _ _ fd hmem => ?_, fun _ _ _ => trivial⟩
  obtain rfl : newfd = fd := by simpa [arrival] using hmem
  exact hfits

theorem tame_turnOf (h : Kept log t) (hi : t.live i) {receipt : Receipt}
    (htame : receipt.Tame (t.clients i).bytes) : (turnOf t i receipt).Tame t := by
  refine ⟨fun _ _ fd hmem => by simp [turnOf] at hmem, fun j hj hready => ?_⟩
  rw [h.distinct j i hj hi (Finset.mem_singleton.mp hready)]
  exact htame

/-- The listening socket on descriptor 3, and the first connection on descriptor 4. -/
def firstTable : Table := (Table.initial 3 {0, 1, 2, 3}).seat ⟨0, by decide⟩ 4

def firstSteps : List (Step Table Round (List Action)) :=
  [⟨.initial 3 {0, 1, 2, 3}, arrival (.initial 3 {0, 1, 2, 3}) 4, firstTable,
    [.accepted ⟨0, by decide⟩ 4]⟩]

theorem run_first : Run selectLoop firstSteps firstTable := by
  have hinit : selectLoop.init (.initial 3 {0, 1, 2, 3}) := ⟨3, _, by decide, by decide, rfl⟩
  refine Run.snoc ⟨_, hinit, .nil⟩ ((step_arrival (kept_initial (by decide)) (by decide)
    (by decide) (by decide)).trans (accept_some ?_ (by decide)))
  exact acceptSlot_next (by decide) fun i hi => absurd hi (Nat.not_lt_zero _)

theorem tame_first : ∀ st ∈ firstSteps, st.ev.Tame st.pre := by
  intro st hst
  obtain rfl := List.mem_singleton.mp hst
  exact tame_arrival (by decide)

/-- **In every run of rounds in which nothing goes wrong, the table is right at every loop
head**, and the next such round has an outcome. -/
theorem slotTable_kept {hist : List (Step Table Round (List Action))} {t : Table}
    (hrun : Run selectLoop hist t) (htame : ∀ st ∈ hist, st.ev.Tame st.pre) :
    SlotTable (actions hist) t ∧
      ∀ r, t.Enabled r → r.Tame t → ∃ t' log, selectLoop.step t r = some (t', log) := by
  have h := run_kept hrun htame
  refine ⟨h.toSlotTable, fun r hr hr' => ?_⟩
  obtain ⟨t', log, hround, -⟩ := round_kept h hr hr'
  exact ⟨t', log, (selectLoop_step hr).trans hround⟩

/-- A handler that tells the connection in the second slot to be kicked out. -/
def kicksSecond : Handler := ⟨fun t => if h : t.live ⟨1, by decide⟩ then some ⟨_, h⟩ else none, ∅⟩

/-- Two connections; a command comes on the first one with two bytes of the next, and its
handler kicks out the second one. -/
theorem slotTable_kept_kick : ∃ hist t, Run selectLoop hist t ∧
    .handled ⟨0, by decide⟩ [0, 19, 0, 0] ∈ actions hist ∧
    .closed ⟨1, by decide⟩ ∈ actions hist ∧ t.live ⟨0, by decide⟩ ∧ ¬ t.live ⟨1, by decide⟩ ∧
    (t.clients ⟨0, by decide⟩).bytes = [0, 29] ∧ SlotTable (actions hist) t ∧
    ∀ r, t.Enabled r → r.Tame t → ∃ t' log, selectLoop.step t r = some (t', log) := by
  let second := firstTable.seat ⟨1, by decide⟩ 5
  let receipt := Receipt.bytes [0, 19, 0, 0, 0, 29] true kicksSecond true
  have hkept := run_kept run_first tame_first
  have harrives : selectLoop.step firstTable (arrival firstTable 5)
      = some (second, [.accepted ⟨1, by decide⟩ 5]) :=
    (step_arrival hkept (by decide) (by decide) (by decide)).trans
      (accept_some (acceptSlot_next (by decide) (by decide)) (by decide))
  have htame : ∀ st ∈ ⟨firstTable, arrival firstTable 5, second, [.accepted ⟨1, by decide⟩ 5]⟩
      :: firstSteps, st.ev.Tame st.pre :=
    List.forall_mem_cons.mpr ⟨tame_arrival (by decide), tame_first⟩
  have hkept' := run_kept (run_first.snoc harrives) htame
  have hlive : second.live ⟨0, by decide⟩ := by decide
  have hserve : (second.serve ⟨0, by decide⟩ receipt).any (fun r =>
      decide (.handled ⟨0, by decide⟩ [0, 19, 0, 0] ∈ r.2 ∧ .closed ⟨1, by decide⟩ ∈ r.2 ∧
        r.1.live ⟨0, by decide⟩ ∧ ¬ r.1.live ⟨1, by decide⟩ ∧
        (r.1.clients ⟨0, by decide⟩).bytes = [0, 29])) = true := by
    decide
  obtain ⟨⟨t, log⟩, ht, hfacts⟩ := (Option.any_eq_true _ _).mp hserve
  obtain ⟨hhandled, hclosed, hzero, hone, hbytes⟩ := of_decide_eq_true hfacts
  have hrun := (run_first.snoc harrives).snoc ((step_turnOf hkept' hlive rfl).trans ht)
  have hturn : (turnOf second ⟨0, by decide⟩ receipt).Tame second :=
    tame_turnOf hkept' hlive ⟨rfl, 4, by decide, fun _ _ => rfl⟩
  refine ⟨_, t, hrun, ?_, ?_, hzero, hone, hbytes,
    slotTable_kept hrun (List.forall_mem_cons.mpr ⟨hturn, htame⟩)⟩
  · exact List.mem_append_left _ hhandled
  · exact List.mem_append_left _ hclosed

/-- Bytes are received that there is no memory for, and the table is wrong at the next loop
head.  A command whose argument has a length of 2^32 - 16 leads to none: the loop would move
memory from in front of the buffer. -/
theorem not_always_kept :
    (¬ ∀ hist t, Run selectLoop hist t → SlotTable (actions hist) t) ∧
      ¬ ∀ hist t, Run selectLoop hist t →
        ∀ r, t.Enabled r → ∃ t' log, selectLoop.step t r = some (t', log) := by
  have hkept := run_kept run_first tame_first
  have hlive : firstTable.live ⟨0, by decide⟩ := by decide
  refine ⟨fun h => ?_, fun h => ?_⟩
  · have hfits : (Receipt.bytes [0] false ⟨fun _ => none, ∅⟩ true).fits = true := by decide
    have hstep : selectLoop.step firstTable _ = some (firstTable, [.received ⟨0, by decide⟩ [0]]) :=
      (step_turnOf hkept hlive hfits).trans rfl
    have hstream := (h _ _ (run_first.snoc hstep)).stream ⟨0, by decide⟩ hlive
    exact absurd hstream (by decide)
  · have hfits : (Receipt.bytes [0, 29, 0, 1, 255, 255, 255, 240] true
        ⟨fun _ => none, ∅⟩ true).fits = true := by decide
    obtain ⟨t', log, hstep⟩ := h _ _ run_first _ (enabled_turnOf hkept hlive hfits)
    rw [step_turnOf hkept hlive hfits, serve_none _ _ (by decide)] at hstep
    simp at hstep

end Smsg
