/-
The client table, and the loop over bytes against the server over commands.

What an event does to the table is said slot by slot: an accepted connection goes
into a slot that was not live, and a close empties one slot.  Every event of
`runserver` is an event of `server`, or leaves everything but a receive buffer
alone (`runserver_refines`), so what holds in every run of the second holds for
the first.
-/
import Smsg.Runserver

namespace Smsg

open Machines

namespace Server

variable {s : Server} {i j : Slot}

/-! ### One slot written -/

@[simp] theorem setClient_self (s : Server) (i : Slot) (c : Client) :
    (s.setClient i c).clients i = c := by
  simp [setClient]

@[simp] theorem setClient_ne (s : Server) {i j : Slot} (c : Client) (h : j ≠ i) :
    (s.setClient i c).clients j = s.clients j := by
  simp [setClient, h]

@[simp] theorem closeSlot_fd_self (s : Server) (i : Slot) :
    ((s.closeSlot i).clients i).fd = -1 := by
  simp [closeSlot]

@[simp] theorem closeSlot_ne (s : Server) {i j : Slot} (h : j ≠ i) :
    (s.closeSlot i).clients j = s.clients j := by
  simp [closeSlot, h]

@[simp] theorem closeSlot_numClients (s : Server) (i : Slot) :
    (s.closeSlot i).numClients = s.numClients := rfl

@[simp] theorem closeSlot_udata (s : Server) (i : Slot) : (s.closeSlot i).udata = s.udata := rfl

theorem not_live_closeSlot (s : Server) (i : Slot) : ¬ (s.closeSlot i).live i :=
  fun h => h.2 (closeSlot_fd_self s i)

theorem live_closeSlot_iff (s : Server) (i j : Slot) :
    (s.closeSlot i).live j ↔ j ≠ i ∧ s.live j := by
  by_cases hij : j = i
  · subst hij
    exact ⟨fun h => absurd h (not_live_closeSlot s j), fun h => absurd rfl h.1⟩
  · rw [live, closeSlot_ne s hij, closeSlot_numClients]
    exact ⟨fun h => ⟨hij, h⟩, fun h => h.2⟩

/-! ### Accepting -/

theorem acceptSlot_spec (h : s.acceptSlot = some i) :
    (i.val < s.numClients ∧ (s.clients i).fd = -1) ∨ i.val = s.numClients := by
  unfold acceptSlot at h
  split at h
  · cases hf : (List.finRange maxClients).find? fun i =>
        decide (i.val < s.numClients) && (s.clients i).fd == -1 with
    | none =>
        rw [hf, Option.some.injEq] at h
        subst h
        exact Or.inr rfl
    | some k =>
        rw [hf, Option.some.injEq] at h
        obtain rfl : k = i := h
        have := List.find?_some hf
        simp only [Bool.and_eq_true, decide_eq_true_eq, beq_iff_eq] at this
        exact Or.inl this
  · simp at h

theorem not_live_acceptSlot (h : s.acceptSlot = some i) : ¬ s.live i := by
  intro hl
  rcases acceptSlot_spec h with h' | h'
  · exact hl.2 h'.2
  · exact absurd hl.1 (by omega)

theorem accept_none (h : s.acceptSlot = none) (newfd : Int) (peer : InAddr) :
    s.accept newfd peer = (s, [.close newfd]) := by
  rw [accept, h]

theorem accept_clients (h : s.acceptSlot = some i) (newfd : Int) (peer : InAddr) (j : Slot) :
    (s.accept newfd peer).1.clients j = if j = i then ⟨newfd, peer⟩ else s.clients j := by
  simp only [accept, h]
  split <;> rfl

theorem accept_udata (s : Server) (newfd : Int) (peer : InAddr) :
    (s.accept newfd peer).1.udata = s.udata := by
  unfold accept
  split
  · rfl
  · split <;> rfl

theorem accept_servfd (s : Server) (newfd : Int) (peer : InAddr) :
    (s.accept newfd peer).1.servfd = s.servfd := by
  unfold accept
  split
  · rfl
  · split <;> rfl

theorem accept_numClients (h : s.acceptSlot = some i) (newfd : Int) (peer : InAddr) :
    (s.accept newfd peer).1.numClients
      = if i.val = s.numClients then s.numClients + 1 else s.numClients := by
  simp only [accept, h]
  split <;> rfl

theorem live_accept_iff (h : s.acceptSlot = some i) {newfd : Int} (hfd : newfd ≠ -1)
    (peer : InAddr) (j : Slot) :
    (s.accept newfd peer).1.live j ↔ j = i ∨ s.live j := by
  have hspec := acceptSlot_spec h
  rw [live, accept_clients h, accept_numClients h]
  by_cases hij : j = i
  · subst hij
    simp only [if_true, true_or, iff_true]
    refine ⟨?_, hfd⟩
    split <;> omega
  · have hne : j.val ≠ i.val := fun hc => hij (Fin.ext hc)
    simp only [hij, if_false, false_or]
    rw [live]
    refine and_congr_left fun _ => ?_
    split <;> omega

/-! ### Closing and kicking -/

theorem peerClosed_server (s : Server) (i : Slot) (alloc : Alloc) :
    (s.peerClosed i alloc).1 = { s.closeSlot i with udata := (s.peerClosed i alloc).1.udata } := by
  unfold peerClosed
  dsimp only
  split
  · rfl
  · split <;> rfl

theorem kick_none (s : Server) {retval : Int} (h : kicked retval = none) : s.kick retval = s := by
  rw [kick, h]

theorem kick_some (s : Server) {retval : Int} {r : Slot} (h : kicked retval = some r) :
    s.kick retval = s.closeSlot r := by
  rw [kick, h]

@[simp] theorem kick_numClients (s : Server) (retval : Int) :
    (s.kick retval).numClients = s.numClients := by
  unfold kick
  split <;> rfl

end Server

/-! ### The loop refines the server -/

theorem Loop.settle_server {l l' : Loop} {i : Slot} {o : Outcome} {effects : List Effect}
    (h : l.settle i o = some (l', effects)) : l.server.settle o = (l'.server, effects) := by
  simp only [Loop.settle, Option.bind_eq_bind, Option.bind_eq_some_iff, Option.some.injEq,
    Prod.mk.injEq] at h
  obtain ⟨_, _, rfl, rfl⟩ := h
  rfl

/-- A receive hands a command to the server or leaves it alone. -/
theorem Loop.receive_server {l l' : Loop} {i : Slot} {rbuf : Bytes} {env : Env} {out : LoopOut}
    (h : l.receive i rbuf env = some (l', out)) :
    l'.server = l.server ∨
      ∃ c, decode (recvbuf (l.bufs i) rbuf) = some c ∧
        l.server.handle i c env = some (l'.server, out.effects) := by
  simp only [Loop.receive, Option.bind_eq_bind, Option.bind_eq_some_iff] at h
  obtain ⟨k, -, h⟩ := h
  split at h
  · simp only [Option.some.injEq, Prod.mk.injEq] at h
    exact Or.inl (by rw [← h.1]; rfl)
  · right
    simp only [Option.bind_eq_some_iff] at h
    obtain ⟨c, hc, h⟩ := h
    refine ⟨c, by simpa [Loop.setBuf] using hc, ?_⟩
    split at h
    · simp at h
    · rename_i o ho
      simp only [Option.bind_eq_some_iff, Option.some.injEq, Prod.mk.injEq] at h
      obtain ⟨⟨l₁, effects⟩, hs, rfl, rfl⟩ := h
      have hsettle := Loop.settle_server hs
      rw [Server.handle, show lsHandleNetcmd (l.server.call i c env) = .ok o from ho]
      exact congrArg some hsettle

/-- **Every event of the loop is an event of the server, or invisible to it.** -/
theorem runserver_refines (mem : Memory) :
    Simulation (runserver mem) (server mem) (fun _ => True) (fun _ => True)
      (fun l s => l.server = s) where
  init := by
    intro l hl
    obtain ⟨servfd, hfd, rfl⟩ := hl
    exact ⟨_, ⟨servfd, hfd, rfl⟩, rfl⟩
  step := by
    intro l s e l' out heq h _
    subst heq
    cases e with
    | accept newfd peer =>
        simp only [runserver, Loop.step, Option.ite_none_right_eq_some, Option.some.injEq,
          Prod.mk.injEq] at h
        obtain ⟨hfresh, rfl, -⟩ := h
        refine Or.inr ⟨.accept newfd peer, (l.accept newfd peer).server,
          (l.server.accept newfd peer).2, ?_, trivial, rfl⟩
        have hs : (l.accept newfd peer).server = (l.server.accept newfd peer).1 := by
          unfold Loop.accept
          cases hslot : l.server.acceptSlot with
          | none => rw [Server.accept_none hslot]
          | some i => rfl
        rw [hs]
        exact if_pos hfresh
    | recvError i =>
        simp only [runserver, Loop.step, Option.ite_none_right_eq_some, Option.some.injEq,
          Prod.mk.injEq] at h
        exact Or.inl (by rw [h.2.1])
    | closed i alloc =>
        simp only [runserver, Loop.step, Option.ite_none_right_eq_some, Option.some.injEq,
          Prod.mk.injEq] at h
        obtain ⟨hok, rfl, -⟩ := h
        exact Or.inr ⟨.closed i alloc, _, _, if_pos hok, trivial, rfl⟩
    | recv i rbuf env =>
        simp only [runserver, Loop.step, Option.ite_none_right_eq_some] at h
        obtain ⟨⟨hlive, hmem, -, -⟩, h⟩ := h
        rcases Loop.receive_server h with hsame | ⟨c, -, hhandle⟩
        · exact Or.inl hsame
        · refine Or.inr ⟨.netcmd i c env, l'.server, out.effects, ?_, trivial, rfl⟩
          simp only [server, Server.step, if_pos (And.intro hlive hmem)]
          exact hhandle

end Smsg
