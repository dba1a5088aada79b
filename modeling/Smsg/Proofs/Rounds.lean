/-
The loop over single actions, and the select loop over rounds.

`runserver` takes one action at a time, and its handlers are the handlers of the
source.  Each of its actions is a round of the select loop in which one descriptor is
ready (`runserver_rounds`).  What the select loop leaves open, the connection that a
handler kicks out, is then what `handle_chatcmd` has found in the table: always one
that is live.
-/
import Smsg.Proofs.Select
import Smsg.Proofs.Events

namespace Smsg

open Machines Table

/-- The two loops have the same variables. -/
structure Same (l : Loop) (t : Table) : Prop where
  servfd : t.servfd = l.server.servfd
  numClients : t.numClients = l.server.numClients
  fds : ∀ i, (t.clients i).fd = (l.server.clients i).fd
  bufs : ∀ i, t.live i → (t.clients i).buf.bytes = l.bufs i
  master : t.master = l.master
  maxfd : t.maxfd = l.maxfd
  opened : ∀ fd ∈ t.opened, fd = t.servfd ∨ ∃ i, t.live i ∧ (t.clients i).fd = fd

/-- A descriptor fits the set, and `ncmd_iscomplete` finds a command in the buffer or none. -/
def LoopEvent.Tame (l : Loop) : LoopEvent → Prop
  | .accept newfd _ => newfd < fdSetsize
  | .recv i rbuf _ => ∃ k : Nat, ncmdIscomplete (l.bufs i ++ rbuf) = some (k : Int)
  | _ => True

variable {l l' : Loop} {t t' : Table} {i j : Slot} {log : List Action} {newfd : Int}

theorem Same.live_iff (h : Same l t) (i : Slot) : t.live i ↔ l.server.live i := by
  rw [live, Server.live, h.numClients, h.fds]

theorem Same.acceptSlot (h : Same l t) : t.acceptSlot = l.server.acceptSlot := by
  simp only [Table.acceptSlot, Server.acceptSlot, h.numClients, h.fds]

theorem Same.not_opened (h : Same l t) (hfresh : l.server.fresh newfd) : newfd ∉ t.opened := by
  intro hopen
  rcases h.opened newfd hopen with hserv | ⟨i, hi, hfd⟩
  · have := hfresh.1
    rw [hserv, h.servfd] at this
    omega
  · rw [h.fds] at hfd
    exact hfresh.2 i ((h.live_iff i).mp hi) hfd

/-! ### One action -/

theorem same_initial {servfd : Int} : Same (.initial servfd) (.initial servfd {servfd}) where
  servfd := rfl
  numClients := rfl
  fds := fun _ => rfl
  bufs := fun _ hi => absurd hi.1 (Nat.not_lt_zero _)
  master := rfl
  maxfd := rfl
  opened := fun _ hfd => Or.inl (Finset.mem_singleton.mp hfd)

theorem Same.seat (h : Same l t) (hslot : t.acceptSlot = some i) (hfd : 0 ≤ newfd)
    (peer : InAddr) : Same (l.accept newfd peer) (t.seat i newfd) := by
  have hslot' : l.server.acceptSlot = some i := h.acceptSlot ▸ hslot
  have hlive : ∀ {j}, (t.seat i newfd).live j ↔ j = i ∨ t.live j := live_seat_iff hslot hfd
  have hold : ∀ {j}, t.live j → j ≠ i := fun hj hc => not_live_acceptSlot hslot (hc ▸ hj)
  rw [Loop.accept, hslot']
  refine ⟨?_, ?_, ?_, ?_, ?_, ?_, ?_⟩
  · exact h.servfd.trans (Server.accept_servfd l.server newfd peer).symm
  · rw [Server.accept_numClients hslot', ← h.numClients]
    rfl
  · intro j
    rw [Server.accept_clients hslot']
    by_cases hj : j = i
    · rw [if_pos hj, hj, seat_self]
    · rw [if_neg hj, seat_ne t newfd hj, h.fds]
  · intro j hj
    by_cases hji : j = i
    · rw [hji, seat_self]
      exact (if_pos rfl).symm
    · rw [seat_ne t newfd hji]
      exact (h.bufs j ((hlive.mp hj).resolve_left hji)).trans (if_neg hji).symm
  · show insert newfd t.master = insert newfd l.master
    rw [h.master]
  · show (if t.maxfd < newfd then newfd else t.maxfd) = if l.maxfd < newfd then newfd else l.maxfd
    rw [h.maxfd]
  · intro fd hmem
    rcases Finset.mem_insert.mp hmem with rfl | hmem
    · exact Or.inr ⟨i, hlive.mpr (Or.inl rfl), by rw [seat_self]⟩
    · rcases h.opened fd hmem with hserv | ⟨j, hj, heq⟩
      · exact Or.inl hserv
      · exact Or.inr ⟨j, hlive.mpr (Or.inr hj), by rw [seat_ne t newfd (hold hj), heq]⟩

/-- A buffer is written to; what is in the buffer of a slot that is not live does not matter. -/
theorem Same.write (h : Same l t) {c : Sclient} {buf : Bytes} (hfd : c.fd = (t.clients i).fd)
    (hbuf : t.live i → c.buf.bytes = buf) : Same (l.setBuf i buf) (t.setClient i c) := by
  have hlive : ∀ {j}, (t.setClient i c).live j ↔ t.live j := live_setClient_iff hfd
  have hfds := setClient_fd (t := t) hfd
  refine ⟨h.servfd, h.numClients, fun j => (hfds j).trans (h.fds j), ?_, h.master, h.maxfd, ?_⟩
  · intro j hj
    by_cases hji : j = i
    · rw [hji] at hj ⊢
      rw [setClient_self, hbuf (hlive.mp hj)]
      exact (if_pos rfl).symm
    · rw [setClient_ne t c hji]
      exact (h.bufs j (hlive.mp hj)).trans (if_neg hji).symm
  · intro fd hmem
    rcases h.opened fd hmem with hserv | ⟨j, hj, heq⟩
    · exact Or.inl hserv
    · exact Or.inr ⟨j, hlive.mpr hj, by rw [hfds, heq]⟩

/-- A connection is closed. -/
theorem Same.release (h : Same l t) {s' : Server} (hservfd : s'.servfd = l.server.servfd)
    (hnum : s'.numClients = l.server.numClients)
    (hclients : s'.clients = (l.server.closeSlot i).clients) :
    Same { l.clear i with server := s' } (t.release i) := by
  have hne : ∀ {j}, (t.release i).live j → j ≠ i ∧ t.live j := fun hj => live_release_iff.mp hj
  refine ⟨h.servfd.trans hservfd.symm, h.numClients.trans hnum.symm, ?_, ?_, ?_, h.maxfd, ?_⟩
  · intro j
    show ((t.release i).clients j).fd = (s'.clients j).fd
    rw [hclients]
    by_cases hj : j = i
    · rw [hj, release_self, Server.closeSlot_fd_self]
      rfl
    · rw [release_ne t hj, Server.closeSlot_ne _ hj, h.fds]
  · intro j hj
    rw [release_ne t (hne hj).1]
    exact (h.bufs j (hne hj).2).trans (if_neg (hne hj).1).symm
  · show t.master.erase (t.clients i).fd = l.master.erase (l.server.clients i).fd
    rw [h.master, h.fds]
  · intro fd hmem
    obtain ⟨hfd, hmem⟩ := Finset.mem_erase.mp hmem
    rcases h.opened fd hmem with hserv | ⟨j, hj, heq⟩
    · exact Or.inl hserv
    · have hji : j ≠ i := fun hc => hfd (by rw [← heq, hc])
      exact Or.inr ⟨j, live_release_iff.mpr ⟨hji, hj⟩, by rw [release_ne t hji, heq]⟩

/-- The handler that kicks out slot `r` if there is a connection in it. -/
def handlerOf (r : Option Slot) : Handler where
  kick t := r.bind fun r => if h : t.live r then some ⟨r, h⟩ else none
  leaves := ∅

theorem slot_handlerOf {r : Option Slot} (h : ∀ k, r = some k → t.live k) :
    (handlerOf r).slot t = r := by
  cases r with
  | none => rfl
  | some k =>
      have hlive := h k rfl
      simp [Handler.slot, handlerOf, hlive]

/-- The outcome of a call is settled. -/
theorem Same.settle (h : Same l t) {o : Outcome}
    (hlive : ∀ r, Server.kicked o.retval = some r → t.live r) :
    Same { l.kick o.retval with server := (l.server.settle o).1 }
      (t.called (handlerOf (Server.kicked o.retval))) := by
  have hcalled : t.called (handlerOf (Server.kicked o.retval))
      = t.kick (Server.kicked o.retval) := by
    rw [Table.called, slot_handlerOf hlive]
    show { t.kick (Server.kicked o.retval) with
      opened := (t.kick (Server.kicked o.retval)).opened ∪ ∅ } = _
    rw [Finset.union_empty]
  rw [hcalled]
  rcases Server.settle_cases l.server o with ⟨hk, hs⟩ | ⟨r, hk, hs⟩
  · rw [hs, hk, Loop.kick, hk]
    exact ⟨h.servfd, h.numClients, h.fds, h.bufs, h.master, h.maxfd, h.opened⟩
  · rw [hs, hk, Loop.kick, hk]
    exact h.release rfl rfl rfl

/-- What `ncmd_remove` leaves in the two buffers is the same. -/
theorem Same.remove (h : Same l t) (hkept : Kept log t) {k : Nat} {p : Int × Bytes}
    {c : Sclient} (hi : t.live i) (hk : ncmdIscomplete (t.clients i).buf.bytes = some (k : Int))
    (hpos : 0 < k) (hrem : ncmdRemove (l.bufs i) = some p)
    (hc : (t.clients i).ncmdRemove true = some c) : c.buf.bytes = p.2 := by
  obtain ⟨c', hc', -, hrest, -⟩ :=
    ncmdRemove_front true (hkept.block i hi) hk hpos fun _ => rfl
  rw [hc, Option.some.injEq] at hc'
  rw [hc', hrest]
  rw [ncmdRemove, ← h.bufs i hi, hk] at hrem
  have hne : ¬ (k : Int) = 0 := by omega
  have hneg : ¬ (k : Int) < 0 := by omega
  simp only [removeFront, Option.bind_eq_bind, Option.bind_some, if_neg hne, if_neg hneg,
    Int.toNat_natCast, Option.some.injEq] at hrem
  rw [← hrem]

/-- **A receive of the one loop is a receive of the other.** -/
theorem Same.receive (h : Same l t) (hkept : Kept log t) (hok : l.server.Ok) (hi : t.live i)
    {rbuf : Bytes} {env : Env} {out : LoopOut} {k : Nat}
    (hk : ncmdIscomplete (l.bufs i ++ rbuf) = some (k : Int))
    (hrecv : l.receive i rbuf env = some (l', out)) :
    ∃ call t' log', t.serve i (.bytes rbuf true call true) = some (t', log') ∧ Same l' t' := by
  obtain ⟨c, hc⟩ : ∃ c, c = (t.clients i).recvbuf rbuf := ⟨_, rfl⟩
  obtain ⟨l₁, hl₁⟩ : ∃ l₁, l₁ = l.setBuf i (recvbuf (l.bufs i) rbuf) := ⟨_, rfl⟩
  have hreceived := hkept.recvbuf hi rbuf
  have hfd : c.fd = (t.clients i).fd := by rw [hc]; rfl
  have hbuf : c.buf.bytes = l.bufs i ++ rbuf := by
    rw [hc, hkept.recvbuf_bytes hi, h.bufs i hi]
  have hsame : Same l₁ (t.setClient i c) := hl₁ ▸ h.write hfd fun _ => hbuf
  have hlive : (t.setClient i c).live i := (live_setClient_iff hfd).mpr hi
  have hbuf₁ : l₁.bufs i = l.bufs i ++ rbuf := by
    rw [← hsame.bufs i hlive, setClient_self, hbuf]
  rw [← hc] at hreceived
  have hbytes : ncmdIscomplete c.bytes = some (k : Int) := by
    have hfull : c.bytes = c.buf.bytes := by simpa using hreceived.bytes hlive
    rw [hfull, hbuf, hk]
  rw [Loop.receive, ← hl₁] at hrecv
  simp only [hbuf₁, hk, Option.bind_eq_bind, Option.bind_some] at hrecv
  by_cases hk0 : k = 0
  · refine ⟨handlerOf none, t.setClient i c, [.received i rbuf], ?_, ?_⟩
    · rw [serve, if_pos rfl, ← hc]
      simp [hbytes, hk0]
    · rw [if_pos (by rw [hk0]; rfl), Option.some.injEq, Prod.mk.injEq] at hrecv
      rw [← hrecv.1]
      exact hsame
  · have hne : (k : Int) ≠ 0 := Int.natCast_ne_zero.mpr hk0
    simp only [if_neg hne, Option.bind_eq_some_iff] at hrecv
    obtain ⟨cmd, -, hrecv⟩ := hrecv
    split at hrecv
    · simp at hrecv
    · rename_i o hcall
      simp only [Option.bind_eq_some_iff, Option.some.injEq, Prod.mk.injEq] at hrecv
      obtain ⟨⟨l₂, effects⟩, hsettle, rfl, -⟩ := hrecv
      simp only [Loop.settle, Option.bind_eq_bind, Option.bind_eq_some_iff, Option.some.injEq,
        Prod.mk.injEq] at hsettle
      obtain ⟨p, hrem, rfl, -⟩ := hsettle
      -- the handler kicks out a connection, and both loops settle it
      have hserver : l₁.server = l.server := by rw [hl₁]; rfl
      rw [hserver] at hcall
      have hkicked : ∀ r, Server.kicked o.retval = some r → (t.setClient i c).live r := by
        intro r hr
        have hpos : 0 ≤ (l.server.call i cmd env).fd :=
          le_of_lt (hok.fd_pos ((h.live_iff i).mp hi))
        obtain ⟨act, hdoes⟩ := does_lsHandleNetcmd hpos hcall
        exact (live_setClient_iff hfd).mpr ((h.live_iff r).mpr (hdoes.1.kicked_live hok hr))
      have hsettled := hsame.settle hkicked
      obtain ⟨call, hcallee⟩ : ∃ call, call = handlerOf (Server.kicked o.retval) := ⟨_, rfl⟩
      rw [← hcallee] at hsettled
      -- the command is removed from both buffers
      obtain ⟨c', hrem', hkept'⟩ := hreceived.handled hlive (k := k) true
        (by rw [setClient_self, hbuf, hk]) (by omega) (fun _ => rfl) call
      have hfd' := ncmdRemove_fd hrem'
      refine ⟨call, _, _, (serve_command call true hc hbytes hne).trans (by rw [hrem']; rfl), ?_⟩
      refine hsettled.write hfd' fun hstill => ?_
      rcases called_self hlive call with ⟨-, hempty⟩ | ⟨-, hsame'⟩
      · rw [live, hempty] at hstill
        exact absurd rfl hstill.2
      · refine hsettled.remove (hreceived.called call) hstill (k := k) ?_ (by omega) hrem hrem'
        rw [hsame', setClient_self, hbuf, hk]

/-- An accept of the one loop is a round of the other. -/
theorem Same.arrival (h : Same l t) (hkept : Kept log t) (hok : l.server.Ok)
    (hfresh : l.server.fresh newfd) (hfits : newfd < fdSetsize) (peer : InAddr) :
    ∃ r t' log', r.Tame t ∧ selectLoop.step t r = some (t', log') ∧ Same (l.accept newfd peer) t' := by
  have hfd : 0 ≤ newfd := by
    have := hok.servfd
    have := hfresh.1
    omega
  have hround := step_arrival hkept hfd (h.not_opened hfresh) hfits
  cases hslot : t.acceptSlot with
  | none =>
      refine ⟨_, t, [.refused], tame_arrival hfits, ?_, ?_⟩
      · rw [hround, accept, hslot]
      · rw [Loop.accept, ← h.acceptSlot, hslot]
        exact h
  | some i =>
      exact ⟨_, _, _, tame_arrival hfits, hround.trans (accept_some hslot hfits),
        h.seat hslot hfd peer⟩

/-- **An action of the one loop is a round of the other.** -/
theorem Same.step {mem : Memory} {e : LoopEvent} {out : LoopOut} (h : Same l t)
    (hkept : Kept log t) (hok : l.server.Ok) (htame : e.Tame l)
    (hstep : (runserver mem).step l e = some (l', out)) :
    ∃ r t' log', r.Tame t ∧ selectLoop.step t r = some (t', log') ∧ Same l' t' := by
  cases e with
  | accept newfd peer =>
      simp only [runserver, Loop.step, Option.ite_none_right_eq_some, Option.some.injEq,
        Prod.mk.injEq] at hstep
      obtain ⟨hfresh, rfl, -⟩ := hstep
      exact h.arrival hkept hok hfresh htame peer
  | recvError i =>
      simp only [runserver, Loop.step, Option.ite_none_right_eq_some, Option.some.injEq,
        Prod.mk.injEq] at hstep
      obtain ⟨hlive, rfl, -⟩ := hstep
      have hi := (h.live_iff i).mpr hlive
      exact ⟨turnOf t i .error, t, [], tame_turnOf hkept hi trivial, step_turnOf hkept hi rfl, h⟩
  | closed i alloc =>
      simp only [runserver, Loop.step, Option.ite_none_right_eq_some, Option.some.injEq,
        Prod.mk.injEq] at hstep
      obtain ⟨⟨hlive, -⟩, rfl, -⟩ := hstep
      have hi := (h.live_iff i).mpr hlive
      have hclosed := Server.peerClosed_server l.server i alloc
      refine ⟨turnOf t i .closed, _, _, tame_turnOf hkept hi trivial, step_turnOf hkept hi rfl,
        h.release ?_ ?_ ?_⟩
      · rw [hclosed]; rfl
      · rw [hclosed]; rfl
      · rw [hclosed]
  | recv i rbuf env =>
      simp only [runserver, Loop.step, Option.ite_none_right_eq_some] at hstep
      obtain ⟨⟨hlive, -, hpos, hlen⟩, hrecv⟩ := hstep
      obtain ⟨k, hk⟩ := htame
      have hi := (h.live_iff i).mpr hlive
      obtain ⟨call, t', log', hserve, hsame⟩ := h.receive hkept hok hi hk hrecv
      have hfits : (Receipt.bytes rbuf true call true).fits = true := decide_eq_true ⟨hpos, hlen⟩
      refine ⟨_, t', log', tame_turnOf hkept hi ?_,
        (step_turnOf hkept hi hfits).trans hserve, hsame⟩
      refine ⟨rfl, k, ?_, fun _ _ => rfl⟩
      rw [hkept.bytes hi, h.bufs i hi]
      exact hk

/-- **The loop over single actions is the select loop with the handlers of the source.** -/
theorem runserver_rounds (mem : Memory) :
    Simulation (runserver mem) selectLoop (fun st => st.ev.Tame st.pre)
      (fun st => st.ev.Tame st.pre)
      (fun l t => l.server.Ok ∧ Same l t ∧ ∃ log, Kept log t) where
  init := by
    intro l hl
    obtain ⟨servfd, hfd, rfl⟩ := hl
    have hok : (Server.initial servfd).Ok :=
      ok_initial (show (server mem).init (.initial servfd) from ⟨servfd, hfd, rfl⟩)
    exact ⟨.initial servfd {servfd}, ⟨servfd, _, hfd, Finset.mem_singleton_self _, rfl⟩, hok,
      same_initial, [], kept_initial (Finset.mem_singleton_self _)⟩
  step := by
    intro l t e l' out hR hstep htame
    obtain ⟨hok, hsame, log, hkept⟩ := hR
    have hok' : l'.server.Ok := by
      rcases (runserver_refines mem).step l l.server e l' out rfl hstep trivial with
        hstay | ⟨ev, s', effects, hs, -, heq⟩
      · rw [hstay]
        exact hok
      · rw [heq]
        exact (step_turn hok hs).ok hok
    obtain ⟨r, t', log', hr, hround, hsame'⟩ := hsame.step hkept hok htame hstep
    exact Or.inr ⟨r, t', log', hround, hr, hok', hsame', _, step_kept hkept hround hr⟩

end Smsg
