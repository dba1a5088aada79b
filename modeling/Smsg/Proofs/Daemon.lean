/-
The rounds of the select loop are the single actions, one after the other.

`Alike` relates the variables of the whole program to those of the loop that takes one action
at a time.  Serving a slot is one of its actions (`Alike.serve`), a round is some of them
(`Alike.round`), and so is the whole run (`rounds_are_actions`): what holds in every run of the
loop over single actions holds between any two rounds.

The actions of a round are an accept at most, and then a receive on each connection that was
ready, in the order of the slots, but for those that were kicked out before it was their turn.
-/
import Smsg.Daemon
import Smsg.Proofs.Fragmentation
import Smsg.Proofs.Rounds

namespace Smsg

open Machines Table

variable {mem : Memory} {l l' : Loop} {d d' : Daemon} {i j : Slot} {out : List Effect}

/-! ### The variables -/

/-- The two loops have the same variables; the buffer of a slot that is not live is none. -/
structure Alike (l : Loop) (d : Daemon) : Prop where
  server : l.server = d.server
  bufs : ∀ i, d.table.live i → (d.table.clients i).buf.bytes = l.bufs i
  master : l.master = d.table.master
  maxfd : l.maxfd = d.table.maxfd

/-- What is right between two actions. -/
structure Daemon.Fine (d : Daemon) : Prop where
  ok : d.server.Ok
  block : ∀ i, d.table.live i → (d.table.clients i).buf.bytes.length = (d.table.clients i).buflen
  opened : ∀ i, d.table.live i → (d.table.clients i).fd ∈ d.table.opened
  master : d.table.master ⊆ d.table.opened
  low : ∀ fd, 0 ≤ fd → fd ≤ d.table.servfd → fd ∈ d.table.opened

theorem Daemon.server_setClient {c : Sclient} (hfd : c.fd = (d.table.clients i).fd) :
    Daemon.server { d with table := d.table.setClient i c } = d.server := by
  have hclients : (fun j => (⟨((d.table.setClient i c).clients j).fd, d.address j⟩ : Client))
      = fun j => ⟨(d.table.clients j).fd, d.address j⟩ := by
    funext j
    rw [setClient_fd hfd]
  exact congrArg (Server.mk _ _ · _ _) hclients

/-- The table without a connection. -/
theorem Daemon.server_release (d : Daemon) (i : Slot) (u : Udata) (beleet : Bool) :
    Daemon.server { d with table := d.table.release i, udata := u, beleet := beleet }
      = { d.server.closeSlot i with udata := u, beleet := beleet } := by
  have hclients : (fun j => (⟨((d.table.release i).clients j).fd, d.address j⟩ : Client))
      = (d.server.closeSlot i).clients := by
    funext j
    by_cases hj : j = i
    · rw [hj, release_self]
      exact (Server.setClient_self d.server i _).symm
    · rw [release_ne _ hj]
      exact (Server.closeSlot_ne d.server hj).symm
  exact congrArg (Server.mk _ _ · _ _) hclients

/-- The table with a connection more. -/
theorem Daemon.server_seat (hslot : d.table.acceptSlot = some i) (newfd : Int) (peer : InAddr) :
    Daemon.server { d with
      table := d.table.seat i newfd, address := Function.update d.address i peer }
      = (d.server.accept newfd peer).1 := by
  have hslot' : d.server.acceptSlot = some i := hslot
  have hclients : (fun j => (⟨((d.table.seat i newfd).clients j).fd,
      Function.update d.address i peer j⟩ : Client)) = (d.server.accept newfd peer).1.clients := by
    funext j
    rw [Server.accept_clients hslot']
    by_cases hj : j = i
    · rw [hj, seat_self, Function.update_self, if_pos rfl]
    · rw [seat_ne _ newfd hj, Function.update_of_ne hj, if_neg hj]
      rfl
  have hnum := Server.accept_numClients hslot' newfd peer
  have hudata := Server.accept_udata d.server newfd peer
  have hservfd := Server.accept_servfd d.server newfd peer
  have hbeleet : (d.server.accept newfd peer).1.beleet = d.beleet := by
    rw [Server.accept, hslot']
    dsimp only
    split <;> rfl
  cases hs : (d.server.accept newfd peer).1 with
  | mk servfd numClients clients udata beleet =>
      rw [hs] at hclients hnum hudata hservfd hbeleet
      dsimp only at hclients hnum hudata hservfd hbeleet
      rw [hnum, hudata, hservfd, hbeleet, ← hclients]
      rfl

/-! ### One action -/

theorem Alike.write (h : Alike l d) {c : Sclient} {buf : Bytes}
    (hfd : c.fd = (d.table.clients i).fd) (hbuf : d.table.live i → c.buf.bytes = buf) :
    Alike (l.setBuf i buf) { d with table := d.table.setClient i c } where
  server := h.server.trans (Daemon.server_setClient hfd).symm
  bufs := by
    intro j hj
    have hlive := (live_setClient_iff hfd).mp hj
    show ((d.table.setClient i c).clients j).buf.bytes = (l.setBuf i buf).bufs j
    by_cases hji : j = i
    · rw [hji] at hlive ⊢
      rw [setClient_self, hbuf hlive, setBuf_self]
    · rw [Table.setClient_ne _ c hji, setBuf_ne _ buf hji]
      exact h.bufs j hlive
  master := h.master
  maxfd := h.maxfd

theorem Alike.release (h : Alike l d) (i : Slot) (u : Udata) (beleet : Bool) :
    Alike { l.clear i with server := { l.server.closeSlot i with udata := u, beleet := beleet } }
      { d with table := d.table.release i, udata := u, beleet := beleet } where
  server := by
    rw [Daemon.server_release, h.server]
  bufs := by
    intro j hj
    obtain ⟨hji, hlive⟩ := live_release_iff.mp hj
    show ((d.table.release i).clients j).buf.bytes = (l.setBuf i []).bufs j
    rw [release_ne _ hji, setBuf_ne _ [] hji]
    exact h.bufs j hlive
  master := by
    show l.master.erase (l.server.clients i).fd = d.table.master.erase (d.table.clients i).fd
    rw [h.master, h.server]
    rfl
  maxfd := h.maxfd

/-- The variables behind a call, with who is kicked out and what is left open. -/
def Daemon.settled (d : Daemon) (o : Outcome) (leaves : Finset Int) : Daemon :=
  { d with
    table := { d.table.kick (Server.kicked o.retval) with
      opened := (d.table.kick (Server.kicked o.retval)).opened ∪ leaves }
    udata := (d.server.settle o).1.udata
    beleet := (d.server.settle o).1.beleet }

theorem Alike.settle (h : Alike l d) (o : Outcome) (leaves : Finset Int) :
    Alike { l.kick o.retval with server := (l.server.settle o).1 } (d.settled o leaves) := by
  rw [Daemon.settled, ← h.server]
  rcases Server.settle_cases l.server o with ⟨hk, hs⟩ | ⟨r, hk, hs⟩
  · rw [hs, hk, Loop.kick, hk]
    refine ⟨?_, h.bufs, h.master, h.maxfd⟩
    show ({ l.server with udata := o.udata, beleet := o.beleet } : Server) = _
    rw [h.server]
    rfl
  · rw [hs, hk, Loop.kick, hk]
    have hr := h.release r o.udata o.beleet
    exact ⟨hr.server, hr.bufs, hr.master, hr.maxfd⟩

/-! ### Removing a command -/

/-- What is left of the buffer, and of the block that it is in. -/
theorem ncmdRemove_left {c c' : Sclient} (hblock : c.buf.bytes.length = c.buflen)
    (h : c.ncmdRemove true = some c') :
    (∃ r, ncmdRemove c.buf.bytes = some (r, c'.buf.bytes)) ∧
      c'.buf.bytes.length = c'.buflen := by
  have hbytes : c.bytes = c.buf.bytes := List.take_of_length_le hblock.le
  have hrem := h
  simp only [Sclient.ncmdRemove, hbytes, Option.bind_eq_bind, Option.bind_eq_some_iff] at hrem
  obtain ⟨k, hk, hrem⟩ := hrem
  rw [ncmdRemove, hk]
  by_cases hzero : k = 0
  · rw [if_pos hzero, Option.some.injEq] at hrem
    subst hrem
    exact ⟨⟨-1, by simp [removeFront, hzero]⟩, hblock⟩
  · by_cases hneg : k < 0
    · rw [if_neg hzero, if_pos hneg] at hrem
      cases hrem
    · obtain ⟨n, rfl⟩ := Int.eq_ofNat_of_zero_le (not_lt.mp hneg)
      obtain ⟨c₁, hc₁, -, hdrop, hlen⟩ :=
        ncmdRemove_front true hblock hk (by omega) fun _ => rfl
      obtain rfl := Option.some.inj (h.symm.trans hc₁)
      refine ⟨⟨0, ?_⟩, hlen⟩
      simp only [removeFront, Option.bind_eq_bind, Option.bind_some, if_neg hzero, if_neg hneg]
      rw [hdrop]
      rfl

/-! ### Serving a slot -/

/-- The action of the loop that it is to serve a slot. -/
def RecvResult.event (i : Slot) : RecvResult → LoopEvent
  | .error => .recvError i
  | .closed alloc => .closed i alloc
  | .bytes rbuf grown _ env _ => if grown then .recv i rbuf env else .recvError i

/-- A block is made smaller when less is asked for. -/
def RecvResult.shrinks : RecvResult → Bool
  | .bytes _ _ shrunk _ _ => shrunk
  | _ => true

theorem loop_ok {e : LoopEvent} {o : LoopOut} (hok : l.server.Ok)
    (h : (runserver mem).step l e = some (l', o)) : l'.server.Ok := by
  rcases (runserver_refines mem).step l l.server e l' o rfl h trivial with
    hstay | ⟨ev, s', effects, hs, -, heq⟩
  · rw [hstay]
    exact hok
  · rw [heq]
    exact (step_turn hok hs).ok hok

/-- What is in a buffer is the block that it is in. -/
theorem Daemon.Fine.write (h : d.Fine) {c : Sclient} (hfd : c.fd = (d.table.clients i).fd)
    (hblock : c.buf.bytes.length = c.buflen) :
    Daemon.Fine { d with table := d.table.setClient i c } where
  ok := by
    rw [Daemon.server_setClient hfd]
    exact h.ok
  block := by
    intro j hj
    have hlive := (live_setClient_iff hfd).mp hj
    show ((d.table.setClient i c).clients j).buf.bytes.length
      = ((d.table.setClient i c).clients j).buflen
    by_cases hji : j = i
    · rw [hji, Table.setClient_self, hblock]
    · rw [Table.setClient_ne _ c hji]
      exact h.block j hlive
  opened := by
    intro j hj
    show ((d.table.setClient i c).clients j).fd ∈ d.table.opened
    rw [setClient_fd hfd]
    exact h.opened j ((live_setClient_iff hfd).mp hj)
  master := h.master
  low := h.low

theorem loop_closed {alloc : Alloc} (hlive : l.server.live i) (hmem : mem.allows alloc = true) :
    (runserver mem).step l (.closed i alloc) = some
      ({ l.clear i with server := (l.server.peerClosed i alloc).1 },
        ⟨(l.server.peerClosed i alloc).2, none⟩) :=
  if_pos ⟨hlive, hmem⟩

/-- A connection is closed, and its descriptor with it. -/
theorem Daemon.Fine.release (h : d.Fine) (hi : d.table.live i) {u : Udata} {beleet : Bool}
    {opened : Finset Int} (hopened : (d.table.release i).opened ⊆ opened)
    (hok : (Daemon.server { d with
      table := { d.table.release i with opened := opened }, udata := u, beleet := beleet }).Ok) :
    Daemon.Fine { d with
      table := { d.table.release i with opened := opened }, udata := u, beleet := beleet } where
  ok := hok
  block := by
    intro j hj
    have hj' : (d.table.release i).live j := hj
    obtain ⟨hji, hlive⟩ := live_release_iff.mp hj'
    show ((d.table.release i).clients j).buf.bytes.length = ((d.table.release i).clients j).buflen
    rw [release_ne _ hji]
    exact h.block j hlive
  opened := by
    intro j hj
    have hj' : (d.table.release i).live j := hj
    obtain ⟨hji, hlive⟩ := live_release_iff.mp hj'
    show ((d.table.release i).clients j).fd ∈ opened
    rw [release_ne _ hji]
    refine hopened (Finset.mem_erase.mpr ⟨fun hfd => hji ?_, h.opened j hlive⟩)
    exact h.ok.distinct j i hlive hi hfd
  master := (Finset.erase_subset_erase _ h.master).trans hopened
  low := by
    intro fd hfd hle
    have habove := h.ok.above i hi
    refine hopened (Finset.mem_erase.mpr ⟨fun hc => ?_, h.low fd hfd hle⟩)
    rw [hc] at hle
    exact absurd habove (not_lt.mpr hle)

theorem Daemon.Fine.settled (h : d.Fine) {o : Outcome} (leaves : Finset Int)
    (hkicked : ∀ r, Server.kicked o.retval = some r → d.table.live r)
    (hok : (d.settled o leaves).server.Ok) : (d.settled o leaves).Fine := by
  unfold Daemon.settled at hok ⊢
  cases hk : Server.kicked o.retval with
  | none =>
      rw [hk] at hok
      exact ⟨hok, h.block, fun j hj => Finset.mem_union_left _ (h.opened j hj),
        h.master.trans Finset.subset_union_left, fun fd hfd hle => Finset.mem_union_left _ (h.low fd hfd hle)⟩
  | some r =>
      rw [hk] at hok
      exact h.release (hkicked r hk) Finset.subset_union_left hok

/-- The slot itself is emptied by the kick, or is as it was. -/
theorem Daemon.settled_self (d : Daemon) (i : Slot) (o : Outcome) (leaves : Finset Int) :
    (Server.kicked o.retval = some i ∧ (d.settled o leaves).table.clients i = .empty) ∨
      (Server.kicked o.retval ≠ some i ∧
        (d.settled o leaves).table.clients i = d.table.clients i) := by
  unfold Daemon.settled
  cases Server.kicked o.retval with
  | none => exact Or.inr ⟨by simp, rfl⟩
  | some r =>
      by_cases hr : i = r
      · exact Or.inl ⟨by rw [hr], by rw [hr]; exact release_self _ r⟩
      · exact Or.inr ⟨fun hc => hr (Option.some.inj hc).symm, release_ne _ hr⟩

/-- **A command has been handled**, and both loops settle it. -/
theorem Alike.handled (h : Alike l d) (hd : d.Fine) (hi : d.table.live i) {c : NetCmd} {env : Env}
    {o : Outcome} (hcall : lsHandleNetcmd (d.server.call i c env) = .ok o) {leaves : Finset Int}
    {client : Sclient}
    (hrem : ((d.settled o leaves).table.clients i).ncmdRemove true = some client)
    (hd' : d' = { d.settled o leaves with
      table := (d.settled o leaves).table.setClient i client }) :
    ∃ l', l.settle i o = some (l', (d.server.settle o).2) ∧ Alike l' d' ∧
      (d'.server.Ok → d'.Fine) := by
  obtain ⟨l₁, hl₁⟩ : ∃ l₁ : Loop, l₁ = { l.kick o.retval with server := (l.server.settle o).1 } :=
    ⟨_, rfl⟩
  have hsettled : Alike l₁ (d.settled o leaves) := hl₁ ▸ h.settle o leaves
  have hbufs : (l.kick o.retval).bufs = l₁.bufs := by rw [hl₁]
  -- the buffer of the slot is the same, kicked out or not
  have hself : ((d.settled o leaves).table.clients i).buf.bytes = l₁.bufs i ∧
      ((d.settled o leaves).table.clients i).buf.bytes.length
        = ((d.settled o leaves).table.clients i).buflen := by
    rcases d.settled_self i o leaves with ⟨hk, hempty⟩ | ⟨hk, hsame⟩
    · rw [hempty, ← hbufs, Loop.kick, hk]
      refine ⟨?_, rfl⟩
      show [] = (l.setBuf i []).bufs i
      rw [setBuf_self]
    · rw [hsame, h.bufs i hi, ← hbufs]
      refine ⟨?_, by rw [← h.bufs i hi]; exact hd.block i hi⟩
      unfold Loop.kick
      cases hr : Server.kicked o.retval with
      | none => rfl
      | some r => exact (setBuf_ne l [] fun hir => hk (by rw [hr, hir])).symm
  obtain ⟨⟨r, hleft⟩, hblock⟩ := ncmdRemove_left hself.2 hrem
  have hfd := ncmdRemove_fd hrem
  rw [hself.1, ← hbufs] at hleft
  refine ⟨l₁.setBuf i client.buf.bytes, ?_, ?_, fun hok => ?_⟩
  · rw [Loop.settle]
    simp only [hleft, Option.bind_eq_bind, Option.bind_some, hl₁, h.server]
    rfl
  · rw [hd']
    exact hsettled.write hfd fun _ => rfl
  · have hserver := Daemon.server_setClient hfd
    rw [hd'] at hok ⊢
    rw [hserver] at hok
    refine (hd.settled leaves (fun r hr => ?_) hok).write hfd hblock
    have hpos : 0 ≤ (d.server.call i c env).fd := le_of_lt (hd.ok.fd_pos hi)
    obtain ⟨act, hdoes⟩ := does_lsHandleNetcmd hpos hcall
    exact hdoes.1.kicked_live hd.ok hr

/-- The connection in the slot has been closed. -/
theorem Alike.serve_closed (h : Alike l d) (hd : d.Fine) (hi : d.table.live i) {alloc : Alloc}
    (hmem : mem.allows alloc = true) (hserve : d.serve i (.closed alloc) = some (d', out)) :
    ∃ l' handled, (runserver mem).step l (.closed i alloc) = some (l', ⟨out, handled⟩) ∧
      Alike l' d' ∧ (d'.server.Ok → d'.Fine) := by
  have hlive : l.server.live i := by rw [h.server]; exact hi
  have hclosed := Server.peerClosed_server l.server i alloc
  simp only [Daemon.serve, ← h.server] at hserve
  generalize hp : l.server.peerClosed i alloc = p at hclosed hserve
  obtain ⟨s, effects⟩ := p
  obtain ⟨rfl, rfl⟩ := Prod.mk.inj (Option.some.inj hserve)
  dsimp only at hclosed
  refine ⟨{ l.clear i with server := s }, none, ?_, ?_, fun hok => ?_⟩
  · have hstep := loop_closed hlive hmem
    rw [hp] at hstep
    exact hstep
  · have hr := h.release i s.udata d.beleet
    refine ⟨hclosed.trans ?_, hr.bufs, hr.master, hr.maxfd⟩
    rw [h.server]
    exact (Daemon.server_release d i s.udata d.beleet).symm
  · exact hd.release hi (Finset.Subset.refl _) hok

/-- `recvbuf` puts the bytes behind those that wait, in both. -/
theorem Alike.recvbuf (h : Alike l d) (hd : d.Fine) (hi : d.table.live i) {c : Sclient} {rbuf : Bytes}
    (hc : c = (d.table.clients i).recvbuf rbuf) :
    c.fd = (d.table.clients i).fd ∧ c.bytes = l.bufs i ++ rbuf ∧
      Alike (l.setBuf i (l.bufs i ++ rbuf)) { d with table := d.table.setClient i c } ∧
      Daemon.Fine { d with table := d.table.setClient i c } := by
  have hfd : c.fd = (d.table.clients i).fd := by rw [hc]; rfl
  have hblock := hd.block i hi
  have hbytes : (d.table.clients i).bytes = (d.table.clients i).buf.bytes :=
    List.take_of_length_le hblock.le
  have hbuf : c.buf.bytes = l.bufs i ++ rbuf := by
    rw [hc, ← h.bufs i hi, ← hbytes]
    rfl
  have hblock' : c.buf.bytes.length = c.buflen := by
    rw [hbuf, List.length_append, ← h.bufs i hi, hblock, hc]
    rfl
  refine ⟨hfd, ?_, h.write hfd fun _ => hbuf, hd.write hfd hblock'⟩
  rw [← hbuf]
  exact List.take_of_length_le hblock'.le

/-- Bytes have been received, and there is memory for them. -/
theorem Alike.serve_bytes (h : Alike l d) (hd : d.Fine) (hi : d.table.live i) {rbuf : Bytes}
    {env : Env} {leaves : Finset Int}
    (hfits : RecvResult.fits mem (.bytes rbuf true true env leaves) = true)
    (hserve : d.serve i (.bytes rbuf true true env leaves) = some (d', out)) :
    ∃ l' handled, (runserver mem).step l (.recv i rbuf env) = some (l', ⟨out, handled⟩) ∧
      Alike l' d' ∧ (d'.server.Ok → d'.Fine) := by
  have hlive : l.server.live i := by rw [h.server]; exact hi
  simp only [RecvResult.fits, Bool.and_eq_true, decide_eq_true_eq] at hfits
  have hstep : ∀ {r}, l.receive i rbuf env = r → (runserver mem).step l (.recv i rbuf env) = r := by
    rintro r rfl
    exact if_pos ⟨hlive, hfits⟩
  simp only [Daemon.serve, Bool.not_true, Bool.false_eq_true, if_false, Option.bind_eq_bind,
    Option.bind_eq_some_iff] at hserve
  obtain ⟨k, hk, hserve⟩ := hserve
  obtain ⟨c, hc⟩ : ∃ c, c = (d.table.clients i).recvbuf rbuf := ⟨_, rfl⟩
  obtain ⟨hfd, hfull, halike, hfine⟩ := h.recvbuf hd hi hc
  rw [← hc] at hk hserve
  rw [Table.setClient_self, hfull] at hk
  by_cases hzero : k = 0
  · rw [if_pos hzero] at hserve
    obtain ⟨rfl, rfl⟩ := Prod.mk.inj (Option.some.inj hserve)
    refine ⟨l.setBuf i (l.bufs i ++ rbuf), none, hstep ?_, halike, fun _ => hfine⟩
    simp [Loop.receive, Smsg.recvbuf, hk, hzero]
  · rw [if_neg hzero] at hserve
    simp only [Option.bind_eq_some_iff, Table.setClient_self, hfull] at hserve
    obtain ⟨cmd, hdecode, hserve⟩ := hserve
    split at hserve
    · cases hserve
    · rename_i o hcall
      simp only [Option.bind_eq_some_iff, Option.some.injEq, Prod.mk.injEq] at hserve
      obtain ⟨client, hrem, rfl, rfl⟩ := hserve
      have hserver : Daemon.server { d with table := d.table.setClient i c } = d.server :=
        Daemon.server_setClient hfd
      have hcall' := hcall
      rw [← hserver] at hcall'
      obtain ⟨l', hsettle, halike', hfine'⟩ :=
        halike.handled hfine ((live_setClient_iff hfd).mpr hi) hcall' hrem rfl
      have hserver' : (l.setBuf i (l.bufs i ++ rbuf)).server = d.server := h.server
      rw [hserver] at hsettle
      refine ⟨l', some (i, (l.bufs i ++ rbuf).take k.toNat), hstep ?_, halike', hfine'⟩
      simp only [Loop.receive, Smsg.recvbuf, setBuf_self, hk, hdecode, hserver', hcall, hsettle,
        Option.bind_eq_bind, Option.bind_some, if_neg hzero]

/-- **Serving a slot is an action of the loop.** -/
theorem Alike.serve (h : Alike l d) (hd : d.Fine) (hi : d.table.live i) {r : RecvResult}
    (hfits : r.fits mem = true) (hshrinks : r.shrinks = true)
    (hserve : d.serve i r = some (d', out)) :
    ∃ l' handled, (runserver mem).step l (r.event i) = some (l', ⟨out, handled⟩) ∧
      Alike l' d' ∧ d'.Fine := by
  have hlive : l.server.live i := by rw [h.server]; exact hi
  -- what is left to show of the server follows from the step
  suffices hstep : ∃ l' handled, (runserver mem).step l (r.event i) = some (l', ⟨out, handled⟩) ∧
      Alike l' d' ∧ (d'.server.Ok → d'.Fine) by
    obtain ⟨l', handled, hstep, halike, hfine⟩ := hstep
    have hok := loop_ok (by rw [h.server]; exact hd.ok) hstep
    rw [halike.server] at hok
    exact ⟨l', handled, hstep, halike, hfine hok⟩
  have hquiet : some (d, []) = some (d', out) → (runserver mem).step l (.recvError i)
      = some (l, ⟨out, none⟩) ∧ Alike l d' ∧ (d'.server.Ok → d'.Fine) := by
    intro hnothing
    obtain ⟨rfl, rfl⟩ := Prod.mk.inj (Option.some.inj hnothing)
    exact ⟨if_pos hlive, h, fun _ => hd⟩
  cases r with
  | error => exact ⟨l, none, hquiet hserve⟩
  | closed alloc => exact h.serve_closed hd hi hfits hserve
  | bytes rbuf grown shrunk env leaves =>
      obtain rfl : shrunk = true := hshrinks
      cases grown with
      | false => exact ⟨l, none, hquiet hserve⟩
      | true => exact h.serve_bytes hd hi hfits hserve

/-! ### A round -/

/-- Who is connected when a slot has been served was there before. -/
theorem Daemon.serve_live {r : RecvResult} (h : d.serve i r = some (d', out))
    (hj : d'.table.live j) :
    d.table.live j ∧ (d'.table.clients j).fd = (d.table.clients j).fd := by
  have hreleased : ∀ {t : Table} {k : Slot}, (t.release k).live j →
      t.live j ∧ ((t.release k).clients j).fd = (t.clients j).fd := by
    intro t k hlive
    obtain ⟨hne, hlive⟩ := live_release_iff.mp hlive
    exact ⟨hlive, by rw [release_ne t hne]⟩
  have hwritten : ∀ {t : Table} {c : Sclient}, c.fd = (t.clients i).fd →
      (t.setClient i c).live j → t.live j ∧ ((t.setClient i c).clients j).fd = (t.clients j).fd :=
    fun hfd hlive => ⟨(live_setClient_iff hfd).mp hlive, setClient_fd hfd j⟩
  cases r with
  | error =>
      obtain ⟨rfl, -⟩ := Prod.mk.inj (Option.some.inj h)
      exact ⟨hj, rfl⟩
  | closed alloc =>
      obtain ⟨rfl, -⟩ := Prod.mk.inj (Option.some.inj h)
      exact hreleased hj
  | bytes rbuf grown shrunk env leaves =>
      cases grown with
      | false =>
          obtain ⟨rfl, -⟩ := Prod.mk.inj (Option.some.inj h)
          exact ⟨hj, rfl⟩
      | true =>
          simp only [Daemon.serve, Bool.not_true, Bool.false_eq_true, if_false, Option.bind_eq_bind,
            Option.bind_eq_some_iff] at h
          obtain ⟨k, -, h⟩ := h
          split at h
          · obtain ⟨rfl, -⟩ := Prod.mk.inj (Option.some.inj h)
            exact hwritten rfl hj
          · simp only [Option.bind_eq_some_iff] at h
            obtain ⟨c, -, h⟩ := h
            split at h
            · cases h
            · rename_i o _
              simp only [Option.bind_eq_some_iff, Option.some.injEq, Prod.mk.injEq] at h
              obtain ⟨client, hrem, rfl, -⟩ := h
              obtain ⟨hlive, hfd⟩ := hwritten (ncmdRemove_fd hrem) hj
              have hkicked : ∀ {t : Table} {r : Option Slot}, (t.kick r).live j →
                  t.live j ∧ ((t.kick r).clients j).fd = (t.clients j).fd := by
                intro t r hlive
                cases r with
                | none => exact ⟨hlive, rfl⟩
                | some r => exact hreleased hlive
              obtain ⟨hlive', hfd'⟩ := hkicked hlive
              obtain ⟨hlive'', hfd''⟩ := hwritten (c := (d.table.clients i).recvbuf rbuf) rfl hlive'
              exact ⟨hlive'', hfd.trans (hfd'.trans hfd'')⟩

/-- What the loop over some slots is to the loop over single actions. -/
structure ServedSlots (r : DaemonRound) (is : List Slot) (d d' : Daemon) (out : List Effect)
    (steps : List LoopStep) : Prop where
  sends : out = steps.reverse.flatMap fun st => st.out.effects
  order : (steps.reverse.map fun st => st.ev).Sublist (is.map fun i => (r.recv i).event i)
  served : ∀ i ∈ is, d.table.live i → (d.table.clients i).fd ∈ r.ready → d'.table.live i →
    ∃ st ∈ steps, st.ev = (r.recv i).event i
  only : ∀ st ∈ steps, ∃ i, st.ev = (r.recv i).event i ∧ d.table.live i ∧
    (d.table.clients i).fd ∈ r.ready
  kept : ∀ i, d'.table.live i → d.table.live i ∧ (d'.table.clients i).fd = (d.table.clients i).fd

/-- **The loop over the slots serves them one after the other.** -/
theorem Alike.serveAll {r : DaemonRound} (hfits : ∀ i, (r.recv i).fits mem = true)
    (hshrinks : ∀ i, (r.recv i).shrinks = true) (is : List Slot) : ∀ {l : Loop} {d d' : Daemon}
    {out : List Effect}, Alike l d → d.Fine → Daemon.serveAll r is d = some (d', out) →
      ∃ l' steps, Exec (runserver mem) l steps l' ∧ Alike l' d' ∧ d'.Fine ∧
        ServedSlots r is d d' out steps := by
  induction is with
  | nil =>
      intro l d d' out h hd hserve
      obtain ⟨rfl, rfl⟩ := Prod.mk.inj (Option.some.inj hserve)
      exact ⟨l, [], .nil, h, hd, rfl, .slnil, by simp, by simp, fun i hi => ⟨hi, rfl⟩⟩
  | cons i is ih =>
      intro l d d' out h hd hserve
      rw [Daemon.serveAll] at hserve
      by_cases hready : d.table.live i ∧ (d.table.clients i).fd ∈ r.ready
      · rw [if_pos hready] at hserve
        simp only [Option.bind_eq_bind, Option.bind_eq_some_iff, Option.some.injEq,
          Prod.mk.injEq] at hserve
        obtain ⟨⟨d₁, out₁⟩, hfirst, ⟨d₂, out₂⟩, hrest, rfl, rfl⟩ := hserve
        obtain ⟨l₁, handled, hstep, h₁, hd₁⟩ := h.serve hd hready.1 (hfits i) (hshrinks i) hfirst
        obtain ⟨l₂, steps, hexec, h₂, hd₂, hserved⟩ := ih h₁ hd₁ hrest
        obtain ⟨st, hst⟩ : ∃ st : LoopStep, st = ⟨l, (r.recv i).event i, l₁, ⟨out₁, handled⟩⟩ :=
          ⟨_, rfl⟩
        have hone : Exec (runserver mem) l [st] l₁ := hst ▸ Exec.nil.snoc hstep
        have hlive : ∀ j, d₁.table.live j →
            d.table.live j ∧ (d₁.table.clients j).fd = (d.table.clients j).fd :=
          fun j hj => Daemon.serve_live hfirst hj
        refine ⟨l₂, steps ++ [st], hone.append hexec, h₂, hd₂, ?sends, ?order, ?served, ?only, ?kept⟩
        case sends =>
          rw [List.reverse_append, List.flatMap_append, ← hserved.sends, hst]
          simp
        case order =>
          rw [List.reverse_append, List.map_append, List.map_cons, hst]
          exact hserved.order.cons_cons _
        case served =>
          intro j hj hjlive hjready hj'
          rcases List.mem_cons.mp hj with rfl | hj
          · exact ⟨st, by simp, by rw [hst]⟩
          · obtain ⟨hj₁, -⟩ := hserved.kept j hj'
            obtain ⟨st', hst', hev⟩ := hserved.served j hj hj₁ (by rw [(hlive j hj₁).2]; exact hjready) hj'
            exact ⟨st', List.mem_append_left _ hst', hev⟩
        case only =>
          intro st' hst'
          rcases List.mem_append.mp hst' with hst' | hst'
          · obtain ⟨j, hev, hj, hjready⟩ := hserved.only st' hst'
            obtain ⟨hj', hfd⟩ := hlive j hj
            exact ⟨j, hev, hj', by rw [← hfd]; exact hjready⟩
          · rw [List.mem_singleton.mp hst', hst]
            exact ⟨i, rfl, hready⟩
        case kept =>
          intro j hj
          obtain ⟨hj₁, hfd⟩ := hserved.kept j hj
          obtain ⟨hj', hfd'⟩ := hlive j hj₁
          exact ⟨hj', hfd.trans hfd'⟩
      · rw [if_neg hready] at hserve
        obtain ⟨l', steps, hexec, h', hd', hserved⟩ := ih h hd hserve
        refine ⟨l', steps, hexec, h', hd', hserved.sends, hserved.order.cons _, ?_, hserved.only,
          hserved.kept⟩
        intro j hj hjlive hjready hj'
        rcases List.mem_cons.mp hj with rfl | hj
        · exact absurd ⟨hjlive, hjready⟩ hready
        · exact hserved.served j hj hjlive hjready hj'

/-- A connection arrives in both. -/
theorem Alike.seat (h : Alike l d) (hslot : d.table.acceptSlot = some i) {newfd : Int}
    (hfd : 0 ≤ newfd) (peer : InAddr) :
    Alike (l.accept newfd peer) { d with
      table := d.table.seat i newfd, address := Function.update d.address i peer } := by
  have hslot' : l.server.acceptSlot = some i := by
    rw [h.server]
    exact hslot
  rw [Loop.accept, hslot']
  refine ⟨?_, ?_, ?_, ?_⟩
  · rw [Daemon.server_seat hslot, h.server]
  · intro j hj
    show ((d.table.seat i newfd).clients j).buf.bytes = (l.setBuf i []).bufs j
    by_cases hji : j = i
    · rw [hji, seat_self, setBuf_self]
      rfl
    · rw [seat_ne _ newfd hji, setBuf_ne l [] hji]
      exact h.bufs j (((live_seat_iff hslot hfd).mp hj).resolve_left hji)
  · show insert newfd l.master = insert newfd d.table.master
    rw [h.master]
  · show (if l.maxfd < newfd then newfd else l.maxfd)
      = if d.table.maxfd < newfd then newfd else d.table.maxfd
    rw [h.maxfd]

theorem Daemon.Fine.seat (h : d.Fine) (hslot : d.table.acceptSlot = some i) {newfd : Int}
    (hfd : 0 ≤ newfd) {peer : InAddr} (hok : (Daemon.server { d with
      table := d.table.seat i newfd, address := Function.update d.address i peer }).Ok) :
    Daemon.Fine { d with
      table := d.table.seat i newfd, address := Function.update d.address i peer } where
  ok := hok
  block := by
    intro j hj
    show ((d.table.seat i newfd).clients j).buf.bytes.length
      = ((d.table.seat i newfd).clients j).buflen
    by_cases hji : j = i
    · rw [hji, seat_self]
      rfl
    · rw [seat_ne _ newfd hji]
      exact h.block j (((live_seat_iff hslot hfd).mp hj).resolve_left hji)
  opened := by
    intro j hj
    show ((d.table.seat i newfd).clients j).fd ∈ insert newfd d.table.opened
    by_cases hji : j = i
    · rw [hji, seat_self]
      exact Finset.mem_insert_self _ _
    · rw [seat_ne _ newfd hji]
      exact Finset.mem_insert_of_mem
        (h.opened j (((live_seat_iff hslot hfd).mp hj).resolve_left hji))
  master := Finset.insert_subset_insert _ h.master
  low := fun fd hfd hle => Finset.mem_insert_of_mem (h.low fd hfd hle)

theorem Daemon.Fine.fresh (h : d.Fine) {newfd : Int} (hfd : 0 ≤ newfd)
    (hopened : newfd ∉ d.table.opened) : d.server.fresh newfd := by
  refine ⟨?_, fun i hi hc => hopened (hc ▸ h.opened i hi)⟩
  by_contra hle
  exact hopened (h.low newfd hfd (not_lt.mp hle))

/-- What the accept of a round is to the loop over single actions. -/
structure Welcomed (r : DaemonRound) (d d' : Daemon) (out : List Effect) (steps : List LoopStep) :
    Prop where
  sends : out = steps.reverse.flatMap fun st => st.out.effects
  order : (steps.reverse.map fun st => st.ev).Sublist
    (r.accepted.map fun p => LoopEvent.accept p.1 p.2).toList
  only : ∀ st ∈ steps, d.table.servfd ∈ r.ready
  kept : ∀ i, d.table.live i → d'.table.live i ∧ d'.table.clients i = d.table.clients i
  old : ∀ i, d'.table.live i → (d'.table.clients i).fd ∈ d.table.opened → d.table.live i

theorem Welcomed.nothing (r : DaemonRound) (d : Daemon) : Welcomed r d d [] [] :=
  ⟨rfl, List.nil_sublist _, by simp, fun _ hi => ⟨hi, rfl⟩, fun _ hi _ => hi⟩

/-- **An accept is an action of the loop**, or none. -/
theorem Alike.welcome (mem : Memory) (h : Alike l d) (hd : d.Fine) {r : DaemonRound}
    (hnew : ∀ p ∈ r.accepted, 0 ≤ p.1 ∧ p.1 ∉ d.table.opened)
    (hwelcome : d.welcome r = some (d', out)) :
    ∃ l' steps, Exec (runserver mem) l steps l' ∧ Alike l' d' ∧ d'.Fine ∧
      Welcomed r d d' out steps := by
  have hnothing : d = d' → out = [] → ∃ l' steps, Exec (runserver mem) l steps l' ∧ Alike l' d' ∧
      d'.Fine ∧ Welcomed r d d' out steps := by
    rintro rfl rfl
    exact ⟨l, [], .nil, h, hd, .nothing r d⟩
  unfold Daemon.welcome at hwelcome
  split at hwelcome
  · rename_i hready
    cases hacc : r.accepted with
    | none =>
        rw [hacc, Daemon.accept] at hwelcome
        obtain ⟨hdd, hout⟩ := Prod.mk.inj (Option.some.inj hwelcome)
        exact hnothing hdd hout.symm
    | some p =>
        obtain ⟨newfd, peer⟩ := p
        obtain ⟨hfd, hopened⟩ := hnew (newfd, peer) hacc
        have hfresh : l.server.fresh newfd := by
          rw [h.server]
          exact hd.fresh hfd hopened
        have hstep : (runserver mem).step l (.accept newfd peer) = some
            (l.accept newfd peer, ⟨(l.server.accept newfd peer).2, none⟩) := if_pos hfresh
        rw [hacc] at hwelcome
        cases hslot : d.table.acceptSlot with
        | none =>
            simp only [Daemon.accept, hslot] at hwelcome
            obtain ⟨rfl, rfl⟩ := Prod.mk.inj (Option.some.inj hwelcome)
            have hslot' : l.server.acceptSlot = none := by
              rw [h.server]
              exact hslot
            rw [Loop.accept, hslot', Server.accept_none hslot'] at hstep
            refine ⟨l, _, Exec.nil.snoc hstep, h, hd, rfl, ?_, fun _ _ => hready,
              fun _ hi => ⟨hi, rfl⟩, fun _ hi _ => hi⟩
            rw [hacc]
            exact List.Sublist.refl _
        | some i =>
            simp only [Daemon.accept, hslot] at hwelcome
            split at hwelcome
            · cases hwelcome
            · obtain ⟨rfl, rfl⟩ := Prod.mk.inj (Option.some.inj hwelcome)
              have hslot' : l.server.acceptSlot = some i := by
                rw [h.server]
                exact hslot
              have hseat := h.seat hslot hfd peer
              have hok := loop_ok (by rw [h.server]; exact hd.ok) hstep
              rw [hseat.server] at hok
              have hquiet : (l.server.accept newfd peer).2 = [] := by rw [Server.accept, hslot']
              rw [hquiet] at hstep
              refine ⟨_, _, Exec.nil.snoc hstep, hseat, hd.seat hslot hfd hok, rfl, ?_,
                fun _ _ => hready, fun j hj => ?_, fun j hj hold => ?_⟩
              · rw [hacc]
                exact List.Sublist.refl _
              · have hji : j ≠ i := fun hc => not_live_acceptSlot hslot (hc ▸ hj)
                exact ⟨(live_seat_iff hslot hfd).mpr (Or.inr hj), seat_ne _ newfd hji⟩
              · rcases (live_seat_iff hslot hfd).mp hj with rfl | hj
                · rw [show _ = newfd from congrArg Sclient.fd (seat_self d.table j newfd)] at hold
                  exact absurd hold hopened
                · exact hj
  · obtain ⟨hdd, hout⟩ := Prod.mk.inj (Option.some.inj hwelcome)
    exact hnothing hdd hout.symm

/-! ### A run -/

/-- The actions that a round may be, in their order. -/
def DaemonRound.events (r : DaemonRound) : List LoopEvent :=
  (r.accepted.map fun p => LoopEvent.accept p.1 p.2).toList ++
    (List.finRange maxClients).map fun i => (r.recv i).event i

/-- What a round is to the loop over single actions. -/
structure RoundIs (st : DaemonStep) (steps : List LoopStep) : Prop where
  /-- What is sent and closed is the same. -/
  sends : st.out = steps.reverse.flatMap fun st => st.out.effects
  /-- An accept comes first, and each slot has its turn once. -/
  order : (steps.reverse.map fun st => st.ev).Sublist st.ev.events
  /-- A connection that is ready is served, unless it is closed before it is its turn. -/
  served : ∀ i, st.pre.table.live i → (st.pre.table.clients i).fd ∈ st.ev.ready →
    st.post.table.live i → ∃ step ∈ steps, step.ev = (st.ev.recv i).event i
  /-- Nothing is done that was not ready, not even on a new connection. -/
  only : ∀ step ∈ steps, ((∃ newfd peer, step.ev = .accept newfd peer) ∧
      st.pre.table.servfd ∈ st.ev.ready) ∨
    ∃ i, step.ev = (st.ev.recv i).event i ∧ st.pre.table.live i ∧
      (st.pre.table.clients i).fd ∈ st.ev.ready

/-- **A round is some actions.** -/
theorem Alike.round (h : Alike l d) (hd : d.Fine) {r : DaemonRound}
    (hshrinks : ∀ i, (r.recv i).shrinks = true)
    (hstep : (daemon mem).step d r = some (d', out)) :
    ∃ l' steps, Exec (runserver mem) l steps l' ∧ Alike l' d' ∧ d'.Fine ∧
      RoundIs ⟨d, r, d', out⟩ steps := by
  simp only [daemon, Option.ite_none_right_eq_some, Daemon.round, Option.bind_eq_bind,
    Option.bind_eq_some_iff, Option.some.injEq, Prod.mk.injEq] at hstep
  obtain ⟨⟨hready, hnew, hfits⟩, ⟨d₁, out₁⟩, hfirst, ⟨d₂, out₂⟩, hrest, rfl, rfl⟩ := hstep
  obtain ⟨l₁, steps₁, hexec₁, h₁, hd₁, hwelcomed⟩ := h.welcome mem hd hnew hfirst
  obtain ⟨l₂, steps₂, hexec₂, h₂, hd₂, hserved⟩ := h₁.serveAll hfits hshrinks _ hd₁ hrest
  refine ⟨l₂, steps₂ ++ steps₁, hexec₁.append hexec₂, h₂, hd₂, ?sends, ?order, ?served, ?only⟩
  case sends =>
    rw [List.reverse_append, List.flatMap_append, ← hwelcomed.sends, ← hserved.sends]
  case order =>
    rw [List.reverse_append, List.map_append]
    exact hwelcomed.order.append hserved.order
  case served =>
    intro i hi hiready hi'
    obtain ⟨hi₁, hsame⟩ := hwelcomed.kept i hi
    obtain ⟨st, hst, hev⟩ :=
      hserved.served i (List.mem_finRange i) hi₁ (by rw [hsame]; exact hiready) hi'
    exact ⟨st, List.mem_append_left _ hst, hev⟩
  case only =>
    intro st hst
    rcases List.mem_append.mp hst with hst | hst
    · obtain ⟨i, hev, hi, hiready⟩ := hserved.only st hst
      have hi' := hwelcomed.old i hi (hd.master (hready hiready))
      refine Or.inr ⟨i, hev, hi', ?_⟩
      rw [← (hwelcomed.kept i hi').2]
      exact hiready
    · refine Or.inl ⟨?_, hwelcomed.only st hst⟩
      have hev := hwelcomed.order.subset
        (List.mem_map_of_mem (f := fun st : LoopStep => st.ev) (List.mem_reverse.mpr hst))
      obtain ⟨p, -, hp⟩ := Option.map_eq_some_iff.mp (Option.mem_toList.mp hev)
      exact ⟨p.1, p.2, hp.symm⟩

theorem alike_initial (servfd : Int) (opened : Finset Int) :
    Alike (.initial servfd) (.initial servfd opened) where
  server := rfl
  bufs := fun _ hi => absurd hi.1 (Nat.not_lt_zero _)
  master := rfl
  maxfd := rfl

theorem fine_initial {servfd : Int} {opened : Finset Int} (hfd : 0 ≤ servfd)
    (hlow : ∀ fd, 0 ≤ fd → fd ≤ servfd → fd ∈ opened) : (Daemon.initial servfd opened).Fine where
  ok := ok_initial (show (server .any).init (.initial servfd) from ⟨servfd, hfd, rfl⟩)
  block := fun _ hi => absurd hi.1 (Nat.not_lt_zero _)
  opened := fun _ hi => absurd hi.1 (Nat.not_lt_zero _)
  master := fun _ hmem => Finset.mem_singleton.mp hmem ▸ hlow servfd hfd (le_refl _)
  low := hlow

/--
**The rounds of the select loop are single actions.**  Every run of `runserver` round by round,
in which a block is made smaller when less is asked for, is a run of the loop over single
actions: it comes to the same state, and each round is an accept at most and then, in the order
of the slots, one receive on each connection that was ready, but for those closed before it was
their turn.
-/
theorem rounds_are_actions {hist : List DaemonStep} (h : Run (daemon mem) hist d)
    (hshrinks : ∀ st ∈ hist, ∀ i, (st.ev.recv i).shrinks = true) :
    ∃ stepss l, Run (runserver mem) stepss.flatten l ∧ Alike l d ∧
      List.Forall₂ RoundIs hist stepss := by
  obtain ⟨d₀, ⟨servfd, opened, hfd, hlow, rfl⟩, hx⟩ := h
  suffices hall : ∃ stepss l, Exec (runserver mem) (.initial servfd) stepss.flatten l ∧
      Alike l d ∧ d.Fine ∧ List.Forall₂ RoundIs hist stepss by
    obtain ⟨stepss, l, hexec, halike, -, hrounds⟩ := hall
    exact ⟨stepss, l, ⟨_, ⟨servfd, hfd, rfl⟩, hexec⟩, halike, hrounds⟩
  induction hx with
  | nil => exact ⟨[], _, .nil, alike_initial servfd opened, fine_initial hfd hlow, .nil⟩
  | @snoc hist d d' r out _ hstep ih =>
      obtain ⟨stepss, l, hexec, halike, hfine, hrounds⟩ :=
        ih fun st hst => hshrinks st (List.mem_cons_of_mem _ hst)
      obtain ⟨l', steps, hexec', halike', hfine', hround⟩ :=
        halike.round hfine (hshrinks _ List.mem_cons_self) hstep
      exact ⟨steps :: stepss, l', hexec.append hexec', halike', hfine', .cons hround hrounds⟩

/-- Two connections arrive, and then both are ready in one round, and the socket with them. -/
def twoReady : List DaemonRound :=
  [⟨{3}, some (4, ⟨127, 0, 0, 1⟩), fun _ => .error⟩, ⟨{3}, some (5, ⟨127, 0, 0, 1⟩), fun _ => .error⟩,
    ⟨{3, 4, 5}, some (6, ⟨127, 0, 0, 1⟩), fun i =>
      if i = 0 then .bytes [0, 4, 0, 0] true true .bare ∅ else .closed fun _ => true⟩]

/-- The third round of them is three actions. -/
theorem rounds_are_actions_two : ∃ hist d stepss l, Run (daemon .enough) hist d ∧
    Run (runserver .enough) stepss.flatten l ∧ Alike l d ∧ hist.length = 3 ∧
    List.Forall₂ RoundIs hist stepss := by
  have hrun : (exec (daemon .enough) (.initial 3 {0, 1, 2, 3}) twoReady []).any (fun r =>
      decide (r.1.length = 3) && r.1.all fun st => decide (∀ i, (st.ev.recv i).shrinks = true))
      = true := by
    decide +kernel
  obtain ⟨⟨hist, d⟩, hexec, hproj⟩ := (Option.any_eq_true _ _).mp hrun
  simp only [Bool.and_eq_true, decide_eq_true_eq, List.all_eq_true] at hproj
  have hlow : ∀ fd : Int, 0 ≤ fd → fd ≤ 3 → fd ∈ ({0, 1, 2, 3} : Finset Int) := by
    intro fd hfd hle
    simp only [Finset.mem_insert, Finset.mem_singleton]
    omega
  have h : Run (daemon .enough) hist d :=
    ⟨_, ⟨3, _, by decide, hlow, rfl⟩, exec_sound _ .nil hexec⟩
  obtain ⟨stepss, l, hrun', halike, hrounds⟩ := rounds_are_actions h hproj.2
  exact ⟨hist, d, stepss, l, h, hrun', halike, hproj.1, hrounds⟩

end Smsg
