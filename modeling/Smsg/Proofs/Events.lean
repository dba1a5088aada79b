/-
What an event does to the server.

`Turn` lists the events of the server with what became of them, and `step_turn`
says that there are no others.  Together with the deeds it is what every invariant
of the server is derived from.

The first of these is `Server.Ok`: connections have descriptors of their own, above
the one of the listening socket, and so has everybody who is in chat.  With it
every event is one act in the room (`server_refines`).
-/
import Smsg.Proofs.Handlers
import Smsg.Proofs.Room
import Smsg.Proofs.Runserver

namespace Smsg

open Machines

/-! ### Deeds are acts that are permitted -/

section

variable {x : Call} {o : Outcome} {act : Act CString CString}

theorem modeAct_permits {op : NCMDOp} {user : CString} {fd : Int} {r : Room CString CString}
    (h : modeAct op user = some act) (hoper : r.OperatorOn fd) (hnamed : r.Named user) :
    act.permits fd r := by
  cases op <;> simp [modeAct] at h <;> subst h <;> exact ⟨hoper, hnamed⟩

theorem Call.Sender.operatorOn {e : UdataEnt} (h : x.Sender e)
    (hoper : e.has udcFlagOperator = true) : x.udata.room.OperatorOn x.fd := by
  obtain ⟨hmem, hfd, hpres⟩ := Udata.udataGetByFd_some h
  exact ⟨e.user, e.seat, Udata.room_of_mem hmem, hpres, hfd, hoper⟩

/-- A deed is permitted. -/
theorem Deed.permits (h : Deed x o act) (hfd : 0 ≤ x.fd) : act.permits x.fd x.udata.room := by
  cases h with
  | idle => trivial
  | enrol hnew => exact hnew
  | join hj => exact ⟨hfd, hj.seat⟩
  | leave hl => exact ⟨_, hl.seat, hl.present⟩
  | rename hs => exact Udata.udataGetByFd_sits hs
  | away hs => exact Udata.udataGetByFd_sits hs
  | oper hs => exact Udata.udataGetByFd_sits hs
  | mode hs hoper _ ht hact =>
      exact modeAct_permits hact (hs.operatorOn hoper) (Udata.udataGetByNick_named ht)

/-- With memory for the nick of who joins, it gives nobody a nick that is in use. -/
theorem Deed.clean (h : Deed x o act)
    (hmem : ∀ user nick, x.Joins user nick → x.env.alloc .updateNick = true) :
    act.clean x.udata.room := by
  cases h with
  | join hj hnick =>
      rcases hnick with rfl | hnick
      · exact ⟨_, rfl, hj.free⟩
      · rw [hmem _ _ hj] at hnick
        simp at hnick
  | rename _ _ _ hfree => exact hfree
  | mode _ _ _ _ hact =>
      cases hop : x.cmd.op <;> simp [modeAct, hop] at hact <;> subst hact <;> trivial
  | _ => trivial

/-- The only commands that kick somebody out are `C_KICK` and `C_BAN`. -/
theorem Deed.kicks (h : Deed x o act) : o.retval < 0 ∨ ∃ t : UdataEnt, x.Target t ∧
    (act = .kick t.user ∨ act = .ban t.user) ∧ o.retval = kickSlot x.clients t.fd := by
  cases h with
  | mode hs hoper _ ht hact hret =>
      by_cases hk : x.cmd.op = .cBan ∨ x.cmd.op = .cKick
      · rw [if_pos hk] at hret
        refine Or.inr ⟨_, ht, ?_, hret⟩
        rcases hk with hk | hk
        · rw [hk] at hact
          exact Or.inr (Option.some.inj hact).symm
        · rw [hk] at hact
          exact Or.inl (Option.some.inj hact).symm
      · rw [if_neg hk] at hret
        exact Or.inl (by rw [hret]; decide)
  | idle hret => exact Or.inl hret
  | enrol _ hret => exact Or.inl hret
  | join _ _ hret => exact Or.inl hret
  | leave _ hret => exact Or.inl hret
  | rename _ _ _ _ _ hret => exact Or.inl hret
  | away _ _ hret => exact Or.inl hret
  | oper _ _ _ hret => exact Or.inl hret

end

/-! ### The connections -/

namespace Server

variable {s s' : Server} {i j r : Slot}

/-- Connections and those in chat have descriptors above the listening one. -/
structure Ok (s : Server) : Prop where
  servfd : 0 ≤ s.servfd
  above : ∀ i, s.live i → s.servfd < (s.clients i).fd
  distinct : ∀ i j, s.live i → s.live j → (s.clients i).fd = (s.clients j).fd → i = j
  static : ∀ i : Slot, s.numClients ≤ i.val → (s.clients i).fd = 0
  seats : ∀ v t, s.udata.room v = some t → t.present → s.servfd < t.fd

theorem Ok.fd_pos (hs : s.Ok) (hi : s.live i) : 0 < (s.clients i).fd :=
  lt_of_le_of_lt hs.servfd (hs.above i hi)

theorem Ok.live_of_fd (hs : s.Ok) (h : s.servfd < (s.clients i).fd) : s.live i := by
  have hnum : i.val < s.numClients := by
    by_contra hc
    have hzero := hs.static i (by omega)
    have := hs.servfd
    omega
  refine ⟨hnum, ?_⟩
  have := hs.servfd
  omega

theorem Ok.eq_of_fd (hs : s.Ok) (hi : s.live i) (h : (s.clients j).fd = (s.clients i).fd) :
    j = i :=
  hs.distinct j i (hs.live_of_fd (by rw [h]; exact hs.above i hi)) hi h

theorem kicked_neg {retval : Int} (h : retval < 0) : kicked retval = none :=
  dif_neg fun hc => absurd hc.1 (by omega)

/-- The slot that a kick closes is the first one with the descriptor. -/
theorem kicked_kickSlot (clients : Slot → Client) (fd : Int) :
    kicked (kickSlot clients fd)
      = (List.finRange maxClients).find? fun i => (clients i).fd == fd := by
  unfold kickSlot
  cases hf : (List.finRange maxClients).find? fun i => (clients i).fd == fd with
  | none => exact kicked_neg (by decide)
  | some k =>
      have hk : (0 : Int) ≤ (k.val : Int) ∧ (k.val : Int) < maxClients := by
        have := k.isLt
        omega
      simp [kicked, hk]

theorem kicked_kickSlot_some {clients : Slot → Client} {fd : Int}
    (h : kicked (kickSlot clients fd) = some r) : (clients r).fd = fd := by
  rw [kicked_kickSlot] at h
  simpa using List.find?_some h

@[simp] theorem settle_udata (s : Server) (o : Outcome) : (s.settle o).1.udata = o.udata := rfl
theorem settle_done (s : Server) (i : Slot) (c : NetCmd) (env : Env) (u : Udata)
    (effects : List Effect) :
    s.settle ((s.call i c env).done u effects) = ({ s with udata := u }, effects) := by
  have hkick : kicked ((s.call i c env).done u effects).retval = none := kicked_neg retval_neg
  rw [settle, kick_none s hkick, kickEffects, hkick]
  exact Prod.ext rfl (List.append_nil _)

theorem settle_cases (s : Server) (o : Outcome) :
    (kicked o.retval = none ∧ (s.settle o).1 = { s with udata := o.udata, beleet := o.beleet }) ∨
      ∃ r, kicked o.retval = some r ∧
        (s.settle o).1 = { s.closeSlot r with udata := o.udata, beleet := o.beleet } := by
  cases hk : kicked o.retval with
  | none => exact Or.inl ⟨rfl, by rw [settle, kick_none s hk]⟩
  | some r => exact Or.inr ⟨r, rfl, by rw [settle, kick_some s hk]⟩

theorem live_settle_iff (s : Server) (o : Outcome) (j : Slot) :
    (s.settle o).1.live j ↔ kicked o.retval ≠ some j ∧ s.live j := by
  rcases settle_cases s o with ⟨hk, h⟩ | ⟨r, hk, h⟩
  · rw [h, hk]
    exact ⟨fun hl => ⟨by simp, hl⟩, fun hl => hl.2⟩
  · rw [h, hk]
    have hl : ({ s.closeSlot r with udata := o.udata, beleet := o.beleet } : Server).live j
        ↔ j ≠ r ∧ s.live j := live_closeSlot_iff s r j
    simp only [ne_eq, Option.some.injEq]
    exact ⟨fun hj => ⟨fun hc => (hl.mp hj).1 hc.symm, (hl.mp hj).2⟩,
      fun hj => hl.mpr ⟨fun hc => hj.1 hc.symm, hj.2⟩⟩

theorem settle_client (s : Server) {o : Outcome} (h : (s.settle o).1.live j) :
    (s.settle o).1.clients j = s.clients j := by
  obtain ⟨hne, -⟩ := (live_settle_iff s o j).mp h
  rcases settle_cases s o with ⟨-, hset⟩ | ⟨r, hk, hset⟩
  · rw [hset]
  · rw [hset]
    exact closeSlot_ne s fun hc => hne (by rw [hk, hc])

end Server

/-! ### The events -/

/-- What became of an event. -/
inductive Turn (mem : Memory) (s : Server) : Event → Server → List Effect → Prop
  | refused {newfd : Int} {peer : InAddr} (hfresh : s.fresh newfd) (hslot : s.acceptSlot = none) :
      Turn mem s (.accept newfd peer) s [.close newfd]
  | accepted {newfd : Int} {peer : InAddr} {i : Slot} (hfresh : s.fresh newfd)
      (hslot : s.acceptSlot = some i) :
      Turn mem s (.accept newfd peer) (s.accept newfd peer).1 []
  | recvError {i : Slot} (hlive : s.live i) : Turn mem s (.recvError i) s []
  | closed {i : Slot} {alloc : Alloc} (hlive : s.live i)
      (hnone : s.udata.udataGetByFd (s.clients i).fd = none) :
      Turn mem s (.closed i alloc) (s.closeSlot i) [.close (s.clients i).fd]
  | hungUp {i : Slot} {alloc : Alloc} {e : UdataEnt} (hlive : s.live i)
      (hent : s.udata.udataGetByFd (s.clients i).fd = some e) :
      Turn mem s (.closed i alloc)
        ({ s with udata := removeFromChat alloc s.udata e.user }.closeSlot i)
        (distribute 1 s.clients s.udata ((doorMsg 0 e.nick).add errorChatPeerclose) (some i) ++
          [.close (s.clients i).fd])
  | netcmd {i : Slot} {c : NetCmd} {env : Env} {o : Outcome} {act : Act CString CString}
      (hlive : s.live i) (hmem : mem.allows env.alloc = true)
      (hcall : lsHandleNetcmd (s.call i c env) = .ok o) (hdoes : Does (s.call i c env) o act) :
      Turn mem s (.netcmd i c env) (s.settle o).1 (s.settle o).2

/-- A command that is handled is settled. -/
theorem step_netcmd {mem : Memory} {s s' : Server} {i : Slot} {c : NetCmd} {env : Env}
    {out : List Effect} (h : (server mem).step s (.netcmd i c env) = some (s', out)) :
    s.live i ∧ mem.allows env.alloc = true ∧
      ∃ o, lsHandleNetcmd (s.call i c env) = .ok o ∧ s.settle o = (s', out) := by
  simp only [server, Server.step, Option.ite_none_right_eq_some] at h
  obtain ⟨⟨hlive, hmem⟩, h⟩ := h
  refine ⟨hlive, hmem, ?_⟩
  unfold Server.handle at h
  split at h
  · simp at h
  · rename_i o hcall
    exact ⟨o, hcall, Option.some.inj h⟩

/-- **There are no other events.** -/
theorem step_turn {mem : Memory} {s s' : Server} {ev : Event} {out : List Effect} (hs : s.Ok)
    (h : (server mem).step s ev = some (s', out)) : Turn mem s ev s' out := by
  cases ev with
  | accept newfd peer =>
      simp only [server, Server.step, Option.ite_none_right_eq_some, Option.some.injEq] at h
      obtain ⟨hfresh, h⟩ := h
      cases hslot : s.acceptSlot with
      | none =>
          rw [Server.accept_none hslot, Prod.mk.injEq] at h
          rw [← h.1, ← h.2]
          exact .refused hfresh hslot
      | some i =>
          obtain ⟨rfl, rfl⟩ : s' = (s.accept newfd peer).1 ∧ out = [] := by
            have hout : (s.accept newfd peer).2 = [] := by rw [Server.accept, hslot]
            rw [h] at hout ⊢
            exact ⟨rfl, hout⟩
          exact .accepted hfresh hslot
  | recvError i =>
      simp only [server, Server.step, Option.ite_none_right_eq_some, Option.some.injEq,
        Prod.mk.injEq] at h
      obtain ⟨hlive, rfl, rfl⟩ := h
      exact .recvError hlive
  | closed i alloc =>
      simp only [server, Server.step, Option.ite_none_right_eq_some, Option.some.injEq] at h
      obtain ⟨⟨hlive, -⟩, h⟩ := h
      unfold Server.peerClosed at h
      dsimp only at h
      split at h
      · rename_i hnone
        rw [Prod.mk.injEq] at h
        obtain ⟨rfl, rfl⟩ := h
        exact .closed hlive hnone
      · rename_i e hent
        rw [if_pos (Udata.udataGetByFd_some hent).2.2, Prod.mk.injEq] at h
        obtain ⟨rfl, rfl⟩ := h
        exact .hungUp hlive hent
  | netcmd i c env =>
      obtain ⟨hlive, hmem, o, hcall, h⟩ := step_netcmd h
      have hfd : 0 ≤ (s.call i c env).fd := le_of_lt (hs.fd_pos hlive)
      obtain ⟨act, hdoes⟩ := does_lsHandleNetcmd hfd hcall
      rw [show s' = (s.settle o).1 by rw [h], show out = (s.settle o).2 by rw [h]]
      exact .netcmd hlive hmem hcall hdoes

/-! ### Every event is an act -/

theorem room_hungUp {s : Server} {i : Slot} {e : UdataEnt} (alloc : Alloc)
    (hent : s.udata.udataGetByFd (s.clients i).fd = some e) :
    (removeFromChat alloc s.udata e.user).room
      = (Act.leave e.user).apply (s.clients i).fd s.udata.room := by
  refine Udata.room_removeFromChat alloc s.udata ?_
  rw [Udata.room_of_mem (Udata.udataGetByFd_some hent).1]
  simp

/-- If the event lets somebody join, there is memory for the nick. -/
def Server.StoresNick (s : Server) (ev : Event) : Prop :=
  ∀ i c env user nick, ev = .netcmd i c env → (s.call i c env).Joins user nick →
    env.alloc .updateNick = true

/-- The act of an event, and the descriptor it is done on; only a `CHATDOOR` is a join. -/
theorem Turn.act {mem : Memory} {s s' : Server} {ev : Event} {out : List Effect} (hs : s.Ok)
    (h : Turn mem s ev s' out) : ∃ (fd : Int) (act : Act CString CString),
      act.permits fd s.udata.room ∧ (s.StoresNick ev → act.clean s.udata.room) ∧
      s'.udata.room = act.apply fd s.udata.room ∧
      ∀ v nick, act = .join v nick → ∃ i c env anick, ev = .netcmd i c env ∧ s.live i ∧
        (s.clients i).fd = fd ∧ (s.call i c env).Joins v anick := by
  have hidle : ∀ {p : CString → Option CString → Prop} v nick,
      (Act.idle : Act CString CString) = .join v nick → p v nick := by
    intro p v nick hact
    cases hact
  cases h with
  | refused => exact ⟨0, .idle, trivial, fun _ => trivial, rfl, hidle⟩
  | recvError => exact ⟨0, .idle, trivial, fun _ => trivial, rfl, hidle⟩
  | accepted =>
      refine ⟨0, .idle, trivial, fun _ => trivial, ?_, hidle⟩
      rw [Server.accept_udata]
      rfl
  | closed => exact ⟨0, .idle, trivial, fun _ => trivial, rfl, hidle⟩
  | hungUp hlive hent =>
      refine ⟨_, .leave _, ?_, fun _ => trivial, room_hungUp _ hent, fun _ _ hact => by cases hact⟩
      obtain ⟨t, ht, hpres, -⟩ := Udata.udataGetByFd_sits hent
      exact ⟨t, ht, hpres⟩
  | @netcmd i c env o act hlive hmem hcall hdoes =>
      refine ⟨(s.clients i).fd, act, ?_, ?_, hdoes.2, ?_⟩
      · exact hdoes.1.permits (le_of_lt (hs.fd_pos hlive))
      · intro hm
        exact hdoes.1.clean fun user nick hj => hm i c env user nick rfl hj
      · intro v nick hact
        subst hact
        cases hdoes.1 with
        | join hj => exact ⟨i, c, env, _, rfl, hlive, rfl, hj⟩
        | mode _ _ _ _ hact => exact absurd hact modeAct_ne_join

theorem Turn.servfd {mem : Memory} {s s' : Server} {ev : Event} {out : List Effect}
    (h : Turn mem s ev s' out) : s'.servfd = s.servfd := by
  cases h with
  | accepted => exact Server.accept_servfd _ _ _
  | @netcmd i c env o =>
      rcases Server.settle_cases s o with ⟨-, hset⟩ | ⟨r, -, hset⟩
      · rw [hset]
      · rw [hset]
        rfl
  | _ => rfl

namespace Server

variable {s s' : Server}

/-- A server with fewer connections. -/
theorem Ok.of_live (hs : s.Ok) (hservfd : s'.servfd = s.servfd)
    (hlive : ∀ j, s'.live j → s.live j ∧ (s'.clients j).fd = (s.clients j).fd)
    (hstatic : ∀ j : Slot, s'.numClients ≤ j.val → (s'.clients j).fd = 0)
    (hseats : ∀ v t, s'.udata.room v = some t → t.present → s'.servfd < t.fd) : s'.Ok where
  servfd := by rw [hservfd]; exact hs.servfd
  above j hj := by
    obtain ⟨hl, hfd⟩ := hlive j hj
    rw [hservfd, hfd]
    exact hs.above j hl
  distinct j k hj hk h := by
    obtain ⟨hjl, hjfd⟩ := hlive j hj
    obtain ⟨hkl, hkfd⟩ := hlive k hk
    exact hs.distinct j k hjl hkl (by rw [← hjfd, ← hkfd, h])
  static := hstatic
  seats := hseats

theorem Ok.closeSlot_static (hs : s.Ok) {i : Slot} (hi : s.live i) (j : Slot)
    (hj : s.numClients ≤ j.val) : ((s.closeSlot i).clients j).fd = 0 := by
  have hne : j ≠ i := by
    intro hji
    have hlt := hi.1
    rw [hji] at hj
    omega
  rw [closeSlot_ne s hne]
  exact hs.static j hj

theorem Ok.closeSlot_live {i : Slot} (j : Slot) (hj : (s.closeSlot i).live j) :
    s.live j ∧ ((s.closeSlot i).clients j).fd = (s.clients j).fd := by
  obtain ⟨hne, hlive⟩ := (live_closeSlot_iff s i j).mp hj
  exact ⟨hlive, by rw [closeSlot_ne s hne]⟩

theorem Ok.accept (hs : s.Ok) {newfd : Int} {i : Slot} (peer : InAddr) (hfresh : s.fresh newfd)
    (hslot : s.acceptSlot = some i) : (s.accept newfd peer).1.Ok := by
  have hlive := @live_accept_iff s i hslot newfd
    (by have := hs.servfd; have := hfresh.1; omega) peer
  have hclients := accept_clients hslot newfd peer
  refine ⟨by rw [accept_servfd]; exact hs.servfd, ?_, ?_, ?_, ?_⟩
  · intro j hj
    rw [accept_servfd, hclients]
    by_cases hji : j = i
    · rw [if_pos hji]
      exact hfresh.1
    · rw [if_neg hji]
      exact hs.above j (((hlive j).mp hj).resolve_left hji)
  · intro j k hj hk h
    rw [hclients, hclients] at h
    by_cases hji : j = i
    · by_cases hki : k = i
      · rw [hji, hki]
      · rw [if_pos hji, if_neg hki] at h
        exact absurd h.symm (hfresh.2 k (((hlive k).mp hk).resolve_left hki))
    · by_cases hki : k = i
      · rw [if_neg hji, if_pos hki] at h
        exact absurd h (hfresh.2 j (((hlive j).mp hj).resolve_left hji))
      · rw [if_neg hji, if_neg hki] at h
        exact hs.distinct j k (((hlive j).mp hj).resolve_left hji)
          (((hlive k).mp hk).resolve_left hki) h
  · intro j hj
    have hnum := accept_numClients hslot newfd peer
    have hi := acceptSlot_spec hslot
    rw [hnum] at hj
    have hji : j ≠ i := by
      intro hji
      rw [hji] at hj
      split at hj <;> omega
    rw [hclients, if_neg hji]
    refine hs.static j ?_
    split at hj <;> omega
  · rw [accept_udata, accept_servfd]
    exact hs.seats

end Server

open Server in
/-- Only connections are kicked out. -/
theorem Deed.kicked_live {s : Server} {i r : Slot} {c : NetCmd} {env : Env} {o : Outcome}
    {act : Act CString CString} (h : Deed (s.call i c env) o act) (hs : s.Ok)
    (hk : kicked o.retval = some r) : s.live r := by
  rcases h.kicks with hneg | ⟨t, ht, -, hret⟩
  · rw [kicked_neg hneg] at hk
    simp at hk
  · rw [hret] at hk
    obtain ⟨hmem, -, -, -, hpres⟩ := Udata.udataGetByNick_some ht
    have hfd : (s.clients r).fd = t.fd := kicked_kickSlot_some hk
    refine hs.live_of_fd ?_
    rw [hfd]
    exact hs.seats t.user t.seat (Udata.room_of_mem hmem) hpres

open Server in
/-- **Every event keeps the descriptors apart.** -/
theorem Turn.ok {mem : Memory} {s s' : Server} {ev : Event} {out : List Effect} (hs : s.Ok)
    (h : Turn mem s ev s' out) : s'.Ok := by
  have hseats : ∀ v t, s'.udata.room v = some t → t.present → s'.servfd < t.fd := by
    obtain ⟨fd, act, hp, -, hroom, hjoin⟩ := h.act hs
    intro v t ht hpres
    rw [hroom] at ht
    rw [h.servfd]
    rcases Act.apply_present ht hpres with ⟨nick, hact, rfl⟩ | ⟨t₀, ht₀, hpres₀, hfd⟩
    · obtain ⟨i, c, env, anick, -, hlive, hfd, -⟩ := hjoin v nick hact
      rw [← hfd]
      exact hs.above i hlive
    · rw [hfd]
      exact hs.seats v t₀ ht₀ hpres₀
  cases h with
  | refused => exact hs
  | recvError => exact hs
  | accepted hfresh hslot => exact hs.accept _ hfresh hslot
  | closed hlive => exact hs.of_live rfl Ok.closeSlot_live (hs.closeSlot_static hlive) hseats
  | hungUp hlive => exact hs.of_live rfl Ok.closeSlot_live (hs.closeSlot_static hlive) hseats
  | @netcmd i c env o act hlive hmem hcall hdoes =>
      refine hs.of_live (Turn.servfd (.netcmd hlive hmem hcall hdoes)) ?_ ?_ hseats
      · intro j hj
        exact ⟨((live_settle_iff s o j).mp hj).2, by rw [settle_client s hj]⟩
      · intro j hj
        rcases settle_cases s o with ⟨-, hset⟩ | ⟨r, hk, hset⟩
        · rw [hset] at hj ⊢
          exact hs.static j hj
        · rw [hset] at hj ⊢
          exact hs.closeSlot_static (hdoes.1.kicked_live hs hk) j hj

theorem ok_initial {s : Server} {mem : Memory} (h : (server mem).init s) : s.Ok := by
  obtain ⟨servfd, hfd, rfl⟩ := h
  refine ⟨hfd, ?_, ?_, fun _ _ => rfl, ?_⟩
  · intro i hi
    exact absurd hi.1 (Nat.not_lt_zero _)
  · intro i _ hi
    exact absurd hi.1 (Nat.not_lt_zero _)
  · intro v t ht
    simp [Server.initial] at ht

/-! ### Runs -/

abbrev ServerStep := Step Server Event (List Effect)

/-- A test of the commands among the steps. -/
def ServerStep.commandIs (test : Slot → NetCmd → Bool) (st : ServerStep) : Bool :=
  match st.ev with
  | .netcmd i c _ => test i c
  | _ => true

/-- Events that go through one after the other, from a listening socket 3 on. -/
theorem run_of_exec {mem : Memory} {evs : List Event} {hist : List ServerStep} {s : Server}
    (h : exec (server mem) (.initial 3) evs [] = some (hist, s)) : Run (server mem) hist s :=
  ⟨_, ⟨3, by decide, rfl⟩, exec_sound _ .nil h⟩

/-- The step handles the command of the call `x`. -/
def Handles (st : ServerStep) (x : Call) : Prop :=
  ∃ i c env, st.ev = .netcmd i c env ∧ x = st.pre.call i c env

/-- **In every run, descriptors are apart.** -/
theorem run_ok {mem : Memory} {hist : List ServerStep} {s : Server} (h : Run (server mem) hist s) :
    s.Ok := by
  obtain ⟨s₀, h₀, hx⟩ := h
  refine hx.invariant Server.Ok (fun _ => True) (ok_initial h₀) ?_ fun _ _ => trivial
  intro s ev s' out hs hstep _
  exact (step_turn hs hstep).ok hs

theorem turn_of_mem {mem : Memory} {hist : List ServerStep} {s : Server} {st : ServerStep}
    (h : Run (server mem) hist s) (hst : st ∈ hist) :
    st.pre.Ok ∧ Turn mem st.pre st.ev st.post st.out := by
  obtain ⟨later, earlier, rfl⟩ := List.append_of_mem hst
  obtain ⟨hpre, hstep, -⟩ := h.split
  exact ⟨run_ok hpre, step_turn (run_ok hpre) hstep⟩

/--
**Every event of the server is one act in the room**; the room is tidy if there is
memory for the nick of everybody who joins.
-/
theorem server_refines (mem : Memory) (tidy : Prop) :
    Simulation (server mem) (roomMachine CString CString tidy)
      (fun st => tidy → st.pre.StoresNick st.ev) (fun _ => True)
      (fun s r => s.Ok ∧ s.udata.room = r) where
  init s hs := by
    refine ⟨_, rfl, ok_initial hs, ?_⟩
    obtain ⟨servfd, -, rfl⟩ := hs
    rfl
  step s r ev s' out := by
    intro hR hstep hmem
    obtain ⟨hs, rfl⟩ := hR
    have hturn := step_turn hs hstep
    obtain ⟨fd, act, hp, hc, hroom, -⟩ := hturn.act hs
    exact Or.inr ⟨(fd, act), s'.udata.room, (), roomMachine_step.mpr ⟨hp, fun ht => hc (hmem ht), hroom⟩, trivial,
      hturn.ok hs, rfl⟩

theorem run_room {mem : Memory} {tidy : Prop} {hist : List ServerStep} {s : Server}
    (h : Run (server mem) hist s) (hmem : ∀ st ∈ hist, tidy → st.pre.StoresNick st.ev) :
    ∃ acts, Run (roomMachine CString CString tidy) acts s.udata.room := by
  obtain ⟨acts, r, hrun, -, -, rfl⟩ := (server_refines mem tidy).exec h hmem
  exact ⟨acts, hrun⟩

end Smsg
