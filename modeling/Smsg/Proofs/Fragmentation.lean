/-
The server and the way TCP cuts its input.

The loop of `runserver` handles one command for each receive, where the client's
loop goes on while there is one.  So the commands of a connection are all handled,
in order and without delay, exactly when no receive brings in the end of more than
one of them, and none is so long that `ncmd_iscomplete` cannot return its size
(`served_iff`).  Two commands in one segment already leave the second one behind.

The events of other connections may come in between: they do not touch the buffer
(`step_other`), and one receive is `Framing.once` on it (`step_recv`).
-/
import Smsg.Proofs.Drain
import Smsg.Proofs.Runserver

namespace Smsg

open Machines Framing

abbrev LoopStep := Step Loop LoopEvent LoopOut

/-- The bytes a step receives on slot `i`. -/
def recvOn (i : Slot) (st : LoopStep) : Option Bytes :=
  match st.ev with
  | .recv j rbuf _ => if j = i then some rbuf else none
  | _ => none

/-- The bytes a step takes for a command on slot `i`. -/
def handledBy (i : Slot) (st : LoopStep) : Option Bytes :=
  st.out.handled.bind fun p => if p.1 = i then some p.2 else none

/-- The chunks received on slot `i`, oldest first. -/
def chunksOn (i : Slot) : List LoopStep → List Bytes
  | [] => []
  | st :: hist => chunksOn i hist ++ (recvOn i st).toList

/-- The commands handled for slot `i`, oldest first. -/
def handledOn (i : Slot) : List LoopStep → List Bytes
  | [] => []
  | st :: hist => handledOn i hist ++ (handledBy i st).toList

/-- What the loop takes for the command at the front of a buffer. -/
def frontBytes (buf : Bytes) : Bytes := buf.take ((ncmdIscomplete buf).getD 0).toNat

/-! ### One step -/

@[simp] theorem setBuf_self (l : Loop) (i : Slot) (buf : Bytes) : (l.setBuf i buf).bufs i = buf := by
  simp [Loop.setBuf]

@[simp] theorem setBuf_ne (l : Loop) {i j : Slot} (buf : Bytes) (h : j ≠ i) :
    (l.setBuf i buf).bufs j = l.bufs j := by
  simp [Loop.setBuf, h]

@[simp] theorem clear_bufs (l : Loop) (i : Slot) : (l.clear i).bufs = (l.setBuf i []).bufs := rfl

theorem settle_kicked {s : Server} {o : Outcome} {r : Slot} (h : Server.kicked o.retval = some r) :
    ((s.settle o).1.clients r).fd = -1 := by
  rw [Server.settle, Server.kick_some s h]
  exact Server.closeSlot_fd_self s r

/-- A settled command keeps the buffer of a slot that stays open, but for what is removed. -/
theorem settle_bufs {l l' : Loop} {i j : Slot} {o : Outcome} {effects : List Effect}
    (h : l.settle i o = some (l', effects)) (hopen : (l'.server.clients j).fd ≠ -1) :
    (j ≠ i → l'.bufs j = l.bufs j) ∧
      (j = i → ∃ r, ncmdRemove (l.bufs i) = some (r, l'.bufs i)) := by
  have hserver := Loop.settle_server h
  simp only [Loop.settle, Option.bind_eq_bind, Option.bind_eq_some_iff, Option.some.injEq,
    Prod.mk.injEq] at h
  obtain ⟨⟨r, buf⟩, hrem, rfl, -⟩ := h
  -- the slot that stays open is not the one that is kicked
  have hkick : ∀ k, Server.kicked o.retval = some k → k ≠ j := by
    intro k hk heq
    subst heq
    refine hopen ?_
    have := settle_kicked (s := l.server) hk
    rwa [hserver] at this
  have hkeep : (l.kick o.retval).bufs j = l.bufs j := by
    unfold Loop.kick
    split
    · rfl
    · rename_i k hk
      rw [clear_bufs, setBuf_ne]
      exact (hkick k hk).symm
  refine ⟨fun hne => ?_, fun heq => ?_⟩
  · exact (setBuf_ne _ buf hne).trans hkeep
  · subst heq
    rw [hkeep] at hrem
    exact ⟨r, by rw [hrem]; simp⟩

/-- A receive on slot `i` serves at most one command of its buffer. -/
theorem step_recv {l l' : Loop} {i : Slot} {rbuf : Bytes} {env : Env} {out : LoopOut}
    (h : l.receive i rbuf env = some (l', out)) (hopen : (l'.server.clients i).fd ≠ -1) :
    once frame frontBytes (l.bufs i ++ rbuf)
        = some ((out.handled.bind fun p => if p.1 = i then some p.2 else none).toList, l'.bufs i) ∧
      ∀ p, out.handled = some p → p.2.length < 2 ^ 31 := by
  simp only [Loop.receive, Option.bind_eq_bind, Option.bind_eq_some_iff, setBuf_self,
    recvbuf] at h
  obtain ⟨k, hk, h⟩ := h
  have hframe : frame (l.bufs i ++ rbuf) = if k < 0 then none else some k.toNat := by
    rw [frame, hk, Option.bind_some]
  split at h
  · rename_i hk0
    subst hk0
    simp only [Option.some.injEq, Prod.mk.injEq] at h
    obtain ⟨rfl, rfl⟩ := h
    refine ⟨?_, by simp⟩
    rw [if_neg (by omega)] at hframe
    simp [once, hframe]
  · rename_i hk0
    simp only [Option.bind_eq_some_iff] at h
    obtain ⟨c, -, h⟩ := h
    split at h
    · simp at h
    · rename_i o ho
      simp only [Option.bind_eq_some_iff, Option.some.injEq, Prod.mk.injEq] at h
      obtain ⟨⟨l₁, effects⟩, hs, rfl, rfl⟩ := h
      obtain ⟨r, hrem⟩ := (settle_bufs hs hopen).2 rfl
      rw [setBuf_self, ncmdRemove, hk] at hrem
      simp only [removeFront, Option.bind_eq_bind, Option.bind_some, if_neg hk0] at hrem
      by_cases hneg : k < 0
      · rw [if_pos hneg] at hrem
        simp at hrem
      · rw [if_neg hneg, Option.some.injEq, Prod.mk.injEq] at hrem
        rw [if_neg hneg] at hframe
        obtain ⟨n, hn⟩ : ∃ n, k.toNat = n + 1 := ⟨k.toNat - 1, by omega⟩
        refine ⟨?_, ?_⟩
        · simp only [once, hframe, hn, frontBytes, hk, Option.getD_some, Option.bind_some, if_true,
            Option.toList_some]
          rw [← hn, hrem.2]
        · intro p hp
          rw [Option.some.injEq] at hp
          rw [← hp, List.length_take]
          have := ncmdIscomplete_lt hk
          omega

/-- Any other event leaves the buffer of an open slot alone. -/
theorem step_other {mem : Memory} {l l' : Loop} {i : Slot} {e : LoopEvent} {out : LoopOut}
    (h : l.step mem e = some (l', out)) (hlive : l.server.live i)
    (hopen : (l'.server.clients i).fd = (l.server.clients i).fd)
    (hother : ∀ rbuf env, e ≠ .recv i rbuf env) :
    l'.bufs i = l.bufs i ∧ ∀ p, out.handled = some p → p.1 ≠ i := by
  have hfd : (l'.server.clients i).fd ≠ -1 := by rw [hopen]; exact hlive.2
  cases e with
  | accept newfd peer =>
      simp only [Loop.step, Option.ite_none_right_eq_some, Option.some.injEq, Prod.mk.injEq] at h
      obtain ⟨-, rfl, rfl⟩ := h
      refine ⟨?_, by simp⟩
      unfold Loop.accept
      cases hslot : l.server.acceptSlot with
      | none => rfl
      | some j =>
          refine setBuf_ne l [] ?_
          intro heq
          subst heq
          exact Server.not_live_acceptSlot hslot hlive
  | recvError j =>
      simp only [Loop.step, Option.ite_none_right_eq_some, Option.some.injEq, Prod.mk.injEq] at h
      obtain ⟨-, rfl, rfl⟩ := h
      exact ⟨rfl, by simp⟩
  | closed j alloc =>
      simp only [Loop.step, Option.ite_none_right_eq_some, Option.some.injEq, Prod.mk.injEq] at h
      obtain ⟨-, rfl, rfl⟩ := h
      refine ⟨?_, by simp⟩
      refine setBuf_ne l [] ?_
      intro heq
      subst heq
      refine hfd ?_
      rw [Server.peerClosed_server]
      exact Server.closeSlot_fd_self l.server i
  | recv j rbuf env =>
      have hij : i ≠ j := fun hc => hother rbuf env (by rw [hc])
      simp only [Loop.step, Option.ite_none_right_eq_some] at h
      obtain ⟨-, h⟩ := h
      simp only [Loop.receive, Option.bind_eq_bind, Option.bind_eq_some_iff] at h
      obtain ⟨k, -, h⟩ := h
      split at h
      · simp only [Option.some.injEq, Prod.mk.injEq] at h
        obtain ⟨rfl, rfl⟩ := h
        exact ⟨setBuf_ne l _ hij, by simp⟩
      · simp only [Option.bind_eq_some_iff] at h
        obtain ⟨c, -, h⟩ := h
        split at h
        · simp at h
        · simp only [Option.bind_eq_some_iff, Option.some.injEq, Prod.mk.injEq] at h
          obtain ⟨⟨l₁, effects⟩, hs, rfl, rfl⟩ := h
          refine ⟨?_, ?_⟩
          · rw [(settle_bufs hs hfd).1 hij, setBuf_ne l _ hij]
          · intro p hp heq
            subst heq
            rw [Option.some.injEq] at hp
            exact hij (by rw [← hp])

/-- A slot whose descriptor stays the same stays live. -/
theorem step_live {mem : Memory} {l l' : Loop} {i : Slot} {e : LoopEvent} {out : LoopOut}
    (h : l.step mem e = some (l', out)) (hlive : l.server.live i)
    (hopen : (l'.server.clients i).fd = (l.server.clients i).fd) : l'.server.live i := by
  refine ⟨?_, by rw [hopen]; exact hlive.2⟩
  refine Nat.lt_of_lt_of_le hlive.1 ?_
  have hsettle : ∀ (s : Server) (o : Outcome), s.numClients ≤ (s.settle o).1.numClients := by
    intro s o
    exact (Server.kick_numClients s o.retval).ge
  cases e with
  | accept newfd peer =>
      simp only [Loop.step, Option.ite_none_right_eq_some, Option.some.injEq, Prod.mk.injEq] at h
      obtain ⟨-, rfl, -⟩ := h
      unfold Loop.accept
      cases hslot : l.server.acceptSlot with
      | none => exact Nat.le_refl _
      | some j =>
          show _ ≤ (l.server.accept newfd peer).1.numClients
          rw [Server.accept_numClients hslot]
          split <;> omega
  | recvError j =>
      simp only [Loop.step, Option.ite_none_right_eq_some, Option.some.injEq, Prod.mk.injEq] at h
      rw [h.2.1]
  | closed j alloc =>
      simp only [Loop.step, Option.ite_none_right_eq_some, Option.some.injEq, Prod.mk.injEq] at h
      obtain ⟨-, rfl, -⟩ := h
      show _ ≤ (l.server.peerClosed j alloc).1.numClients
      rw [Server.peerClosed_server]
      exact Nat.le_refl _
  | recv j rbuf env =>
      simp only [Loop.step, Option.ite_none_right_eq_some] at h
      rcases Loop.receive_server h.2 with hsame | ⟨c, -, hhandle⟩
      · rw [hsame]
      · unfold Server.handle at hhandle
        split at hhandle
        · simp at hhandle
        · rename_i o _
          rw [Option.some.injEq] at hhandle
          have := hsettle l.server o
          rwa [hhandle] at this

/-! ### A whole execution -/

section

variable {mem : Memory} {l₀ l : Loop} {i : Slot} {hist : List LoopStep}

/-- **The handled commands are what serving chunk after chunk once gives.** -/
theorem exec_feed (h : Exec (runserver mem) l₀ hist l) (hlive : l₀.server.live i)
    (hopen : ∀ st ∈ hist, (st.post.server.clients i).fd = (l₀.server.clients i).fd) :
    feed (once frame frontBytes) (chunksOn i hist) (l₀.bufs i)
        = some (handledOn i hist, l.bufs i) ∧
      (∀ w ∈ handledOn i hist, w.length < 2 ^ 31) ∧ l.server.live i ∧
      (l.server.clients i).fd = (l₀.server.clients i).fd := by
  induction h with
  | nil => exact ⟨rfl, by simp [handledOn], hlive, rfl⟩
  | @snoc hist s s' e o _ hs ih =>
      obtain ⟨hfeed, hshort, hl, hfd⟩ := ih fun st hst => hopen st (List.mem_cons_of_mem _ hst)
      have hfd' : (s'.server.clients i).fd = (l₀.server.clients i).fd :=
        hopen ⟨s, e, s', o⟩ List.mem_cons_self
      have hstep : s.step mem e = some (s', o) := hs
      have hkeep : (s'.server.clients i).fd = (s.server.clients i).fd := hfd'.trans hfd.symm
      refine ⟨?_, ?_, step_live hstep hl hkeep, hfd'⟩
      · by_cases hrecv : ∃ rbuf env, e = .recv i rbuf env
        · obtain ⟨rbuf, env, rfl⟩ := hrecv
          simp only [Loop.step, Option.ite_none_right_eq_some] at hstep
          obtain ⟨honce, -⟩ := step_recv hstep.2 (by rw [hkeep]; exact hl.2)
          have hchunk : recvOn i (⟨s, .recv i rbuf env, s', o⟩ : LoopStep) = some rbuf := by
            simp [recvOn]
          rw [chunksOn, hchunk, Option.toList_some, feed_concat, hfeed]
          simp only [Option.bind_some, honce, Option.map_some]
          rfl
        · obtain ⟨hbuf, hno⟩ := step_other hstep hl hkeep fun rbuf env hc => hrecv ⟨rbuf, env, hc⟩
          have hchunk : recvOn i (⟨s, e, s', o⟩ : LoopStep) = none := by
            cases e with
            | recv j rbuf env =>
                have : j ≠ i := fun hc => hrecv ⟨rbuf, env, by rw [hc]⟩
                simp [recvOn, this]
            | _ => rfl
          have hnone : handledBy i (⟨s, e, s', o⟩ : LoopStep) = none := by
            unfold handledBy
            cases hh : o.handled with
            | none => simp
            | some p => simp [hno p hh]
          rw [chunksOn, handledOn, hchunk, hnone, Option.toList_none, List.append_nil,
            List.append_nil, hfeed, hbuf]
      · intro w hw
        rw [handledOn] at hw
        rcases List.mem_append.mp hw with hw | hw
        · exact hshort w hw
        · simp only [Option.mem_toList, handledBy, Option.bind_eq_some_iff] at hw
          obtain ⟨p, hp, hw⟩ := hw
          obtain ⟨rfl, rfl⟩ : p.1 = i ∧ p.2 = w := by
            by_cases hpi : p.1 = i
            · exact ⟨hpi, by simpa [hpi] using hw⟩
            · simp [hpi] at hw
          -- only a receive on the slot handles a command for it
          by_cases hrecv : ∃ rbuf env, e = .recv p.1 rbuf env
          · obtain ⟨rbuf, env, rfl⟩ := hrecv
            simp only [Loop.step, Option.ite_none_right_eq_some] at hstep
            exact (step_recv hstep.2 (by rw [hkeep]; exact hl.2)).2 p hp
          · exact absurd rfl ((step_other hstep hl hkeep
              fun rbuf env hc => hrecv ⟨rbuf, env, hc⟩).2 p hp)

/-- Every non-empty start of the chunks ends with some receive. -/
theorem chunksOn_prefix {pre : List Bytes} (hne : pre ≠ []) (hpre : pre <+: chunksOn i hist) :
    ∃ later st earlier, hist = later ++ st :: earlier ∧ (recvOn i st).isSome ∧
      chunksOn i (st :: earlier) = pre := by
  induction hist with
  | nil => exact absurd (List.prefix_nil.mp hpre) hne
  | cons st hist ih =>
      have hrest : pre <+: chunksOn i hist → ∃ later st' earlier, st :: hist
          = later ++ st' :: earlier ∧ (recvOn i st').isSome ∧ chunksOn i (st' :: earlier) = pre := by
        intro hpre'
        obtain ⟨later, st', earlier, heq, hsome, hch⟩ := ih hpre'
        exact ⟨st :: later, st', earlier, by rw [heq]; rfl, hsome, hch⟩
      cases hr : recvOn i st with
      | none =>
          rw [chunksOn, hr, Option.toList_none, List.append_nil] at hpre
          exact hrest hpre
      | some c =>
          rw [chunksOn, hr, Option.toList_some, List.prefix_concat_iff] at hpre
          rcases hpre with heq | hpre
          · exact ⟨[], st, hist, rfl, by rw [hr]; rfl, by rw [chunksOn, hr, heq]; rfl⟩
          · exact hrest hpre

theorem chunksOn_append (later earlier : List LoopStep) :
    ∃ t, chunksOn i (later ++ earlier) = chunksOn i earlier ++ t := by
  induction later with
  | nil => exact ⟨[], by simp⟩
  | cons st later ih =>
      obtain ⟨t, ht⟩ := ih
      exact ⟨t ++ (recvOn i st).toList, by rw [List.cons_append, chunksOn, ht, List.append_assoc]⟩

/-- No receive on slot `i` leaves a complete command in its buffer. -/
def NoneWaiting (i : Slot) (hist : List LoopStep) : Prop :=
  ∀ st ∈ hist, (recvOn i st).isSome → ∀ w, IsNetCmd w → ¬ w <+: st.post.bufs i

/-- What the run shows of one slot is what serving its chunks shows. -/
theorem served_of_exec (h : Exec (runserver mem) l₀ hist l) (hlive : l₀.server.live i)
    (hbuf : l₀.bufs i = [])
    (hopen : ∀ st ∈ hist, (st.post.server.clients i).fd = (l₀.server.clients i).fd)
    (log : List Bytes) :
    handledOn i hist = log ∧ NoneWaiting i hist ↔
      Served (once frame frontBytes) IsNetCmd (chunksOn i hist) log := by
  obtain ⟨hfeed, -, -, -⟩ := exec_feed h hlive hopen
  rw [hbuf] at hfeed
  -- the buffer behind the receive that ends a start of the chunks
  have hstart : ∀ later st earlier, hist = later ++ st :: earlier →
      feed (once frame frontBytes) (chunksOn i (st :: earlier)) []
        = some (handledOn i (st :: earlier), st.post.bufs i) := by
    intro later st earlier heq
    subst heq
    obtain ⟨hpre, hs, -⟩ := h.split
    have := (exec_feed (hpre.snoc hs) hlive fun st' hst' =>
      hopen st' (List.mem_append_right _ hst')).1
    rwa [hbuf] at this
  constructor
  · intro h
    obtain ⟨rfl, hnone⟩ := h
    refine ⟨⟨l.bufs i, hfeed⟩, ?_⟩
    intro pre hne hpre lg buf hf w hw
    obtain ⟨later, st, earlier, heq, hsome, rfl⟩ := chunksOn_prefix hne hpre
    rw [hstart later st earlier heq, Option.some.injEq, Prod.mk.injEq] at hf
    rw [← hf.2]
    exact hnone st (by rw [heq]; simp) hsome w hw
  · intro h
    obtain ⟨⟨buf, hf⟩, hclean⟩ := h
    rw [hfeed, Option.some.injEq, Prod.mk.injEq] at hf
    refine ⟨hf.1, ?_⟩
    intro st hst hsome w hw
    obtain ⟨later, earlier, heq⟩ := List.append_of_mem hst
    refine hclean (chunksOn i (st :: earlier)) ?_ ?_ _ _ (hstart later st earlier heq) w hw
    · obtain ⟨c, hc⟩ := Option.isSome_iff_exists.mp hsome
      rw [chunksOn, hc]
      simp
    · obtain ⟨t, ht⟩ := chunksOn_append (i := i) later (st :: earlier)
      rw [heq, ht]
      exact List.prefix_append _ _

/--
**When the server keeps up with a connection.**  From a state in which slot `i` is
live with an empty buffer, as long as the slot stays open: the commands of the
stream are all handled in order, and no receive leaves a complete one behind,
exactly when all of them are shorter than 2^31 bytes and no receive brings in the
end of more than one.
-/
theorem served_iff (h : Exec (runserver mem) l₀ hist l) (hlive : l₀.server.live i)
    (hbuf : l₀.bufs i = [])
    (hopen : ∀ st ∈ hist, (st.post.server.clients i).fd = (l₀.server.clients i).fd)
    (cmds : List NetCmd) (hfits : ∀ c ∈ cmds, c.Fits)
    (hstream : (chunksOn i hist).flatten = (cmds.map NetCmd.encode).flatten) :
    handledOn i hist = cmds.map NetCmd.encode ∧ NoneWaiting i hist ↔
      (∀ c ∈ cmds, c.encode.length < 2 ^ 31) ∧
        OneEndPerChunk (cmds.map NetCmd.encode) (chunksOn i hist) := by
  have hcode : (∀ c ∈ cmds, c.encode.length < 2 ^ 31) →
      (handledOn i hist = cmds.map NetCmd.encode ∧ NoneWaiting i hist ↔
        OneEndPerChunk (cmds.map NetCmd.encode) (chunksOn i hist)) := by
    intro hsize
    have hws : ∀ w ∈ cmds.map NetCmd.encode, ShortCmd w := by
      intro w hw
      obtain ⟨c, hc, rfl⟩ := List.mem_map.mp hw
      exact ⟨c, ⟨(hfits c hc).count, hsize c hc⟩, rfl⟩
    have hview : ∀ w, ShortCmd w → ∀ rest, frontBytes (w ++ rest) = id w := by
      intro w hw rest
      obtain ⟨c, hc, rfl⟩ := hw
      rw [frontBytes, ncmdIscomplete_encode hc, Option.getD_some, Int.toNat_natCast, List.take_left]
      rfl
    have hone := feed_once_iff frame_code hview (fun w => ShortCmd.isNetCmd)
      (fun u w hu hw hpre => hu.prefix_eq hw hpre)
      (fun w hw hc => by have := hw.four_le; rw [hc] at this; simp at this) hws hstream
    rw [List.map_id] at hone
    rw [served_of_exec h hlive hbuf hopen, hone]
  constructor
  · intro hserved
    have hsize : ∀ c ∈ cmds, c.encode.length < 2 ^ 31 := by
      intro c hc
      obtain ⟨-, hshort, -, -⟩ := exec_feed h hlive hopen
      refine hshort c.encode ?_
      rw [hserved.1]
      exact List.mem_map_of_mem hc
    exact ⟨hsize, (hcode hsize).mp hserved⟩
  · intro h
    obtain ⟨hsize, hone⟩ := h
    exact (hcode hsize).mpr hone

end

/-- One connection, on descriptor 4. -/
private def accepted : LoopEvent := .accept 4 ⟨127, 0, 0, 1⟩

/-- Bytes that it sends. -/
private def sends (rbuf : Bytes) : LoopEvent := .recv 0 rbuf .bare

/-- One command in two pieces is served. -/
theorem served_pieces : ∃ hist l, Exec (runserver .any) ((Loop.initial 3).accept 4 ⟨127, 0, 0, 1⟩)
    hist l ∧ handledOn 0 hist = [[0, 29, 0, 0]] ∧ NoneWaiting 0 hist := by
  have hrun : (exec (runserver .any) ((Loop.initial 3).accept 4 ⟨127, 0, 0, 1⟩)
      [sends [0, 29, 0], sends [0]] []).map (fun r => (chunksOn 0 r.1,
        r.1.all fun st => (st.post.server.clients 0).fd == 4)) = some ([[0, 29, 0], [0]], true) := by
    decide +kernel
  obtain ⟨⟨hist, l⟩, hexec, hproj⟩ := Option.map_eq_some_iff.mp hrun
  rw [Prod.mk.injEq] at hproj
  have hx := exec_sound _ .nil hexec
  refine ⟨hist, l, hx, ?_⟩
  refine (served_iff hx (by decide) rfl ?_ [⟨.cSay, []⟩] ?_ ?_).mpr ⟨by decide, ?_⟩
  · intro st hst
    have hfd := List.all_eq_true.mp hproj.2 st hst
    exact (beq_iff_eq.mp hfd).trans (by decide +kernel)
  · intro c hc
    rw [List.mem_singleton.mp hc]
    exact ⟨by decide, by simp⟩
  · rw [hproj.1]
    rfl
  · intro pre c post _
    exact Nat.le_trans (completed_le _ _) (Nat.le_add_left _ _)

/-- Two commands in two segments are both handled, in one segment only the first one is. -/
theorem not_served_coalesced : ∃ hist hist' l l', Run (runserver .any) hist l ∧
    Run (runserver .any) hist' l' ∧
    (chunksOn 0 hist).flatten = ([⟨.cSay, []⟩, ⟨.cWho, []⟩].map NetCmd.encode).flatten ∧
    (chunksOn 0 hist').flatten = (chunksOn 0 hist).flatten ∧
    handledOn 0 hist = [⟨.cSay, []⟩, ⟨.cWho, []⟩].map NetCmd.encode ∧
    handledOn 0 hist' = [NetCmd.encode ⟨.cSay, []⟩] := by
  have hrun : (exec (runserver .any) (.initial 3)
      [accepted, sends [0, 29, 0, 0], sends [0, 31, 0, 0]] []).map
        (fun r => (chunksOn 0 r.1, handledOn 0 r.1))
      = some ([[0, 29, 0, 0], [0, 31, 0, 0]], [[0, 29, 0, 0], [0, 31, 0, 0]]) := by
    decide +kernel
  have hrun' : (exec (runserver .any) (.initial 3)
      [accepted, sends [0, 29, 0, 0, 0, 31, 0, 0]] []).map
        (fun r => (chunksOn 0 r.1, handledOn 0 r.1))
      = some ([[0, 29, 0, 0, 0, 31, 0, 0]], [[0, 29, 0, 0]]) := by
    decide +kernel
  obtain ⟨⟨hist, l⟩, hexec, hproj⟩ := Option.map_eq_some_iff.mp hrun
  obtain ⟨⟨hist', l'⟩, hexec', hproj'⟩ := Option.map_eq_some_iff.mp hrun'
  rw [Prod.mk.injEq] at hproj hproj'
  refine ⟨hist, hist', l, l', ⟨_, ⟨3, by decide, rfl⟩, exec_sound _ .nil hexec⟩,
    ⟨_, ⟨3, by decide, rfl⟩, exec_sound _ .nil hexec'⟩, ?_, ?_, ?_, ?_⟩
  · rw [hproj.1]
    rfl
  · rw [hproj.1, hproj'.1]
    rfl
  · rw [hproj.2]
    rfl
  · rw [hproj'.2]
    rfl

end Smsg
