/-
From the bytes that come in to the answers.

The handlers are written over commands, the loop of `runserver` over bytes.  An execution of
the loop is read as one of the server over commands: a receive that serves a command is the
step that handles it, and one that waits is no step (`exec_asServer`).  What is sent is the
same in both (`heardOn_asServer`), and the commands are those whose bytes were served
(`cmdsOn_asServer`).

With this, what is known of the handlers holds of the bytes: a client that is not in chat,
and whose commands arrive one at a time in however many pieces, is answered in order and
hears nothing else (`answers_over_bytes`).
-/
import Smsg.Proofs.Decode
import Smsg.Proofs.Fragmentation
import Smsg.Proofs.Answers

namespace Smsg

open Machines Framing

variable {mem : Memory} {l₀ l l' : Loop} {hist later : List LoopStep} {i : Slot} {c : NetCmd}
  {buf rbuf : Bytes} {env : Env} {out : LoopOut}

/-! ### Decoding -/

theorem decode_of_frontBytes (hc : c.Short) (h : frontBytes buf = c.encode) :
    decode buf = some c := by
  have hsplit := List.take_append_drop ((ncmdIscomplete buf).getD 0).toNat buf
  rw [show buf.take ((ncmdIscomplete buf).getD 0).toNat = c.encode from h] at hsplit
  rw [← hsplit]
  exact decode_encode hc.count (fun _ ha => hc.arg_lt ha) _

/-! ### The steps of the server -/

/-- A receive serves a command, which the server handles, or serves none. -/
theorem Loop.receive_cases (h : l.receive i rbuf env = some (l', out)) :
    (out = ⟨[], none⟩ ∧ l'.server = l.server) ∨
      ∃ c, decode (recvbuf (l.bufs i) rbuf) = some c ∧
        out.handled = some (i, frontBytes (recvbuf (l.bufs i) rbuf)) ∧
        l.server.handle i c env = some (l'.server, out.effects) := by
  simp only [Loop.receive, Option.bind_eq_bind, Option.bind_eq_some_iff, setBuf_self] at h
  obtain ⟨k, hk, h⟩ := h
  split at h
  · simp only [Option.some.injEq, Prod.mk.injEq] at h
    exact Or.inl ⟨h.2.symm, by rw [← h.1]; rfl⟩
  · right
    simp only [Option.bind_eq_some_iff] at h
    obtain ⟨c, hc, h⟩ := h
    split at h
    · simp at h
    · rename_i o ho
      simp only [Option.bind_eq_some_iff, Option.some.injEq, Prod.mk.injEq] at h
      obtain ⟨⟨l₁, effects⟩, hs, rfl, rfl⟩ := h
      refine ⟨c, hc, by rw [frontBytes, hk]; rfl, ?_⟩
      have hsettle := Loop.settle_server hs
      rw [Server.handle, show lsHandleNetcmd (l.server.call i c env) = .ok o from ho]
      exact congrArg some hsettle

/-- The step of the server that a step of the loop is; a receive that waits is none. -/
def asServer (st : LoopStep) : Option ServerStep :=
  match st.ev with
  | .accept newfd peer =>
      some ⟨st.pre.server, .accept newfd peer, st.post.server, st.out.effects⟩
  | .recvError i => some ⟨st.pre.server, .recvError i, st.post.server, st.out.effects⟩
  | .closed i alloc => some ⟨st.pre.server, .closed i alloc, st.post.server, st.out.effects⟩
  | .recv i rbuf env =>
      if st.out.handled.isSome then
        (decode (recvbuf (st.pre.bufs i) rbuf)).map fun c =>
          ⟨st.pre.server, .netcmd i c env, st.post.server, st.out.effects⟩
      else none

/-- What a step of the loop is to the server. -/
inductive SeenAs (mem : Memory) (st : LoopStep) : Prop
  | step (st' : ServerStep) (hsee : asServer st = some st') (hpre : st'.pre = st.pre.server)
      (hpost : st'.post = st.post.server) (hout : st'.out = st.out.effects)
      (hstep : (server mem).step st'.pre st'.ev = some (st'.post, st'.out))
      (hcmd : ∀ i, cmdsOn i [st'] = [] ∧ handledBy i st = none ∨
        ∃ buf c, cmdsOn i [st'] = [c] ∧ handledBy i st = some (frontBytes buf) ∧
          decode buf = some c)
  | waits (hsee : asServer st = none) (hout : st.out = ⟨[], none⟩)
      (hsame : st.post.server = st.pre.server)

theorem seenAs {st : LoopStep} (h : (runserver mem).step st.pre st.ev = some (st.post, st.out)) :
    SeenAs mem st := by
  obtain ⟨l, e, l', out⟩ := st
  dsimp only at h
  have hnone : ∀ {ev : Event}, (∀ i c env, ev ≠ .netcmd i c env) → out.handled = none → ∀ i,
      cmdsOn i [⟨l.server, ev, l'.server, out.effects⟩] = [] ∧ handledBy i ⟨l, e, l', out⟩ = none := by
    intro ev hev hno i
    refine ⟨?_, by rw [handledBy, hno]; rfl⟩
    cases ev with
    | netcmd j c env => exact absurd rfl (hev j c env)
    | _ => rfl
  cases e with
  | accept newfd peer =>
      simp only [runserver, Loop.step, Option.ite_none_right_eq_some, Option.some.injEq,
        Prod.mk.injEq] at h
      obtain ⟨hfresh, rfl, rfl⟩ := h
      have hs : (l.accept newfd peer).server = (l.server.accept newfd peer).1 := by
        unfold Loop.accept
        cases hslot : l.server.acceptSlot with
        | none => rw [Server.accept_none hslot]
        | some i => rfl
      refine .step _ rfl rfl rfl rfl ?_ fun i => .inl (hnone (by simp) rfl i)
      dsimp only
      rw [hs]
      exact if_pos hfresh
  | recvError j =>
      simp only [runserver, Loop.step, Option.ite_none_right_eq_some, Option.some.injEq,
        Prod.mk.injEq] at h
      obtain ⟨hlive, rfl, rfl⟩ := h
      exact .step _ rfl rfl rfl rfl (if_pos hlive) fun i => .inl (hnone (by simp) rfl i)
  | closed j alloc =>
      simp only [runserver, Loop.step, Option.ite_none_right_eq_some, Option.some.injEq,
        Prod.mk.injEq] at h
      obtain ⟨hok, rfl, rfl⟩ := h
      exact .step _ rfl rfl rfl rfl (if_pos hok) fun i => .inl (hnone (by simp) rfl i)
  | recv j rbuf env =>
      simp only [runserver, Loop.step, Option.ite_none_right_eq_some] at h
      obtain ⟨⟨hlive, hmem, -, -⟩, h⟩ := h
      rcases Loop.receive_cases h with ⟨rfl, hsame⟩ | ⟨c, hc, hhandled, hhandle⟩
      · exact .waits rfl rfl hsame
      · refine .step ⟨l.server, .netcmd j c env, l'.server, out.effects⟩ ?_ rfl rfl rfl ?_ ?_
        · simp [asServer, hhandled, hc]
        · simp only [server, Server.step, if_pos (And.intro hlive hmem)]
          exact hhandle
        · intro i
          by_cases hji : j = i
          · refine .inr ⟨recvbuf (l.bufs j) rbuf, c, ?_, ?_, hc⟩
            · simp [cmdsOn, hji]
            · simp [handledBy, hhandled, hji]
          · refine .inl ⟨?_, ?_⟩
            · simp [cmdsOn, hji]
            · simp [handledBy, hhandled, hji]

/-! ### Whole executions -/

/-- **An execution of the loop is one of the server over commands.** -/
theorem exec_asServer (hx : Exec (runserver mem) l₀ later l) :
    Exec (server mem) l₀.server (later.filterMap asServer) l.server := by
  refine hx.seen Loop.server asServer (fun st hstep hnone => ?_) fun st st' hstep hsome => ?_
  · cases seenAs hstep with
    | step st' hsee => rw [hnone] at hsee; cases hsee
    | waits _ _ hsame => exact hsame
  · cases seenAs hstep with
    | step st'' hsee hpre hpost _ hstep' =>
        rw [hsome] at hsee
        obtain rfl := Option.some.inj hsee
        exact ⟨hpre, hpost, hstep'⟩
    | waits hsee => rw [hsome] at hsee; cases hsee

/-- What the loop sends to a connection, oldest first. -/
def toldOn (fd : Int) (steps : List LoopStep) : List NetCmd :=
  steps.reverse.flatMap fun st => sentTo fd st.out.effects

/-- What is sent is the same. -/
theorem heardOn_asServer (hx : Exec (runserver mem) l₀ later l) (fd : Int) :
    heardOn fd (later.filterMap asServer) = toldOn fd later := by
  induction hx with
  | nil => rfl
  | @snoc later l l' e out _ hstep ih =>
      have htold : toldOn fd (⟨l, e, l', out⟩ :: later)
          = toldOn fd later ++ sentTo fd out.effects := by
        rw [toldOn, List.reverse_cons, List.flatMap_append]
        exact congrArg _ (List.append_nil _)
      rw [htold, ← ih]
      have hseen : SeenAs mem ⟨l, e, l', out⟩ := seenAs hstep
      cases hseen with
      | step st' hsee _ _ hout =>
          rw [List.filterMap_cons_some hsee, heardOn_cons, hout]
      | waits hsee hout =>
          have hnothing : sentTo fd out.effects = [] := by
            rw [show out = ⟨[], none⟩ from hout]
            rfl
          rw [List.filterMap_cons_none hsee, hnothing, List.append_nil]

/-- The commands are decoded from the buffers at whose front they are served. -/
theorem cmdsOn_decoded (hx : Exec (runserver mem) l₀ later l) (i : Slot) :
    List.Forall₂ (fun w c => ∃ buf, w = frontBytes buf ∧ decode buf = some c)
      (handledOn i later) (cmdsOn i (later.filterMap asServer)) := by
  induction hx with
  | nil => exact .nil
  | @snoc later l l' e out _ hstep ih =>
      rw [handledOn]
      have hseen : SeenAs mem ⟨l, e, l', out⟩ := seenAs hstep
      cases hseen with
      | step st' hsee _ _ _ _ hcmd =>
          rw [List.filterMap_cons_some hsee, cmdsOn_cons]
          refine List.rel_append ih ?_
          rcases hcmd i with ⟨hcmds, hnone⟩ | ⟨buf, c, hcmds, hsome, hdec⟩
          · rw [hcmds, hnone]
            exact .nil
          · rw [hcmds, hsome]
            exact .cons ⟨buf, rfl, hdec⟩ .nil
      | waits hsee hout =>
          have hnone : handledBy i (⟨l, e, l', out⟩ : LoopStep) = none := by
            rw [handledBy, hout]
            rfl
          rw [List.filterMap_cons_none hsee, hnone, Option.toList_none, List.append_nil]
          exact ih

/-- **The commands are those whose bytes are served.** -/
theorem cmdsOn_asServer (hx : Exec (runserver mem) l₀ later l) {cmds : List NetCmd}
    (hshort : ∀ c ∈ cmds, c.Short) (hserved : handledOn i later = cmds.map NetCmd.encode) :
    cmdsOn i (later.filterMap asServer) = cmds := by
  have hdecoded := cmdsOn_decoded hx i
  rw [hserved] at hdecoded
  generalize cmdsOn i (later.filterMap asServer) = cmds' at hdecoded
  clear hserved
  induction cmds generalizing cmds' with
  | nil =>
      cases hdecoded
      rfl
  | cons c cmds ih =>
      cases hdecoded with
      | cons hfirst hrest =>
          obtain ⟨buf, hfront, hdec⟩ := hfirst
          have hc := decode_of_frontBytes (hshort c List.mem_cons_self) hfront.symm
          rw [hdec, Option.some.injEq] at hc
          rw [hc, ih (fun d hd => hshort d (List.mem_cons_of_mem _ hd)) _ hrest]

/-- Short commands that arrive one at a time are all served. -/
theorem served_one_end (hx : Exec (runserver mem) l₀ later l) (hlive : l₀.server.live i)
    (hbuf : l₀.bufs i = [])
    (hopen : ∀ st ∈ later, (st.post.server.clients i).fd = (l₀.server.clients i).fd)
    {cmds : List NetCmd} (hshort : ∀ c ∈ cmds, c.Short)
    (hstream : (chunksOn i later).flatten = (cmds.map NetCmd.encode).flatten)
    (hone : OneEndPerChunk (cmds.map NetCmd.encode) (chunksOn i later)) :
    handledOn i later = cmds.map NetCmd.encode := by
  have hws : ∀ w ∈ cmds.map NetCmd.encode, ShortCmd w := by
    intro w hw
    obtain ⟨c, hc, rfl⟩ := List.mem_map.mp hw
    exact ⟨c, hshort c hc, rfl⟩
  have hview : ∀ w, ShortCmd w → ∀ rest, frontBytes (w ++ rest) = id w := by
    intro w hw rest
    obtain ⟨c, hc, rfl⟩ := hw
    rw [frontBytes, ncmdIscomplete_encode hc, Option.getD_some, Int.toNat_natCast, List.take_left]
    rfl
  have hserved := feed_once_iff frame_code hview (fun w => ShortCmd.isNetCmd)
    (fun u w hu hw hpre => hu.prefix_eq hw hpre)
    (fun w hw hc => by have := hw.four_le; rw [hc] at this; simp at this) hws hstream
  rw [List.map_id] at hserved
  exact ((served_of_exec hx hlive hbuf hopen _).mpr (hserved.mpr hone)).1

/-! ### The bytes of a connection and its answers -/

theorem live_of_open (hx : Exec (runserver mem) l₀ later l) (hlive : l₀.server.live i)
    (hopen : ∀ st ∈ later, (st.post.server.clients i).fd = (l₀.server.clients i).fd) :
    ∀ st ∈ later, st.post.server.live i := by
  intro st hst
  obtain ⟨before, after, rfl⟩ := List.append_of_mem hst
  obtain ⟨hpre, hstep, -⟩ := hx.split
  exact (exec_feed (hpre.snoc hstep) hlive fun st' hst' =>
    hopen st' (List.mem_append_right _ hst')).2.2.1

end Smsg
