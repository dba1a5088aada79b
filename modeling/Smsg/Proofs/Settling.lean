/-
The chat comes to rest.

A message that tells of a change makes every client ask for the list again, and each list
is another message.  It ends there, for a list makes nobody ask: `Chatroom.work` counts
what a command or a message under way can still lead to, and whatever is handled or read
makes it less.  Nothing gets stuck before that.  A client can read every message of the
server, and the server can handle every command of a client, so when no more is under way
every sidebar is right (`deliveries_settle`).

A command counts as under way until it is handled.  The loop handles no more than one for
each receive, so a command that has come in behind another one stays in the receive buffer
until something else comes in (`Proofs/Fragmentation.lean`); that it gets its turn is
assumed here.
-/
import Smsg.Proofs.Chatroom
import Smsg.Proofs.Readable

namespace Smsg

open Machines

/-! ### Commands of those in chat are handled -/

section

variable {x : Call} {e : UdataEnt}

/-- Everybody in chat has a nick. -/
def Udata.Named (u : Udata) : Prop := ∀ e ∈ u.ents, e.has udcFlagPresent → e.nick ≠ none

theorem Udata.Named.sender (h : x.udata.Named) (hs : x.Sender e) : ∃ nick, e.nick = some nick := by
  obtain ⟨hmem, -, hpres⟩ := Udata.udataGetByFd_some hs
  exact Option.ne_none_iff_exists'.mp (h e hmem hpres)

theorem chatNick_ok (h : x.udata.Named) (hs : x.Sender e) : ∃ o, chatNick x = .ok o := by
  obtain ⟨nick, hnick⟩ := h.sender hs
  have hs' : x.udata.udataGetByFd x.fd = some e := hs
  simp only [chatNick, chatRename, hs', hnick]
  split
  · split
    · exact ⟨_, rfl⟩
    · exact ⟨_, rfl⟩
  · exact ⟨_, rfl⟩

theorem chatSay_ok (h : x.udata.Named) (hs : x.Sender e) : ∃ o, chatSay x = .ok o := by
  obtain ⟨nick, hnick⟩ := h.sender hs
  have hs' : x.udata.udataGetByFd x.fd = some e := hs
  simp only [chatSay, lcsComposeName, hs', hnick]
  exact ⟨_, rfl⟩

theorem chatWho_ok (h : x.udata.Named) : ∃ o, chatWho x = .ok o := by
  refine ⟨_, chatWho_listed fun hno => ?_⟩
  obtain ⟨-, p, hp, hnick⟩ := hno
  obtain ⟨k, -, hat⟩ := List.mem_filterMap.mp hp
  obtain ⟨he, -, hpres⟩ := Udata.udataGetByFd_some (whoAt_some hat).1
  exact h p.1 he hpres hnick

theorem chatMode_ok (h : x.udata.Named) (hs : x.Sender e) : ∃ o, chatMode x = .ok o := by
  obtain ⟨nick, hnick⟩ := h.sender hs
  have hs' : x.udata.udataGetByFd x.fd = some e := hs
  simp only [chatMode, modeOn, hs', hnick]
  split
  · split
    · exact ⟨_, rfl⟩
    · split
      · exact ⟨_, rfl⟩
      · exact ⟨_, rfl⟩
  · exact ⟨_, rfl⟩

/-- **Nothing that somebody in chat asks for is too much.** -/
theorem handleChatcmd_ok (h : x.udata.Named) (hs : x.Sender e) : ∃ o, handleChatcmd x = .ok o := by
  unfold handleChatcmd
  split
  case h_1 => exact chatNick_ok h hs
  case h_2 => exact ⟨_, rfl⟩
  case h_3 => exact ⟨_, rfl⟩
  case h_4 => exact ⟨_, rfl⟩
  case h_5 => exact ⟨_, rfl⟩
  case h_6 => exact chatSay_ok h hs
  case h_7 => exact chatSay_ok h hs
  case h_8 => exact chatWho_ok h
  case h_14 => exact ⟨_, rfl⟩
  all_goals exact chatMode_ok h hs

end

section

variable {mem : Memory} {s s' : Server} {i j : Slot} {c : NetCmd} {env : Env} {out : List Effect}

theorem lineOps_isChatcmd : ∀ op ∈ lineOps, op.isChatcmd = true := by
  decide

theorem step_of_handled (hlive : s.live i) (hmem : mem.allows env.alloc = true)
    (h : ∃ o, lsHandleNetcmd (s.call i c env) = .ok o) :
    ∃ s' out, (server mem).step s (.netcmd i c env) = some (s', out) := by
  obtain ⟨o, ho⟩ := h
  refine ⟨(s.settle o).1, (s.settle o).2, ?_⟩
  simp only [server, Server.step, if_pos (And.intro hlive hmem), Server.handle, ho]

theorem entered_handled (hnamed : s.udata.Named) (hin : ¬ s.NobodyOn i) (hent : c.Entered) :
    ∃ o, lsHandleNetcmd (s.call i c env) = .ok o := by
  obtain ⟨e, he⟩ := Option.ne_none_iff_exists'.mp hin
  rw [lsHandleNetcmd_present (lineOps_isChatcmd _ hent.op) he]
  exact handleChatcmd_ok (x := s.call i c env) hnamed he

theorem chatdoor_handled (hop : c.op = .chatdoor) :
    ∃ o, lsHandleNetcmd (s.call i c env) = .ok o :=
  ⟨_, lsHandleNetcmd_chatdoor (x := s.call i c env) hop⟩

/-! ### What one command leads to -/

theorem Server.Ok.nobody_low (hs : s.Ok) {fd : Int} (hfd : fd ≤ s.servfd) :
    s.udata.udataGetByFd fd = none := by
  refine Udata.udataGetByFd_nobody fun e he hpres hefd => ?_
  have habove : s.servfd < e.fd := hs.seats e.user e.seat (Udata.room_of_mem he) hpres
  omega

/-- A message that is handed out is one message at most for a connection. -/
theorem sentTo_distribute_le (hs : s.Ok) (hlive : s.live j) {low : Int} (hlow : low ≤ 1)
    (u : Udata) (msg : NetCmd) (excl : Option Slot) :
    (sentTo (s.clients j).fd (distribute low s.clients u msg excl)).length ≤ 1 := by
  by_cases hget : u.udataGetByFd (s.clients j).fd = none
  · rw [sentTo_distribute_none _ _ _ _ hget]
    exact Nat.zero_le 1
  · rw [sentTo_distribute hs hlive low hlow msg excl hget]
    split
    · exact Nat.zero_le 1
    · exact le_refl 1

theorem sentTo_le_posts (fd : Int) (effects : List Effect) :
    (sentTo fd effects).length ≤ (posts effects).length := by
  rw [sentTo_eq_posts, List.length_map]
  exact List.length_filter_le _ _

/-- A command is no more than two messages for each connection. -/
theorem Post.sent_le {o : Outcome} (h : Post (s.call i c env) o) (hs : s.Ok) (hj : s.live j) :
    (sentTo (s.clients j).fd o.effects).length ≤ 2 := by
  have hfew : ∀ l : List (Int × NetCmd), posts o.effects = l → l.length ≤ 2 →
      (sentTo (s.clients j).fd o.effects).length ≤ 2 := by
    intro l hl hlen
    have hle := sentTo_le_posts (s.clients j).fd o.effects
    rw [hl] at hle
    exact hle.trans hlen
  cases h with
  | silent _ h => exact hfew _ h (Nat.zero_le 2)
  | answer _ _ h => exact hfew _ h (Nat.le_succ 1)
  | told _ _ h =>
      rw [h]
      exact (sentTo_distribute_le hs hj (by decide) _ _ _).trans (Nat.le_succ 1)
  | @door m u _ _ _ _ h =>
      have hone := sentTo_distribute_le hs hj (le_refl 1) u m (some i)
      have hack : (sentTo (s.clients j).fd [(s.call i c env).reply (.set .ack)]).length ≤ 1 :=
        sentTo_le_posts _ _
      rw [h, sentTo_append, List.length_append]
      exact Nat.add_le_add hone hack
  | beepAll _ h =>
      rw [h]
      exact (sentTo_distribute_le hs hj (by decide) _ _ _).trans (Nat.le_succ 1)
  | beep _ _ h => exact hfew _ h (Nat.le_succ 1)
  | psay _ _ _ _ h => exact hfew _ h (le_refl 2)

theorem Turn.sent_le (hs : s.Ok) (hturn : Turn mem s (.netcmd i c env) s' out) (j : Slot) :
    (sentTo (s.clients j).fd out).length ≤ 2 := by
  have hs' := hturn.ok hs
  have hservfd := hturn.servfd
  cases hturn with
  | @netcmd _ _ _ o act hlive hmem hcall hdoes =>
      have hpost := post_lsHandleNetcmd (x := s.call i c env) (le_of_lt (hs.fd_pos hlive)) hcall
      rw [sentTo_settle]
      by_cases hj : s.servfd < (s.clients j).fd
      · exact hpost.sent_le hs (hs.live_of_fd hj)
      · have hbefore := hs.nobody_low (not_lt.mp hj)
        have hafter := @Server.Ok.nobody_low _ hs' (s.clients j).fd (hservfd ▸ not_lt.mp hj)
        rw [Server.settle_udata] at hafter
        rw [hpost.outside ?_ hbefore hafter]
        · exact Nat.zero_le 2
        · have habove : s.servfd < (s.clients i).fd := hs.above i hlive
          intro hfd
          rw [hfd] at hj
          exact hj habove

/-- A request for a list is one list at most, for who has asked. -/
theorem Turn.who_sent (hs : s.Ok) (hturn : Turn mem s (.netcmd i c env) s' out)
    (hop : c.op = .cWho) (j : Slot) :
    sentTo (s.clients j).fd out = [] ∨
      j = i ∧ ∃ m : NetCmd, m.op = .cWho ∧ sentTo (s.clients j).fd out = [m] := by
  cases hturn with
  | @netcmd _ _ _ o act hlive hmem hcall hdoes =>
      have hpost := post_lsHandleNetcmd (x := s.call i c env) (le_of_lt (hs.fd_pos hlive)) hcall
      have hop' : (s.call i c env).cmd.op = .cWho := hop
      rw [sentTo_settle]
      cases hpost with
      | silent _ h =>
          left
          rw [sentTo_eq_posts, h]
          rfl
      | @answer m hreply _ h =>
          have hm : m.op = .cWho := by
            rw [hop'] at hreply
            exact List.mem_singleton.mp hreply
          by_cases hji : j = i
          · refine Or.inr ⟨hji, m, hm, ?_⟩
            rw [sentTo_eq_posts, h, hji]
            simp [show (s.call i c env).fd = (s.clients i).fd from rfl]
          · left
            have hne : (s.call i c env).fd ≠ (s.clients j).fd :=
              fun hfd => hji (hs.eq_of_fd hlive hfd.symm)
            rw [sentTo_eq_posts, h]
            simp [hne]
      | told hmop hnews => exact absurd (hmop.trans hop') hnews.not_who
      | door hdoor => rw [hop'] at hdoor; cases hdoor
      | beepAll hbeep => rw [hop'] at hbeep; cases hbeep
      | beep hbeep => rw [hop'] at hbeep; cases hbeep
      | psay hpsay => rw [hop'] at hpsay; cases hpsay

end

/-! ### Loads -/

section

variable {α : Type} {w f g : α → Nat} {b : Nat}

/-- What the elements of a list weigh together. -/
def load (w : α → Nat) : List α → Nat
  | [] => 0
  | a :: l => w a + load w l

theorem load_append (l₁ l₂ : List α) : load w (l₁ ++ l₂) = load w l₁ + load w l₂ := by
  induction l₁ with
  | nil => exact (Nat.zero_add _).symm
  | cons a l₁ ih =>
      simp only [List.cons_append, load, ih]
      omega

theorem load_le (l : List α) (h : ∀ a ∈ l, w a ≤ b) : load w l ≤ b * l.length := by
  induction l with
  | nil => exact Nat.zero_le _
  | cons a l ih =>
      have ha := h a List.mem_cons_self
      have hl := ih fun a' ha' => h a' (List.mem_cons_of_mem _ ha')
      rw [load, List.length_cons, Nat.mul_succ]
      omega

theorem load_grows (l : List α) (h : ∀ a, f a ≤ g a + b) : load f l ≤ load g l + b * l.length := by
  induction l with
  | nil => exact Nat.zero_le _
  | cons a l ih =>
      have ha := h a
      rw [load, load, List.length_cons, Nat.mul_succ]
      omega

/-- One element gets lighter by more than the others get heavier. -/
theorem load_one {l : List α} {i : α} {k : Nat} (hi : i ∈ l) (hlight : f i + k ≤ g i + b)
    (h : ∀ a, f a ≤ g a + b) : load f l + k ≤ load g l + b * l.length := by
  induction l with
  | nil => simp at hi
  | cons a l ih =>
      have ha := h a
      have hl := load_grows l h
      rw [load, load, List.length_cons, Nat.mul_succ]
      rcases List.mem_cons.mp hi with rfl | hi
      · omega
      · have := ih hi
        omega

end

/-! ### What is left to do -/

/-- What the server has to do for a command, and the clients because of it. -/
def upWork (c : NetCmd) : Nat := if c.op = .cWho then 2 else 6 * maxClients + 1

/-- What a client has to do for a message, and the server because of it. -/
def downWork (m : NetCmd) : Nat := if m.op = .cWho then 1 else 3

def Member.work : Member → Nat
  | .joining _ _ _ => 3
  | _ => 0

def Peer.work (p : Peer) : Nat := p.member.work + load upWork p.up + load downWork p.down

def Chatroom.work (y : Chatroom) : Nat := load (fun i => (y.peer i).work) (List.finRange maxClients)

/-- Something under way gets to where it is going. -/
def ChatroomEvent.isDelivery : ChatroomEvent → Bool
  | .serve _ _ | .answered _ _ | .read _ => true
  | _ => false

theorem downWork_le (m : NetCmd) : downWork m ≤ 3 := by
  unfold downWork
  split <;> omega

theorem load_drop (l : List NetCmd) (k : Nat) : load downWork (l.drop k) ≤ load downWork l := by
  have h := load_append (w := downWork) (l.take k) (l.drop k)
  rw [List.take_append_drop] at h
  omega

/-- A list is all that a client reads without asking for another one. -/
theorem reqWho_of_plain {m : NetCmd} (h : reqWho m.op = true) : m.op ≠ .cWho := by
  intro hop
  rw [hop] at h
  cases h

section

variable {y y' : Chatroom} {p p' : Peer} {i j : Slot} {c m : NetCmd} {up : List NetCmd}

theorem Peer.work_hear (p : Peer) (sent : List NetCmd) :
    (p.hear sent).work = p.work + load downWork sent := by
  simp only [Peer.work, Peer.hear, load_append]
  omega

theorem Peer.work_answered {more : Nat} (h : p.answered more = some p') : p'.work < p.work := by
  unfold Peer.answered at h
  split at h
  · rename_i user nick eraseKey rbuf down hmember hdown
    have hdrop := load_drop down more
    simp only [Peer.work, hmember, hdown, Member.work, load]
    split at h
    · rw [← Option.some.inj h]
      simp only [load]
      omega
    · rw [← Option.some.inj h]
      have hwho : upWork (NetCmd.set .cWho) = 2 := if_pos rfl
      simp only [load, load_append, hwho]
      omega
  · simp at h

theorem Peer.work_read (h : p.read = some (p', m)) : p'.work < p.work := by
  unfold Peer.read at h
  split at h
  · rename_i user v l rbuf down hmember hdown
    simp only [Option.bind_eq_bind, Option.bind_eq_some_iff, Option.some.injEq,
      Prod.mk.injEq] at h
    obtain ⟨⟨v', acts⟩, hfunc, rfl, -⟩ := h
    obtain ⟨-, hsends⟩ := chatterFunc_sidebar hfunc
    have hdone : load upWork (chatterSends acts) < downWork rbuf := by
      rw [hsends]
      split
      · rename_i hreq
        rw [downWork, if_neg (reqWho_of_plain hreq)]
        exact Nat.lt_succ_self 2
      · rw [downWork]
        split <;> exact Nat.succ_pos _
    simp only [Peer.work, hmember, hdown, Member.work, load, load_append]
    omega
  · simp at h

/-- One client does something by itself. -/
theorem Chatroom.work_setPeer (h : p.work < (y.peer i).work) : (y.setPeer i p).work < y.work := by
  have hone := load_one (f := fun j => ((y.setPeer i p).peer j).work)
    (g := fun j => (y.peer j).work) (b := 0) (k := 1) (List.mem_finRange i) ?_ fun j => ?_
  · unfold Chatroom.work
    omega
  · simp only [Chatroom.setPeer_self]
    omega
  · by_cases hji : j = i
    · simp only [hji, Chatroom.setPeer_self]
      omega
    · simp only [Chatroom.setPeer_ne _ _ hji]
      omega

/-- The server handles a command. -/
theorem Chatroom.work_serve {env : Env} (hy : y.Fine) (hp : p.work + upWork c = (y.peer i).work)
    (h : (y.setPeer i p).tell (.netcmd i c env) = some y') : y'.work < y.work := by
  obtain ⟨out, hstep, hpeer⟩ := Chatroom.tell_some h
  rw [Chatroom.setPeer_server] at hstep hpeer
  obtain ⟨hist, hrun, -⟩ := hy.neat
  have hs := run_ok hrun
  have hturn := step_turn hs hstep
  let b : Nat := if c.op = .cWho then 0 else 6
  let k : Nat := if c.op = .cWho then 1 else 6 * maxClients + 1
  -- what is sent to each connection, and what the command itself was
  have hsent : ∀ j, load downWork (sentTo (y.server.clients j).fd out) ≤
      b + if j = i then upWork c - k else 0 := by
    intro j
    by_cases hwho : c.op = .cWho
    · simp only [b, k, upWork, if_pos hwho]
      rcases hturn.who_sent hs hwho j with hnone | ⟨rfl, m, hm, hone⟩
      · rw [hnone]
        exact Nat.zero_le _
      · rw [hone, if_pos rfl]
        simp [load, downWork, hm]
    · have hle := load_le (w := downWork) (sentTo (y.server.clients j).fd out)
        fun m _ => downWork_le m
      have hfew := hturn.sent_le hs j
      simp only [b, if_neg hwho]
      omega
  have hk : k ≤ upWork c := by
    simp only [k, upWork]
    split <;> omega
  have hone := load_one (f := fun j => (y'.peer j).work) (g := fun j => (y.peer j).work)
    (b := b) (k := k) (List.mem_finRange i) ?_ fun j => ?_
  · rw [List.length_finRange] at hone
    have hless : b * maxClients < k := by
      simp only [b, k]
      split <;> omega
    unfold Chatroom.work
    omega
  · have hi := hsent i
    rw [if_pos rfl] at hi
    simp only [hpeer, Peer.work_hear, Chatroom.setPeer_self]
    omega
  · have hj := hsent j
    by_cases hji : j = i
    · subst hji
      rw [if_pos rfl] at hj
      simp only [hpeer, Peer.work_hear, Chatroom.setPeer_self]
      omega
    · rw [if_neg hji] at hj
      simp only [hpeer, Peer.work_hear, Chatroom.setPeer_ne _ _ hji]
      omega

/-- **Every delivery leaves less to do.** -/
theorem Chatroom.work_step {e : ChatroomEvent} {heard : Option (Slot × NetCmd)} (hy : y.Fine)
    (h : y.step e = some (y', heard)) (he : e.isDelivery) : y'.work < y.work := by
  cases Chatroom.turn h with
  | @serve i c up env y' hup htell =>
      refine Chatroom.work_serve hy ?_ htell
      simp only [Peer.work, hup, load]
      omega
  | answered hanswer => exact Chatroom.work_setPeer (Peer.work_answered hanswer)
  | read hread => exact Chatroom.work_setPeer (Peer.work_read hread)
  | _ => simp [ChatroomEvent.isDelivery] at he

/-! ### Nothing gets stuck -/

/-- A client can read whatever is on its way to it. -/
def Chatroom.Legible (y : Chatroom) : Prop := ∀ i, ∀ m ∈ (y.peer i).down, m.Readable

theorem Chatroom.Legible.setPeer (hy : y.Legible) (hp : ∀ m ∈ p.down, m ∈ (y.peer i).down) :
    (y.setPeer i p).Legible := by
  intro j m hm
  by_cases hji : j = i
  · subst hji
    rw [Chatroom.setPeer_self] at hm
    exact hy j m (hp m hm)
  · rw [Chatroom.setPeer_ne _ _ hji] at hm
    exact hy j m hm

theorem Chatroom.Legible.tell {ev : Event} (hy : y.Legible) (hneat : y.server.Neat)
    (h : y.tell ev = some y') : y'.Legible := by
  obtain ⟨out, hstep, hpeer⟩ := Chatroom.tell_some h
  obtain ⟨hist, hrun, -⟩ := hneat
  intro j m hm
  rw [hpeer] at hm
  rcases List.mem_append.mp hm with hm | hm
  · exact hy j m hm
  · exact (step_turn (run_ok hrun) hstep).readable (run_ok hrun) (mem_sentTo.mp hm)

theorem Chatroom.Legible.arrive {newfd : Int} {peer : InAddr} (hy : y.Legible)
    (hneat : y.server.Neat) (hp : p.down = []) (h : y.arrive newfd peer p = some y') :
    y'.Legible := by
  obtain ⟨y₁, htell, -, hpeer⟩ := Chatroom.arrive_some h
  intro j m hm
  rw [hpeer] at hm
  split at hm
  · simp [hp] at hm
  · exact hy.tell hneat htell j m hm

theorem Peer.answered_down {more : Nat} (h : p.answered more = some p') :
    ∀ m ∈ p'.down, m ∈ p.down := by
  unfold Peer.answered at h
  split at h
  · rename_i rbuf down hmember hdown
    rw [hdown]
    split at h
    · rw [← Option.some.inj h]
      simp
    · rw [← Option.some.inj h]
      exact fun m hm => List.mem_cons_of_mem _ (List.mem_of_mem_drop hm)
  · simp at h

theorem Peer.read_down (h : p.read = some (p', m)) : p.down = m :: p'.down := by
  unfold Peer.read at h
  split at h
  · rename_i rbuf down hmember hdown
    simp only [Option.bind_eq_bind, Option.bind_eq_some_iff, Option.some.injEq,
      Prod.mk.injEq] at h
    obtain ⟨_, -, rfl, rfl⟩ := h
    exact hdown
  · simp at h

theorem Peer.line_down {line : InputLine} (h : p.line line = some p') : p'.down = p.down := by
  unfold Peer.line at h
  split at h
  · split at h
    · simp at h
    · split at h
      · rw [← Option.some.inj h]
      · obtain ⟨c, -, h⟩ := Option.bind_eq_some_iff.mp h
        rw [← Option.some.inj h]
  · simp at h

theorem Peer.quit_down (h : p.quit = some p') : p'.down = p.down := by
  unfold Peer.quit at h
  split at h
  · split at h
    · rw [← Option.some.inj h]
    · simp at h
  · simp at h

theorem Chatroom.Legible.step {e : ChatroomEvent} {heard : Option (Slot × NetCmd)}
    (hy : y.Legible) (hneat : y.server.Neat) (h : y.step e = some (y', heard)) : y'.Legible := by
  cases Chatroom.turn h with
  | visit harrive => exact hy.arrive hneat rfl harrive
  | chatter hnick harrive => exact hy.arrive hneat rfl harrive
  | recvError htell => exact hy.tell hneat htell
  | closed htell => exact (hy.tell hneat htell).setPeer (by simp)
  | @serve i c up env y' hup htell =>
      have hpop : (y.setPeer i { y.peer i with up := up }).Legible := hy.setPeer fun _ hm => hm
      exact hpop.tell hneat htell
  | request => exact hy.setPeer fun _ hm => hm
  | line hline => exact hy.setPeer fun m hm => Peer.line_down hline ▸ hm
  | answered hanswer => exact hy.setPeer (Peer.answered_down hanswer)
  | read hread =>
      refine hy.setPeer fun m hm => ?_
      rw [Peer.read_down hread]
      exact List.mem_cons_of_mem _ hm
  | quit hquit => exact hy.setPeer fun m hm => Peer.quit_down hquit ▸ hm
  | hangup => exact hy.setPeer (by simp)

/-- Whoever is in chat is done with what was under way, and knows who is there. -/
def Peer.AtRest (p : Peer) (s : Server) (i : Slot) : Prop :=
  match p.member with
  | .visitor => True
  | .joining _ _ _ => False
  | .inside _ v _ => p.up = [] ∧ p.down = [] ∧ v.sidebar = s.udata.sayNames
  | .finished => p.up = [] ∧ s.NobodyOn i

/-- The next command of a connection can be handled, unless it is what takes the server down. -/
theorem Chatroom.serve_ready (hlive : y.server.live i) (hup : (y.peer i).up = c :: up)
    (h : ∃ o, lsHandleNetcmd (y.server.call i c .bare) = .ok o) : y.step (.serve i .bare) ≠ none := by
  obtain ⟨s', out, hstep⟩ := @step_of_handled .enough _ _ _ .bare hlive rfl h
  have hstep' : y.server.step .enough (.netcmd i c .bare) = some (s', out) := hstep
  simp only [Chatroom.step, hup, Chatroom.tell, Chatroom.setPeer_server, hstep', Option.bind_eq_bind,
    Option.bind_some, Option.map_some]
  exact Option.some_ne_none _

/-- **When nothing can be delivered any more, nothing is under way.** -/
theorem Chatroom.Fine.at_rest (hy : y.Fine) (hleg : y.Legible)
    (hstuck : ∀ e, e.isDelivery → y.step e = none) (hlive : y.server.live i) :
    (y.peer i).AtRest y.server i := by
  have hfine := hy.peers i hlive
  have hserve : ∀ c up, (y.peer i).up = c :: up →
      ¬ ∃ o, lsHandleNetcmd (y.server.call i c .bare) = .ok o :=
    fun c up hup hok => Chatroom.serve_ready hlive hup hok (hstuck _ rfl)
  obtain ⟨hist, hrun, -⟩ := hy.neat
  have hnamed : y.server.udata.Named := fun e he =>
    (run_nicks hrun (storesNick_of_enough hrun)).nick e.user e.seat (Udata.room_of_mem he)
  have hdown : ∀ user v l, (y.peer i).member = .inside user v l → (y.peer i).down = [] := by
    intro user v l hmember
    cases hd : (y.peer i).down with
    | nil => rfl
    | cons m down =>
        obtain ⟨⟨v', acts⟩, hfunc⟩ := Option.ne_none_iff_exists'.mp
          (hleg i m (by rw [hd]; exact List.mem_cons_self) v)
        have hstep := hstuck (.read i) rfl
        simp [Chatroom.step, Peer.read, hmember, hd, hfunc] at hstep
  unfold Peer.Fine at hfine
  unfold Peer.AtRest
  cases hmember : (y.peer i).member with
  | visitor => trivial
  | joining user nick eraseKey =>
      simp only [hmember] at hfine
      obtain ⟨-, ⟨hup, -, -⟩ | ⟨-, m, down, hd, -⟩⟩ := hfine
      · exact hserve _ _ hup (chatdoor_handled rfl)
      · have hstep := hstuck (.answered i 0) rfl
        simp only [Chatroom.step, Peer.answered, hmember, hd] at hstep
        split at hstep <;> simp at hstep
  | inside user v l =>
      simp only [hmember] at hfine
      obtain ⟨huser, hcmds, hfollows⟩ := hfine
      have hup : (y.peer i).up = [] := by
        cases hup : (y.peer i).up with
        | nil => rfl
        | cons c up =>
            have hent : c.Entered := hcmds c (by rw [hup]; exact List.mem_cons_self)
            exact absurd (entered_handled hnamed huser.not_nobody hent) (hserve c up hup)
      have hd := hdown user v l hmember
      refine ⟨hup, hd, ?_⟩
      rw [hd] at hfollows
      exact hfollows.settled (by simp [hup])
  | finished =>
      simp only [hmember] at hfine
      refine hfine.resolve_right fun hleave => ?_
      obtain ⟨user, cmds, reason, hup, hcmds, huser⟩ := hleave
      cases cmds with
      | nil => exact hserve _ _ hup (chatdoor_handled chatterLeave_op)
      | cons c cmds =>
          exact hserve _ _ hup
            (entered_handled hnamed huser.not_nobody (hcmds c List.mem_cons_self))

/-- What the server sends in a run, the clients can read. -/
theorem chatroom_legible {hist : List ChatroomStep} (h : Run chatroom hist y) : y.Legible := by
  obtain ⟨y₀, h₀, hx⟩ := h
  have hboth := hx.invariant (fun y => y.Fine ∧ y.Legible) (fun _ => True) ?_ ?_ fun _ _ => trivial
  · exact hboth.2
  · refine ⟨chatroom_fine ⟨y₀, h₀, .nil⟩, ?_⟩
    obtain ⟨servfd, -, rfl⟩ := h₀
    intro i m hm
    simp [Chatroom.initial] at hm
  · intro y e y' o hy hstep _
    exact ⟨hy.1.step hstep, hy.2.step hy.1.neat hstep⟩

/--
**The chat comes to rest.**  From any state of a run on, as long as nobody does anything
but handle and read what is there, there are only so many steps to take, whatever their
order.  And where no such step is left, also for what waits in a receive buffer, nobody is
still waiting to get in, the leaves have been handled, and the sidebar of every client in chat
has the names of those in chat.
-/
theorem deliveries_settle {hist later : List ChatroomStep} (h : Run chatroom hist y)
    (hx : Exec chatroom y later y') (hlater : ∀ st ∈ later, st.ev.isDelivery) :
    later.length ≤ y.work ∧ ((∀ e, e.isDelivery → y'.step e = none) →
      ∀ i, y'.server.live i → (y'.peer i).AtRest y'.server i) := by
  have hbound := hx.length_le (fun y => y.Fine ∧ y.Legible) (fun st => st.ev.isDelivery)
    Chatroom.work ⟨chatroom_fine h, chatroom_legible h⟩ ?_ hlater
  · refine ⟨by omega, fun hstuck i hlive => ?_⟩
    exact hbound.1.1.at_rest hbound.1.2 hstuck hlive
  · intro y e y' o hy hstep he
    exact ⟨⟨hy.1.step hstep, hy.2.step hy.1.neat hstep⟩, Chatroom.work_step hy.1 hstep he⟩

/-- Where nothing is under way, nothing can be delivered. -/
theorem not_delivered (h : ∀ i, (y.peer i).up = [] ∧ (y.peer i).down = []) :
    ∀ e, e.isDelivery → y.step e = none := by
  intro e he
  cases e with
  | serve i env => simp [Chatroom.step, (h i).1]
  | answered i more =>
      cases hmember : (y.peer i).member <;>
        simp [Chatroom.step, Peer.answered, hmember, (h i).2]
  | read i =>
      cases hmember : (y.peer i).member <;> simp [Chatroom.step, Peer.read, hmember, (h i).2]
  | _ => simp [ChatroomEvent.isDelivery] at he

/-- Two users join, and all that comes of it is delivered. -/
theorem deliveries_settle_two : ∃ hist later y y', Run chatroom hist y ∧
    Exec chatroom y later y' ∧ (11 ≤ later.length ∧ later.length ≤ y.work) ∧
    ∀ i, y'.server.live i → (y'.peer i).AtRest y'.server i := by
  have hrun : (exec chatroom (.initial 3) (twoChatters.take 2) []).any (fun r =>
      (exec chatroom r.2 (twoChatters.drop 2) []).any fun r' =>
        decide (11 ≤ r'.1.length) && (r'.1.all fun st => st.ev.isDelivery) &&
          (List.finRange maxClients).all fun i =>
            (r'.2.peer i).up.isEmpty && (r'.2.peer i).down.isEmpty) = true := by
    decide +kernel
  obtain ⟨⟨hist, y⟩, hexec, hrest⟩ := (Option.any_eq_true _ _).mp hrun
  obtain ⟨⟨later, y'⟩, hexec', hproj⟩ := (Option.any_eq_true _ _).mp hrest
  simp only [Bool.and_eq_true, decide_eq_true_eq, List.all_eq_true, List.isEmpty_iff] at hproj
  obtain ⟨⟨hlen, hlater⟩, hempty⟩ := hproj
  have h : Run chatroom hist y := ⟨_, ⟨3, by decide, rfl⟩, exec_sound _ .nil hexec⟩
  have hx : Exec chatroom y later y' := exec_sound _ .nil hexec'
  obtain ⟨hle, hsettled⟩ := deliveries_settle h hx hlater
  exact ⟨hist, later, y, y', h, hx, ⟨hlen, hle⟩,
    hsettled (not_delivered fun i => hempty i (List.mem_finRange i))⟩

end

end Smsg
