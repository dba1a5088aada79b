/-
Everybody sees the same conversation.

Some of what the server sends is for everybody in chat: what is said, who comes and goes,
who has another name, and what the operators do.  Each of these is handed out in one go
and every connection keeps the order, so there is one conversation, and whoever is in
chat for a while reads a part of it that has no gaps (`same_conversation`).

What somebody says gets into it once, in the order in which it was entered, with nothing
but the name put before it, and it may be translated on the way (`said_once`).
-/
import Smsg.Proofs.Settling

namespace Smsg

open Machines

/-! ### What is for everybody -/

/-- Messages for everybody in chat; a refusal has fewer arguments. -/
def NetCmd.isPublic (m : NetCmd) : Bool :=
  match m.op with
  | .cSay | .cMe | .cAway | .cDoor => true
  | .cNick | .cBan | .cDeop | .cKick | .cOp | .cUnban => decide (m.args.length = 2)
  | .cOper => decide (m.args.length = 1)
  | _ => false

/-- The part of the conversation that is in there. -/
def publicly (l : List NetCmd) : List NetCmd := l.filter NetCmd.isPublic

@[simp] theorem publicly_append (l₁ l₂ : List NetCmd) :
    publicly (l₁ ++ l₂) = publicly l₁ ++ publicly l₂ := List.filter_append _ _

/-- What everybody is told, whoever gets it. -/
def madePublic (effects : List Effect) : List NetCmd :=
  (publicly ((posts effects).map (·.2))).take 1

theorem public_modes {op : NCMDOp} (h : op ∈ modeOps) (args : List Bytes) :
    NetCmd.isPublic ⟨op, args⟩ = decide (args.length = 2) := by
  simp only [modeOps, List.mem_cons, List.not_mem_nil, or_false] at h
  rcases h with rfl | rfl | rfl | rfl | rfl <;> rfl

theorem News.isPublic {m : NetCmd} (h : News m) : m.isPublic = true := by
  cases h with
  | spoken hop => rcases hop with rfl | rfl <;> rfl
  | mode hop => rw [public_modes hop]; rfl
  | _ => rfl

theorem Answer.not_public {m : NetCmd} (h : Answer m) : m.isPublic = false := by
  cases h with
  | request hop =>
      unfold NetCmd.isPublic
      simp only [List.mem_cons, List.not_mem_nil, or_false] at hop
      rcases hop with hop | hop | hop | hop | hop <;> simp only [hop]
  | @refused op hop =>
      rcases List.mem_append.mp hop with hop | hop
      · simp only [List.mem_cons, List.not_mem_nil, or_false] at hop
        rcases hop with rfl | rfl <;> rfl
      · rw [NetCmd.set, public_modes hop]; rfl
  | @named op hop a =>
      rcases List.mem_append.mp hop with hop | hop
      · simp only [List.mem_cons, List.not_mem_nil, or_false] at hop
        rcases hop with rfl | rfl | rfl <;> rfl
      · rw [public_modes hop]; rfl
  | listing => rfl

section

variable {effects : List Effect} {fd : Int} {m : NetCmd}

/-- Nothing that is sent is for everybody. -/
theorem madePublic_none (fd : Int) (h : ∀ p ∈ posts effects, p.2.isPublic = false) :
    madePublic effects = [] ∧ publicly (sentTo fd effects) = [] := by
  constructor
  · rw [madePublic, publicly, List.filter_eq_nil_iff.mpr, List.take_nil]
    intro m hm
    obtain ⟨p, hp, rfl⟩ := List.mem_map.mp hm
    rw [h p hp]
    exact Bool.false_ne_true
  · rw [publicly, List.filter_eq_nil_iff]
    intro m hm
    rw [h (fd, m) (mem_posts.mpr (mem_sentTo.mp hm))]
    exact Bool.false_ne_true

/-- All that is for everybody is one message, and the connection gets it. -/
theorem madePublic_one (hall : ∀ p ∈ posts effects, p.2.isPublic = true → p.2 = m)
    (hm : publicly (sentTo fd effects) = [m]) : madePublic effects = [m] := by
  have hmem : m ∈ sentTo fd effects ∧ m.isPublic = true :=
    List.mem_filter.mp (show m ∈ publicly (sentTo fd effects) by
      rw [hm]; exact List.mem_singleton_self m)
  have hin : m ∈ publicly ((posts effects).map (·.2)) :=
    List.mem_filter.mpr ⟨List.mem_map.mpr ⟨_, mem_posts.mpr (mem_sentTo.mp hmem.1), rfl⟩, hmem.2⟩
  unfold madePublic
  cases hl : publicly ((posts effects).map (·.2)) with
  | nil => rw [hl] at hin; simp at hin
  | cons m' l =>
      have hm' := List.mem_filter.mp
        (show m' ∈ publicly ((posts effects).map (·.2)) by rw [hl]; exact List.mem_cons_self)
      obtain ⟨p, hp, heq⟩ := List.mem_map.mp hm'.1
      have hsame : m' = m := by
        rw [← heq]
        exact hall p hp (by rw [heq]; exact hm'.2)
      rw [hsame]
      rfl

/-- A message that is handed out, with something for one connection behind it. -/
theorem madePublic_distribute {s : Server} {j : Slot} (hs : s.Ok) (hj : s.live j) {low : Int}
    (hlow : low ≤ 1) {u : Udata} (excl : Option Slot) (rest : List Effect)
    (hpub : m.isPublic = true) (hget : u.udataGetByFd (s.clients j).fd ≠ none)
    (hexcl : some j ≠ excl) (hrest : ∀ p ∈ posts rest, p.2.isPublic = false) :
    publicly (sentTo (s.clients j).fd (distribute low s.clients u m excl ++ rest)) = [m] ∧
      madePublic (distribute low s.clients u m excl ++ rest) = [m] := by
  have hsent : publicly (sentTo (s.clients j).fd (distribute low s.clients u m excl ++ rest))
      = [m] := by
    rw [sentTo_append, publicly_append, (madePublic_none _ hrest).2,
      sentTo_distribute hs hj low hlow m excl hget, if_neg hexcl, List.append_nil]
    exact List.filter_cons_of_pos hpub
  refine ⟨hsent, madePublic_one (fun p hp hp' => ?_) hsent⟩
  rw [posts_append] at hp
  rcases List.mem_append.mp hp with hp | hp
  · obtain ⟨fd', hsend⟩ := mem_distribute (mem_posts.mp hp)
    exact (Effect.send.inj hsend).2
  · rw [hrest p hp] at hp'
    exact absurd hp' Bool.false_ne_true

end

section

variable {mem : Memory} {s s' : Server} {i j : Slot} {ev : Event} {out : List Effect}

theorem madePublic_congr {effects effects' : List Effect} (h : posts effects = posts effects') :
    madePublic effects = madePublic effects' := by
  rw [madePublic, madePublic, h]

/-- What a command has everybody told, everybody in chat is sent. -/
theorem Post.madePublic {c : NetCmd} {env : Env} {o : Outcome} (h : Post (s.call i c env) o)
    (hs : s.Ok) (hj : s.live j) (hbefore : s.udata.udataGetByFd (s.clients j).fd ≠ none)
    (hafter : o.udata.udataGetByFd (s.clients j).fd ≠ none)
    (hown : j = i → c.op ≠ .chatdoor) :
    publicly (sentTo (s.clients j).fd o.effects) = Smsg.madePublic o.effects := by
  have hprivate : ∀ l : List (Int × NetCmd), posts o.effects = l →
      (∀ p ∈ l, p.2.isPublic = false) →
      publicly (sentTo (s.clients j).fd o.effects) = Smsg.madePublic o.effects := by
    intro l hl hno
    obtain ⟨hnone, hsent⟩ := madePublic_none (s.clients j).fd (by rw [hl]; exact hno)
    rw [hnone, hsent]
  cases h with
  | silent _ h => exact hprivate _ h (by simp)
  | answer _ hm h =>
      refine hprivate _ h fun p hp => ?_
      rw [List.mem_singleton.mp hp]
      exact hm.not_public
  | @told m _ hm h =>
      obtain ⟨hsent, hall⟩ := madePublic_distribute hs hj (Int.zero_le_ofNat 1) none []
        hm.isPublic hafter (by simp) (by simp)
      rw [List.append_nil] at hsent hall
      rw [h]
      exact hsent.trans hall.symm
  | @door m u hop _ hm hu h =>
      have hget : u.udataGetByFd (s.clients j).fd ≠ none := by
        rcases hu with rfl | rfl
        · exact hbefore
        · exact hafter
      obtain ⟨hsent, hall⟩ := madePublic_distribute hs hj (le_refl 1) (some i)
        [(s.call i c env).reply (.set .ack)] hm.isPublic hget
        (fun hji => hown (Option.some.inj hji) hop)
        (by simp [Call.reply, NetCmd.isPublic, NetCmd.set])
      rw [h]
      exact hsent.trans hall.symm
  | beepAll _ h =>
      refine hprivate _ rfl fun p hp => ?_
      rw [h] at hp
      obtain ⟨fd', hsend⟩ := mem_distribute (mem_posts.mp hp)
      rw [(Effect.send.inj hsend).2]
      rfl
  | beep _ _ h =>
      refine hprivate _ h fun p hp => ?_
      rw [List.mem_singleton.mp hp]
      rfl
  | psay _ _ _ _ h =>
      refine hprivate _ h fun p hp => ?_
      rcases List.mem_cons.mp hp with rfl | hp
      · rfl
      · rw [List.mem_singleton.mp hp]
        rfl

/-- **Everybody in chat is told the same.** -/
theorem Turn.madePublic (hs : s.Ok) (hturn : Turn mem s ev s' out) (hj : s.live j)
    (hj' : s'.live j) (hbefore : ¬ s.NobodyOn j) (hafter : ¬ s'.NobodyOn j)
    (hown : ∀ c env, ev = .netcmd j c env → c.op ≠ .chatdoor) :
    publicly (sentTo (s.clients j).fd out) = Smsg.madePublic out := by
  have hkept := hturn.client_kept hj hj'
  cases hturn with
  | @hungUp i alloc e hlive hent =>
      have hji : j ≠ i := fun hji => Server.not_live_closeSlot _ _ (hji ▸ hj')
      obtain ⟨hsent, hall⟩ := madePublic_distribute hs hj (le_refl 1) (some i)
        [.close (s.clients i).fd] (News.door 0 (xstr e.nick) [errorChatPeerclose]).isPublic hbefore
        (fun h => hji (Option.some.inj h)) (by simp [posts])
      exact hsent.trans hall.symm
  | @netcmd i c env o act hlive hmem hcall hdoes =>
      have hpost := post_lsHandleNetcmd (x := s.call i c env) (le_of_lt (hs.fd_pos hlive)) hcall
      have hafter' : o.udata.udataGetByFd (s.clients j).fd ≠ none := by
        intro hnone
        refine hafter ?_
        rw [Server.NobodyOn, hkept]
        exact hnone
      rw [madePublic_congr (posts_settle s o), sentTo_settle]
      exact hpost.madePublic hs hj hbefore hafter' fun hji => hown c env (by rw [hji])
  | _ => rfl

end

/-! ### What is read -/

/-- Whether it is a `chatter` inside `chatter_func`. -/
def Member.isInside : Member → Bool
  | .inside _ _ _ => true
  | _ => false

namespace Chatroom

/-- What the server is given with an event. -/
def serverEvent (y : Chatroom) : ChatroomEvent → Option Event
  | .visit newfd peer => some (.accept newfd peer)
  | .chatter newfd peer _ _ _ => some (.accept newfd peer)
  | .recvError i => some (.recvError i)
  | .closed i alloc => some (.closed i alloc)
  | .serve i env => (y.peer i).up.head?.map fun c => .netcmd i c env
  | _ => none

/-- What is added to the conversation with it. -/
def told (y : Chatroom) (e : ChatroomEvent) : List NetCmd :=
  match (y.serverEvent e).bind (y.server.step .enough) with
  | none => []
  | some (_, out) => madePublic out

/-- A client is inside `chatter_func`, and its connection is open. -/
def Inside (y : Chatroom) (i : Slot) : Prop :=
  y.server.live i ∧ (y.peer i).member.isInside = true

instance (y : Chatroom) (i : Slot) : Decidable (y.Inside i) := instDecidableAnd

end Chatroom

theorem Member.of_isInside {m : Member} (h : m.isInside = true) :
    ∃ user v l, m = .inside user v l := by
  cases m with
  | inside user v l => exact ⟨user, v, l, rfl⟩
  | _ => simp [Member.isInside] at h

/-- The message that the client in slot `i` has taken. -/
def heardBy (i : Slot) : Option (Slot × NetCmd) → List NetCmd
  | some (j, m) => if j = i then [m] else []
  | none => []

section

variable {y y' : Chatroom} {i k : Slot} {e : ChatroomEvent} {ev : Event} {p : Peer}

theorem Chatroom.Fine.on (hy : y.Fine) (hk : y.Inside k) : ¬ y.server.NobodyOn k := by
  obtain ⟨hlive, hinside⟩ := hk
  obtain ⟨user, v, l, hmember⟩ := Member.of_isInside hinside
  have hfine := hy.peers k hlive
  simp only [Peer.Fine, hmember] at hfine
  exact hfine.1.not_nobody

/-- What the server adds to the conversation is on its way to everybody inside. -/
theorem Chatroom.Fine.tell_told (hy : y.Fine) (h : y.tell ev = some y') (hk : y.Inside k)
    (hlive : y'.server.live k) (hon : ¬ y'.server.NobodyOn k)
    (hown : ∀ c env, ev = .netcmd k c env → c.op ≠ .chatdoor) :
    ∃ s' out, y.server.step .enough ev = some (s', out) ∧
      publicly (y'.peer k).down = publicly (y.peer k).down ++ madePublic out := by
  obtain ⟨out, hstep, hpeer⟩ := Chatroom.tell_some h
  obtain ⟨hist, hrun, -⟩ := hy.neat
  have hs := run_ok hrun
  have hsame := (step_turn hs hstep).madePublic hs hk.1 hlive (hy.on hk) hon hown
  refine ⟨y'.server, out, hstep, ?_⟩
  rw [hpeer, Peer.hear, publicly_append, hsame]

theorem Chatroom.arrive_free {newfd : Int} {peer : InAddr} (h : y.arrive newfd peer p = some y')
    (hk : y.server.live k) : ∃ y₁, y.tell (.accept newfd peer) = some y₁ ∧
      y'.server = y₁.server ∧ y'.peer k = y₁.peer k := by
  obtain ⟨y₁, htell, hserver, hpeer⟩ := Chatroom.arrive_some h
  refine ⟨y₁, htell, hserver, (hpeer k).trans (if_neg fun hslot => ?_)⟩
  exact Server.not_live_acceptSlot hslot hk

/-- What the client in slot `k` reads next is what comes next in the conversation. -/
theorem Chatroom.Fine.follow {heard : Option (Slot × NetCmd)} (hy : y.Fine)
    (h : y.step e = some (y', heard)) (hk : y.Inside k) (hk' : y'.Inside k) :
    publicly (y.peer k).down ++ y.told e
      = publicly (heardBy k heard) ++ publicly (y'.peer k).down := by
  have hy' := hy.step h
  have hon := hy'.on hk'
  have hlive := hk.1
  obtain ⟨user, v, l, hmember⟩ := Member.of_isInside hk.2
  -- the server does something, and nothing is read with it
  have htell : ∀ ev y₁, y.serverEvent e = some ev → y.tell ev = some y₁ → heard = none →
      y'.server = y₁.server → (y'.peer k).down = (y₁.peer k).down →
      (∀ c env, ev = .netcmd k c env → c.op ≠ .chatdoor) →
      publicly (y.peer k).down ++ y.told e
        = publicly (heardBy k heard) ++ publicly (y'.peer k).down := by
    intro ev y₁ hev htell hheard hserver hdown hown
    rw [hserver] at hon
    have hlive' : y₁.server.live k := hserver ▸ hk'.1
    obtain ⟨s', out, hstep, htold⟩ :=
      hy.tell_told htell hk hlive' hon hown
    rw [hdown, htold, hheard, Chatroom.told, hev, Option.bind_some, hstep]
    rfl
  -- a client does something by itself, and reads nothing
  have hself : y.serverEvent e = none → heard = none → (y'.peer k).down = (y.peer k).down →
      publicly (y.peer k).down ++ y.told e
        = publicly (heardBy k heard) ++ publicly (y'.peer k).down := by
    intro hev hheard hdown
    rw [hdown, hheard, Chatroom.told, hev]
    exact List.append_nil _
  cases Chatroom.turn h with
  | visit harrive =>
      obtain ⟨y₁, htold, hserver, hpeer⟩ := Chatroom.arrive_free harrive hlive
      exact htell _ y₁ rfl htold rfl hserver (by rw [hpeer]) (by simp)
  | chatter hnick harrive =>
      obtain ⟨y₁, htold, hserver, hpeer⟩ := Chatroom.arrive_free harrive hlive
      exact htell _ y₁ rfl htold rfl hserver (by rw [hpeer]) (by simp)
  | recvError htold => exact htell _ y' rfl htold rfl rfl rfl (by simp)
  | @closed i alloc y₁ htold =>
      obtain ⟨out, hstep, -⟩ := Chatroom.tell_some htold
      obtain ⟨hist, hrun, -⟩ := hy.neat
      have hki : k ≠ i := by
        rintro rfl
        exact (step_turn (run_ok hrun) hstep).not_live_closed hk'.1
      exact htell _ y₁ rfl htold rfl rfl (by rw [Chatroom.setPeer_ne _ _ hki]) (by simp)
  | @serve i c up env y' hup htold =>
      obtain ⟨out, hstep, hpeer⟩ := Chatroom.tell_some htold
      obtain ⟨y₁, htold₁⟩ : ∃ y₁, y.tell (.netcmd i c env) = some y₁ := by
        have hstep' : y.server.step .enough (.netcmd i c env) = some (y'.server, out) := hstep
        simp only [Chatroom.tell, hstep', Option.bind_eq_bind, Option.bind_some]
        exact ⟨_, rfl⟩
      obtain ⟨out₁, hstep₁, hpeer₁⟩ := Chatroom.tell_some htold₁
      have hsame := Option.some.inj (hstep₁.symm.trans hstep)
      refine htell _ y₁ (by rw [Chatroom.serverEvent, hup]; rfl) htold₁ rfl
        (Prod.mk.inj hsame).1.symm ?_ ?_
      · rw [hpeer, hpeer₁, (Prod.mk.inj hsame).2]
        refine congrArg (· ++ _) (Chatroom.setPeer_keeps Peer.down ?_)
        exact fun _ => rfl
      · intro c' env' hev
        obtain ⟨rfl, rfl, rfl⟩ := Event.netcmd.inj hev
        have hfine := hy.peers i hlive
        simp only [Peer.Fine, hmember] at hfine
        exact (hfine.2.1 c (by rw [hup]; exact List.mem_cons_self)).plain.1
  | request => exact hself rfl rfl (Chatroom.setPeer_keeps Peer.down fun _ => rfl)
  | line hline => exact hself rfl rfl (Chatroom.setPeer_keeps Peer.down fun _ => Peer.line_down hline)
  | answered hanswer =>
      refine hself rfl rfl (Chatroom.setPeer_keeps Peer.down ?_)
      rintro rfl
      simp [Peer.answered, hmember] at hanswer
  | @read i p m hread =>
      have htaken := Peer.read_down hread
      by_cases hik : i = k
      · subst hik
        rw [htaken, Chatroom.setPeer_self, heardBy, if_pos rfl, ← publicly_append]
        exact List.append_nil _
      · rw [Chatroom.setPeer_ne _ _ (Ne.symm hik), heardBy, if_neg hik]
        exact List.append_nil _
  | quit hquit => exact hself rfl rfl (Chatroom.setPeer_keeps Peer.down fun _ => Peer.quit_down hquit)
  | hangup hdown hdead =>
      refine hself rfl rfl (Chatroom.setPeer_keeps Peer.down ?_)
      rintro rfl
      exact absurd hlive hdead

theorem Chatroom.Fine.along {later : List ChatroomStep} {st : ChatroomStep} (hy : y.Fine)
    (hx : Exec chatroom y later y') (hst : st ∈ later) :
    st.pre.Fine ∧ st.pre.step st.ev = some (st.post, st.out) := by
  obtain ⟨later₁, later₂, rfl⟩ := List.append_of_mem hst
  obtain ⟨hx₂, hstep, -⟩ := hx.split
  refine ⟨hx₂.invariant Chatroom.Fine (fun _ => True) hy ?_ fun _ _ => trivial, hstep⟩
  exact fun y e y' o hy hstep _ => hy.step hstep

theorem Chatroom.Fine.exec_told {later : List ChatroomStep} (hy : y.Fine)
    (hx : Exec chatroom y later y') (hinside : ∀ st ∈ later, st.pre.Inside k ∧ st.post.Inside k) :
    publicly (y.peer k).down ++ later.reverse.flatMap (fun st => st.pre.told st.ev)
      = later.reverse.flatMap (fun st => publicly (heardBy k st.out))
        ++ publicly (y'.peer k).down := by
  refine hx.queue (fun y => publicly (y.peer k).down) _ _ fun st hst => ?_
  obtain ⟨hfine, hstep⟩ := hy.along hx hst
  obtain ⟨hin, hin'⟩ := hinside st hst
  exact hfine.follow hstep hin hin'

/--
**Everybody sees the same conversation.**  Take any stretch of a run.  What everybody is
told in it is one list, and each client that is inside all the time reads this list, from
what was already on its way to it at the start to what is still on its way in the end, in
this order and with nothing left out or said twice.
-/
theorem same_conversation {hist later : List ChatroomStep} (h : Run chatroom hist y)
    (hx : Exec chatroom y later y') :
    ∀ k, (∀ st ∈ later, st.pre.Inside k ∧ st.post.Inside k) →
      publicly (y.peer k).down ++ later.reverse.flatMap (fun st => st.pre.told st.ev)
        = later.reverse.flatMap (fun st => publicly (heardBy k st.out))
          ++ publicly (y'.peer k).down :=
  fun _ hinside => (chatroom_fine h).exec_told hx hinside

end

/-! ### What somebody says -/

/-- The commands that say something. -/
def saying (l : List NetCmd) : List NetCmd := l.filter fun c => c.op == .cSay || c.op == .cMe

@[simp] theorem saying_append (l₁ l₂ : List NetCmd) : saying (l₁ ++ l₂) = saying l₁ ++ saying l₂ :=
  List.filter_append _ _

theorem saying_one {c : NetCmd} (hop : c.op = .cSay ∨ c.op = .cMe) : saying [c] = [c] := by
  refine List.filter_cons_of_pos ?_
  rcases hop with hop | hop <;> rw [hop] <;> rfl

theorem saying_none {c : NetCmd} (hop : ¬ (c.op = .cSay ∨ c.op = .cMe)) : saying [c] = [] := by
  refine List.filter_cons_of_neg ?_
  simpa using hop

theorem mem_saying {c : NetCmd} {l : List NetCmd} (h : c ∈ saying l) :
    c.op = .cSay ∨ c.op = .cMe := by
  simpa using (List.mem_filter.mp h).2

/-- What the user of slot `i` says with a line. -/
def enteredBy (i : Slot) (st : ChatroomStep) : List NetCmd :=
  match st.ev with
  | .line j _ => if j = i then saying ((st.post.peer i).up.drop (st.pre.peer i).up.length) else []
  | _ => []

/-- What the user of slot `i` has said when it is handled. -/
def servedFor (i : Slot) (st : ChatroomStep) : List NetCmd :=
  match st.ev with
  | .serve j _ => if j = i then saying ((st.pre.peer i).up.take 1) else []
  | _ => []

/-- What everybody is told of it. -/
def saidFor (i : Slot) (st : ChatroomStep) : List NetCmd :=
  match st.ev with
  | .serve j _ => if j = i then saying (st.pre.told st.ev) else []
  | _ => []

/-- What is told is what was entered, under a name. -/
def SaidAs (c m : NetCmd) : Prop :=
  ∃ name, m = ⟨c.op, [name, c.text 0]⟩ ∨ m = ⟨c.op, [name, (c.text 0).map translateByte]⟩

/-- What is said is told under the name of who says it. -/
theorem chatSay_said {x : Call} {e : UdataEnt} {o : Outcome} (hs : x.Sender e)
    (h : chatSay x = .ok o) : ∃ m, SaidAs x.cmd m ∧ m.op = x.cmd.op ∧
      o = x.done x.udata (lcsDistNcmd x.clients x.udata m none) := by
  have hs' : x.udata.udataGetByFd x.fd = some e := hs
  have hbytes : (lcsMsgTranslate (x.cmd.fetch .null 0)).bytes
      = (x.cmd.text 0).map translateByte := by
    rw [NetCmd.fetch, NetCmd.text]
    cases x.cmd.args[0]? with
    | none => rfl
    | some a => simp [lcsMsgTranslate, Arg.bytes, Arg.blk]
  unfold chatSay at h
  dsimp only at h
  split at h
  · simp at h
  · rename_i name hname
    rw [← Except.ok.inj h]
    by_cases hegg : x.beleet = true
    · refine ⟨⟨x.cmd.op, [name, (x.cmd.text 0).map translateByte]⟩, ⟨name, Or.inr rfl⟩, rfl, ?_⟩
      rw [if_pos hegg, hbytes]
      rfl
    · refine ⟨⟨x.cmd.op, [name, x.cmd.text 0]⟩, ⟨name, Or.inl rfl⟩, rfl, ?_⟩
      rw [if_neg hegg, fetch_bytes]
      rfl

/-- Only what is said is told as something said. -/
theorem Post.says_own {x : Call} {o : Outcome} (h : Post x o) {m : NetCmd}
    (hm : m ∈ Smsg.madePublic o.effects) (hop : m.op = .cSay ∨ m.op = .cMe) : x.cmd.op = m.op := by
  have hin := List.mem_filter.mp (List.mem_of_mem_take hm)
  obtain ⟨p, hp, rfl⟩ := List.mem_map.mp hin.1
  have hdist : ∀ {low : Int} {clients : Slot → Client} {u : Udata} {msg : NetCmd}
      {excl : Option Slot}, p ∈ posts (distribute low clients u msg excl) → p.2 = msg := by
    intro low clients u msg excl hmem
    obtain ⟨fd', hsend⟩ := mem_distribute (mem_posts.mp hmem)
    exact (Effect.send.inj hsend).2
  have hnot : ∀ op : NCMDOp, op ≠ .cSay → op ≠ .cMe → p.2.op ≠ op := by
    intro op hsay hme heq
    rcases hop with hop | hop
    · exact hsay (heq.symm.trans hop)
    · exact hme (heq.symm.trans hop)
  cases h with
  | silent _ h => rw [h] at hp; simp at hp
  | answer _ hanswer h =>
      rw [h, List.mem_singleton] at hp
      rw [hp] at hin
      exact absurd (hin.2.symm.trans hanswer.not_public) Bool.true_eq_false.mp
  | told hsame _ h =>
      rw [h] at hp
      rw [hdist hp]
      exact hsame.symm
  | door _ hdoor _ _ h =>
      rw [h, posts_append] at hp
      rcases List.mem_append.mp hp with hp | hp
      · exact absurd (by rw [hdist hp]; exact hdoor) (hnot .cDoor (by decide) (by decide))
      · rw [List.mem_singleton.mp hp] at hnot
        exact absurd rfl (hnot .ack (by decide) (by decide))
  | beepAll _ h =>
      rw [h] at hp
      exact absurd (by rw [hdist hp]; rfl) (hnot .cBeep (by decide) (by decide))
  | beep _ _ h =>
      rw [h, List.mem_singleton] at hp
      exact absurd (by rw [hp]; rfl) (hnot .cBeep (by decide) (by decide))
  | psay _ _ _ _ h =>
      refine absurd ?_ (hnot .cPsay (by decide) (by decide))
      rw [h] at hp
      rcases List.mem_cons.mp hp with rfl | hp
      · rfl
      · rw [List.mem_singleton.mp hp]

section

variable {y y' : Chatroom} {i : Slot} {e : ChatroomEvent} {heard : Option (Slot × NetCmd)}

/-- A command of somebody inside, as it is handled. -/
theorem Chatroom.Fine.served {c : NetCmd} {up : List NetCmd} {env : Env} (hy : y.Fine)
    (hi : y.Inside i) (hup : (y.peer i).up = c :: up)
    (htell : (y.setPeer i { y.peer i with up := up }).tell (.netcmd i c env) = some y') :
    ∃ o, lsHandleNetcmd (y.server.call i c env) = .ok o ∧
      y.told (.serve i env) = madePublic o.effects ∧ Post (y.server.call i c env) o := by
  obtain ⟨out, hstep, -⟩ := Chatroom.tell_some htell
  obtain ⟨hist, hrun, -⟩ := hy.neat
  obtain ⟨-, -, o, hcall, hsettle⟩ := step_netcmd hstep
  rw [Chatroom.setPeer_server] at hcall hsettle
  refine ⟨o, hcall, ?_, post_lsHandleNetcmd (le_of_lt ((run_ok hrun).fd_pos hi.1)) hcall⟩
  have hstep' : y.server.step .enough (.netcmd i c env) = some (y'.server, out) := hstep
  rw [Chatroom.told, Chatroom.serverEvent, hup, List.head?_cons, Option.map_some, Option.bind_some,
    hstep', ← madePublic_congr (posts_settle y.server o), hsettle]

/-- What says something is told once. -/
theorem Chatroom.Fine.says {c : NetCmd} {env : Env} {o : Outcome} (hy : y.Fine) (hi : y.Inside i)
    (hop : c.op = .cSay ∨ c.op = .cMe) (hcall : lsHandleNetcmd (y.server.call i c env) = .ok o) :
    ∃ m, SaidAs c m ∧ saying (madePublic o.effects) = [m] := by
  obtain ⟨e, hs⟩ := Option.ne_none_iff_exists'.mp (hy.on hi)
  obtain ⟨hist, hrun, -⟩ := hy.neat
  have hchat : c.op.isChatcmd = true := by
    rcases hop with hop | hop <;> rw [hop] <;> decide
  have hsay : handleChatcmd (y.server.call i c env) = chatSay (y.server.call i c env) := by
    rcases hop with hop | hop <;>
      rw [handleChatcmd, show (y.server.call i c env).cmd.get = _ from hop]
  rw [lsHandleNetcmd_present hchat hs, hsay] at hcall
  obtain ⟨m, hm, hmop, rfl⟩ := chatSay_said (x := y.server.call i c env) hs hcall
  have hsame : m.op = c.op := hmop
  have hpub : m.isPublic = true := by
    unfold NetCmd.isPublic
    rw [hsame]
    rcases hop with hop | hop <;> rw [hop]
  have hone := (madePublic_distribute (run_ok hrun) hi.1 (Int.zero_le_ofNat 1) none []
    hpub (hy.on hi) (by simp) (by simp)).2
  rw [List.append_nil] at hone
  exact ⟨m, hm, (congrArg saying hone).trans (saying_one (hsame.symm ▸ hop))⟩

/-- What is said is told when it is handled. -/
theorem Chatroom.Fine.said (hy : y.Fine) (h : y.step e = some (y', heard)) (hi : y.Inside i) :
    List.Forall₂ SaidAs (servedFor i ⟨y, e, y', heard⟩) (saidFor i ⟨y, e, y', heard⟩) := by
  cases Chatroom.turn h with
  | @serve j c up env y' hup htell =>
      by_cases hji : j = i
      · subst hji
        obtain ⟨o, hcall, htold, hpost⟩ := hy.served hi hup htell
        simp only [servedFor, saidFor, if_pos, hup, htold, List.take_succ_cons, List.take_zero]
        by_cases hop : c.op = .cSay ∨ c.op = .cMe
        · obtain ⟨m, hm, hone⟩ := hy.says hi hop hcall
          rw [saying_one hop, hone]
          exact .cons hm .nil
        · have hright : saying (madePublic o.effects) = [] := by
            refine List.filter_eq_nil_iff.mpr fun m hm htold => hop ?_
            have hmop : m.op = .cSay ∨ m.op = .cMe := by simpa using htold
            have hsame : c.op = m.op := hpost.says_own hm hmop
            rwa [hsame]
          rw [saying_none hop, hright]
          exact .nil
      · simp only [servedFor, saidFor, if_neg hji]
        exact .nil
  | _ => exact .nil

/-- A line puts its command behind the others. -/
theorem Peer.line_up {p p' : Peer} {line : InputLine} (h : p.line line = some p') :
    p.up ++ p'.up.drop p.up.length = p'.up := by
  unfold Peer.line at h
  split at h
  · split at h
    · simp at h
    · split at h
      · rw [← Option.some.inj h, List.drop_length, List.append_nil]
      · obtain ⟨c, -, h⟩ := Option.bind_eq_some_iff.mp h
        rw [← Option.some.inj h, List.drop_left]
  · simp at h

theorem Peer.quit_finished {p p' : Peer} (h : p.quit = some p') : p'.member.isInside = false := by
  unfold Peer.quit at h
  split at h
  · split at h
    · rw [← Option.some.inj h]
      rfl
    · simp at h
  · simp at h

/-- Asking for a list says nothing. -/
theorem Peer.read_saying {p p' : Peer} {m : NetCmd} (h : p.read = some (p', m)) :
    saying p'.up = saying p.up := by
  unfold Peer.read at h
  split at h
  · simp only [Option.bind_eq_bind, Option.bind_eq_some_iff, Option.some.injEq,
      Prod.mk.injEq] at h
    obtain ⟨⟨v', acts⟩, hfunc, rfl, -⟩ := h
    obtain ⟨-, hsends⟩ := chatterFunc_sidebar hfunc
    rw [saying_append, hsends]
    split <;> exact List.append_nil _
  · simp at h

/-- What is said is under way until it is handled. -/
theorem Chatroom.Fine.uttered (hy : y.Fine) (h : y.step e = some (y', heard)) (hi : y.Inside i)
    (hi' : y'.Inside i) :
    saying (y.peer i).up ++ enteredBy i ⟨y, e, y', heard⟩
      = servedFor i ⟨y, e, y', heard⟩ ++ saying (y'.peer i).up := by
  have hlive := hi.1
  obtain ⟨user, v, l, hmember⟩ := Member.of_isInside hi.2
  have hself : enteredBy i ⟨y, e, y', heard⟩ = [] → servedFor i ⟨y, e, y', heard⟩ = [] →
      saying (y'.peer i).up = saying (y.peer i).up →
      saying (y.peer i).up ++ enteredBy i ⟨y, e, y', heard⟩
        = servedFor i ⟨y, e, y', heard⟩ ++ saying (y'.peer i).up := by
    intro hentered hserved hup
    rw [hentered, hserved, hup]
    exact List.append_nil _
  have htell : ∀ {ev : Event} {y₀ y₁ : Chatroom}, y₀.tell ev = some y₁ →
      (y₁.peer i).up = (y₀.peer i).up := by
    intro ev y₀ y₁ ht
    obtain ⟨out, -, hpeer⟩ := Chatroom.tell_some ht
    rw [hpeer, Peer.hear]
  cases Chatroom.turn h with
  | visit harrive =>
      obtain ⟨y₁, htold, -, hpeer⟩ := Chatroom.arrive_free harrive hlive
      exact hself rfl rfl (by rw [hpeer, htell htold])
  | chatter hnick harrive =>
      obtain ⟨y₁, htold, -, hpeer⟩ := Chatroom.arrive_free harrive hlive
      exact hself rfl rfl (by rw [hpeer, htell htold])
  | recvError htold => exact hself rfl rfl (by rw [htell htold])
  | closed htold =>
      refine hself rfl rfl (congrArg saying ?_)
      rw [Chatroom.setPeer_keeps Peer.up, htell htold]
      rintro rfl
      obtain ⟨out, hstep, -⟩ := Chatroom.tell_some htold
      obtain ⟨hist, hrun, -⟩ := hy.neat
      exact absurd hi'.1 (step_turn (run_ok hrun) hstep).not_live_closed
  | @serve k c up env y' hup htold =>
      have hrest := htell htold
      by_cases hki : k = i
      · subst hki
        rw [Chatroom.setPeer_self] at hrest
        simp only [enteredBy, servedFor, if_pos, hup, hrest, List.append_nil,
          List.take_succ_cons, List.take_zero, ← saying_append]
        rfl
      · rw [Chatroom.setPeer_ne _ _ (Ne.symm hki)] at hrest
        exact hself rfl (if_neg hki) (by rw [hrest])
  | request hvisitor hop =>
      refine hself rfl rfl (congrArg saying (Chatroom.setPeer_keeps Peer.up ?_))
      rintro rfl
      rw [hmember] at hvisitor
      cases hvisitor
  | @line k line p hline =>
      by_cases hki : k = i
      · subst hki
        simp only [enteredBy, servedFor, if_pos, Chatroom.setPeer_self, ← saying_append,
          List.nil_append]
        rw [Peer.line_up hline]
      · exact hself (if_neg hki) rfl (by rw [Chatroom.setPeer_ne _ _ (Ne.symm hki)])
  | answered hanswer =>
      refine hself rfl rfl (congrArg saying (Chatroom.setPeer_keeps Peer.up ?_))
      rintro rfl
      simp [Peer.answered, hmember] at hanswer
  | @read k p m hread =>
      refine hself rfl rfl ?_
      by_cases hki : k = i
      · subst hki
        rw [Chatroom.setPeer_self, Peer.read_saying hread]
      · rw [Chatroom.setPeer_ne _ _ (Ne.symm hki)]
  | quit hquit =>
      refine hself rfl rfl (congrArg saying (Chatroom.setPeer_keeps Peer.up ?_))
      rintro rfl
      have hinside := hi'.2
      rw [Chatroom.setPeer_self, Peer.quit_finished hquit] at hinside
      cases hinside
  | hangup hdown hdead =>
      refine hself rfl rfl (congrArg saying (Chatroom.setPeer_keeps Peer.up ?_))
      rintro rfl
      exact absurd hlive hdead

/-- What somebody says is told piece by piece. -/
theorem forall₂_flatMap {α β γ : Type} {R : β → γ → Prop} {f : α → List β} {g : α → List γ}
    {l : List α} (h : ∀ a ∈ l, List.Forall₂ R (f a) (g a)) :
    List.Forall₂ R (l.flatMap f) (l.flatMap g) := by
  have hself : List.Forall₂ (fun a a' => a = a' ∧ a ∈ l) l l :=
    List.forall₂_same.mpr fun a ha => ⟨rfl, ha⟩
  refine List.rel_flatMap hself fun a a' ha => ?_
  obtain ⟨rfl, hmem⟩ := ha
  exact h a hmem

/-- So a whole stretch of saying is told. -/
theorem Chatroom.Fine.exec_said {later : List ChatroomStep} (hy : y.Fine)
    (hx : Exec chatroom y later y') (hinside : ∀ st ∈ later, st.pre.Inside i ∧ st.post.Inside i) :
    saying (y.peer i).up ++ later.reverse.flatMap (enteredBy i)
        = later.reverse.flatMap (servedFor i) ++ saying (y'.peer i).up ∧
      List.Forall₂ SaidAs (later.reverse.flatMap (servedFor i))
        (later.reverse.flatMap (saidFor i)) := by
  constructor
  · refine hx.queue (fun y => saying (y.peer i).up) _ _ fun st hst => ?_
    obtain ⟨hfine, hstep⟩ := hy.along hx hst
    exact hfine.uttered hstep (hinside st hst).1 (hinside st hst).2
  · refine forall₂_flatMap fun st hst => ?_
    have hst' := List.mem_reverse.mp hst
    obtain ⟨hfine, hstep⟩ := hy.along hx hst'
    exact hfine.said hstep (hinside st hst').1

/--
**What somebody says is said once.**  Take a stretch of a run in which a client is inside
all the time.  What its user enters to be said, and what was under way before, is handled
in this order or still under way in the end, and each of these that is handled is told to
everybody once, in this order, under a name and as it was entered but for the translation.
-/
theorem said_once {hist later : List ChatroomStep} (h : Run chatroom hist y)
    (hx : Exec chatroom y later y') (hinside : ∀ st ∈ later, st.pre.Inside i ∧ st.post.Inside i) :
    saying (y.peer i).up ++ later.reverse.flatMap (enteredBy i)
        = later.reverse.flatMap (servedFor i) ++ saying (y'.peer i).up ∧
      List.Forall₂ SaidAs (later.reverse.flatMap (servedFor i))
        (later.reverse.flatMap (saidFor i)) :=
  (chatroom_fine h).exec_said hx hinside

/-- Both of two users enter something, and the second one is handled first. -/
def twoTalking : List ChatroomEvent :=
  [.line 0 ⟨[104, 105], by decide⟩, .line 1 ⟨[47, 109, 101, 32, 111, 104], by decide⟩,
    .serve 1 .bare, .read 1, .serve 0 .bare, .read 1, .read 0, .read 0]

/-- Both are inside, with nothing of the conversation under way at the start and in the end. -/
theorem talking_two : ∃ hist later y y', Run chatroom hist y ∧ Exec chatroom y later y' ∧
    (∀ st ∈ later, ∀ k ≤ 1, st.pre.Inside k ∧ st.post.Inside k) ∧
    (∀ k ≤ 1, publicly (y.peer k).down = [] ∧ publicly (y'.peer k).down = [] ∧
      saying (y.peer k).up = [] ∧ saying (y'.peer k).up = []) ∧
    (later.reverse.flatMap fun st => st.pre.told st.ev).length = 2 ∧
    (later.reverse.flatMap (enteredBy 0)).length = 1 := by
  have hrun : (exec chatroom (.initial 3) twoChatters []).any (fun r =>
      (exec chatroom r.2 twoTalking []).any fun r' =>
        decide (∀ st ∈ r'.1, ∀ k ≤ 1, st.pre.Inside k ∧ st.post.Inside k) &&
        decide (∀ k ≤ 1, publicly (r.2.peer k).down = [] ∧ publicly (r'.2.peer k).down = [] ∧
          saying (r.2.peer k).up = [] ∧ saying (r'.2.peer k).up = []) &&
        decide ((r'.1.reverse.flatMap fun st => st.pre.told st.ev).length = 2) &&
        decide ((r'.1.reverse.flatMap (enteredBy 0)).length = 1)) = true := by
    decide +kernel
  obtain ⟨⟨hist, y⟩, hexec, hrest⟩ := (Option.any_eq_true _ _).mp hrun
  obtain ⟨⟨later, y'⟩, hexec', hproj⟩ := (Option.any_eq_true _ _).mp hrest
  simp only [Bool.and_eq_true, decide_eq_true_eq] at hproj
  obtain ⟨⟨⟨hinside, hempty⟩, htold⟩, hentered⟩ := hproj
  exact ⟨hist, later, y, y', ⟨_, ⟨3, by decide, rfl⟩, exec_sound _ .nil hexec⟩,
    exec_sound _ .nil hexec', hinside, hempty, htold, hentered⟩

/-- Two users read the same two things. -/
theorem same_conversation_two : ∃ hist later y, Run chatroom hist y ∧ ∃ y',
    Exec chatroom y later y' ∧ ∃ l : List NetCmd, l.length = 2 ∧ ∀ k ≤ 1,
      later.reverse.flatMap (fun st => publicly (heardBy k st.out)) = l := by
  obtain ⟨hist, later, y, y', h, hx, hinside, hempty, htold, -⟩ := talking_two
  refine ⟨hist, later, y, h, y', hx, _, htold, fun k hk => ?_⟩
  have hread := same_conversation h hx k fun st hst => hinside st hst k hk
  obtain ⟨hbefore, hafter, -, -⟩ := hempty k hk
  rw [hbefore, hafter, List.nil_append, List.append_nil] at hread
  exact hread.symm

/-- What the first of two users enters is told. -/
theorem said_once_two : ∃ hist later y, Run chatroom hist y ∧ ∃ y',
    Exec chatroom y later y' ∧ ∃ c m, SaidAs c m ∧
      later.reverse.flatMap (enteredBy 0) = [c] ∧ later.reverse.flatMap (saidFor 0) = [m] := by
  obtain ⟨hist, later, y, y', h, hx, hinside, hempty, -, hentered⟩ := talking_two
  obtain ⟨hserved, hsaid⟩ := said_once h hx fun st hst => hinside st hst 0 (by decide)
  obtain ⟨-, -, hbefore, hafter⟩ := hempty 0 (by decide)
  rw [hbefore, hafter, List.nil_append, List.append_nil] at hserved
  rw [← hserved] at hsaid
  obtain ⟨c, hc⟩ := List.length_eq_one_iff.mp hentered
  rw [hc] at hsaid
  obtain ⟨m, l, hm, hnil, hl⟩ := List.forall₂_cons_left_iff.mp hsaid
  obtain rfl := List.forall₂_nil_left_iff.mp hnil
  exact ⟨hist, later, y, h, y', hx, c, m, hm, hc, hl⟩

end

end Smsg
