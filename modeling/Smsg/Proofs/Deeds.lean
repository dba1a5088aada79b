/-
What a command can do.

`Deed` is the one place where the cases of `ls_handle_netcmd` and `handle_chatcmd`
are gone through: a command that is handled does one act in the room, and the deed
says which, who did it to whom, and what was sent.  What holds in every run of the
server is derived from deeds, and not from the handlers.

A deed that changes nothing still sends replies.  `Quiet` says that they cannot be
taken for the news of a change.
-/
import Smsg.Proofs.Udata

namespace Smsg

variable {x : Call} {o : Outcome}

/-! ### Who and whom -/

/-- The entry that a chat command comes from. -/
def Call.Sender (x : Call) (e : UdataEnt) : Prop := x.udata.udataGetByFd x.fd = some e

/-- The first argument of a command as a string. -/
def NetCmd.str0 (c : NetCmd) : Option CString := (c.fetch .null 0).str

/-- The entry that a command of an operator is about. -/
def Call.Target (x : Call) (e : UdataEnt) : Prop := x.udata.udataGetByNick x.cmd.str0 = some e

/-- The second argument of a `CHATDOOR`: the nick to join with. -/
def NetCmd.doorNick (c : NetCmd) : Option CString := (c.fetch .null 1).str

/-- A `CHATDOOR` that lets `user` in as `nick`: nothing is in the way of it. -/
structure Call.Joins (x : Call) (user nick : CString) : Prop where
  op : x.cmd.op = .chatdoor
  form : x.cmd.leaves = false
  named : x.cmd.doorUser = some user
  asked : x.cmd.doorNick = some nick
  seat : ∀ s, x.udata.room user = some s → ¬ s.has udcFlagBanned ∧ ¬ s.present
  memory : x.udata.room user = none →
    Udata.addAlloc x.env.alloc { udataDefEntry with user := some user } = true
  free : x.udata.room.FreeNick nick

/-- A `CHATDOOR` that takes `user` out: there is somebody to take out. -/
structure Call.Leaves (x : Call) (user : CString) (s : Seat CString) : Prop where
  op : x.cmd.op = .chatdoor
  form : x.cmd.leaves = true
  named : x.cmd.doorUser = some user
  seat : x.udata.room user = some s
  present : s.present

/-- The commands of operators. -/
def modeOps : List NCMDOp := [.cBan, .cDeop, .cKick, .cOp, .cUnban]

/-- The act that a command of an operator is. -/
def modeAct (tncmd : NCMDOp) (user : CString) : Option (Act CString CString) :=
  match tncmd with
  | .cBan => some (.ban user)
  | .cDeop => some (.deop user)
  | .cKick => some (.kick user)
  | .cOp => some (.op user)
  | .cUnban => some (.unban user)
  | _ => none

/-! ### Messages that tell of no change -/

/-- The answers to a chat command that did nothing. -/
inductive Reply (x : Call) : NetCmd → Prop
  | nickInUse : Reply x (.set .cNick)
  | ownNick {e : UdataEnt} (h : x.Sender e) : Reply x ((NetCmd.set .cNick).add (xstr e.nick))
  | wrongPassword : Reply x (.set .cOper)
  | notOperator {op : NCMDOp} (h : op ∈ modeOps) : Reply x (.set op)
  | absent {op : NCMDOp} (h : op ∈ modeOps) (a : Bytes) : Reply x ((NetCmd.set op).add a)

/-- The operation codes that never tell of a change. -/
def plainOps : List NCMDOp := [.ack, .nak, .qmsg, .list, .pref, .cBeep, .cSay, .cMe, .cPsay, .cWho]

/-- The effect tells nobody of a change. -/
def Quiet (x : Call) : Effect → Prop
  | .send fd m => m.op ∈ plainOps ∨ (fd = x.fd ∧ Reply x m) ∨ ∃ a, m = ⟨.cNick, [a, a]⟩
  | _ => True

/-- What a handled command did: the act, its reasons, and what was sent. -/
inductive Deed (x : Call) (o : Outcome) : Act CString CString → Prop
  | idle (hret : o.retval < 0) (hq : ∀ ef ∈ o.effects, Quiet x ef) : Deed x o .idle
  | enrol {user : CString} (hnew : x.udata.room user = none) (hret : o.retval < 0)
      (hq : ∀ ef ∈ o.effects, Quiet x ef) : Deed x o (.enrol user)
  | join {user anick : CString} {nick : Option CString} (hj : x.Joins user anick)
      (hnick : nick = some anick ∨ x.env.alloc .updateNick = false) (hret : o.retval < 0)
      (heff : o.effects = distribute 1 x.clients o.udata (doorMsg 1 nick) (some x.cl) ++
        [x.reply (.set .ack)]) : Deed x o (.join user nick)
  | leave {user : CString} {s : Seat CString} {more : List Bytes} (hl : x.Leaves user s)
      (hret : o.retval < 0)
      (heff : o.effects = distribute 1 x.clients x.udata ⟨.cDoor, [0] :: xstr s.nick :: more⟩
        (some x.cl) ++ [x.reply (.set .ack)]) : Deed x o (.leave user)
  | rename {e : UdataEnt} {new old : CString} (hs : x.Sender e) (hop : x.cmd.op = .cNick)
      (hnew : x.cmd.str0 = some new) (hfree : x.udata.room.FreeNick new) (hold : e.nick = some old)
      (hret : o.retval < 0)
      (heff : o.effects = lcsDistNcmd x.clients o.udata ⟨.cNick, [new.chars, old.chars]⟩ none) :
      Deed x o (.rename e.user new)
  | away {e : UdataEnt} {more : List Bytes} (hs : x.Sender e) (hop : x.cmd.op = .cAway)
      (hret : o.retval < 0)
      (heff : o.effects = lcsDistNcmd x.clients o.udata
        ⟨.cAway, (if e.has udcFlagAway then [0] else [1]) :: xstr e.nick :: more⟩ none) :
      Deed x o (.away e.user)
  | oper {e : UdataEnt} (hs : x.Sender e) (hop : x.cmd.op = .cOper)
      (hpw : x.cmd.str0 = some lcsOperPassword) (hret : o.retval < 0)
      (heff : o.effects = lcsDistNcmd x.clients o.udata ⟨.cOper, [xstr e.nick]⟩ none) :
      Deed x o (.oper e.user)
  | mode {e t : UdataEnt} {tnick : CString} {act : Act CString CString} (hs : x.Sender e)
      (hoper : e.has udcFlagOperator = true) (hnick : e.nick = some tnick) (ht : x.Target t)
      (hact : modeAct x.cmd.op t.user = some act)
      (hret : o.retval = if x.cmd.op = .cBan ∨ x.cmd.op = .cKick then kickSlot x.clients t.fd else -5)
      (heff : o.effects = lcsDistNcmd x.clients o.udata
        ⟨x.cmd.op, [xstr t.nick, tnick.chars]⟩ none) : Deed x o act

/-- The command did this act, and the room shows it. -/
def Does (x : Call) (o : Outcome) (act : Act CString CString) : Prop :=
  Deed x o act ∧ o.udata.room = act.apply x.fd x.udata.room

/-! ### Commands that do nothing -/

theorem retval_neg : (-5 : Int) < 0 := by decide

theorem quiet_reply {m : NetCmd} (h : m.op ∈ plainOps ∨ Reply x m) : Quiet x (x.reply m) := by
  rcases h with h | h
  · exact Or.inl h
  · exact Or.inr (Or.inl ⟨rfl, h⟩)

theorem does_idle (hroom : o.udata.room = x.udata.room) (hret : o.retval < 0)
    (hq : ∀ ef ∈ o.effects, Quiet x ef) : ∃ act, Does x o act :=
  ⟨.idle, .idle hret hq, hroom⟩

theorem does_reply {m : NetCmd} (h : m.op ∈ plainOps ∨ Reply x m) :
    ∃ act, Does x (x.done x.udata [x.reply m]) act := by
  refine does_idle rfl retval_neg ?_
  intro ef hef
  rw [List.mem_singleton.mp hef]
  exact quiet_reply h

theorem does_nak {u : Udata} (hroom : u.room = x.udata.room) (reason : Bytes) :
    ∃ act, Does x (x.nak u reason) act := by
  refine does_idle hroom retval_neg ?_
  intro ef hef
  rw [List.mem_singleton.mp hef]
  exact quiet_reply (Or.inl (by simp [plainOps]))

theorem sendPresent_eq (clients : Slot → Client) (u : Udata) (msg : NetCmd) (i : Slot) :
    sendPresent clients u msg i
      = if u.udataGetByFd (clients i).fd ≠ none then some (.send (clients i).fd msg) else none := by
  unfold sendPresent
  split
  · rename_i tud hget
    rw [(Udata.udataGetByFd_some hget).2.2, hget]
    simp
  · rename_i hget
    simp [hget]

/-- Handing out a message sends nothing else. -/
theorem mem_distribute {low : Int} {clients : Slot → Client} {u : Udata} {msg : NetCmd}
    {excl : Option Slot} {ef : Effect} (h : ef ∈ distribute low clients u msg excl) :
    ∃ fd, ef = .send fd msg := by
  obtain ⟨i, -, hi⟩ := List.mem_filterMap.mp h
  rw [sendPresent_eq] at hi
  split at hi
  · split at hi
    · exact ⟨_, (Option.some.inj hi).symm⟩
    · simp at hi
  · simp at hi

theorem quiet_dist {clients : Slot → Client} {u : Udata} {m : NetCmd} {excl : Option Slot}
    (h : m.op ∈ plainOps ∨ ∃ a, m = ⟨.cNick, [a, a]⟩) :
    ∀ ef ∈ lcsDistNcmd clients u m excl, Quiet x ef := by
  intro ef hef
  obtain ⟨fd, rfl⟩ := mem_distribute hef
  rcases h with h | h
  · exact Or.inl h
  · exact Or.inr (Or.inr h)

/-! ### The chat commands -/

theorem str0_eq (c : NetCmd) : (c.fetch .null 0).str = c.str0 := rfl

theorem nickOf_eq (u : Udata) (user : CString) {s : Seat CString} (h : u.room user = some s) :
    u.nickOf user = s.nick := by
  obtain ⟨e, he, hs⟩ := Option.map_eq_some_iff.mp h
  rw [Udata.nickOf, he, ← hs]
  rfl

theorem does_chatNick (hop : x.cmd.op = .cNick) (h : chatNick x = .ok o) : ∃ act, Does x o act := by
  unfold chatNick chatRename at h
  split at h
  · rename_i hargs
    obtain ⟨new, hnew⟩ : ∃ new, x.cmd.str0 = some new := by
      have hlen : 0 < x.cmd.args.length := hargs
      obtain ⟨a, ha⟩ : ∃ a, x.cmd.args[0]? = some a := ⟨_, List.getElem?_eq_getElem hlen⟩
      exact ⟨_, by rw [NetCmd.str0, NetCmd.fetch_some ha]; rfl⟩
    dsimp only at h
    rw [str0_eq, hnew] at h
    split at h
    · rename_i hfree
      split at h
      · simp at h
      · rename_i tud hs
        split at h
        · simp at h
        · rename_i ts hold
          have hmem := (Udata.udataGetByFd_some hs).1
          have hseat : x.udata.room tud.user = some tud.seat := Udata.room_of_mem hmem
          have hroom := @Udata.room_udataUpdate_nick _ _ _ x.env.alloc new
            (Udata.udataGet_of_mem hmem)
          rw [Except.ok.injEq] at h
          subst h
          by_cases hupd : x.env.alloc .updateNick = true
          · -- the new nick is stored
            rw [if_pos hupd] at hroom
            refine ⟨.rename tud.user new, .rename hs hop hnew ?_ hold retval_neg ?_, hroom⟩
            · exact Udata.udataGetByNick_free.mp hfree
            · have hnick := nickOf_eq _ tud.user
                (by rw [hroom, Room.modify_self, hseat, Option.map_some])
              simp only [Call.done, hnick]
              rfl
          · -- no memory for it: everybody is told the old nick twice
            rw [if_neg hupd] at hroom
            refine does_idle hroom retval_neg (quiet_dist (Or.inr ⟨ts.chars, ?_⟩))
            have hnick := nickOf_eq _ tud.user (by rw [hroom, hseat])
            rw [hnick, UdataEnt.seat_nick, hold]
            rfl
    · rw [Except.ok.injEq] at h
      subst h
      exact does_reply (Or.inr .nickInUse)
  · split at h
    · simp at h
    · rename_i tud hs
      rw [Except.ok.injEq] at h
      subst h
      exact does_reply (Or.inr (.ownNick hs))

theorem add_unless_null (t : Arg) (m : NetCmd) : ∃ more,
    (if t.ap ≠ .null then m.add t.bytes else m) = ⟨m.op, m.args ++ more⟩ := by
  split
  · exact ⟨[t.bytes], rfl⟩
  · exact ⟨[], by rw [List.append_nil]⟩

theorem room_toggleAway {u : Udata} {e : UdataEnt} (he : e ∈ u.ents) :
    (if e.has udcFlagAway then u.udataFlagunset e.user udcFlagAway
      else u.udataFlagset e.user udcFlagAway).room
      = u.room.modify e.user (·.mapFlags toggleAway) := by
  have hseat : u.room e.user = some e.seat := Udata.room_of_mem he
  rw [Room.modify_eq_set hseat, Seat.mapFlags_toggleAway, UdataEnt.seat_has]
  split
  · rw [Udata.room_udataFlagunset, Room.modify_eq_set hseat]
  · rw [Udata.room_udataFlagset, Room.modify_eq_set hseat]

theorem does_chatAway (hop : x.cmd.op = .cAway) : ∃ act, Does x (chatAway x) act := by
  unfold chatAway
  split
  · exact does_idle rfl retval_neg (by simp [Call.done])
  · rename_i tud hs
    have hroom := room_toggleAway (Udata.udataGetByFd_some hs).1
    obtain ⟨more, hmsg⟩ := add_unless_null (if 0 < x.cmd.getnumargs then x.cmd.fetch .null 0 else .null)
      (((NetCmd.set .cAway).add (if tud.has udcFlagAway then [0] else [1])).add (xstr tud.nick))
    refine ⟨.away tud.user, @Deed.away _ _ _ more hs hop retval_neg ?_, hroom⟩
    exact congrArg (fun m => lcsDistNcmd x.clients _ m none) hmsg

theorem does_chatBeep : ∃ act, Does x (chatBeep x) act := by
  unfold chatBeep
  split
  · exact does_idle rfl retval_neg (quiet_dist (Or.inl (by decide)))
  · dsimp only
    split
    · refine does_idle rfl retval_neg ?_
      intro ef hef
      rw [List.mem_singleton.mp hef]
      exact Or.inl (by decide)
    · exact does_reply (Or.inl (by simp [plainOps]))

theorem does_chatOper (hop : x.cmd.op = .cOper) : ∃ act, Does x (chatOper x) act := by
  unfold chatOper
  split
  · dsimp only
    rw [str0_eq]
    split
    · exact does_idle rfl retval_neg (by simp [Call.done])
    · rename_i tud hs
      split
      · rename_i hpw
        exact ⟨.oper tud.user, .oper hs hop hpw retval_neg rfl, Udata.room_udataFlagset _ _ _⟩
      · refine does_idle rfl retval_neg ?_
        intro ef hef
        rw [List.mem_singleton.mp hef]
        exact quiet_reply (Or.inr .wrongPassword)
  · exact does_idle rfl retval_neg (by simp [Call.done])

theorem does_chatPsay : ∃ act, Does x (chatPsay x) act := by
  unfold chatPsay
  dsimp only
  split
  · refine does_idle rfl retval_neg ?_
    intro ef hef
    simp only [Call.done, List.mem_cons, List.not_mem_nil, or_false] at hef
    rcases hef with rfl | rfl
    · exact Or.inl (by simp [plainOps])
    · exact Or.inl (by simp [plainOps])
  · exact does_reply (Or.inl (by simp [plainOps]))

theorem does_chatSay (hop : x.cmd.op = .cSay ∨ x.cmd.op = .cMe) (h : chatSay x = .ok o) :
    ∃ act, Does x o act := by
  unfold chatSay at h
  dsimp only at h
  split at h
  · simp at h
  · rw [Except.ok.injEq] at h
    subst h
    refine does_idle rfl retval_neg (quiet_dist (Or.inl ?_))
    rcases hop with hop | hop <;> simp [NetCmd.get, hop, plainOps]

/-- The listing is a `C_WHO`, however long it gets. -/
theorem whoChat_op {infotype : Int} {msg msg' : NetCmd} {i : Slot}
    (h : whoChat x infotype msg i = .ok msg') : msg'.op = msg.op := by
  unfold whoChat at h
  split at h
  · rw [Except.ok.injEq] at h
    rw [h]
  · split at h
    · split at h
      · simp at h
      · rw [Except.ok.injEq] at h
        rw [← h]
        rfl
    · rw [Except.ok.injEq] at h
      rw [h]

theorem foldlM_whoChat_op {infotype : Int} (slots : List Slot) :
    ∀ {msg msg' : NetCmd}, slots.foldlM (whoChat x infotype) msg = .ok msg' → msg'.op = msg.op := by
  induction slots with
  | nil =>
      intro msg msg' h
      simp only [List.foldlM_nil, pure, Except.pure, Except.ok.injEq] at h
      rw [h]
  | cons i slots ih =>
      intro msg msg' h
      simp only [List.foldlM_cons, bind, Except.bind] at h
      split at h
      · simp at h
      · rename_i msg₁ hi
        rw [ih h, whoChat_op hi]

theorem foldl_whoSys_op (x : Call) (infotype : Int) (ul : List UserlistEnt) :
    ∀ msg : NetCmd, (ul.foldl (whoSys x infotype) msg).op = msg.op := by
  induction ul with
  | nil => intro msg; rfl
  | cons l ul ih =>
      intro msg
      rw [List.foldl_cons, ih]
      rfl

theorem does_chatWho (h : chatWho x = .ok o) : ∃ act, Does x o act := by
  unfold chatWho whoLists at h
  dsimp only at h
  split at h
  · simp at h
  · rename_i msg hchat
    rw [Except.ok.injEq] at h
    subst h
    have hop : msg.op = .cWho := by
      split at hchat
      · rw [foldlM_whoChat_op _ hchat]
        cases whoByte x <;> rfl
      · rw [Except.ok.injEq] at hchat
        rw [← hchat]
        cases whoByte x <;> rfl
    have hop' : ∀ m : NetCmd, m.op = .cWho → Quiet x (x.reply m) :=
      fun m hm => Or.inl (by rw [hm]; decide)
    refine does_idle rfl retval_neg ?_
    intro ef hef
    rcases List.mem_append.mp hef with hef | hef
    · split at hef
      · rw [List.mem_singleton.mp hef]
        exact trivial
      · simp at hef
    · rw [List.mem_singleton.mp hef]
      refine hop' _ ?_
      split
      · split
        · exact hop
        · rw [foldl_whoSys_op, hop]
      · exact hop

theorem modeFlags_room {op : NCMDOp} {u : Udata} {user : CString} {act : Act CString CString}
    (hact : modeAct op user = some act) (hkick : ¬ (op = .cBan ∨ op = .cKick)) (fd : Int) :
    (modeFlags op u user).room = act.apply fd u.room := by
  cases op <;> simp [modeAct] at hact <;> subst hact
  · simp at hkick
  · exact Udata.room_udataFlagunset _ _ _
  · simp at hkick
  · exact Udata.room_udataFlagset _ _ _
  · exact Udata.room_udataFlagunset _ _ _

theorem removed_room {op : NCMDOp} {alloc : Alloc} {u : Udata} {user : CString}
    {act : Act CString CString} (hact : modeAct op user = some act)
    (hkick : op = .cBan ∨ op = .cKick) (hseat : u.room user ≠ none) (fd : Int) :
    (removeFromChat alloc (modeFlags op u user) user).room = act.apply fd u.room := by
  rcases hkick with rfl | rfl
  · obtain rfl := Option.some.inj hact
    have hset := Udata.room_udataFlagset u user udcFlagBanned
    rw [Udata.room_removeFromChat, modeFlags, hset, Room.modify_modify]
    · rfl
    · rw [modeFlags, hset, Room.modify_self]
      simpa using hseat
  · obtain rfl := Option.some.inj hact
    exact Udata.room_removeFromChat alloc u hseat

theorem str0_some {c : NetCmd} {str : CString} (h : c.str0 = some str) : 0 < c.getnumargs := by
  by_contra hc
  have hnone : c.args[0]? = none := List.getElem?_eq_none (by simpa [NetCmd.getnumargs] using hc)
  rw [NetCmd.str0, NetCmd.fetch_none hnone] at h
  simp at h

/-- A command of an operator that names somebody in chat. -/
theorem does_mode {e t : UdataEnt} (hop : x.cmd.op ∈ modeOps) (hs : x.Sender e)
    (hoper : e.has udcFlagOperator = true) (ht : x.Target t) (h : chatMode x = .ok o) :
    ∃ act, modeAct x.cmd.op t.user = some act ∧ Does x o act := by
  obtain ⟨act, hact⟩ : ∃ act, modeAct x.cmd.op t.user = some act := by
    simp only [modeOps, List.mem_cons, List.not_mem_nil, or_false] at hop
    rcases hop with hop | hop | hop | hop | hop <;> rw [hop] <;> exact ⟨_, rfl⟩
  have hseat : x.udata.room t.user ≠ none := by
    rw [Udata.room_of_mem (Udata.udataGetByNick_some ht).1]
    simp
  have hargs : 0 < x.cmd.getnumargs := by
    cases hstr : x.cmd.str0 with
    | none =>
        rw [Call.Target, hstr] at ht
        simp [Udata.udataGetByNick] at ht
    | some str => exact str0_some hstr
  have hs' : x.udata.udataGetByFd x.fd = some e := hs
  have ht' : x.udata.udataGetByNick (x.cmd.fetch .null 0).str = some t := ht
  refine ⟨act, hact, ?_⟩
  simp only [chatMode, modeOn, hs', hargs, hoper, decide_true, Bool.and_self, if_true, ht'] at h
  split at h
  · simp at h
  · rename_i tnick hnick
    split at h
    · rename_i hkick
      rw [Except.ok.injEq] at h
      subst h
      refine ⟨.mode hs hoper hnick ht hact ?_ rfl, removed_room hact hkick hseat _⟩
      exact (if_pos hkick).symm
    · rename_i hkick
      rw [Except.ok.injEq] at h
      subst h
      refine ⟨.mode hs hoper hnick ht hact ?_ rfl, modeFlags_room hact hkick _⟩
      exact (if_neg hkick).symm

theorem does_chatMode (hop : x.cmd.op ∈ modeOps) (h : chatMode x = .ok o) :
    ∃ act, Does x o act := by
  have hmode := h
  unfold chatMode modeOn at h
  dsimp only at h
  split at h
  · rw [Except.ok.injEq] at h
    subst h
    exact does_reply (Or.inr (.notOperator hop))
  · rename_i e hs
    split at h
    · rename_i hguard
      simp only [Bool.and_eq_true, decide_eq_true_eq] at hguard
      split at h
      · simp at h
      · rw [str0_eq] at h
        split at h
        · rw [Except.ok.injEq] at h
          subst h
          exact does_reply (Or.inr (.absent hop _))
        · rename_i t ht
          obtain ⟨act, -, hdoes⟩ := does_mode hop hs hguard.2 ht hmode
          exact ⟨act, hdoes⟩
    · rw [Except.ok.injEq] at h
      subst h
      exact does_reply (Or.inr (.notOperator hop))

theorem does_handleChatcmd (h : handleChatcmd x = .ok o) : ∃ act, Does x o act := by
  unfold handleChatcmd at h
  split at h
  · rename_i hop
    exact does_chatNick hop h
  · rename_i hop
    rw [Except.ok.injEq] at h
    exact h ▸ does_chatAway hop
  · rw [Except.ok.injEq] at h
    exact h ▸ does_chatBeep
  · rename_i hop
    rw [Except.ok.injEq] at h
    exact h ▸ does_chatOper hop
  · rw [Except.ok.injEq] at h
    exact h ▸ does_chatPsay
  · rename_i hop
    exact does_chatSay (Or.inl hop) h
  · rename_i hop
    exact does_chatSay (Or.inr hop) h
  · exact does_chatWho h
  · rename_i hop
    exact does_chatMode (by rw [show x.cmd.op = _ from hop]; decide) h
  · rename_i hop
    exact does_chatMode (by rw [show x.cmd.op = _ from hop]; decide) h
  · rename_i hop
    exact does_chatMode (by rw [show x.cmd.op = _ from hop]; decide) h
  · rename_i hop
    exact does_chatMode (by rw [show x.cmd.op = _ from hop]; decide) h
  · rename_i hop
    exact does_chatMode (by rw [show x.cmd.op = _ from hop]; decide) h
  · rw [Except.ok.injEq] at h
    subst h
    exact does_idle rfl retval_neg (by simp [Call.done])

end Smsg
