/-
What one command sends, and to whom.

`Post` goes through the cases of the handlers once more, for what a deed leaves open: the
messages themselves.  A command is answered on its own connection, or everybody in chat
gets one message, or the one it names does.  There are few forms that such messages have
(`Answer`, `News`), and what a client can do with them is seen from the form.
-/
import Smsg.Proofs.Delivery

namespace Smsg

variable {x : Call} {o : Outcome}

/-! ### Messages -/

/-- The messages among the effects, each with the connection it is sent to. -/
def posts (effects : List Effect) : List (Int × NetCmd) :=
  effects.filterMap fun
    | .send fd m => some (fd, m)
    | _ => none

@[simp] theorem posts_nil : posts [] = [] := rfl

@[simp] theorem posts_append (l₁ l₂ : List Effect) : posts (l₁ ++ l₂) = posts l₁ ++ posts l₂ :=
  List.filterMap_append

@[simp] theorem posts_send (fd : Int) (m : NetCmd) (l : List Effect) :
    posts (.send fd m :: l) = (fd, m) :: posts l := rfl

theorem mem_posts {effects : List Effect} {fd : Int} {m : NetCmd} :
    (fd, m) ∈ posts effects ↔ .send fd m ∈ effects := by
  rw [posts, List.mem_filterMap]
  constructor
  · intro h
    obtain ⟨ef, hef, hm⟩ := h
    cases ef with
    | send fd' m' =>
        obtain ⟨rfl, rfl⟩ := Prod.mk.inj (Option.some.inj hm)
        exact hef
    | _ => simp at hm
  · intro h
    exact ⟨_, h, rfl⟩

/-- The descriptors that are closed. -/
def closes (effects : List Effect) : List Int :=
  effects.filterMap fun
    | .close fd => some fd
    | _ => none

@[simp] theorem closes_append (l₁ l₂ : List Effect) : closes (l₁ ++ l₂) = closes l₁ ++ closes l₂ :=
  List.filterMap_append

theorem closes_distribute (low : Int) (clients : Slot → Client) (u : Udata) (msg : NetCmd)
    (excl : Option Slot) : closes (distribute low clients u msg excl) = [] := by
  refine List.filterMap_eq_nil_iff.mpr fun ef hef => ?_
  obtain ⟨fd, rfl⟩ := mem_distribute hef
  rfl

/-- What is sent to one connection. -/
theorem sentTo_eq_posts (fd : Int) (effects : List Effect) :
    sentTo fd effects = ((posts effects).filter fun p => p.1 == fd).map (·.2) := by
  induction effects with
  | nil => rfl
  | cons ef effects ih =>
      cases ef with
      | send fd' m =>
          have hsent : sentTo fd (.send fd' m :: effects)
              = (if fd' = fd then [m] else []) ++ sentTo fd effects := by
            by_cases h : fd' = fd <;> simp [sentTo, h]
          rw [hsent, ih, posts_send]
          by_cases h : fd' = fd <;> simp [h]
      | _ => exact ih

theorem posts_kickEffects (s : Server) (r : Int) : posts (s.kickEffects r) = [] := by
  unfold Server.kickEffects
  split <;> rfl

theorem posts_settle (s : Server) (o : Outcome) : posts (s.settle o).2 = posts o.effects := by
  rw [Server.settle, posts_append, posts_kickEffects, List.append_nil]

/-- The codes that a command is answered with. -/
def replyOps : NCMDOp → List NCMDOp
  | .msg | .setpref | .chatdoor => [.ack, .nak]
  | .getqmsg => [.qmsg, .nak]
  | .getlist => [.list, .nak]
  | .getpref => [.pref, .nak]
  | op => [op]

/-- The codes of requests. -/
def requestOps : List NCMDOp := [.msg, .getqmsg, .getlist, .setpref, .getpref, .chatdoor]

/-- The forms of an answer. -/
inductive Answer : NetCmd → Prop
  | request {m : NetCmd} (hop : m.op ∈ [.ack, .nak, .qmsg, .list, .pref]) : Answer m
  | refused {op : NCMDOp} (hop : op ∈ [.cNick, .cOper] ++ modeOps) : Answer (.set op)
  | named {op : NCMDOp} (hop : op ∈ [.cNick, .cBeep, .cPsay] ++ modeOps) (a : Bytes) :
      Answer ⟨op, [a]⟩
  | listing (args : List Bytes) : Answer ⟨.cWho, args⟩

/-- The forms of what everybody in chat is told. -/
inductive News : NetCmd → Prop
  | spoken {op : NCMDOp} (hop : op = .cSay ∨ op = .cMe) (name msg : Bytes) : News ⟨op, [name, msg]⟩
  | away (on : Bool) (nick : Bytes) {more : List Bytes} (hmore : more.length ≤ 1) :
      News ⟨.cAway, (if on then [1] else [0]) :: nick :: more⟩
  | renamed (new old : Bytes) : News ⟨.cNick, [new, old]⟩
  | opered (nick : Bytes) : News ⟨.cOper, [nick]⟩
  | mode {op : NCMDOp} (hop : op ∈ modeOps) (nick oper : Bytes) : News ⟨op, [nick, oper]⟩
  | door (dir : UInt8) (nick : Bytes) (more : List Bytes) : News ⟨.cDoor, [dir] :: nick :: more⟩

/-- What a handled command sends. -/
inductive Post (x : Call) (o : Outcome) : Prop
  | silent (hop : x.cmd.op ∉ requestOps) (h : posts o.effects = [])
      (hopen : closes o.effects = [])
  | answer {m : NetCmd} (hop : m.op ∈ replyOps x.cmd.op) (hm : Answer m)
      (h : posts o.effects = [(x.fd, m)]) (hopen : closes o.effects = [])
  | told {m : NetCmd} (hop : m.op = x.cmd.op) (hm : News m)
      (h : o.effects = lcsDistNcmd x.clients o.udata m none)
  | door {m : NetCmd} {u : Udata} (hop : x.cmd.op = .chatdoor) (hdoor : m.op = .cDoor)
      (hm : News m) (hu : u = x.udata ∨ u = o.udata)
      (h : o.effects = distribute 1 x.clients u m (some x.cl) ++ [x.reply (.set .ack)])
  | beepAll (hop : x.cmd.op = .cBeep)
      (h : o.effects = lcsDistNcmd x.clients x.udata (.set .cBeep) (some x.cl))
  | beep {t : UdataEnt} (hop : x.cmd.op = .cBeep) (ht : x.Target t)
      (h : posts o.effects = [(t.fd, .set .cBeep)]) (hopen : closes o.effects = [])
  | psay {e t : UdataEnt} (hop : x.cmd.op = .cPsay) (hs : x.Sender e) (ht : x.Target t) (msg : Bytes)
      (h : posts o.effects = [(t.fd, ⟨.cPsay, [xstr e.nick, msg]⟩),
        (x.fd, ⟨.cPsay, [xstr e.nick, xstr t.nick, msg]⟩)])
      (hopen : closes o.effects = [])

/-! ### Requests -/

/-- The codes that requests are answered with. -/
def requestReplies : List NCMDOp := [.ack, .nak, .qmsg, .list, .pref]

/-- A request is answered, and what else happens sends nothing. -/
theorem post_past {op : NCMDOp} {u : Udata} {past : List Effect} {m : NetCmd} (r : NCMDOp)
    (hm : m.op = r) (hop : x.cmd.op = op) (hr : r ∈ replyOps op ∧ r ∈ requestReplies)
    (hpast : posts past = [] ∧ closes past = []) : Post x (x.done u (past ++ [x.reply m])) := by
  have hposts : posts (past ++ [x.reply m]) = [(x.fd, m)] := by
    rw [posts_append, hpast.1]
    rfl
  have hopen : closes (past ++ [x.reply m]) = [] := by
    rw [closes_append, hpast.2]
    rfl
  refine .answer ?_ (.request ?_) hposts hopen
  · rw [hm, hop]
    exact hr.1
  · rw [hm]
    exact hr.2

theorem post_request {op : NCMDOp} {u : Udata} {m : NetCmd} (r : NCMDOp) (hm : m.op = r)
    (hop : x.cmd.op = op) (hr : r ∈ replyOps op ∧ r ∈ requestReplies) :
    Post x (x.done u [x.reply m]) :=
  @post_past x op u [] m r hm hop hr ⟨rfl, rfl⟩

theorem post_nak {op : NCMDOp} {u : Udata} (hop : x.cmd.op = op)
    (hr : .nak ∈ replyOps op ∧ .nak ∈ requestReplies) (reason : Bytes) : Post x (x.nak u reason) :=
  post_request .nak rfl hop hr

theorem posts_ttyOverread (entry : Option UdataEnt) :
    posts (ttyOverread entry) = [] ∧ closes (ttyOverread entry) = [] := by
  unfold ttyOverread
  split
  · exact ⟨rfl, rfl⟩
  · split <;> exact ⟨rfl, rfl⟩

theorem post_msgWrite (hop : x.cmd.op = .msg) {u : Udata} {past : List Effect} {tbeep : Int8}
    {tty : CString} {sender msg : Option CString} (hpast : posts past = [] ∧ closes past = []) :
    Post x (msgWrite x u past tbeep tty sender msg) := by
  have hnak : ∀ effects : List Effect, posts effects = [] ∧ closes effects = [] →
      ∀ reason : Bytes,
      Post x (x.done u (past ++ effects ++ [x.reply ((NetCmd.set .nak).add reason)])) := by
    intro effects heff reason
    refine post_past .nak rfl hop (by decide) ?_
    rw [posts_append, closes_append, hpast.1, hpast.2, heff.1, heff.2]
    exact ⟨rfl, rfl⟩
  have hbeep : ∀ (p : Prop) [Decidable p],
      posts (if p then [Effect.print tty [7]] else []) = [] ∧
        closes (if p then [Effect.print tty [7]] else []) = [] := by
    intro p _
    split <;> exact ⟨rfl, rfl⟩
  unfold msgWrite
  dsimp only
  split
  · exact hnak [] ⟨rfl, rfl⟩ _
  · split
    · exact hnak _ ⟨rfl, rfl⟩ _
    · split
      · exact hnak _ ⟨rfl, rfl⟩ _
      · split
        · exact hnak _ ⟨rfl, rfl⟩ _
        · refine post_past .ack rfl hop (by decide) ?_
          rw [posts_append, posts_append, closes_append, closes_append, hpast.1, hpast.2,
            (hbeep _).1, (hbeep _).2]
          exact ⟨rfl, rfl⟩

theorem post_msgTty (hop : x.cmd.op = .msg) {user : CString} {sender msg : Option CString} :
    Post x (msgTty x user sender msg) := by
  have hpast := posts_ttyOverread (x.udata.udataGet (some user))
  have hnak : ∀ (u : Udata) (reason : Bytes), Post x (x.done u
      (ttyOverread (x.udata.udataGet (some user)) ++ [x.reply ((NetCmd.set .nak).add reason)])) :=
    fun u reason => post_past .nak rfl hop (by decide) hpast
  unfold msgTty
  dsimp only
  split
  · split
    · exact post_msgWrite hop hpast
    · exact hnak _ _
  · split
    · exact hnak _ _
    · split
      · exact post_msgWrite hop hpast
      · exact hnak _ _

theorem post_handleMsg (hop : x.cmd.op = .msg) : Post x (handleMsg x) := by
  have hnak : ∀ reason : Bytes, Post x (x.nak x.udata reason) := post_nak hop (by decide)
  unfold handleMsg msgFor
  dsimp only
  split
  · exact hnak _
  · split
    · exact hnak _
    · split
      · exact hnak _
      · split
        · exact hnak _
        · exact post_msgTty hop

theorem post_handleGetqmsg (hop : x.cmd.op = .getqmsg) (h : handleGetqmsg x = .ok o) :
    Post x o := by
  have hnak : ∀ (u : Udata) (reason : Bytes), Post x (x.nak u reason) :=
    fun u reason => post_nak hop (by decide) reason
  unfold handleGetqmsg getqmsg at h
  dsimp only at h
  split at h
  · exact Except.ok.inj h ▸ hnak _ _
  · split at h
    · simp at h
    · split at h
      · exact Except.ok.inj h ▸ hnak _ _
      · split at h
        · simp at h
        · exact Except.ok.inj h ▸ post_request .qmsg rfl hop (by decide)
        · split at h
          · simp at h
          · rw [← Except.ok.inj h]
            exact @post_past x _ _ [.overread] _ .nak rfl hop (by decide) ⟨rfl, rfl⟩
          · exact Except.ok.inj h ▸ post_request .qmsg rfl hop (by decide)

theorem post_handleGetlist (hop : x.cmd.op = .getlist) : Post x (handleGetlist x) := by
  unfold handleGetlist
  split
  · exact post_nak hop (by decide) _
  · have hlist : ∀ (f : NetCmd → UserlistEnt → NetCmd), (∀ m l, (f m l).op = m.op) →
        ∀ (ul : List UserlistEnt) (m : NetCmd), (ul.foldl f m).op = m.op := by
      intro f hf ul
      induction ul with
      | nil => intro m; rfl
      | cons l ul ih => intro m; rw [List.foldl_cons, ih, hf]
    refine post_request .list ?_ hop (by decide)
    refine (hlist _ ?_ _ _).trans rfl
    exact fun _ _ => rfl

/-- The update of `SETPREF` is answered. -/
theorem post_update (hop : x.cmd.op = .setpref) (arg : UdataArg) :
    Post x (if (x.udata.udataUpdate x.env.alloc arg).1 = -1 then
        match x.env.strerror with
        | some s => x.nak (x.udata.udataUpdate x.env.alloc arg).2 s.chars
        | none => x.nak (x.udata.udataUpdate x.env.alloc arg).2 errorWeirdSettty
      else x.done (x.udata.udataUpdate x.env.alloc arg).2 [x.reply (.set .ack)]) := by
  split
  · split
    · exact post_nak hop (by decide) _
    · exact post_nak hop (by decide) _
  · exact post_request .ack rfl hop (by decide)

theorem post_setpref (hop : x.cmd.op = .setpref) {targ0 : Arg} (h : setpref x targ0 = .ok o) :
    Post x o := by
  unfold setpref at h
  cases hget : x.cmd.getarg targ0 2 false with
  | none => simp [hget, bind, Except.bind] at h
  | some r =>
      simp only [hget, bind, Except.bind] at h
      split at h
      · simp at h
      · split at h
        · simp at h
        · rw [Except.ok.injEq] at h
          rw [← h]
          exact post_update hop _

theorem post_handleSetpref (hop : x.cmd.op = .setpref) (h : handleSetpref x = .ok o) :
    Post x o := by
  have hnak : ∀ reason : Bytes, Post x (x.nak x.udata reason) := post_nak hop (by decide)
  unfold handleSetpref at h
  dsimp only at h
  split at h
  · exact Except.ok.inj h ▸ hnak _
  · split at h
    · simp at h
    · split at h
      · exact Except.ok.inj h ▸ hnak _
      · split at h
        · exact Except.ok.inj h ▸ hnak _
        · exact post_setpref hop h

theorem post_handleGetpref (hop : x.cmd.op = .getpref) (h : handleGetpref x = .ok o) :
    Post x o := by
  have hnak : ∀ reason : Bytes, Post x (x.nak x.udata reason) := post_nak hop (by decide)
  unfold handleGetpref getpref at h
  dsimp only at h
  split at h
  · exact Except.ok.inj h ▸ hnak _
  · split at h
    · simp at h
    · split at h
      · exact Except.ok.inj h ▸ hnak _
      · split at h
        · exact Except.ok.inj h ▸ post_request .pref rfl hop (by decide)
        · exact Except.ok.inj h ▸ post_request .pref rfl hop (by decide)

/-! ### `CHATDOOR` -/

theorem news_doorMsg (dir : UInt8) (nick : Option CString) : News (doorMsg dir nick) :=
  .door dir (xstr nick) []

theorem post_handleChatdoor (hop : x.cmd.op = .chatdoor) (hfd : 0 ≤ x.fd) :
    Post x (handleChatdoor x) := by
  have hnak : ∀ (u : Udata) (reason : Bytes), Post x (x.nak u reason) :=
    fun u reason => post_nak hop (by decide) reason
  cases huser : x.cmd.doorUser with
  | none =>
      simp only [handleChatdoor, huser, Udata.udataGet]
      exact hnak _ _
  | some user =>
      rcases chatdoor_cases hop huser with ⟨s, hl⟩ | ⟨anick, hj⟩ | ⟨reason, hrefused⟩
      · cases (does_leave hl).1 with
        | leave _ _ heff => exact .door hop rfl (.door 0 _ _) (Or.inl rfl) heff
        | mode _ _ _ _ hact =>
            rename_i hact'
            rw [show x.cmd.op = .chatdoor from hop] at hact
            simp [modeAct] at hact
      · cases (does_join hj hfd).1 with
        | join _ _ _ heff => exact .door hop rfl (news_doorMsg _ _) (Or.inr rfl) heff
        | mode _ _ _ _ hact => exact absurd hact modeAct_ne_join
      · rw [hrefused]
        exact hnak _ _

/-! ### The chat commands -/

theorem post_chatNick (hop : x.cmd.op = .cNick) (h : chatNick x = .ok o) : Post x o := by
  have hreply : .cNick ∈ replyOps x.cmd.op := by
    rw [hop]
    decide
  unfold chatNick chatRename at h
  split at h
  · dsimp only at h
    split at h
    · split at h
      · simp at h
      · split at h
        · simp at h
        · exact Except.ok.inj h ▸ .told hop.symm (.renamed _ _) rfl
    · exact Except.ok.inj h ▸ .answer hreply (.refused (by decide)) rfl rfl
  · split at h
    · simp at h
    · exact Except.ok.inj h ▸ .answer hreply (.named (by decide) _) rfl rfl

theorem news_away (on : Bool) (nick : Bytes) (p : Prop) [Decidable p] (msg : Bytes) :
    News (if p then (((NetCmd.set .cAway).add (if on then [1] else [0])).add nick).add msg
      else ((NetCmd.set .cAway).add (if on then [1] else [0])).add nick) := by
  by_cases hp : p
  · rw [if_pos hp]
    exact @News.away on nick [msg] (le_refl 1)
  · rw [if_neg hp]
    exact @News.away on nick [] (Nat.zero_le 1)

theorem post_chatAway (hop : x.cmd.op = .cAway) : Post x (chatAway x) := by
  unfold chatAway
  split
  · refine .silent ?_ rfl rfl
    rw [hop]
    decide
  · rename_i tud hs
    have hbit : (if tud.has udcFlagAway then [0] else [1] : Bytes)
        = if !tud.has udcFlagAway then [1] else [0] := by
      cases tud.has udcFlagAway <;> rfl
    dsimp only
    rw [hbit]
    refine .told ?_ (news_away _ _ _ _) rfl
    rw [hop, apply_ite NetCmd.op]
    exact ite_self _

theorem post_chatBeep (hop : x.cmd.op = .cBeep) : Post x (chatBeep x) := by
  unfold chatBeep
  split
  · exact .beepAll hop rfl
  · dsimp only
    split
    · rename_i tud ht
      exact .beep hop ht rfl rfl
    · have hreply : .cBeep ∈ replyOps x.cmd.op := by
        rw [hop]
        decide
      exact .answer hreply (.named (by decide) _) rfl rfl

theorem post_chatOper (hop : x.cmd.op = .cOper) : Post x (chatOper x) := by
  have hother : x.cmd.op ∉ requestOps := by
    rw [hop]
    decide
  unfold chatOper
  split
  · dsimp only
    split
    · exact .silent hother rfl rfl
    · split
      · exact .told hop.symm (.opered _) rfl
      · refine .answer ?_ (.refused (by decide)) rfl rfl
        rw [hop]
        decide
  · exact .silent hother rfl rfl

theorem post_chatPsay (hop : x.cmd.op = .cPsay) : Post x (chatPsay x) := by
  unfold chatPsay
  dsimp only
  split
  · rename_i e t hs ht
    exact .psay hop hs ht _ rfl rfl
  · have hreply : .cPsay ∈ replyOps x.cmd.op := by
      rw [hop]
      decide
    exact .answer hreply (.named (by decide) _) rfl rfl

theorem post_chatSay (hop : x.cmd.op = .cSay ∨ x.cmd.op = .cMe) (h : chatSay x = .ok o) :
    Post x o := by
  unfold chatSay at h
  dsimp only at h
  split at h
  · simp at h
  · rw [← Except.ok.inj h]
    refine .told ?_ (.spoken hop _ _) rfl
    rfl

/-- A listing is one answer. -/
theorem posts_chatWho (h : chatWho x = .ok o) :
    (∃ args, posts o.effects = [(x.fd, ⟨.cWho, args⟩)]) ∧ closes o.effects = [] := by
  unfold chatWho whoLists at h
  dsimp only at h
  split at h
  · simp at h
  · rename_i msg hchat
    have hop : msg.op = .cWho := by
      split at hchat
      · rw [foldlM_whoChat_op _ hchat]
        cases whoByte x <;> rfl
      · rw [← Except.ok.inj hchat]
        cases whoByte x <;> rfl
    have hanswer : ∀ (past : List Effect) (m : NetCmd), posts past = [] ∧ closes past = [] →
        m.op = .cWho → (∃ args, posts (past ++ [x.reply m]) = [(x.fd, ⟨.cWho, args⟩)]) ∧
          closes (past ++ [x.reply m]) = [] := by
      intro past m hpast hm
      obtain ⟨op, args⟩ := m
      obtain rfl : op = .cWho := hm
      exact ⟨⟨args, by rw [posts_append, hpast.1]; rfl⟩, by rw [closes_append, hpast.2]; rfl⟩
    have hpast : posts (if x.cmd.args[0]? = some [] then [Effect.overread] else []) = [] ∧
        closes (if x.cmd.args[0]? = some [] then [Effect.overread] else []) = [] := by
      split <;> exact ⟨rfl, rfl⟩
    rw [← Except.ok.inj h]
    refine hanswer _ _ hpast ?_
    split
    · split
      · exact hop
      · rw [foldl_whoSys_op, hop]
    · exact hop

theorem post_chatWho (hop : x.cmd.op = .cWho) (h : chatWho x = .ok o) : Post x o := by
  obtain ⟨⟨args, hposts⟩, hopen⟩ := posts_chatWho h
  have hreply : .cWho ∈ replyOps x.cmd.op := by
    rw [hop]
    decide
  exact .answer hreply (.listing args) hposts hopen

theorem post_chatMode (hop : x.cmd.op ∈ modeOps) (h : chatMode x = .ok o) : Post x o := by
  have hreply : x.cmd.op ∈ replyOps x.cmd.op := by
    have hall : ∀ op ∈ modeOps, op ∈ replyOps op := by decide
    exact hall _ hop
  have hrefused : x.cmd.op ∈ [.cNick, .cOper] ++ modeOps := List.mem_append_right _ hop
  have hnamed : x.cmd.op ∈ [.cNick, .cBeep, .cPsay] ++ modeOps := List.mem_append_right _ hop
  unfold chatMode modeOn at h
  dsimp only at h
  split at h
  · rw [← Except.ok.inj h]
    refine .answer ?_ (.refused hrefused) rfl rfl
    exact hreply
  · split at h
    · split at h
      · simp at h
      · split at h
        · rw [← Except.ok.inj h]
          refine .answer ?_ (.named hnamed _) rfl rfl
          exact hreply
        · split at h
          · rw [← Except.ok.inj h]
            refine .told ?_ (.mode hop _ _) rfl
            rfl
          · rw [← Except.ok.inj h]
            refine .told ?_ (.mode hop _ _) rfl
            rfl
    · rw [← Except.ok.inj h]
      refine .answer ?_ (.refused hrefused) rfl rfl
      exact hreply

theorem post_handleChatcmd (hother : x.cmd.op ∉ requestOps) (h : handleChatcmd x = .ok o) :
    Post x o := by
  have hmode : ∀ op ∈ modeOps, x.cmd.get = op → chatMode x = .ok o → Post x o := by
    intro op hop hget hcall
    exact post_chatMode (by rw [show x.cmd.op = op from hget]; exact hop) hcall
  unfold handleChatcmd at h
  split at h
  · rename_i hop
    exact post_chatNick hop h
  · rename_i hop
    exact Except.ok.inj h ▸ post_chatAway hop
  · rename_i hop
    exact Except.ok.inj h ▸ post_chatBeep hop
  · rename_i hop
    exact Except.ok.inj h ▸ post_chatOper hop
  · rename_i hop
    exact Except.ok.inj h ▸ post_chatPsay hop
  · rename_i hop
    exact post_chatSay (Or.inl hop) h
  · rename_i hop
    exact post_chatSay (Or.inr hop) h
  · rename_i hop
    exact post_chatWho hop h
  · rename_i hop
    exact hmode _ (by decide) hop h
  · rename_i hop
    exact hmode _ (by decide) hop h
  · rename_i hop
    exact hmode _ (by decide) hop h
  · rename_i hop
    exact hmode _ (by decide) hop h
  · rename_i hop
    exact hmode _ (by decide) hop h
  · exact Except.ok.inj h ▸ .silent hother rfl rfl

/-- **What a command that is handled sends.** -/
theorem post_lsHandleNetcmd (hfd : 0 ≤ x.fd) (h : lsHandleNetcmd x = .ok o) : Post x o := by
  unfold lsHandleNetcmd at h
  split at h
  · rename_i hop
    exact Except.ok.inj h ▸ post_handleMsg hop
  · rename_i hop
    exact post_handleGetqmsg hop h
  · rename_i hop
    exact Except.ok.inj h ▸ post_handleGetlist hop
  · rename_i hop
    exact post_handleSetpref hop h
  · rename_i hop
    exact post_handleGetpref hop h
  · rename_i hop
    exact Except.ok.inj h ▸ post_handleChatdoor hop hfd
  · rename_i hmsg hgetqmsg hgetlist hsetpref hgetpref hchatdoor
    have hother : x.cmd.op ∉ requestOps := by
      simp only [requestOps, List.mem_cons, List.not_mem_nil, or_false, not_or]
      exact ⟨hmsg, hgetqmsg, hgetlist, hsetpref, hgetpref, hchatdoor⟩
    split at h
    · split at h
      · exact post_handleChatcmd hother h
      · exact Except.ok.inj h ▸ .silent hother rfl rfl
    · exact Except.ok.inj h ▸ .silent hother rfl rfl

/-! ### Who does not hear it -/

theorem replyOps_who {op : NCMDOp} (h : .cWho ∈ replyOps op) : op = .cWho := by
  cases op <;> simp [replyOps] at h ⊢

theorem News.not_who {m : NetCmd} (h : News m) : m.op ≠ .cWho := by
  have hmodes : ∀ op ∈ modeOps, op ≠ .cWho := by decide
  cases h with
  | spoken hop => rcases hop with rfl | rfl <;> simp
  | mode hop => exact hmodes _ hop
  | _ => simp

/-- A list is sent to nobody but the one who has asked for it. -/
theorem Post.who (h : Post x o) {fd : Int} {m : NetCmd} (hm : .send fd m ∈ o.effects)
    (hop : m.op = .cWho) : fd = x.fd ∧ x.cmd.op = .cWho := by
  have hdist : ∀ {low : Int} {clients : Slot → Client} {u : Udata} {msg : NetCmd}
      {excl : Option Slot}, .send fd m ∈ distribute low clients u msg excl → m = msg := by
    intro low clients u msg excl hmem
    obtain ⟨fd', hsend⟩ := mem_distribute hmem
    exact (Effect.send.inj hsend).2
  have hposts := mem_posts.mpr hm
  cases h with
  | silent _ h =>
      rw [h] at hposts
      simp at hposts
  | answer hreply _ h =>
      rw [h, List.mem_singleton, Prod.mk.injEq] at hposts
      rw [← hposts.2, hop] at hreply
      exact ⟨hposts.1, replyOps_who hreply⟩
  | told _ hnews h =>
      rw [h] at hm
      rw [hdist hm] at hop
      exact absurd hop hnews.not_who
  | door _ hdoor hnews _ h =>
      rw [h, List.mem_append] at hm
      rcases hm with hm | hm
      · rw [hdist hm] at hop
        exact absurd hop hnews.not_who
      · obtain ⟨-, rfl⟩ := Effect.send.inj (List.mem_singleton.mp hm)
        cases hop
  | beepAll _ h =>
      rw [h] at hm
      rw [hdist hm] at hop
      cases hop
  | beep _ _ h =>
      rw [h, List.mem_singleton, Prod.mk.injEq] at hposts
      rw [hposts.2] at hop
      cases hop
  | psay _ _ _ _ h =>
      simp only [h, List.mem_cons, List.not_mem_nil, or_false, Prod.mk.injEq] at hposts
      rcases hposts with hpost | hpost
      · rw [hpost.2] at hop
        cases hop
      · rw [hpost.2] at hop
        cases hop

/-- Who is not in chat and does not ask for anything is sent nothing. -/
theorem Post.outside (h : Post x o) {fd : Int} (hne : fd ≠ x.fd)
    (hbefore : x.udata.udataGetByFd fd = none) (hafter : o.udata.udataGetByFd fd = none) :
    sentTo fd o.effects = [] := by
  have hack : ∀ m : NetCmd, sentTo fd [x.reply m] = [] := by
    intro m
    rw [Call.reply, sentTo_send, if_neg hne.symm]
  have hpost : ∀ l : List (Int × NetCmd), posts o.effects = l → (∀ p ∈ l, p.1 ≠ fd) →
      sentTo fd o.effects = [] := by
    intro l hl hno
    rw [sentTo_eq_posts, hl, List.map_eq_nil_iff, List.filter_eq_nil_iff]
    intro p hp
    simpa using hno p hp
  have htarget : ∀ {t : UdataEnt}, x.Target t → t.fd ≠ fd := by
    intro t ht hfd
    obtain ⟨hmem, -, -, -, hpres⟩ := Udata.udataGetByNick_some ht
    exact Udata.udataGetByFd_none hbefore t hmem hpres hfd
  cases h with
  | silent _ h => exact hpost [] h (by simp)
  | answer _ _ h => exact hpost _ h fun p hp => by rw [List.mem_singleton.mp hp]; exact hne.symm
  | told _ _ h =>
      rw [h]
      exact sentTo_distribute_none _ _ _ _ hafter
  | door _ _ _ hu h =>
      have hnone : ∀ {u : Udata}, u = x.udata ∨ u = o.udata → u.udataGetByFd fd = none := by
        intro u hu
        rcases hu with rfl | rfl
        · exact hbefore
        · exact hafter
      rw [h, sentTo_append, hack, sentTo_distribute_none _ _ _ _ (hnone hu), List.append_nil]
  | beepAll _ h =>
      rw [h]
      exact sentTo_distribute_none _ _ _ _ hbefore
  | beep _ ht h =>
      exact hpost _ h fun p hp => by rw [List.mem_singleton.mp hp]; exact htarget ht
  | psay _ _ ht _ h =>
      refine hpost _ h fun p hp => ?_
      rcases List.mem_cons.mp hp with rfl | hp
      · exact htarget ht
      · rw [List.mem_singleton.mp hp]
        exact hne.symm

/-- Who is not in chat and asks for something is answered, or not. -/
theorem Post.own (h : Post x o) (hbefore : x.udata.udataGetByFd x.fd = none)
    (hafter : o.udata.udataGetByFd x.fd = none) :
    sentTo x.fd o.effects = [] ∨
      ∃ m, sentTo x.fd o.effects = [m] ∧ Answer m ∧ m.op ∈ replyOps x.cmd.op := by
  have hone : ∀ m : NetCmd, sentTo x.fd [x.reply m] = [m] := by
    intro m
    rw [Call.reply, sentTo_send, if_pos rfl]
  cases h with
  | silent _ h =>
      left
      rw [sentTo_eq_posts, h]
      rfl
  | @answer m hop hm h =>
      refine Or.inr ⟨m, ?_, hm, hop⟩
      rw [sentTo_eq_posts, h]
      simp
  | told _ _ h =>
      left
      rw [h]
      exact sentTo_distribute_none _ _ _ _ hafter
  | @door m u hop _ _ hu h =>
      have hnone : u.udataGetByFd x.fd = none := by
        rcases hu with rfl | rfl
        · exact hbefore
        · exact hafter
      refine Or.inr ⟨.set .ack, ?_, .request (by decide), ?_⟩
      · rw [h, sentTo_append, hone, sentTo_distribute_none _ _ _ _ hnone, List.nil_append]
      · rw [hop]
        decide
  | beepAll _ h =>
      left
      rw [h]
      exact sentTo_distribute_none _ _ _ _ hbefore
  | @beep t _ ht h =>
      left
      have hne : t.fd ≠ x.fd := by
        intro hfd
        obtain ⟨hmem, -, -, -, hpres⟩ := Udata.udataGetByNick_some ht
        exact Udata.udataGetByFd_none hbefore t hmem hpres hfd
      rw [sentTo_eq_posts, h]
      simp [hne]
  | psay _ hs _ _ h =>
      rw [Call.Sender, hbefore] at hs
      simp at hs

end Smsg
