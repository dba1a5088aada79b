/-
Which listing a `C_WHO` is answered with.

Two functions decide.  `ls_handle_netcmd` lets a magic word through from anywhere, but
only if it is the one argument there is, and `handle_chatcmd` takes the first byte of the
first argument for a type if it is below 3 as a signed `char`, which all bytes from 128 on
are.  `who_right_iff` says for which calls the listing is the one of the protocol.
-/
import Smsg.Proofs.Who

namespace Smsg

open Machines

/-! ### What is asked for -/

/-- The listings that there are. -/
inductive WhoKind
  | chat | sys | both
deriving DecidableEq

/-- The first argument is the magic word. -/
def NetCmd.magicFirst (c : NetCmd) : Bool := c.str0 == some magicWhoArg

/-- What the protocol has the arguments ask for. -/
def NetCmd.whoKind (c : NetCmd) : WhoKind :=
  if c.magicFirst then .chat
  else
    match c.args.head?.bind List.head? with
    | some 1 => .sys
    | some 2 => .both
    | _ => .chat

variable {x : Call}

/-- Those in chat whom the slots lead to. -/
def Call.goers (x : Call) : List (UdataEnt × Slot) :=
  (List.finRange maxClients).filterMap (whoAt x.clients x.udata)

/-- The pairs for those in chat. -/
def Call.chatList (x : Call) (tag : Bytes) : List Bytes :=
  x.goers.flatMap (whoPairAs tag x.clients)

/-- The pairs for the users of the system. -/
def Call.sysList (x : Call) (infotype : Int) : List Bytes :=
  match getUserlist x.env.userlist none with
  | none => []
  | some ul => (ul.takeWhile fun l => l.count != 0).flatMap fun l => (whoSys x infotype (.set .cWho) l).args

/-- The arguments of a listing. -/
def Call.listing (x : Call) : WhoKind → List Bytes
  | .chat => x.chatList []
  | .sys => x.sysList 1
  | .both => x.chatList (text "[c]") ++ x.sysList 2

/-- The client is sent this listing; the first argument of the request comes back in front. -/
def Call.AnswersWho (x : Call) (kind : WhoKind) : Prop :=
  ∃ o m, lsHandleNetcmd x = .ok o ∧ sentTo x.fd o.effects = [m] ∧ m.op = .cWho ∧
    m.args.drop (min x.cmd.args.length 1) = x.listing kind

/-- The request is answered as the protocol has it. -/
def Call.WhoRight (x : Call) : Prop :=
  x.cmd.magicFirst ∨ x.inChat → x.AnswersWho x.cmd.whoKind

/-- The ways in which it is not. -/
inductive Call.WhoMisled (x : Call) : Prop
  | gate (hmagic : x.cmd.magicFirst) (hmore : x.cmd.args.length ≠ 1) (hin : x.inChat = false)
  | signed (hin : x.inChat) {b : UInt8} (hb : whoByte x = some b) (h : 128 ≤ b)
  | beyond (hin : x.inChat) (hempty : x.cmd.args.head? = some []) {b : UInt8}
      (hb : whoByte x = some b) (h : b = 1 ∨ b = 2)
  | nameless (hask : x.cmd.magicFirst ∨ x.inChat) (hkind : x.cmd.whoKind ≠ .sys)
      {p : UdataEnt × Slot} (hp : p ∈ x.goers) (hnick : p.1.nick = none)

/-! ### The type of listing -/

/-- What the handler makes of the byte. -/
theorem whoType_byte {b : UInt8} (h : whoByte x = some b) :
    (b = 1 ∧ whoType x = 1) ∨ (b = 2 ∧ whoType x = 2) ∨
      (b ≠ 1 ∧ b ≠ 2 ∧ b < 128 ∧ whoType x = 0) ∨ (128 ≤ b ∧ whoType x < 0) := by
  have hall : ∀ n : Fin 256,
      let b := UInt8.ofNat n.val
      let t := if b.toInt8 < 3 then b.toInt8.toInt else 0
      (b = 1 ∧ t = 1) ∨ (b = 2 ∧ t = 2) ∨ (b ≠ 1 ∧ b ≠ 2 ∧ b < 128 ∧ t = 0) ∨
        (128 ≤ b ∧ t < 0) := by
    decide +kernel
  have hb := hall ⟨b.toNat, b.toNat_lt⟩
  simp only [UInt8.ofNat_toNat] at hb
  simpa only [whoType, h] using hb

theorem whoType_none (h : whoByte x = none) : whoType x = 0 := by rw [whoType, h]

/-- What the handler lists for a type. -/
def Call.listed (x : Call) (infotype : Int) : List Bytes :=
  (if infotype = 0 ∨ infotype = 2 then x.chatList (whoTag infotype) else []) ++
    (if infotype = 1 ∨ infotype = 2 then x.sysList infotype else [])

theorem listed_zero : x.listed 0 = x.listing .chat := List.append_nil _

theorem listed_one : x.listed 1 = x.listing .sys := rfl

theorem listed_two : x.listed 2 = x.listing .both := rfl

theorem listed_neg {t : Int} (h : t < 0) : x.listed t = [] := by
  rw [Call.listed, if_neg (by omega), if_neg (by omega)]
  rfl

/-! ### What the handler sends -/

theorem whoSys_args (infotype : Int) (msg : NetCmd) (l : UserlistEnt) :
    whoSys x infotype msg l = ⟨msg.op, msg.args ++ (whoSys x infotype (.set .cWho) l).args⟩ := by
  simp [whoSys, NetCmd.add]

theorem foldl_whoSys (infotype : Int) (ul : List UserlistEnt) : ∀ msg : NetCmd,
    ul.foldl (whoSys x infotype) msg = ⟨msg.op,
      msg.args ++ ul.flatMap fun l => (whoSys x infotype (.set .cWho) l).args⟩ := by
  induction ul with
  | nil =>
      intro msg
      simp
  | cons l ul ih =>
      intro msg
      rw [List.foldl_cons, ih, whoSys_args infotype msg l, List.flatMap_cons, List.append_assoc]

/-- The byte that comes back in front. -/
def Call.echo (x : Call) : List Bytes := (whoByte x).toList.map fun b => [b]

theorem length_echo : x.echo.length = min x.cmd.args.length 1 := by
  unfold Call.echo whoByte
  cases x.cmd.args with
  | nil => rfl
  | cons a rest => simp

/-- The command that the pairs are added to. -/
def Call.whoStart (x : Call) : NetCmd := ⟨.cWho, x.echo⟩

/-- What is read behind an empty argument. -/
def Call.whoPast (x : Call) : List Effect :=
  if x.cmd.args[0]? = some [] then [.overread] else []

/-- The handler, by its two loops. -/
theorem chatWho_eq : chatWho x =
    match (if whoType x = 0 ∨ whoType x = 2 then
        (List.finRange maxClients).foldlM (whoChat x (whoType x)) x.whoStart
      else .ok x.whoStart) with
    | .error f => .error f
    | .ok msg => .ok (x.done x.udata (x.whoPast ++ [x.reply ⟨msg.op, msg.args ++
        if whoType x = 1 ∨ whoType x = 2 then x.sysList (whoType x) else []⟩])) := by
  have hstart : chatWho x =
      match (if whoType x = 0 ∨ whoType x = 2 then
          (List.finRange maxClients).foldlM (whoChat x (whoType x)) x.whoStart
        else .ok x.whoStart) with
      | .error f => .error f
      | .ok msg => .ok (x.done x.udata (x.whoPast ++ [x.reply (
          if whoType x = 1 ∨ whoType x = 2 then
            match getUserlist x.env.userlist none with
            | none => msg
            | some ul =>
                (ul.takeWhile fun l : UserlistEnt => l.count != 0).foldl (whoSys x (whoType x)) msg
          else msg)])) := by
    unfold chatWho whoLists Call.whoStart Call.echo
    cases whoByte x <;> rfl
  rw [hstart]
  split
  · rfl
  · rename_i msg _
    congr 5
    unfold Call.sysList
    split
    · cases getUserlist x.env.userlist none with
      | none => simp
      | some ul => exact foldl_whoSys _ _ msg
    · simp

/-- **The answer of `C_WHO`.** -/
theorem chatWho_listed (h : ¬ ((whoType x = 0 ∨ whoType x = 2) ∧ ∃ p ∈ x.goers, p.1.nick = none)) :
    chatWho x = .ok (x.done x.udata
      (x.whoPast ++ [x.reply ⟨.cWho, x.echo ++ x.listed (whoType x)⟩])) := by
  rw [chatWho_eq]
  by_cases hchat : whoType x = 0 ∨ whoType x = 2
  · have hnick : ∀ p ∈ x.goers, p.1.nick ≠ none := fun p hp hn => h ⟨hchat, p, hp, hn⟩
    have hloop := foldlM_whoChat (whoType x) (List.finRange maxClients) hnick x.whoStart
    rw [if_pos hchat, hloop, Call.listed, if_pos hchat, ← List.append_assoc]
    rfl
  · rw [if_neg hchat, Call.listed, if_neg hchat, List.nil_append]
    rfl

theorem chatWho_fault (htype : whoType x = 0 ∨ whoType x = 2)
    (hnick : ∃ p ∈ x.goers, p.1.nick = none) : ∃ f, chatWho x = .error f := by
  obtain ⟨f, hf⟩ := foldlM_whoChat_fault (whoType x) (List.finRange maxClients) hnick x.whoStart
  exact ⟨f, by rw [chatWho_eq, if_pos htype, hf]⟩

/-! ### Which listing it is -/

/-- The type that stands for a listing. -/
def WhoKind.type : WhoKind → Int
  | .chat => 0
  | .sys => 1
  | .both => 2

theorem listed_type (kind : WhoKind) : x.listed kind.type = x.listing kind := by
  cases kind
  · exact listed_zero
  · exact listed_one
  · exact listed_two

/-- The first byte of the magic word. -/
theorem magicFirst_args {c : NetCmd} (h : c.magicFirst) : ∃ a rest, c.args = (38 :: a) :: rest := by
  have hstr : c.str0 = some magicWhoArg := by simpa [NetCmd.magicFirst] using h
  cases hargs : c.args with
  | nil => rw [NetCmd.str0, NetCmd.fetch_none (by rw [hargs]; rfl)] at hstr; simp at hstr
  | cons a rest =>
      rw [NetCmd.str0, NetCmd.fetch_some (show c.args[0]? = some a by rw [hargs]; rfl)] at hstr
      have hchars := congrArg CString.chars (Option.some.inj hstr)
      cases a with
      | nil => simp [cstr, magicWhoArg, text] at hchars
      | cons b a =>
          have hb : b = 38 := by
            by_cases hb : b = 0
            · simp [cstr, hb, magicWhoArg, text] at hchars
            · have hhead := congrArg List.head? hchars
              simpa [cstr, hb, magicWhoArg, text] using hhead
          exact ⟨a, rest, by rw [hb]⟩

/-- The types agree, or the handler goes by a byte that asks for nothing. -/
theorem whoType_cases : whoType x = x.cmd.whoKind.type ∨
    (x.cmd.whoKind = .chat ∧ whoType x ≠ 0 ∧ x.cmd.magicFirst = false ∧
      ∃ b, whoByte x = some b ∧ (128 ≤ b ∨ (x.cmd.args.head? = some [] ∧ (b = 1 ∨ b = 2)))) := by
  by_cases hmagic : x.cmd.magicFirst
  · obtain ⟨a, rest, hargs⟩ := magicFirst_args hmagic
    have hbyte : whoByte x = some 38 := by rw [whoByte, hargs]; rfl
    left
    rw [whoType, hbyte, NetCmd.whoKind, if_pos hmagic]
    rfl
  · have hkind : x.cmd.whoKind = match x.cmd.args.head?.bind List.head? with
        | some 1 => .sys
        | some 2 => .both
        | _ => .chat := if_neg hmagic
    have hplain : x.cmd.magicFirst = false := by simpa using hmagic
    rcases hargs : x.cmd.args with _ | ⟨_ | ⟨b, a⟩, rest⟩
    · left
      rw [whoType_none (by rw [whoByte, hargs]; rfl), hkind, hargs]
      rfl
    · have hchat : x.cmd.whoKind = .chat := by rw [hkind, hargs]; rfl
      have hbyte : whoByte x = some (x.env.beyond.headD 0) := by rw [whoByte, hargs]; rfl
      rw [hchat]
      rcases whoType_byte hbyte with ⟨hb, ht⟩ | ⟨hb, ht⟩ | ⟨-, -, -, ht⟩ | ⟨hb, ht⟩
      · exact .inr ⟨rfl, by omega, hplain, _, hbyte, .inr ⟨rfl, .inl hb⟩⟩
      · exact .inr ⟨rfl, by omega, hplain, _, hbyte, .inr ⟨rfl, .inr hb⟩⟩
      · exact .inl ht
      · exact .inr ⟨rfl, by omega, hplain, _, hbyte, .inl hb⟩
    · have hbyte : whoByte x = some b := by rw [whoByte, hargs]; rfl
      have hkindb : x.cmd.whoKind = match some b with
          | some 1 => .sys
          | some 2 => .both
          | _ => .chat := by rw [hkind, hargs]; rfl
      rcases whoType_byte hbyte with ⟨rfl, ht⟩ | ⟨rfl, ht⟩ | ⟨h1, h2, -, ht⟩ | ⟨hb, ht⟩
      · exact .inl (by rw [ht, hkindb]; rfl)
      · exact .inl (by rw [ht, hkindb]; rfl)
      · have hchat : x.cmd.whoKind = .chat := by rw [hkindb]; simp [h1, h2]
        exact .inl (by rw [ht, hchat]; rfl)
      · have hchat : x.cmd.whoKind = .chat := by
          rw [hkindb]
          split
          · rename_i h1
            exact absurd (Option.some.inj h1 ▸ hb) (by decide)
          · rename_i h2
            exact absurd (Option.some.inj h2 ▸ hb) (by decide)
          · rfl
        exact .inr ⟨hchat, by omega, hplain, b, hbyte, .inl hb⟩

/-! ### Listings differ -/

theorem digits_getLast (b : UInt8) : (text (toString b.toNat)).getLast? ≠ some 93 := by
  have hall : ∀ n : Fin 256, (text (toString n.val)).getLast? ≠ some 93 := by decide +kernel
  exact hall ⟨b.toNat, b.toNat_lt⟩

theorem digits_ne_nil (b : UInt8) : text (toString b.toNat) ≠ [] := by
  have hall : ∀ n : Fin 256, text (toString n.val) ≠ [] := by decide +kernel
  exact hall ⟨b.toNat, b.toNat_lt⟩

theorem whoInfo_getLast (clients : Slot → Client) (p : UdataEnt × Slot) :
    (whoInfo clients p).getLast? ≠ some 93 := by
  rw [whoInfo, inetNtoa, ← List.append_assoc, List.getLast?_append_of_ne_nil _ (digits_ne_nil _)]
  exact digits_getLast _

theorem whoSys_second (infotype : Int) (l : UserlistEnt) : ∃ name info,
    (whoSys x infotype (.set .cWho) l).args = [name, info] ∧ info.getLast? = some 93 := by
  refine ⟨_, _, rfl, ?_⟩
  rw [← List.append_assoc, List.getLast?_append_of_ne_nil _ (by decide)]
  rfl

/-- Those in chat are not listed as users of the system are. -/
theorem chatList_ne_sysList (tag : Bytes) (infotype : Int) (h : x.goers ≠ []) :
    x.chatList tag ≠ x.sysList infotype := by
  intro heq
  obtain ⟨p, ps, hp⟩ := List.exists_cons_of_ne_nil h
  rw [Call.chatList, hp] at heq
  unfold Call.sysList at heq
  split at heq
  · simp [whoPairAs] at heq
  · rename_i ul _
    rcases hul : ul.takeWhile fun l => l.count != 0 with _ | ⟨l, ls⟩
    · rw [hul] at heq
      simp [whoPairAs] at heq
    · obtain ⟨name, info, hargs, hlast⟩ := whoSys_second (x := x) infotype l
      rw [hul, List.flatMap_cons, List.flatMap_cons, hargs] at heq
      have hinfo : whoInfo x.clients p = info := (List.cons.inj (List.cons.inj heq).2).1
      exact whoInfo_getLast x.clients p (hinfo ▸ hlast)

/-- With somebody in chat there is one type that lists the chat. -/
theorem listed_chat (h : x.goers ≠ []) (heq : x.listed (whoType x) = x.listing .chat) :
    whoType x = 0 := by
  obtain ⟨p, ps, hp⟩ := List.exists_cons_of_ne_nil h
  have hne : x.listing .chat ≠ [] := by
    simp [Call.listing, Call.chatList, hp, whoPairAs]
  cases hbyte : whoByte x with
  | none => exact whoType_none hbyte
  | some b =>
      rcases whoType_byte hbyte with ⟨-, ht⟩ | ⟨-, ht⟩ | ⟨-, -, -, ht⟩ | ⟨-, ht⟩
      · rw [ht, listed_one] at heq
        exact absurd heq.symm (chatList_ne_sysList [] 1 h)
      · rw [ht, listed_two] at heq
        have hhead : text "[c]" ++ p.1.sayName = p.1.sayName := by
          simpa [Call.listing, Call.chatList, hp, whoPairAs] using congrArg List.head? heq
        have hlen := congrArg List.length hhead
        rw [List.length_append] at hlen
        exact absurd hlen (by simp [text])
      · exact ht
      · rw [listed_neg ht] at heq
        exact absurd heq.symm hne

/-! ### The gate -/

/-- The gate lets the request through. -/
def Call.WhoGate (x : Call) : Prop := x.cmd.isMagicWho ∨ x.inChat

theorem isMagicWho_iff (hop : x.cmd.op = .cWho) :
    x.cmd.isMagicWho ↔ x.cmd.magicFirst ∧ x.cmd.args.length = 1 := by
  have hget : x.cmd.get = .cWho := hop
  simp only [NetCmd.isMagicWho, hget, NetCmd.magicFirst, NetCmd.str0, NetCmd.getnumargs,
    Bool.and_eq_true, beq_iff_eq, true_and]
  exact and_comm

theorem lsHandleNetcmd_who (hop : x.cmd.op = .cWho) :
    (x.WhoGate → lsHandleNetcmd x = chatWho x) ∧
      (¬ x.WhoGate → lsHandleNetcmd x = .ok (x.done x.udata [])) := by
  have hchat : x.cmd.op.isChatcmd = true := by rw [hop]; rfl
  rw [lsHandleNetcmd_chatcmd hchat]
  have hhandle : handleChatcmd x = chatWho x := by
    rw [handleChatcmd, show x.cmd.get = .cWho from hop]
  refine ⟨fun h => ?_, fun h => ?_⟩
  · rw [if_pos (by simpa [Call.WhoGate, Bool.or_eq_true] using h), hhandle]
  · rw [if_neg (by simpa [Call.WhoGate, Bool.or_eq_true] using h)]

theorem goers_of_inChat (hfd : 0 < x.fd) (h : x.inChat) : x.goers ≠ [] := by
  unfold Call.inChat at h
  split at h
  · rename_i e hget
    have hat : whoAt x.clients x.udata x.cl = some (e, x.cl) := by
      rw [whoAt, if_pos (show 0 < (x.clients x.cl).fd from hfd), show x.udata.udataGetByFd (x.clients x.cl).fd = some e from hget]
      rfl
    exact List.ne_nil_of_mem (List.mem_filterMap.mpr ⟨x.cl, List.mem_finRange _, hat⟩)
  · simp at h

theorem sentTo_past : sentTo x.fd x.whoPast = [] := by
  unfold Call.whoPast
  split <;> rfl

/-- What has to come together for an answer. -/
theorem answersWho_iff (hop : x.cmd.op = .cWho) (kind : WhoKind) :
    x.AnswersWho kind ↔ x.WhoGate ∧
      ¬ ((whoType x = 0 ∨ whoType x = 2) ∧ ∃ p ∈ x.goers, p.1.nick = none) ∧
      x.listed (whoType x) = x.listing kind := by
  obtain ⟨hopen, hshut⟩ := lsHandleNetcmd_who hop
  by_cases hgate : x.WhoGate
  · by_cases hnick : (whoType x = 0 ∨ whoType x = 2) ∧ ∃ p ∈ x.goers, p.1.nick = none
    · obtain ⟨f, hf⟩ := chatWho_fault hnick.1 hnick.2
      refine ⟨fun h => ?_, fun h => absurd hnick h.2.1⟩
      obtain ⟨o, m, hrun, -⟩ := h
      rw [hopen hgate, hf] at hrun
      simp at hrun
    · have hrun := hopen hgate ▸ chatWho_listed hnick
      have hsent : sentTo x.fd (x.done x.udata (x.whoPast ++ [x.reply
          ⟨.cWho, x.echo ++ x.listed (whoType x)⟩])).effects
            = [⟨.cWho, x.echo ++ x.listed (whoType x)⟩] := by
        show sentTo x.fd (x.whoPast ++ _) = _
        rw [sentTo_append, sentTo_past, sentTo_reply, List.nil_append]
      have hdrop : (x.echo ++ x.listed (whoType x)).drop (min x.cmd.args.length 1)
          = x.listed (whoType x) := by rw [← length_echo, List.drop_left]
      constructor
      · intro h
        obtain ⟨o, m, hrun', hm, -, hargs⟩ := h
        obtain rfl := Except.ok.inj (hrun.symm.trans hrun')
        obtain rfl := List.cons.inj (hsent.symm.trans hm) |>.1
        exact ⟨hgate, hnick, hdrop.symm.trans hargs⟩
      · intro h
        exact ⟨_, _, hrun, hsent, rfl, hdrop.trans h.2.2⟩
  · refine ⟨fun h => ?_, fun h => absurd h.1 hgate⟩
    obtain ⟨o, m, hrun, hm, -⟩ := h
    rw [hshut hgate] at hrun
    obtain rfl := Except.ok.inj hrun
    simp [Call.done] at hm

/--
**Which listing is sent.**

A request from somebody in chat, or with the magic word in front, is answered with the
listing that it asks for unless it is misled.
-/
theorem who_right_iff (hop : x.cmd.op = .cWho) (hfd : 0 < x.fd) : x.WhoRight ↔ ¬ x.WhoMisled := by
  have hchat : x.AnswersWho .chat → x.goers ≠ [] → whoType x = 0 := fun ha hg =>
    listed_chat hg ((answersWho_iff hop .chat).mp ha).2.2
  have hkind : (whoType x ≠ x.cmd.whoKind.type) → x.cmd.whoKind = .chat ∧ whoType x ≠ 0 ∧
      x.cmd.magicFirst = false := by
    intro hne
    obtain ⟨hk, ht, hm, -⟩ := whoType_cases.resolve_left hne
    exact ⟨hk, ht, hm⟩
  constructor
  · intro hright hmis
    cases hmis with
    | gate hmagic hmore hin =>
        obtain ⟨hgate | hgate, -⟩ := (answersWho_iff hop _).mp (hright (.inl hmagic))
        · exact hmore ((isMagicWho_iff hop).mp hgate).2
        · simp [hin] at hgate
    | signed hin hb h =>
        have ht : whoType x < 0 := by
          rcases whoType_byte hb with ⟨rfl, -⟩ | ⟨rfl, -⟩ | ⟨-, -, hlt, -⟩ | ⟨-, ht⟩
          · exact absurd h (by decide)
          · exact absurd h (by decide)
          · exact absurd h (by simpa using hlt)
          · exact ht
        have hne : whoType x ≠ x.cmd.whoKind.type := by
          cases x.cmd.whoKind <;> simp only [WhoKind.type] <;> omega
        obtain ⟨hk, ht0, -⟩ := hkind hne
        exact ht0 (hchat (hk ▸ hright (.inr hin)) (goers_of_inChat hfd hin))
    | beyond hin hempty hb h =>
        have hk : x.cmd.whoKind = .chat := by
          unfold NetCmd.whoKind
          split
          · rfl
          · rw [hempty]
            rfl
        have ht : whoType x ≠ 0 := by
          rcases h with rfl | rfl <;> rw [whoType, hb] <;> decide
        exact ht (hchat (hk ▸ hright (.inr hin)) (goers_of_inChat hfd hin))
    | nameless hask hne hp hnick =>
        have ha := hright hask
        have hg : x.goers ≠ [] := List.ne_nil_of_mem hp
        have htype : whoType x = x.cmd.whoKind.type := by
          by_contra hdiff
          obtain ⟨hk, ht0, -⟩ := hkind hdiff
          exact ht0 (hchat (hk ▸ ha) hg)
        refine ((answersWho_iff hop _).mp ha).2.1 ⟨?_, _, hp, hnick⟩
        rw [htype]
        cases hk : x.cmd.whoKind with
        | chat => exact .inl rfl
        | sys => exact absurd hk hne
        | both => exact .inr rfl
  · intro hmis hask
    have hgate : x.WhoGate := by
      rcases hask with hmagic | hin
      · by_contra hno
        obtain ⟨hone, hin⟩ := not_or.mp hno
        exact hmis (.gate hmagic (fun hlen => hone ((isMagicWho_iff hop).mpr ⟨hmagic, hlen⟩))
          (by simpa using hin))
      · exact .inr hin
    have htype : whoType x = x.cmd.whoKind.type := by
      rcases whoType_cases (x := x) with ht | ⟨-, -, hplain, b, hb, hcase⟩
      · exact ht
      · have hin : x.inChat := hask.resolve_left (by simp [hplain])
        rcases hcase with h | ⟨hempty, h⟩
        · exact absurd (Call.WhoMisled.signed hin hb h) hmis
        · exact absurd (Call.WhoMisled.beyond hin hempty hb h) hmis
    refine (answersWho_iff hop _).mpr ⟨hgate, ?_, htype ▸ listed_type _⟩
    rintro ⟨ht, p, hp, hnick⟩
    refine hmis (.nameless hask ?_ hp hnick)
    intro hsys
    rw [htype, hsys] at ht
    revert ht
    decide

/-- Somebody in chat asks for both listings at once. -/
theorem who_right_both : ∃ hist s, Run (server .enough) hist s ∧
    (s.call 0 ⟨.cWho, [[2]]⟩ .bare).inChat ∧ (s.call 0 ⟨.cWho, [[2]]⟩ .bare).AnswersWho .both := by
  have hrun : (exec (server .enough) (.initial 3) twoUsers []).any (fun r =>
      decide (0 < (r.2.call 0 ⟨.cWho, [[2]]⟩ .bare).fd) &&
        (r.2.call 0 ⟨.cWho, [[2]]⟩ .bare).inChat &&
        (r.2.call 0 ⟨.cWho, [[2]]⟩ .bare).goers.all fun p => p.1.nick.isSome) = true := by
    decide +kernel
  simp only [Option.any_eq_true, Bool.and_eq_true, decide_eq_true_eq] at hrun
  obtain ⟨⟨hist, s⟩, hexec, ⟨hfd, hin⟩, hnicks⟩ := hrun
  refine ⟨hist, s, run_of_exec hexec, hin, (who_right_iff rfl hfd).mpr ?_ (.inr hin)⟩
  intro hmis
  cases hmis with
  | gate hmagic => exact absurd hmagic (by decide : ¬ NetCmd.magicFirst ⟨.cWho, [[2]]⟩)
  | @signed _ b hb h =>
      have hb : some (2 : UInt8) = some b := hb
      obtain rfl := Option.some.inj hb
      exact absurd h (by decide)
  | beyond _ hempty => exact absurd hempty (by simp [Server.call])
  | nameless _ _ hp hnick =>
      have hsome := List.all_eq_true.mp hnicks _ hp
      rw [hnick] at hsome
      simp at hsome

/-- The magic word from outside with something behind it, and a byte of 255 from the chat. -/
theorem not_who_right : ∃ hist s, Run (server .enough) hist s ∧
    (∃ i, s.live i ∧ ¬ (s.call i ⟨.cWho, [magicWhoArg.chars, [48]]⟩ .bare).WhoRight) ∧
    (∃ i, s.live i ∧ ¬ (s.call i ⟨.cWho, [[255]]⟩ .bare).WhoRight) := by
  have hrun : (exec (server .enough) (.initial 3) (twoUsers ++ [arrives 6]) []).any (fun r =>
      decide (r.2.live 0) && decide (r.2.live 2) && decide (0 < (r.2.clients 0).fd) &&
        (r.2.call 0 ⟨.cWho, [[255]]⟩ .bare).inChat &&
        !(r.2.call 2 ⟨.cWho, [magicWhoArg.chars, [48]]⟩ .bare).inChat) = true := by
    decide +kernel
  simp only [Option.any_eq_true, Bool.and_eq_true, Bool.not_eq_true', decide_eq_true_eq] at hrun
  obtain ⟨⟨hist, s⟩, hexec, ⟨⟨⟨hlive, hlive'⟩, hfd⟩, hin⟩, hout⟩ := hrun
  refine ⟨hist, s, run_of_exec hexec, ⟨2, hlive', fun hright => ?_⟩, ⟨0, hlive, fun hright => ?_⟩⟩
  · have hmagic : NetCmd.magicFirst ⟨.cWho, [magicWhoArg.chars, [48]]⟩ := by decide
    obtain ⟨hgate | hgate, -⟩ := (answersWho_iff rfl _).mp (hright (.inl hmagic))
    · exact absurd hgate (by decide : ¬ NetCmd.isMagicWho ⟨.cWho, [magicWhoArg.chars, [48]]⟩)
    · rw [hout] at hgate
      simp at hgate
  · have hanswer := (answersWho_iff rfl .chat).mp (hright (.inr hin))
    have hgoers := goers_of_inChat (x := s.call 0 ⟨.cWho, [[255]]⟩ .bare) hfd hin
    exact absurd (listed_chat hgoers hanswer.2.2) (by decide : (-1 : Int) ≠ 0)

end Smsg
