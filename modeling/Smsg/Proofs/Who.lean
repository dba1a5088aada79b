/-
The list of those in chat, asked for and read.

The loop of `C_WHO` goes over the slots and looks for an entry with the descriptor of
each.  As long as users and connections belong together it comes upon everybody in chat
once (`goes_slots`).  The answer has a pair of arguments for each of them, and one more in
front if something was asked for, which is how both readers know where the pairs start.
-/
import Smsg.Who
import Smsg.Proofs.Identity

namespace Smsg

open Machines

/-! ### The loop over the slots -/

section

variable {mem : Memory} {hist : List ServerStep} {s : Server} {i : Slot} {c : NetCmd} {env : Env}
  {x : Call}

/-- Who the loop comes upon in a slot. -/
def whoAt (clients : Slot → Client) (u : Udata) (i : Slot) : Option (UdataEnt × Slot) :=
  if 0 < (clients i).fd then (u.udataGetByFd (clients i).fd).map fun e => (e, i) else none

theorem whoAt_some {clients : Slot → Client} {u : Udata} {p : UdataEnt × Slot}
    (h : whoAt clients u i = some p) :
    u.udataGetByFd (clients p.2).fd = some p.1 ∧ 0 < (clients p.2).fd ∧ p.2 = i := by
  unfold whoAt at h
  split at h
  · rename_i hfd
    obtain ⟨e, he, rfl⟩ := Option.map_eq_some_iff.mp h
    exact ⟨he, hfd, rfl⟩
  · simp at h

/-- **Everybody in chat is come upon once.** -/
theorem goes_slots (hs : s.Ok) (h : Bound hist s) :
    s.Goes ((List.finRange maxClients).filterMap (whoAt s.clients s.udata)) := by
  have hmem : ∀ p, p ∈ (List.finRange maxClients).filterMap (whoAt s.clients s.udata) →
      s.udata.udataGetByFd (s.clients p.2).fd = some p.1 ∧ s.live p.2 := by
    intro p hp
    obtain ⟨j, -, hj⟩ := List.mem_filterMap.mp hp
    obtain ⟨hget, hfd, -⟩ := whoAt_some hj
    obtain ⟨hents, hefd, hpres⟩ := Udata.udataGetByFd_some hget
    obtain ⟨k, hlive, hkfd, -⟩ := h.session p.1 hents hpres
    rw [hs.eq_of_fd hlive (hefd.symm.trans hkfd.symm)]
    exact ⟨by rw [hkfd, hefd]; exact hget, hlive⟩
  refine ⟨?_, ?_⟩
  · have hslots : ((List.finRange maxClients).filterMap (whoAt s.clients s.udata)).Nodup := by
      refine (List.nodup_finRange _).filterMap fun j k p hj hk => ?_
      exact (whoAt_some hj).2.2.symm.trans (whoAt_some hk).2.2
    have hfst : (((List.finRange maxClients).filterMap (whoAt s.clients s.udata)).map (·.1)).Nodup := by
      refine List.Nodup.map_on (fun p hp q hq hpq => Prod.ext hpq ?_) hslots
      have hp' := hmem p hp
      have hq' := hmem q hq
      refine hs.eq_of_fd hq'.2 ?_
      rw [← (Udata.udataGetByFd_some hp'.1).2.1, ← (Udata.udataGetByFd_some hq'.1).2.1, hpq]
    have hents : s.udata.chatting.Nodup := (List.Nodup.of_map _ s.udata.nodup).filter _
    refine (List.perm_ext_iff_of_nodup hfst hents).mpr fun e => ?_
    rw [Udata.chatting, List.mem_filter, List.mem_map]
    constructor
    · intro hin
      obtain ⟨p, hp, rfl⟩ := hin
      obtain ⟨he, -, hpres⟩ := Udata.udataGetByFd_some (hmem p hp).1
      exact ⟨he, hpres⟩
    · intro hin
      obtain ⟨he, hpres⟩ := hin
      obtain ⟨k, hlive, hfd, -⟩ := h.session e he hpres
      refine ⟨(e, k), List.mem_filterMap.mpr ⟨k, List.mem_finRange k, ?_⟩, rfl⟩
      have hpos := hs.fd_pos hlive
      rw [whoAt, if_pos hpos, hfd, h.sender he hpres]
      rfl
  · intro p hp
    obtain ⟨hget, hlive⟩ := hmem p hp
    exact ⟨hlive, (Udata.udataGetByFd_some hget).2.1.symm⟩

/-- What stands in front of a name when the users of the system are listed as well. -/
def whoTag (infotype : Int) : Bytes := if infotype = 2 then text "[c]" else []

/-- The pair of arguments with the tag. -/
def whoPairAs (tag : Bytes) (clients : Slot → Client) (p : UdataEnt × Slot) : List Bytes :=
  [tag ++ p.1.sayName, whoInfo clients p]

/-- One slot adds its pair of arguments. -/
theorem whoChat_eq (infotype : Int) (i : Slot)
    (hnick : ∀ p, whoAt x.clients x.udata i = some p → p.1.nick ≠ none) (msg : NetCmd) :
    whoChat x infotype msg i = .ok ⟨msg.op, msg.args ++
      (whoAt x.clients x.udata i).toList.flatMap (whoPairAs (whoTag infotype) x.clients)⟩ := by
  unfold whoChat whoAt at *
  cases hget : x.udata.udataGetByFd (x.clients i).fd with
  | none => simp
  | some e =>
      obtain ⟨hmem, -, hpres⟩ := Udata.udataGetByFd_some hget
      by_cases hfd : 0 < (x.clients i).fd
      · rw [if_pos hfd, hget] at hnick
        obtain ⟨nick, hn⟩ : ∃ nick, e.nick = some nick :=
          Option.ne_none_iff_exists'.mp (hnick (e, i) rfl)
        have hname : lcsComposeName x.udata (x.clients i).fd = .ok e.sayName := by
          simp only [lcsComposeName, hget, hn, UdataEnt.sayName, xstr_some]
        simp [hfd, hpres, hname, NetCmd.add, whoPairAs, whoInfo, whoTag]
      · simp [hfd]

theorem whoChat_fault {infotype : Int} {i : Slot} {p : UdataEnt × Slot} {msg : NetCmd}
    (h : whoAt x.clients x.udata i = some p) (hnick : p.1.nick = none) :
    whoChat x infotype msg i = .error .nullString := by
  obtain ⟨hget, hfd, rfl⟩ := whoAt_some h
  obtain ⟨-, -, hpres⟩ := Udata.udataGetByFd_some hget
  have hname : lcsComposeName x.udata (x.clients p.2).fd = .error .nullString := by
    simp only [lcsComposeName, hget, hnick]
  simp [whoChat, hget, hfd, hpres, hname]

/-- All slots together. -/
theorem foldlM_whoChat (infotype : Int) (slots : List Slot)
    (hnick : ∀ p ∈ slots.filterMap (whoAt x.clients x.udata), p.1.nick ≠ none) :
    ∀ msg : NetCmd, slots.foldlM (whoChat x infotype) msg = .ok ⟨msg.op, msg.args ++
      (slots.filterMap (whoAt x.clients x.udata)).flatMap
        (whoPairAs (whoTag infotype) x.clients)⟩ := by
  induction slots with
  | nil =>
      intro msg
      simp [pure, Except.pure]
  | cons i slots ih =>
      intro msg
      have hhead : ∀ p, whoAt x.clients x.udata i = some p → p.1.nick ≠ none := fun p hp =>
        hnick p (List.mem_filterMap.mpr ⟨i, List.mem_cons_self, hp⟩)
      have htail : ∀ p ∈ slots.filterMap (whoAt x.clients x.udata), p.1.nick ≠ none := by
        intro p hp
        obtain ⟨j, hj, hat⟩ := List.mem_filterMap.mp hp
        exact hnick p (List.mem_filterMap.mpr ⟨j, List.mem_cons_of_mem _ hj, hat⟩)
      rw [List.foldlM_cons, whoChat_eq infotype i hhead]
      simp only [bind, Except.bind, ih htail]
      cases hat : whoAt x.clients x.udata i with
      | none => simp [hat]
      | some p => simp [hat]

/-- One without a nick is enough for the loop not to get through. -/
theorem foldlM_whoChat_fault (infotype : Int) (slots : List Slot)
    (hnick : ∃ p ∈ slots.filterMap (whoAt x.clients x.udata), p.1.nick = none) :
    ∀ msg : NetCmd, ∃ f, slots.foldlM (whoChat x infotype) msg = .error f := by
  induction slots with
  | nil => simp at hnick
  | cons i slots ih =>
      intro msg
      rw [List.foldlM_cons]
      cases hhead : whoChat x infotype msg i with
      | error f => exact ⟨f, rfl⟩
      | ok msg' =>
          refine ih ?_ msg'
          obtain ⟨p, hp, hnone⟩ := hnick
          obtain ⟨j, hj, hat⟩ := List.mem_filterMap.mp hp
          rcases List.mem_cons.mp hj with rfl | hj
          · rw [whoChat_fault hat hnone] at hhead
            simp at hhead
          · exact ⟨p, List.mem_filterMap.mpr ⟨j, hj, hat⟩, hnone⟩

/-! ### The answer -/

/-- The first byte of the magic word. -/
theorem magic_args (h : c.isMagicWho = true) : ∃ rest, c.args = [38 :: rest] := by
  simp only [NetCmd.isMagicWho, Bool.and_eq_true, beq_iff_eq] at h
  obtain ⟨⟨-, hnum⟩, hstr⟩ := h
  obtain ⟨a, hargs⟩ : ∃ a, c.args = [a] := List.length_eq_one_iff.mp hnum
  have hget : c.args[0]? = some a := by rw [hargs]; rfl
  rw [NetCmd.fetch_some hget] at hstr
  have hchars := congrArg CString.chars (Option.some.inj hstr)
  cases a with
  | nil => simp [cstr, magicWhoArg, text] at hchars
  | cons b rest =>
      refine ⟨rest, ?_⟩
      by_cases hb : b = 0
      · simp [cstr, hb, magicWhoArg, text] at hchars
      · have hhead := congrArg List.head? hchars
        simp [cstr, hb, magicWhoArg, text] at hhead
        rw [hargs, hhead]

/-- The argument that is handed back in front: none, or a byte that asks for the chat. -/
def whoHead : List Bytes → List Bytes
  | (b :: _) :: _ => [[b]]
  | _ => []

theorem asksWho_cases (h : s.AsksWho i c) :
    c.args = [] ∨ ∃ b rest, c.args = [b :: rest] ∧ (b = 0 ∨ b = 38) := by
  obtain ⟨-, hmagic | ⟨-, hargs | hargs⟩⟩ := h
  · obtain ⟨rest, hargs⟩ := magic_args hmagic
    exact Or.inr ⟨38, rest, hargs, Or.inr rfl⟩
  · exact Or.inl hargs
  · exact Or.inr ⟨0, [], hargs, Or.inl rfl⟩

/-- **The answer to a request for the chat.** -/
theorem chatWho_chat (h : s.AsksWho i c)
    (hnick : ∀ e ∈ s.udata.ents, e.has udcFlagPresent → e.nick ≠ none) :
    chatWho (s.call i c env) = .ok ((s.call i c env).done s.udata [.send (s.clients i).fd
      ⟨.cWho, whoHead c.args ++ ((List.finRange maxClients).filterMap
        (whoAt s.clients s.udata)).flatMap (whoPair s.clients)⟩]) := by
  have hloop := foldlM_whoChat (x := s.call i c env) 0 (List.finRange maxClients) (fun p hp => by
    obtain ⟨j, -, hat⟩ := List.mem_filterMap.mp hp
    obtain ⟨he, -, hpres⟩ := Udata.udataGetByFd_some (whoAt_some hat).1
    exact hnick p.1 he hpres)
  rcases asksWho_cases h with hargs | ⟨b, rest, hargs, hb⟩
  · have hbyte : whoByte (s.call i c env) = none := by
      rw [whoByte, show (s.call i c env).cmd.args = [] from hargs]
      rfl
    have htype : whoType (s.call i c env) = 0 := by rw [whoType, hbyte]
    have hargs' : (s.call i c env).cmd.args = [] := hargs
    simp only [chatWho, whoLists, hbyte, htype, true_or, if_true, hloop, hargs', hargs, whoHead]
    rfl
  · have hbyte : whoByte (s.call i c env) = some b := by
      rw [whoByte, show (s.call i c env).cmd.args = [b :: rest] from hargs]
      rfl
    have htype : whoType (s.call i c env) = 0 := by
      rw [whoType, hbyte]
      rcases hb with rfl | rfl <;> rfl
    have hargs' : (s.call i c env).cmd.args = [b :: rest] := hargs
    simp only [chatWho, whoLists, hbyte, htype, true_or, if_true, hloop, hargs', hargs, whoHead]
    rfl

/-! ### Reading it -/

variable {l : List (UdataEnt × Slot)} {clients : Slot → Client} {head : List Bytes}

theorem length_pairs (clients : Slot → Client) (l : List (UdataEnt × Slot)) :
    (l.flatMap (whoPair clients)).length = 2 * l.length := by
  induction l with
  | nil => rfl
  | cons p l ih =>
      rw [List.flatMap_cons, List.length_append, ih, List.length_cons]
      simp only [whoPair, List.length_cons, List.length_nil]
      omega

theorem sayName_nulFree (e : UdataEnt) : (0 : UInt8) ∉ e.sayName := by
  have hnick : (0 : UInt8) ∉ xstr e.nick := by
    cases e.nick with
    | none => simp [xstr]
    | some nick => exact nick.nulFree
  simp only [UdataEnt.sayName, List.mem_append, not_or]
  refine ⟨⟨?_, ?_⟩, hnick⟩
  · split <;> decide
  · split <;> decide

theorem digits_nulFree (b : UInt8) : (0 : UInt8) ∉ text (toString b.toNat) := by
  have hall : ∀ n : Fin 256, (0 : UInt8) ∉ text (toString n.val) := by decide +kernel
  exact hall ⟨b.toNat, b.toNat_lt⟩

theorem inetNtoa_nulFree (a : InAddr) : (0 : UInt8) ∉ inetNtoa a := by
  have hdot : (0 : UInt8) ∉ text "." := by decide
  simp only [inetNtoa, List.mem_append, not_or]
  exact ⟨⟨⟨⟨⟨⟨digits_nulFree _, hdot⟩, digits_nulFree _⟩, hdot⟩, digits_nulFree _⟩, hdot⟩,
    digits_nulFree _⟩

theorem chars_arg {a : Bytes} (h : (0 : UInt8) ∉ a) : (cstr (a ++ [0])).chars = a :=
  takeWhile_append_nul h []

theorem whoNames_pairs (clients : Slot → Client) (l : List (UdataEnt × Slot)) :
    (whoNames (l.flatMap (whoPair clients))).map (·.chars) = l.map fun p => p.1.sayName := by
  induction l with
  | nil => rfl
  | cons p l ih =>
      rw [List.flatMap_cons, List.map_cons, ← ih, ← chars_arg (sayName_nulFree p.1)]
      simp [whoPair, whoNames, chars_arg (sayName_nulFree p.1)]

theorem whoInfo_nulFree (clients : Slot → Client) (p : UdataEnt × Slot) :
    (0 : UInt8) ∉ whoInfo clients p := by
  simp only [whoInfo, List.mem_append, not_or]
  exact ⟨⟨p.1.user.nulFree, by decide⟩, inetNtoa_nulFree _⟩

/-- `smsgwho` prints a record for each pair. -/
theorem smsgwhoLoop_pairs (ofs ors : UInt8) (clients : Slot → Client)
    (l : List (UdataEnt × Slot)) : ∀ tinfo : Arg,
    smsgwhoLoop ofs ors tinfo (l.flatMap (whoPair clients))
      = l.flatMap fun p => ors :: p.1.sayName ++ ofs :: whoInfo clients p := by
  induction l with
  | nil => intro tinfo; rfl
  | cons p l ih =>
      intro tinfo
      have hpair : (p :: l).flatMap (whoPair clients)
          = p.1.sayName :: whoInfo clients p :: l.flatMap (whoPair clients) := rfl
      have hrecord : smsgwhoRecord ofs ors p.1.sayName (.blk (whoInfo clients p ++ [0]))
          = ors :: p.1.sayName ++ ofs :: whoInfo clients p := by
        rw [smsgwhoRecord, chars_arg (sayName_nulFree p.1), Arg.str_blk, printStr,
          chars_arg (whoInfo_nulFree clients p)]
      rw [hpair, smsgwhoLoop, ih, hrecord, List.flatMap_cons]

theorem whoFirst_pairs (hhead : head.length ≤ 1) (clients : Slot → Client)
    (l : List (UdataEnt × Slot)) :
    whoFirst ⟨.cWho, head ++ l.flatMap (whoPair clients)⟩ = head.length := by
  simp only [whoFirst, NetCmd.getnumargs, List.length_append, length_pairs]
  omega

/-- A client that gets a list of the chat fills its sidebar with it. -/
theorem chatterFunc_who (hhead : head = [] ∨ ∃ b, head = [[b]] ∧ (b = 0 ∨ b = 38))
    (clients : Slot → Client) (l : List (UdataEnt × Slot)) (v : ChatterVars) :
    chatterFunc v ⟨.cWho, head ++ l.flatMap (whoPair clients)⟩
      = some ({ v with culist := whoNames (l.flatMap (whoPair clients)) }, []) := by
  have hlen : head.length ≤ 1 := by
    rcases hhead with rfl | ⟨b, rfl, -⟩ <;> simp
  have hfirst := whoFirst_pairs hlen clients l
  have htype : whoItype ⟨.cWho, head ++ l.flatMap (whoPair clients)⟩ = 0 := by
    rw [whoItype, hfirst]
    rcases hhead with rfl | ⟨b, rfl, hb⟩
    · rfl
    · rcases hb with rfl | rfl <;> rfl
  have hsaid : chatterSays ⟨.cWho, head ++ l.flatMap (whoPair clients)⟩ = some [] := by
    show some (clWho _) = some []
    rw [clWho, htype]
    rfl
  have hculist : chatterCulist v ⟨.cWho, head ++ l.flatMap (whoPair clients)⟩
      = whoNames (l.flatMap (whoPair clients)) := by
    show clCulist _ v.culist = _
    rw [clCulist, if_pos htype, hfirst]
    simp
  have hkicked : chatterKicked v ⟨.cWho, head ++ l.flatMap (whoPair clients)⟩ = v.kicked := by
    unfold chatterKicked
    split <;> rfl
  have hid : v.identity.handle ⟨.cWho, head ++ l.flatMap (whoPair clients)⟩ = some v.identity :=
    handle_plain v.identity (show NCMDOp.cWho ∉ identityOps by decide)
  simp only [chatterFunc, hsaid, hid, hculist, hkicked, Option.bind_eq_bind, Option.bind_some]
  rfl

theorem whoHead_cases (h : s.AsksWho i c) :
    (whoHead c.args = [] ∨ ∃ b, whoHead c.args = [[b]] ∧ (b = 0 ∨ b = 38)) ∧
      ((whoHead c.args).length = 1 ↔ c.args ≠ []) := by
  rcases asksWho_cases h with hargs | ⟨b, rest, hargs, hb⟩
  · rw [hargs]
    exact ⟨Or.inl rfl, by simp [whoHead]⟩
  · rw [hargs]
    exact ⟨Or.inr ⟨b, rfl, hb⟩, by simp [whoHead]⟩

/-- A request for the chat gets to its handler. -/
theorem lsHandleNetcmd_asksWho (h : s.AsksWho i c) :
    lsHandleNetcmd (s.call i c env) = chatWho (s.call i c env) := by
  have hop : (s.call i c env).cmd.get = .cWho := h.op
  have hlet : ((s.call i c env).cmd.isMagicWho || (s.call i c env).inChat) = true := by
    rw [Bool.or_eq_true]
    refine h.form.imp id fun hin => ?_
    obtain ⟨e, he⟩ := Option.ne_none_iff_exists'.mp hin.1
    rw [Call.inChat, show (s.call i c env).udata.udataGetByFd (s.call i c env).fd = some e from he]
    exact (Udata.udataGetByFd_some he).2.2
  rw [lsHandleNetcmd_chatcmd (show c.op.isChatcmd = true by rw [show c.op = .cWho from h.op]; decide),
    if_pos hlet, handleChatcmd, hop]

theorem step_asksWho (hlive : s.live i) (hmem : mem.allows env.alloc = true)
    (h : s.AsksWho i c) (hnick : s.AllNamed) :
    (server mem).step s (.netcmd i c env) = some (s, [.send (s.clients i).fd
      ⟨.cWho, whoHead c.args ++ ((List.finRange maxClients).filterMap
        (whoAt s.clients s.udata)).flatMap (whoPair s.clients)⟩]) := by
  refine step_done hlive hmem ?_
  rw [lsHandleNetcmd_asksWho h]
  exact chatWho_chat h hnick

/-- Somebody without a nick is enough for a request to have no outcome. -/
theorem chatWho_unnamed (hs : s.Ok) (hbound : Bound hist s) (h : s.AsksWho i c) {e : UdataEnt}
    (he : e ∈ s.udata.ents) (hpres : e.has udcFlagPresent = true) (hnick : e.nick = none) :
    ∃ f, chatWho (s.call i c env) = .error f := by
  obtain ⟨j, hlive, hfd, -⟩ := hbound.session e he hpres
  have hat : whoAt s.clients s.udata j = some (e, j) := by
    have hpos := hs.fd_pos hlive
    rw [whoAt, if_pos hpos, hfd, hbound.sender he hpres]
    rfl
  have htype : whoType (s.call i c env) = 0 := by
    rcases asksWho_cases h with hargs | ⟨b, rest, hargs, hb⟩
    · rw [whoType, whoByte, show (s.call i c env).cmd.args = [] from hargs]
      rfl
    · rw [whoType, whoByte, show (s.call i c env).cmd.args = [b :: rest] from hargs]
      rcases hb with rfl | rfl <;> rfl
  have hloop : ∀ msg, ∃ f, (List.finRange maxClients).foldlM (whoChat (s.call i c env) 0) msg
      = .error f := by
    refine foldlM_whoChat_fault (x := s.call i c env) 0 (List.finRange maxClients) ?_
    exact ⟨(e, j), List.mem_filterMap.mpr ⟨j, List.mem_finRange j, hat⟩, hnick⟩
  unfold chatWho whoLists
  simp only [htype, true_or, if_true]
  obtain ⟨f, hf⟩ := hloop _
  exact ⟨f, by rw [hf]⟩

/-- What is answered to a request for the chat, if everybody in it has a nick. -/
theorem Bound.listsChat (hs : s.Ok) (hbound : Bound hist s) (hlive : s.live i)
    (hmem : mem.allows env.alloc = true) (hasks : s.AsksWho i c) (hnick : s.AllNamed) :
    s.ListsChat mem i c env := by
  have hgoes := goes_slots hs hbound
  have hstep := @step_asksWho mem s i c env hlive hmem hasks hnick
  generalize hl : (List.finRange maxClients).filterMap (whoAt s.clients s.udata) = l at hgoes hstep
  obtain ⟨hhead, hodd⟩ := whoHead_cases hasks
  have hlen : (whoHead c.args).length ≤ 1 := by
    rcases hhead with hnil | ⟨b, hb, -⟩
    · rw [hnil]
      exact Nat.zero_le 1
    · rw [hb]
      exact le_refl 1
  have hfirst := whoFirst_pairs hlen s.clients l
  have hcount : s.udata.chatting.length = l.length := by
    rw [← hgoes.once.length_eq, List.length_map]
  refine ⟨_, l, hstep, hgoes, rfl, ?_, ?_, ?_, ?_⟩
  · show List.drop (whoFirst _) _ = _
    rw [hfirst]
    exact List.drop_left
  · rw [← hodd]
    show whoFirst _ = 1 ↔ _
    rw [hfirst]
  · refine ⟨whoNames (l.flatMap (whoPair s.clients)), ?_, chatterFunc_who hhead s.clients l⟩
    rw [whoNames_pairs]
    have hnames := hgoes.once.map (·.sayName)
    rw [List.map_map] at hnames
    exact hnames
  · intro hmagic ofs ors
    obtain ⟨rest, hargs⟩ := magic_args hmagic
    have hone : whoHead c.args = [[38]] := by rw [hargs]; rfl
    refine ⟨?_, ?_⟩
    · rw [hone]
      exact smsgwhoLoop_pairs ofs ors s.clients l .null
    · have hhalf : (whoHead c.args ++ l.flatMap (whoPair s.clients)).length / 2 = l.length := by
        rw [List.length_append, length_pairs]
        omega
      rw [hcount, ← hhalf]
      rfl

theorem allNamed_of_enough (h : Run (server .enough) hist s) : s.AllNamed := by
  have hnicks : s.udata.room.NicksUnique := run_nicks h (storesNick_of_enough h)
  exact fun e he hp => hnicks.nick e.user e.seat (Udata.room_of_mem he) hp

end

end Smsg
