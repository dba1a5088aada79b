/-
Both ends agree on what has happened.

The handlers of the server and the switch of the client meet at the reports.  A client
takes what stands for a report for that report (`Report.CodedAs.read`), and whatever the
server sends for a command stands for a report that is true and that is for whom it is
sent to (`reports_true`).
-/
import Smsg.Reports
import Smsg.Proofs.Identity

namespace Smsg

open Machines

/-! ### Reading a report -/

section

variable {m : NetCmd} {r r' : Report} {a : Bytes} {s₀ s₁ s₂ : CString} {c : NetCmd} {k : Nat}

theorem printed_nul (a : Bytes) : (Arg.blk (a ++ [0])).printed = some (.str (cstr (a ++ [0]))) := by
  rw [Arg.printed, Arg.blk, Arg.terminated]
  simp

theorem strings_one (h : m.strings = [s₀]) : ∃ a, m.args = [a] ∧ cstr (a ++ [0]) = s₀ :=
  List.map_eq_singleton_iff.mp h

theorem strings_two (h : m.strings = [s₀, s₁]) :
    ∃ a b, m.args = [a, b] ∧ cstr (a ++ [0]) = s₀ ∧ cstr (b ++ [0]) = s₁ := by
  obtain ⟨a, rest, hargs, ha, hrest⟩ := List.map_eq_cons_iff.mp h
  obtain ⟨b, rfl, hb⟩ := List.map_eq_singleton_iff.mp hrest
  exact ⟨a, b, hargs, ha, hb⟩

theorem strings_three (h : m.strings = [s₀, s₁, s₂]) : ∃ a b d, m.args = [a, b, d] ∧
    cstr (a ++ [0]) = s₀ ∧ cstr (b ++ [0]) = s₁ ∧ cstr (d ++ [0]) = s₂ := by
  obtain ⟨a, rest, hargs, ha, hrest⟩ := List.map_eq_cons_iff.mp h
  obtain ⟨b, rest', rfl, hb, hrest'⟩ := List.map_eq_cons_iff.mp hrest
  obtain ⟨d, rfl, hd⟩ := List.map_eq_singleton_iff.mp hrest'
  exact ⟨a, b, d, hargs, ha, hb, hd⟩

/-- The first byte of a flag. -/
theorem head_flag {on : Bool} (h : cstr (a ++ [0]) = Report.flag on) :
    (Arg.blk (a ++ [0])).ap.bytes.head? = some (if on then 1 else 0) := by
  show (a ++ [0]).head? = _
  have hchars := congrArg CString.chars h
  cases on with
  | true =>
      cases a with
      | nil => simp [cstr, Report.flag] at hchars
      | cons b a =>
          by_cases hb : b = 0
          · simp [cstr, Report.flag, hb] at hchars
          · simp only [cstr, Report.flag, List.cons_append, List.takeWhile_cons, bne_iff_ne, ne_eq,
              hb, not_false_eq_true, if_true, List.cons.injEq] at hchars
            simp [hchars.1]
  | false =>
      cases a with
      | nil => rfl
      | cons b a =>
          by_cases hb : b = 0
          · simp [hb]
          · simp [cstr, Report.flag, CString.empty, hb] at hchars

theorem modeOp_cases (op : ModeOp) : op.val = .cBan ∨ op.val = .cDeop ∨ op.val = .cKick ∨
    op.val = .cOp ∨ op.val = .cUnban := by
  simpa [modeOps] using op.property

/-- The commands of operators are one definition with five lists of texts. -/
theorem chatterSays_mode {op : ModeOp} (h : m.op = op.val) :
    chatterSays m = clMode (Report.modeTexts op.val) m := by
  unfold chatterSays NetCmd.get
  rw [h]
  rcases modeOp_cases op with hop | hop | hop | hop | hop <;> rw [hop] <;> rfl

/-- What is written is what the report says. -/
theorem Report.CodedAs.tells (h : r.CodedAs m) : chatterSays m = some r.tells := by
  cases r with
  | nickInUse | beeped | wrongPassword =>
      have hargs : m.args = [] := List.map_eq_nil_iff.mp h.args
      simp [chatterSays, clNick, clBeep, clOper, NetCmd.get, h.op, Report.op, NetCmd.getnumargs,
        hargs, Report.tells]
  | ownNick nick | notBeeped nick | opered nick | notTold nick =>
      obtain ⟨a, hargs, rfl⟩ := strings_one h.args
      simp [chatterSays, clNick, clBeep, clOper, clPsay, NetCmd.get, h.op, Report.op, NetCmd.fetch,
        NetCmd.getnumargs, hargs, printed_nul, Report.tells]
  | renamed s₀ s₁ | told s₀ s₁ =>
      obtain ⟨a, b, hargs, rfl, rfl⟩ := strings_two h.args
      simp [chatterSays, clNick, clPsay, NetCmd.get, h.op, Report.op, NetCmd.fetch,
        NetCmd.getnumargs, hargs, printed_nul, Report.tells]
  | echoed sender nick msg =>
      obtain ⟨a, b, d, hargs, rfl, rfl, rfl⟩ := strings_three h.args
      simp [chatterSays, clPsay, NetCmd.get, h.op, Report.op, NetCmd.fetch, NetCmd.getnumargs,
        hargs, printed_nul, Report.tells]
  | away on nick reason =>
      cases reason with
      | none =>
          obtain ⟨a, b, hargs, hflag, rfl⟩ := strings_two h.args
          cases on <;> simp [chatterSays, clAway, NetCmd.get, h.op, Report.op, NetCmd.fetch,
            NetCmd.getnumargs, hargs, printed_nul, Report.tells, head_flag hflag]
      | some reason =>
          obtain ⟨a, b, d, hargs, hflag, rfl, rfl⟩ := strings_three h.args
          cases on <;> simp [chatterSays, clAway, NetCmd.get, h.op, Report.op, NetCmd.fetch,
            NetCmd.getnumargs, hargs, printed_nul, Report.tells, head_flag hflag]
  | notOperator op =>
      have hargs : m.args = [] := List.map_eq_nil_iff.mp h.args
      rw [chatterSays_mode h.op]
      simp [clMode, NetCmd.getnumargs, hargs, Report.tells]
  | modeAbsent op nick =>
      obtain ⟨a, hargs, rfl⟩ := strings_one h.args
      rw [chatterSays_mode h.op]
      simp [clMode, NetCmd.getnumargs, NetCmd.fetch, hargs, printed_nul, Report.tells]
  | mode op nick oper =>
      obtain ⟨a, b, hargs, rfl, rfl⟩ := strings_two h.args
      rw [chatterSays_mode h.op]
      simp [clMode, NetCmd.getnumargs, NetCmd.fetch, hargs, printed_nul, Report.tells]

theorem handle_short {op : ModeOp} (h : m.op = op.val) (d : Identity) (hargs : m.args.length ≤ 1) :
    d.handle m = some d := by
  rcases modeOp_cases op with hop | hop | hop | hop | hop <;> rw [hop] at h <;>
    simp [Identity.handle, NetCmd.get, h, NetCmd.getnumargs, hargs]

/-- The same for `nick` and `flags`. -/
theorem Report.CodedAs.handle (h : r.CodedAs m) (v : ChatterVars) :
    v.identity.handle m = some (r.update v).identity := by
  cases r with
  | nickInUse | wrongPassword =>
      have hargs : m.args = [] := List.map_eq_nil_iff.mp h.args
      simp [Identity.handle, NetCmd.get, h.op, Report.op, NetCmd.getnumargs, hargs, Report.update]
  | ownNick nick =>
      obtain ⟨a, hargs, rfl⟩ := strings_one h.args
      simp [Identity.handle, NetCmd.get, h.op, Report.op, NetCmd.fetch, NetCmd.getnumargs, hargs,
        Report.update]
  | opered nick =>
      obtain ⟨a, hargs, rfl⟩ := strings_one h.args
      by_cases hself : cstr (a ++ [0]) = v.identity.nick <;>
        simp [Identity.handle, NetCmd.get, h.op, Report.op, NetCmd.fetch, NetCmd.getnumargs, hargs,
          Report.update, hself]
  | renamed new old =>
      obtain ⟨a, b, hargs, rfl, rfl⟩ := strings_two h.args
      by_cases hself : cstr (b ++ [0]) = v.identity.nick <;>
        simp [Identity.handle, NetCmd.get, h.op, Report.op, NetCmd.fetch, NetCmd.getnumargs, hargs,
          Report.update, hself]
  | away on nick reason =>
      obtain ⟨a, b, rest, hargs, hflag, rfl⟩ : ∃ a b rest, m.args = a :: b :: rest ∧
          cstr (a ++ [0]) = Report.flag on ∧ cstr (b ++ [0]) = nick := by
        obtain ⟨a, rest, hargs, ha, hrest⟩ := List.map_eq_cons_iff.mp h.args
        obtain ⟨b, rest', rfl, hb, -⟩ := List.map_eq_cons_iff.mp hrest
        exact ⟨a, b, rest', hargs, ha, hb⟩
      by_cases hself : cstr (b ++ [0]) = v.identity.nick <;> cases on <;>
        simp [Identity.handle, NetCmd.get, h.op, Report.op, NetCmd.fetch, hargs, head_flag hflag,
          Report.update, hself]
  | mode op nick oper =>
      obtain ⟨a, b, hargs, rfl, rfl⟩ := strings_two h.args
      have hop : m.op = op.val := h.op
      by_cases hself : cstr (a ++ [0]) = v.identity.nick <;>
        rcases modeOp_cases op with hval | hval | hval | hval | hval <;> rw [hval] at hop <;>
        simp [Identity.handle, NetCmd.get, hop, NetCmd.fetch, NetCmd.getnumargs, hargs,
          Report.update, hself, hval]
  | modeAbsent op nick =>
      obtain ⟨a, hargs, rfl⟩ := strings_one h.args
      exact handle_short h.op v.identity (by simp [hargs])
  | notOperator op =>
      have hargs : m.args = [] := List.map_eq_nil_iff.mp h.args
      exact handle_short h.op v.identity (by simp [hargs])
  | _ =>
      rw [handle_plain]
      · rfl
      · rw [h.op]
        simp [Report.op, identityOps]

/-- The commands that `kicked` does not depend on. -/
theorem chatterKicked_plain (h : m.op ∉ [NCMDOp.cBan, .cKick, .cUnban]) (v : ChatterVars) :
    chatterKicked v m = v.kicked := by
  simp only [List.mem_cons, List.not_mem_nil, or_false, not_or] at h
  unfold chatterKicked NetCmd.get
  split
  · split
    · exact absurd ‹_› h.1
    · exact absurd ‹_› h.2.1
    · exact absurd ‹_› h.2.2
    · rfl
  · rfl

theorem chatterKicked_short (h : m.args.length ≤ 1) (v : ChatterVars) :
    chatterKicked v m = v.kicked := by
  have hnot : ¬ 1 < m.args.length := by omega
  simp [chatterKicked, aboutSelf, NetCmd.getnumargs, hnot]

/-- The same for `kicked`. -/
theorem Report.CodedAs.kicked (h : r.CodedAs m) (v : ChatterVars) :
    chatterKicked v m = (r.update v).kicked := by
  cases r with
  | mode op nick oper =>
      obtain ⟨a, b, hargs, rfl, rfl⟩ := strings_two h.args
      have hop : m.op = op.val := h.op
      by_cases hself : cstr (a ++ [0]) = v.identity.nick <;>
        rcases modeOp_cases op with hval | hval | hval | hval | hval <;> rw [hval] at hop <;>
        simp [chatterKicked, aboutSelf, NetCmd.get, hop, NetCmd.fetch, NetCmd.getnumargs, hargs,
          Report.update, hself, hval]
  | modeAbsent op nick =>
      obtain ⟨a, hargs, rfl⟩ := strings_one h.args
      exact chatterKicked_short (by simp [hargs]) v
  | notOperator op =>
      have hargs : m.args = [] := List.map_eq_nil_iff.mp h.args
      exact chatterKicked_short (by simp [hargs]) v
  | renamed | away | opered =>
      rw [chatterKicked_plain (by rw [h.op]; simp [Report.op])]
      simp only [Report.update]
      split <;> rfl
  | _ => exact chatterKicked_plain (by rw [h.op]; simp [Report.op]) v

theorem Report.op_ne_who (r : Report) : r.op ≠ .cWho := by
  have hmode : ∀ op ∈ modeOps, op ≠ .cWho := by decide
  cases r with
  | mode op | modeAbsent op | notOperator op => exact hmode op.val op.property
  | _ => simp [Report.op]

theorem Report.update_culist (r : Report) (v : ChatterVars) : (r.update v).culist = v.culist := by
  cases r with
  | mode op nick =>
      simp only [Report.update]
      split
      · split <;> rfl
      · rfl
  | renamed | away | opered =>
      simp only [Report.update]
      split <;> rfl
  | _ => rfl

/-- **A client takes a command for the report that it stands for.** -/
theorem Report.CodedAs.read (h : r.CodedAs m) (v : ChatterVars) :
    chatterFunc v m = some (r.update v, r.acts) := by
  have hculist : chatterCulist v m = (r.update v).culist := by
    rw [r.update_culist v, chatterCulist]
    split
    · rename_i hwho
      exact absurd (h.op.symm.trans hwho) r.op_ne_who
    · rfl
  have hreq : reqWho m.get = reqWho r.op := congrArg reqWho h.op
  simp only [chatterFunc, h.tells, h.handle v, Option.bind_eq_bind, Option.bind_some, hculist,
    h.kicked v, hreq]
  rfl

/-- The report with a code: the number of arguments tells the meanings of one operation code
apart, and the first byte of a flag. -/
def Report.ofCode (op : NCMDOp) (args : List CString) : Option Report :=
  match op, args with
  | .cNick, [] => some .nickInUse
  | .cNick, [nick] => some (.ownNick nick)
  | .cNick, [new, old] => some (.renamed new old)
  | .cAway, on :: nick :: reason => some (.away (on != .empty) nick reason.head?)
  | .cBeep, [] => some .beeped
  | .cBeep, [nick] => some (.notBeeped nick)
  | .cOper, [nick] => some (.opered nick)
  | .cOper, [] => some .wrongPassword
  | .cPsay, [sender, msg] => some (.told sender msg)
  | .cPsay, [sender, nick, msg] => some (.echoed sender nick msg)
  | .cPsay, [nick] => some (.notTold nick)
  | op, args =>
      if h : op ∈ modeOps then
        match args with
        | [] => some (.notOperator ⟨op, h⟩)
        | [nick] => some (.modeAbsent ⟨op, h⟩ nick)
        | nick :: oper :: _ => some (.mode ⟨op, h⟩ nick oper)
      else none

theorem Report.ofCode_code (r : Report) : ofCode r.op r.args = some r := by
  cases r with
  | away on nick reason => cases on <;> cases reason <;> rfl
  | mode op nick oper =>
      obtain ⟨op, hop⟩ := op
      rcases modeOp_cases ⟨op, hop⟩ with rfl | rfl | rfl | rfl | rfl <;> rfl
  | modeAbsent op nick =>
      obtain ⟨op, hop⟩ := op
      rcases modeOp_cases ⟨op, hop⟩ with rfl | rfl | rfl | rfl | rfl <;> rfl
  | notOperator op =>
      obtain ⟨op, hop⟩ := op
      rcases modeOp_cases ⟨op, hop⟩ with rfl | rfl | rfl | rfl | rfl <;> rfl
  | _ => rfl

/-- No command stands for two reports. -/
theorem Report.CodedAs.unique (h : r.CodedAs m) (h' : r'.CodedAs m) : r' = r := by
  have hr := r.ofCode_code
  have hr' := r'.ofCode_code
  rw [← h.op, show r.args = m.strings from h.args.symm] at hr
  rw [← h'.op, show r'.args = m.strings from h'.args.symm, hr] at hr'
  exact (Option.some.inj hr').symm

end

/-! ### Sending a report -/

section

variable {x : Call} {o : Outcome} {u : Udata} {m msg : NetCmd} {r : Report} {c : NetCmd}
  {s₀ s₁ : CString} {fd : Int} {e : UdataEnt}

/-- All that is sent stands for reports that are true, and for whom they are sent to. -/
def Reports (x : Call) (o : Outcome) : Prop :=
  ∀ fd m, .send fd m ∈ o.effects → ∃ r, Happened x o.udata fd r ∧ r.CodedAs m

theorem reports_silent (h : o.effects = []) : Reports x o := by
  intro fd m hm
  rw [h] at hm
  simp at hm

theorem reports_reply (h : Happened x u x.fd r) (hm : r.CodedAs m) :
    Reports x (x.done u [x.reply m]) := by
  intro fd m' hsent
  obtain ⟨rfl, rfl⟩ := Effect.send.inj (List.mem_singleton.mp hsent)
  exact ⟨r, h, hm⟩

/-- A message that is handed out goes to those in chat. -/
theorem mem_dist {clients : Slot → Client} {excl : Option Slot}
    (h : .send fd m ∈ lcsDistNcmd clients u msg excl) :
    m = msg ∧ u.HasOn fd ∧ ∃ i, some i ≠ excl ∧ fd = (clients i).fd := by
  obtain ⟨i, -, hi⟩ := List.mem_filterMap.mp h
  rw [sendPresent_eq] at hi
  split at hi
  · rename_i hslot
    split at hi
    · rename_i hget
      obtain ⟨hfd, hmsg⟩ := Effect.send.inj (Option.some.inj hi)
      obtain ⟨e, he⟩ := Option.ne_none_iff_exists'.mp hget
      refine ⟨hmsg.symm, ⟨e.user, ?_⟩, i, hslot.2, hfd.symm⟩
      rw [← hfd]
      exact Udata.udataGetByFd_sits he
    · simp at hi
  · simp at hi

theorem reports_dist (heff : o.effects = lcsDistNcmd x.clients o.udata msg none)
    (h : ∀ fd, o.udata.HasOn fd → Happened x o.udata fd r) (hm : r.CodedAs msg) :
    Reports x o := by
  intro fd m hsent
  rw [heff] at hsent
  obtain ⟨rfl, hon, -⟩ := mem_dist hsent
  exact ⟨r, h fd hon, hm⟩

/-! ### Arguments -/

theorem cstr_xstr (nick : Option CString) : cstr (xstr nick ++ [0]) = shown nick := by
  cases nick with
  | none => rfl
  | some nick => exact cstr_terminated nick []

theorem cstr_nul (a : Bytes) : cstr (a ++ [0] ++ [0]) = cstr (a ++ [0]) := by
  refine CString.ext ?_
  show (a ++ [0] ++ [0]).takeWhile (· != 0) = (a ++ [0]).takeWhile (· != 0)
  induction a with
  | nil => rfl
  | cons b a ih =>
      rw [List.cons_append, List.cons_append, List.takeWhile_cons, List.takeWhile_cons, ih]

theorem str0_none (h : ¬ 0 < c.getnumargs) : c.str0 = none := by
  have hnone : c.args[0]? = none := List.getElem?_eq_none (by simpa [NetCmd.getnumargs] using h)
  rw [NetCmd.str0, NetCmd.fetch_none hnone]
  rfl

theorem fetch_arg {k : Nat} (h : k < c.getnumargs) : ∃ a, c.fetch .null k = .blk (a ++ [0]) ∧
    (c.fetch .null k).str = some (cstr (a ++ [0])) := by
  obtain ⟨a, ha⟩ : ∃ a, c.args[k]? = some a := ⟨_, List.getElem?_eq_getElem h⟩
  exact ⟨a, NetCmd.fetch_some ha, by rw [NetCmd.fetch_some ha]; rfl⟩

/-! ### The handlers -/

theorem freeNick_of_none {nick : CString} (h : x.udata.udataGetByNick (some nick) = none) :
    x.udata.room.FreeNick nick := Udata.udataGetByNick_free.mp h

theorem not_freeNick {nick : CString} {t : UdataEnt}
    (h : x.udata.udataGetByNick (some nick) = some t) : ¬ x.udata.room.FreeNick nick := by
  intro hfree
  rw [Udata.udataGetByNick_free.mpr hfree] at h
  simp at h

/-- A new nick is stored, or the old one is there still. -/
theorem renamed_room {old : CString} (hs : x.Sender e) (hold : e.nick = some old)
    (nick : CString) :
    (x.udata.udataUpdate x.env.alloc
        { udataDefEntry with user := some e.user, nick := some nick }).2.room
      = (Act.rename e.user (if x.env.alloc .updateNick then nick else old)).apply x.fd
          x.udata.room ∧
    (x.udata.udataUpdate x.env.alloc
        { udataDefEntry with user := some e.user, nick := some nick }).2.nickOf e.user
      = some (if x.env.alloc .updateNick then nick else old) := by
  have hmem := (Udata.udataGetByFd_some hs).1
  have hseat : x.udata.room e.user = some e.seat := Udata.room_of_mem hmem
  have hroom := @Udata.room_udataUpdate_nick _ _ _ x.env.alloc nick (Udata.udataGet_of_mem hmem)
  have hact : (x.udata.udataUpdate x.env.alloc
        { udataDefEntry with user := some e.user, nick := some nick }).2.room
      = (Act.rename e.user (if x.env.alloc .updateNick then nick else old)).apply x.fd
          x.udata.room := by
    rw [hroom, Act.apply]
    by_cases hupd : x.env.alloc .updateNick = true
    · rw [if_pos hupd, if_pos hupd]
    · -- the nick that is there is written again
      rw [if_neg hupd, if_neg hupd, Room.modify_eq_set hseat]
      funext v
      by_cases hv : v = e.user
      · rw [hv, Room.set_self, hseat, ← hold]
        rfl
      · rw [Room.set_ne _ hv]
  refine ⟨hact, ?_⟩
  refine nickOf_eq _ e.user (s := { e.seat with nick := some _ }) ?_
  rw [hact, Act.apply, Room.modify_self, hseat, Option.map_some]

theorem reports_chatNick (hop : x.cmd.op = .cNick) (h : chatNick x = .ok o) : Reports x o := by
  unfold chatNick chatRename at h
  split at h
  · rename_i hargs
    obtain ⟨a, hfetch, hstr⟩ := fetch_arg hargs
    have hasked : x.cmd.str0 = some (cstr (a ++ [0])) := hstr
    dsimp only at h
    rw [hstr] at h
    split at h
    · rename_i hfree
      split at h
      · simp at h
      · rename_i tud hs
        split at h
        · simp at h
        · rename_i ts hold
          rw [Except.ok.injEq] at h
          subst h
          obtain ⟨hroom, hnick⟩ := renamed_room hs hold (cstr (a ++ [0]))
          refine reports_dist
            (r := .renamed (if x.env.alloc .updateNick then cstr (a ++ [0]) else ts) ts) rfl
            (fun fd hfd => ?_) ⟨rfl, ?_⟩
          · exact .renamed hop hasked (freeNick_of_none hfree) hs hold rfl hroom hfd
          · simp only [NetCmd.strings, NetCmd.set, NetCmd.add, hnick, xstr_some]
            simp [Report.args]
    · rename_i t ht
      rw [Except.ok.injEq] at h
      subst h
      exact reports_reply (.nickInUse hop hasked (not_freeNick ht) rfl rfl) ⟨rfl, rfl⟩
  · rename_i hargs
    split at h
    · simp at h
    · rename_i tud hs
      rw [Except.ok.injEq] at h
      subst h
      refine reports_reply (.ownNick hop (str0_none hargs) hs rfl rfl) ⟨rfl, ?_⟩
      exact congrArg (fun s => [s]) (cstr_xstr tud.nick)

theorem reports_chatBeep (hop : x.cmd.op = .cBeep) : Reports x (chatBeep x) := by
  unfold chatBeep
  split
  · rename_i hargs
    intro fd m hsent
    obtain ⟨rfl, hon, i, hi, hfd⟩ := mem_dist hsent
    refine ⟨.beeped, .beepedAll hop (str0_none (by omega)) ?_ rfl ⟨hfd, hon⟩, rfl, rfl⟩
    exact fun hcl => hi (congrArg some hcl)
  · rename_i hargs
    obtain ⟨a, hfetch, hstr⟩ := fetch_arg (Nat.pos_of_ne_zero hargs)
    dsimp only
    rw [hstr]
    split
    · rename_i t ht
      intro fd m hsent
      obtain ⟨rfl, rfl⟩ := Effect.send.inj (List.mem_singleton.mp hsent)
      refine ⟨.beeped, .beeped hop ?_ rfl rfl, rfl, rfl⟩
      rw [Call.Target, show x.cmd.str0 = _ from hstr]
      exact ht
    · rename_i habsent
      refine reports_reply (.notBeeped hop hstr (freeNick_of_none habsent) rfl rfl) ⟨rfl, ?_⟩
      exact congrArg (fun s => [s]) (cstr_xstr (some _))

theorem reports_chatOper (hop : x.cmd.op = .cOper) : Reports x (chatOper x) := by
  unfold chatOper
  split
  · dsimp only
    rw [str0_eq]
    split
    · exact reports_silent rfl
    · rename_i tud hs
      split
      · rename_i hpw
        refine reports_dist rfl (fun fd hfd => .opered hop hpw hs ?_ hfd) ⟨rfl, ?_⟩
        · exact Udata.room_udataFlagset _ _ _
        · exact congrArg (fun s => [s]) (cstr_xstr tud.nick)
      · rename_i hpw
        intro fd m hsent
        obtain ⟨rfl, rfl⟩ := Effect.send.inj (List.mem_singleton.mp hsent)
        exact ⟨.wrongPassword, .wrongPassword hop hpw rfl rfl, rfl, rfl⟩
  · exact reports_silent rfl

theorem reports_chatPsay (hop : x.cmd.op = .cPsay) (hargs : x.cmd.getnumargs = 2)
    (hin : ∃ e, x.Sender e) : Reports x (chatPsay x) := by
  obtain ⟨e, hs⟩ := hin
  obtain ⟨a, ha, hstr⟩ := fetch_arg (c := x.cmd) (k := 0) (by omega)
  obtain ⟨b, hb, hmsg⟩ := fetch_arg (c := x.cmd) (k := 1) (by omega)
  have hs' : x.udata.udataGetByFd x.fd = some e := hs
  unfold chatPsay
  dsimp only
  rw [hstr, hs', ha, hb]
  split
  · rename_i e' t he ht
    obtain rfl := Option.some.inj he
    have htarget : x.Target t := by
      rw [Call.Target, show x.cmd.str0 = _ from hstr]
      exact ht
    intro fd m hsent
    simp only [Call.done, List.mem_cons, List.not_mem_nil, or_false] at hsent
    rcases hsent with hsent | hsent
    · obtain ⟨rfl, rfl⟩ := Effect.send.inj hsent
      refine ⟨_, .told hop hs htarget hmsg rfl rfl, rfl, ?_⟩
      simp [NetCmd.strings, NetCmd.set, NetCmd.add, cstr_xstr, Report.args, ← cstr_nul b]
    · obtain ⟨rfl, rfl⟩ := Effect.send.inj hsent
      refine ⟨_, .echoed hop hs htarget hmsg rfl rfl, rfl, ?_⟩
      simp [NetCmd.strings, NetCmd.set, NetCmd.add, cstr_xstr, Report.args, ← cstr_nul b]
  · rename_i hnot
    refine reports_reply (.notTold hop hstr ?_ rfl rfl) ⟨rfl, ?_⟩
    · refine freeNick_of_none (Option.eq_none_iff_forall_ne_some.mpr fun t ht => ?_)
      exact hnot e t rfl ht
    · simp [NetCmd.strings, NetCmd.set, NetCmd.add, Report.args, ← cstr_nul a]

theorem reports_chatAway (hop : x.cmd.op = .cAway) : Reports x (chatAway x) := by
  unfold chatAway
  split
  · exact reports_silent rfl
  · rename_i tud hs
    have hroom := room_toggleAway (Udata.udataGetByFd_some hs).1
    refine reports_dist rfl (fun fd hfd => .away hop hs hroom hfd) ?_
    have hflag : cstr ((if tud.has udcFlagAway then ([0] : Bytes) else [1]) ++ [0])
        = Report.flag (!tud.has udcFlagAway) := by
      cases tud.has udcFlagAway <;> rfl
    by_cases hargs : 0 < x.cmd.getnumargs
    · obtain ⟨a, hfetch, hstr⟩ := fetch_arg hargs
      have hstr' : x.cmd.str0 = some (cstr (a ++ [0])) := hstr
      rw [if_pos hargs, hfetch, if_pos (by simp [Arg.blk])]
      refine ⟨rfl, ?_⟩
      simp [NetCmd.strings, NetCmd.set, NetCmd.add, Report.args, hflag, cstr_xstr, hstr',
        ← cstr_nul a]
    · rw [if_neg hargs, if_neg (by simp [Arg.null])]
      refine ⟨rfl, ?_⟩
      simp [NetCmd.strings, NetCmd.set, NetCmd.add, Report.args, hflag, cstr_xstr,
        str0_none hargs]

theorem reports_chatMode (op : ModeOp) (hop : x.cmd.op = op.val) (hargs : 0 < x.cmd.getnumargs)
    (hin : ∃ e, x.Sender e) (h : chatMode x = .ok o) : Reports x o := by
  obtain ⟨e, hs⟩ := hin
  obtain ⟨a, hfetch, hstr⟩ := fetch_arg hargs
  have hasked : x.cmd.str0 = some (cstr (a ++ [0])) := hstr
  have hs' : x.udata.udataGetByFd x.fd = some e := hs
  by_cases hoper : e.has udcFlagOperator = true
  · cases hget : x.udata.udataGetByNick x.cmd.str0 with
    | some t =>
        obtain ⟨act, hact, -, hroom⟩ := does_mode (by rw [hop]; exact op.property) hs hoper hget h
        rw [hop] at hact
        have hget' : x.udata.udataGetByNick (x.cmd.fetch .null 0).str = some t := hget
        simp only [chatMode, modeOn, hs', hargs, hoper, decide_true, Bool.and_self, if_true, hget'] at h
        split at h
        · simp at h
        · rename_i tnick hnick
          have hcoded : (Report.mode op (shown t.nick) (shown e.nick)).CodedAs
              (((NetCmd.set x.cmd.get).add (xstr t.nick)).add tnick.chars) := by
            refine ⟨hop, ?_⟩
            rw [hnick]
            simp [NetCmd.strings, NetCmd.set, NetCmd.add, Report.args, cstr_xstr, shown]
          have hhappened : ∀ fd, o.udata.HasOn fd →
              Happened x o.udata fd (.mode op (shown t.nick) (shown e.nick)) :=
            fun fd hfd => .mode hop hs hoper hget hact hroom hfd
          split at h
          · rw [Except.ok.injEq] at h
            exact reports_dist (by rw [← h]) hhappened hcoded
          · rw [Except.ok.injEq] at h
            exact reports_dist (by rw [← h]; rfl) hhappened hcoded
    | none =>
        have hget' : x.udata.udataGetByNick (x.cmd.fetch .null 0).str = none := hget
        simp only [chatMode, modeOn, hs', hargs, hoper, decide_true, Bool.and_self, if_true, hget'] at h
        split at h
        · simp at h
        · rw [Except.ok.injEq] at h
          subst h
          rw [hasked] at hget
          refine reports_reply (.modeAbsent hop hs hoper hasked (freeNick_of_none hget) rfl rfl)
            ⟨hop, ?_⟩
          rw [hstr]
          exact congrArg (fun s => [s]) (cstr_xstr (some _))
  · have hnot : e.has udcFlagOperator = false := by simpa using hoper
    simp only [chatMode, modeOn, hs', hnot, Bool.and_false, Bool.false_eq_true, if_false,
      Except.ok.injEq] at h
    subst h
    exact reports_reply (.notOperator hop hs hnot rfl rfl) ⟨hop, rfl⟩

/-- **What is sent for a command is true, and for whom it is sent to.** -/
theorem reports_true (hop : x.cmd.get ∈ reportOps) (hform : x.cmd.FromChatter)
    (hin : ∃ e, x.Sender e) (h : handleChatcmd x = .ok o) : Reports x o := by
  rw [reportOps, List.mem_append] at hop
  rcases hop with hop | hop
  · simp only [List.mem_cons, List.not_mem_nil, or_false] at hop
    unfold handleChatcmd at h
    rcases hop with hop | hop | hop | hop | hop <;> rw [hop] at h
    · exact reports_chatNick hop h
    · rw [← Except.ok.inj h]
      exact reports_chatAway hop
    · rw [← Except.ok.inj h]
      exact reports_chatBeep hop
    · rw [← Except.ok.inj h]
      exact reports_chatOper hop
    · rw [← Except.ok.inj h]
      exact reports_chatPsay hop (hform.two hop) hin
  · have hmode : handleChatcmd x = chatMode x := by
      unfold handleChatcmd
      rcases modeOp_cases ⟨x.cmd.get, hop⟩ with hval | hval | hval | hval | hval <;>
        rw [show x.cmd.get = _ from hval]
    rw [hmode] at h
    exact reports_chatMode ⟨x.cmd.get, hop⟩ rfl (hform.one (Or.inr hop)) hin h

end

/-! ### Both ends -/

variable {mem : Memory} {s s' : Server} {i : Slot} {c : NetCmd} {env : Env} {out : List Effect}

end Smsg
