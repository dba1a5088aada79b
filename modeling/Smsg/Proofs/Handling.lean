/-
The handlers over pointers do what the others do.

A fetch with a NUL behind it leaves a string, or what was there before, and in the beginning
that is `NULL` (`Arg.Held`).  What is held can be looked at, and then it is what the handlers
over `Option` are given.  So where every fetch succeeds the two have the same outcome, command
by command (`result_lsHandleNetcmdPtr`).
-/
import Smsg.Uses
import Smsg.Proofs.Prefs

namespace Smsg

open Watching

variable {x : Call} {m : Grants} {t : Arg} {k n : Nat} {α : Type}

/-! ### Fetching -/

/-- `NULL`, or a string that has been fetched. -/
def Arg.Held (t : Arg) : Prop := t = .null ∨ ∃ a, t = .blk (a ++ [0])

@[simp] theorem held_null : Arg.null.Held := Or.inl rfl
@[simp] theorem held_blk (a : Bytes) : (Arg.blk (a ++ [0])).Held := Or.inr ⟨a, rfl⟩

theorem getarg_none (h : x.got m k n = none) : x.getarg m k t n = (-1, t) := by
  rw [Call.getarg, h]

theorem getarg_some {a : Bytes} (h : x.got m k n = some a) :
    x.getarg m k t n = (0, .blk (a ++ [0])) := by
  rw [Call.getarg, h]

@[simp] theorem held_getarg (ht : t.Held) : (x.getarg m k t n).2.Held := by
  cases h : x.got m k n with
  | none => rwa [getarg_none h]
  | some a =>
      rw [getarg_some h]
      exact held_blk a

theorem str_getarg (x : Call) (m : Grants) (k : Nat) (t : Arg) (n : Nat) :
    (x.getarg m k t n).2.str = ((x.got m k n).map fun a => cstr (a ++ [0])).or t.str := by
  cases h : x.got m k n with
  | none =>
      rw [getarg_none h]
      rfl
  | some a =>
      rw [getarg_some h]
      rfl

theorem got_eq_some {a : Bytes} : x.got m k n = some a ↔
    x.cmd.args[n]? = some a ∧ m k a.length = true ∧ a.length < 2 ^ 31 := by
  rw [Call.got, Option.filter_eq_some_iff, Bool.and_eq_true, decide_eq_true_eq]

/-- Where the target holds no block or there is something to copy, nothing is freed. -/
theorem getargRaw_copies (h : (∀ b, t.ap ≠ .blk b) ∨ x.cmd.args[n]? ≠ some []) :
    x.getargRaw m k t n = ((x.got m k n).map fun a => (0, Arg.blk a)).getD (-1, t) := by
  unfold Call.getargRaw
  split
  · rename_i b hap hargs
    exact (h.elim (fun hno => hno b hap) fun hno => hno hargs).elim
  · cases x.got m k n <;> rfl

/-- What the fetch of the beep leaves. -/
theorem getargRaw_cases (x : Call) (m : Grants) (k n : Nat) (a : Bytes) :
    (x.cmd.args[n]? = some [] ∧ (x.getargRaw m k (.blk a) n).2.ap = .freed) ∨
      (x.cmd.args[n]? ≠ some [] ∧ x.got m k n = none ∧
        (x.getargRaw m k (.blk a) n).2 = .blk a) ∨
      ∃ b, x.cmd.args[n]? ≠ some [] ∧ x.got m k n = some b ∧ b ≠ [] ∧
        (x.getargRaw m k (.blk a) n).2 = .blk b := by
  by_cases hempty : x.cmd.args[n]? = some []
  · refine Or.inl ⟨hempty, ?_⟩
    simp only [Call.getargRaw, Arg.blk, hempty]
  · rw [getargRaw_copies (Or.inr hempty)]
    cases hgot : x.got m k n with
    | none => exact Or.inr (Or.inl ⟨hempty, rfl, rfl⟩)
    | some b =>
        refine Or.inr (Or.inr ⟨b, hempty, rfl, ?_, rfl⟩)
        rintro rfl
        exact hempty (got_eq_some.mp hgot).1

/-! ### Using what is held -/

theorem isString_blk (a : Bytes) : (Arg.blk (a ++ [0])).IsString := by
  refine ⟨a ++ [0], rfl, ?_⟩
  rw [Arg.blk, List.take_length]
  simp

theorem not_isString_null : ¬ Arg.null.IsString := by
  rintro ⟨b, hb, -⟩
  simp [Arg.null] at hb

/-- A string ends in its block. -/
theorem string_blk (x : Call) (a : Bytes) : x.string (.blk (a ++ [0])) = .ok (cstr (a ++ [0])) := by
  have hcstr : ∀ (a rest : Bytes), cstr (a ++ 0 :: rest) = cstr (a ++ [0]) := by
    intro a rest
    refine CString.ext ?_
    show (a ++ 0 :: rest).takeWhile (· != 0) = (a ++ [0]).takeWhile (· != 0)
    induction a with
    | nil => rfl
    | cons c a ih => rw [List.cons_append, List.cons_append, List.takeWhile_cons,
        List.takeWhile_cons, ih]
  show Except.ok (cstr ((a ++ [0]) ++ x.env.beyond)) = _
  rw [List.append_assoc, List.singleton_append, hcstr]

theorem useLookup_held (ht : t.Held) : x.useLookup t = Watched.act (.lookup t) (.ok t.str) := by
  rcases ht with rfl | ⟨a, rfl⟩
  · rfl
  · rw [Call.useLookup, string_blk]
    rfl

theorem logs_held (ht : t.Held) : x.logs t = Watched.act (.lookup t) (.ok ()) := by
  rw [Call.logs, useLookup_held ht]
  rfl

theorem useBytes_held (ht : t.Held) : x.useBytes t = Watched.act (.bytes t) (.ok t.bytes) := by
  rcases ht with rfl | ⟨a, rfl⟩
  · rfl
  · have htake : ((a ++ [0]) ++ x.env.beyond).take (a ++ [0]).length = (a ++ [0]) := by
      rw [List.take_left]
    show Watched.act _ (.ok (((a ++ [0]) ++ x.env.beyond).take (a ++ [0]).length)) = _
    rw [htake, Arg.bytes]
    show _ = Watched.act _ (.ok ((a ++ [0]).take (a ++ [0]).length))
    rw [List.take_length]

theorem useString_held (ht : t.Held) : x.useString t = Watched.act (.string t)
    (match t.str with | none => .error .nullString | some s => .ok s) := by
  rcases ht with rfl | ⟨a, rfl⟩
  · rfl
  · rw [Call.useString, string_blk]
    rfl

theorem held_first (x : Call) (m : Grants) (k n : Nat) : (x.getarg m k .null n).2.Held :=
  held_getarg held_null

theorem str_first (x : Call) (m : Grants) (k n : Nat) :
    (x.getarg m k .null n).2.str = (x.got m k n).map fun a => cstr (a ++ [0]) := by
  rw [str_getarg]
  exact Option.or_none

/-! ### Looking at what is held -/

theorem result_useLookup (ht : t.Held) (f : Option CString → Handling α) :
    (x.useLookup t >>= f).result = (f t.str).result := by
  rw [useLookup_held ht, Watched.result_act_bind]

theorem result_logs (ht : t.Held) (f : Unit → Handling α) :
    (x.logs t >>= f).result = (f ()).result := by
  rw [logs_held ht, Watched.result_act_bind]

theorem result_useBytes (ht : t.Held) (f : Bytes → Handling α) :
    (x.useBytes t >>= f).result = (f t.bytes).result := by
  rw [useBytes_held ht, Watched.result_act_bind]

theorem result_useString (ht : t.Held) (f : CString → Handling α) :
    (x.useString t >>= f).result = match t.str with
      | none => .error .nullString
      | some s => (f s).result := by
  rw [useString_held ht, Watched.result_bind, Watched.result_act]
  cases t.str <;> rfl

/-- What `MSG` comes to, whatever it gets hold of. -/
theorem result_handleMsgPtr (m : Grants) (x : Call) :
    (handleMsgPtr m x).result = .ok (msgFor x (x.getarg m 2 (x.getarg m 0 .null 0).2 1).2.str
      (x.getarg m 3 (x.getarg m 2 (x.getarg m 0 .null 0).2 1).2 0).2.str
      (x.getarg m 4 (x.getarg m 1 .null 1).2 2).2.str) := by
  have h0 := held_first x m 0 0
  have h1 := held_first x m 1 1
  have h2 : (x.getarg m 2 (x.getarg m 0 .null 0).2 1).2.Held := held_getarg h0
  unfold handleMsgPtr
  simp only [result_useLookup, result_logs, result_useString, held_getarg, h0, h1, h2,
    Watched.result_ite, Watched.result_pure]
  cases hstr : (x.getarg m 2 (x.getarg m 0 .null 0).2 1).2.str with
  | none => rfl
  | some user =>
      rw [xstr_some]
      by_cases hempty : user.chars = []
      · rw [if_pos hempty, msgFor, if_pos hempty]
      · rw [if_neg hempty]

/-! ### Where every fetch succeeds -/

variable (h : x.Granted m)

include h in
theorem got_granted (k n : Nat) : x.got m k n = x.cmd.args[n]? := by
  cases hargs : x.cmd.args[n]? with
  | none => rw [Call.got, hargs, Option.filter_none]
  | some a => exact got_eq_some.mpr ⟨hargs, h k a (List.mem_of_getElem? hargs)⟩

include h in
theorem getarg_granted (k n : Nat) (t : Arg) : (x.getarg m k t n).2 = x.cmd.fetch t n := by
  rw [Call.getarg, got_granted h, NetCmd.fetch]
  cases x.cmd.args[n]? <;> rfl

theorem held_fetch (c : NetCmd) (ht : t.Held) (n : Nat) : (c.fetch t n).Held := by
  unfold NetCmd.fetch
  split
  · exact ht
  · exact held_blk _

/-! #### One command after the other -/

include h in
theorem result_handleGetqmsgPtr : (handleGetqmsgPtr m x).result = handleGetqmsg x := by
  have h0 := held_fetch x.cmd held_null 0
  have h1 := held_fetch x.cmd h0 0
  unfold handleGetqmsgPtr handleGetqmsg
  simp only [getarg_granted h, result_logs, result_useString, h0, h1, Watched.result_ite,
    Watched.result_pure, Watched.result_lift]
  split
  · rfl
  · cases hargs : x.cmd.args[0]? with
    | none => simp only [NetCmd.fetch_none hargs]; rfl
    | some a => simp only [NetCmd.fetch_some hargs, Arg.str_blk]

include h in
theorem result_handleGetprefPtr : (handleGetprefPtr m x).result = handleGetpref x := by
  have h0 := held_fetch x.cmd held_null 0
  have h1 := held_fetch x.cmd h0 0
  unfold handleGetprefPtr handleGetpref
  simp only [getarg_granted h, result_logs, result_useString, result_useLookup, h0, h1,
    Watched.result_ite, Watched.result_pure]
  split
  · rfl
  · cases hargs : x.cmd.args[0]? with
    | none => simp only [NetCmd.fetch_none hargs]; rfl
    | some a => simp only [NetCmd.fetch_some hargs, Arg.str_blk]

include h in
theorem getargRaw_granted {a : Bytes} (ht : t.ap = .blk a) (n k : Nat) :
    x.cmd.getarg t n false = some (x.getargRaw m k t n) := by
  rw [NetCmd.getarg, Call.getargRaw, ht]
  cases hargs : x.cmd.args[n]? with
  | none => simp [got_granted h, hargs]
  | some b => cases b <;> simp [got_granted h, hargs]

theorem result_useByte (ht : t.ap ≠ .blk []) : (x.useByte t).result = firstChar t := by
  obtain ⟨ap, n⟩ := t
  cases ap with
  | null => rfl
  | freed => rfl
  | blk b =>
      cases b with
      | nil => exact absurd rfl ht
      | cons c b => rfl

include h in
theorem result_setprefPtr {a : Bytes} (ha : x.cmd.args[0]? = some a) :
    (setprefPtr m x (.blk (a ++ [0]))).result = setpref x (.blk (a ++ [0])) := by
  have hbeep : (x.getargRaw m 1 (.blk (a ++ [0])) 2).2.ap ≠ .blk [] := by
    rcases getargRaw_cases x m 1 2 (a ++ [0]) with ⟨-, hfreed⟩ | ⟨-, -, hraw⟩ | ⟨b, -, -, hb, hraw⟩
    · rw [hfreed]
      simp
    · rw [hraw]
      simp [Arg.blk]
    · rw [hraw]
      simpa [Arg.blk] using hb
  have h1 := held_fetch x.cmd held_null 3
  have hmode : (x.cmd.fetch .null 3).ap ≠ .blk [] := by
    rcases h1 with h1 | ⟨c, h1⟩
    · rw [h1]
      simp [Arg.null]
    · rw [h1]
      simp [Arg.blk]
  unfold setprefPtr setpref
  rw [getargRaw_granted h rfl 2 1]
  simp only [getarg_granted h]
  rw [Watched.result_bind, result_useByte hbeep]
  show (firstChar _ >>= _) = (firstChar _ >>= _)
  refine congrArg _ (funext fun tbeep => ?_)
  rw [Watched.result_bind, result_useByte hmode]
  refine congrArg _ (funext fun tmode => ?_)
  rw [result_useLookup (held_fetch x.cmd h1 1), NetCmd.fetch_some ha,
    result_useLookup (held_blk a)]
  rfl

include h in
theorem result_handleSetprefPtr : (handleSetprefPtr m x).result = handleSetpref x := by
  have h0 := held_fetch x.cmd held_null 0
  unfold handleSetprefPtr handleSetpref
  simp only [getarg_granted h, result_logs, result_useString, h0,
    Watched.result_ite, Watched.result_pure]
  split
  · rfl
  · cases hargs : x.cmd.args[0]? with
    | none => simp only [NetCmd.fetch_none hargs]; rfl
    | some a => simp only [NetCmd.fetch_some hargs, Arg.str_blk, result_setprefPtr h hargs]

include h in
/-- The end of a leave, with what there is of a reason. -/
theorem result_chatdoorLeave {second : Int × Arg} (u : Udata) (tuent : UdataEnt)
    (hsecond : second.2 = if x.cmd.getnumargs = 1 then .null else x.cmd.fetch .null 1) :
    (if !tuent.has udcFlagPresent then pure (x.nak u errorChatNotpresent)
      else do
        let targ1 := if x.cmd.getnumargs = 3 then (x.getarg m 2 second.2 2).2 else second.2
        x.logs targ1
        let msg := doorMsg 0 tuent.nick
        if targ1.ap = .null then return chatdoorExit x u tuent msg
        else
          let reason ← x.useBytes targ1
          return chatdoorExit x u tuent (msg.add reason) : Handling Outcome).result =
      .ok (chatdoorLeave x u tuent) := by
  have hsecond' : second.2.Held := by
    rw [hsecond]
    split
    · exact held_null
    · exact held_fetch x.cmd held_null 1
  have hheld : (if x.cmd.getnumargs = 3 then x.cmd.fetch second.2 2 else second.2).Held := by
    split
    · exact held_fetch x.cmd hsecond' 2
    · exact hsecond'
  unfold chatdoorLeave
  simp only [getarg_granted h, ← hsecond]
  generalize (if x.cmd.getnumargs = 3 then x.cmd.fetch second.2 2 else second.2) = targ1 at hheld
  by_cases hpres : (!tuent.has udcFlagPresent) = true
  · rw [if_pos hpres, if_pos hpres]
    rfl
  · rw [if_neg hpres, if_neg hpres, result_logs hheld]
    by_cases hnull : targ1.ap = .null
    · rw [if_pos hnull, if_neg (not_not.mpr hnull)]
      rfl
    · rw [if_neg hnull, if_pos hnull, result_useBytes hheld]
      rfl

theorem result_chatdoorJoin (u : Udata) (tuent : UdataEnt) :
    (if tuent.has udcFlagBanned then pure (x.nak u errorChatBanned)
      else if tuent.has udcFlagPresent then pure (x.nak u errorChatIspresent)
      else do
        let nick ← x.useLookup (x.cmd.fetch .null 1)
        x.logs (x.cmd.fetch .null 1)
        if (u.udataGetByNick nick).isSome then return x.nak u errorChatNickinuse
        else return chatdoorEnter x u tuent nick : Handling Outcome).result =
      .ok (chatdoorJoin x u tuent) := by
  have h1 := held_fetch x.cmd held_null 1
  unfold chatdoorJoin
  simp only [result_useLookup, result_logs, h1, Watched.result_ite, Watched.result_pure]
  split
  · rfl
  · split
    · rfl
    · split <;> rfl

include h in
theorem result_chatdoorPtr (u : Udata) (tuent : UdataEnt) : (chatdoorPtr m x u tuent).result =
    .ok (if x.cmd.leaves then chatdoorLeave x u tuent else chatdoorJoin x u tuent) := by
  -- what the condition has left behind of the second argument
  have hsecond : ∃ second, (if 1 < x.cmd.getnumargs then x.getarg m 1 .null 1 else (-1, .null))
      = second ∧ (x.cmd.leaves = true ↔ x.cmd.getnumargs = 1 ∨
        (1 < x.cmd.getnumargs ∧ second.1 ≠ -1 ∧ second.2.aplen = 1)) ∧
      (second.2 = if x.cmd.getnumargs = 1 then .null else x.cmd.fetch .null 1) ∧
      x.cmd.fetch second.2 1 = x.cmd.fetch .null 1 := by
    refine ⟨_, rfl, ?_⟩
    cases hargs : x.cmd.args[1]? with
    | none =>
        have hlen : ¬ 1 < x.cmd.getnumargs := by
          simpa [NetCmd.getnumargs] using hargs
        simp [hlen, NetCmd.leaves, NetCmd.fetch_none hargs]
    | some b =>
        have hlen : 1 < x.cmd.getnumargs := (List.getElem?_eq_some_iff.mp hargs).1
        have hgot : x.got m 1 1 = some b := by rw [got_granted h, hargs]
        have hone : x.cmd.getnumargs ≠ 1 := by omega
        simp [hlen, hone, NetCmd.leaves, getarg_some hgot, NetCmd.fetch_some hargs]
  obtain ⟨second, hdef, hleaves, htarg, hagain⟩ := hsecond
  unfold chatdoorPtr
  dsimp only
  rw [hdef]
  by_cases hl : x.cmd.leaves = true
  · rw [if_pos (hleaves.mp hl), if_pos hl]
    exact result_chatdoorLeave h u tuent htarg
  · rw [if_neg (fun hc => hl (hleaves.mpr hc)), if_neg hl, getarg_granted h, hagain]
    exact result_chatdoorJoin u tuent

include h in
theorem result_handleChatdoorPtr : (handleChatdoorPtr m x).result = .ok (handleChatdoor x) := by
  have h0 := held_fetch x.cmd held_null 0
  unfold handleChatdoorPtr handleChatdoor
  simp only [getarg_granted h, result_useLookup, h0]
  rw [← NetCmd.doorUser]
  cases (enrol x.env.alloc x.udata x.cmd.doorUser).udataGet x.cmd.doorUser with
  | none => rfl
  | some tuent => exact result_chatdoorPtr h _ tuent

include h in
theorem result_chatNickPtr : (chatNickPtr m x).result = chatNick x := by
  have h0 := held_fetch x.cmd held_null 0
  unfold chatNickPtr
  split
  · rename_i hargs
    rw [chatNick, if_pos hargs]
    simp only [getarg_granted h, result_useLookup, result_logs, h0]
    cases x.udata.udataGetByNick (x.cmd.fetch .null 0).str with
    | some tud => rfl
    | none =>
        cases x.udata.udataGetByFd x.fd with
        | none => rfl
        | some tud => cases hnick : tud.nick <;> simp only [hnick] <;> rfl
  · rfl

include h in
theorem result_chatAwayPtr : (chatAwayPtr m x).result = .ok (chatAway x) := by
  have h0 : (if 0 < x.cmd.getnumargs then x.cmd.fetch .null 0 else .null).Held := by
    split
    · exact held_fetch x.cmd held_null 0
    · exact held_null
  unfold chatAwayPtr chatAway
  cases x.udata.udataGetByFd x.fd with
  | none => rfl
  | some tud =>
      simp only [getarg_granted h, result_useBytes, result_logs, h0, Watched.result_ite,
        Watched.result_pure]
      by_cases hnull : (if 0 < x.cmd.getnumargs then x.cmd.fetch .null 0 else .null).ap = .null
      · rw [if_pos hnull, if_neg (not_not.mpr hnull)]
      · rw [if_neg hnull, if_pos hnull]

include h in
theorem result_chatBeepPtr : (chatBeepPtr m x).result = .ok (chatBeep x) := by
  have h0 := held_fetch x.cmd held_null 0
  unfold chatBeepPtr
  split
  · rfl
  · rename_i hargs
    rw [chatBeep, if_neg hargs]
    simp only [getarg_granted h, result_useLookup, h0]
    cases x.udata.udataGetByNick (x.cmd.fetch .null 0).str <;> rfl

include h in
theorem result_chatOperPtr : (chatOperPtr m x).result = .ok (chatOper x) := by
  unfold chatOperPtr chatOper
  by_cases hpos : 0 < x.cmd.getnumargs
  · obtain ⟨a, ha⟩ : ∃ a, x.cmd.args[0]? = some a := ⟨_, List.getElem?_eq_getElem hpos⟩
    rw [if_pos hpos, if_pos hpos]
    cases x.udata.udataGetByFd x.fd with
    | none => rfl
    | some tud =>
        simp only [getarg_granted h, NetCmd.fetch_some ha, result_useString, held_blk, Arg.str_blk,
          Watched.result_ite, Watched.result_pure, Option.some.injEq]
        by_cases hpass : cstr (a ++ [0]) = lcsOperPassword
        · rw [if_pos hpass, if_pos hpass]
        · rw [if_neg hpass, if_neg hpass]
  · rw [if_neg hpos, if_neg hpos]
    rfl

include h in
theorem result_chatPsayPtr : (chatPsayPtr m x).result = .ok (chatPsay x) := by
  have h0 := held_fetch x.cmd held_null 0
  have h1 := held_fetch x.cmd held_null 1
  unfold chatPsayPtr chatPsay
  simp only [getarg_granted h, result_useLookup, h0]
  cases x.udata.udataGetByFd x.fd with
  | none => rw [result_useBytes h0]; rfl
  | some tudSender =>
      cases x.udata.udataGetByNick (x.cmd.fetch .null 0).str with
      | none => rw [result_useBytes h0]; rfl
      | some tud => rw [result_useBytes h1]; rfl

theorem bytes_lcsMsgTranslate (ht : t.Held) :
    (lcsMsgTranslate t).bytes = t.bytes.map translateByte := by
  rcases ht with rfl | ⟨a, rfl⟩
  · rfl
  · show ((a ++ [0]).map translateByte).take (a ++ [0]).length = _
    rw [← List.map_take]
    rfl

include h in
theorem result_chatSayPtr : (chatSayPtr m x).result = chatSay x := by
  have h0 := held_fetch x.cmd held_null 0
  unfold chatSayPtr chatSay
  simp only [getarg_granted h]
  rw [Watched.result_bind, Watched.result_lift]
  cases lcsComposeName x.udata x.fd with
  | error f => rfl
  | ok ts =>
      show (x.useBytes _ >>= _).result = _
      rw [result_useBytes h0]
      cases x.beleet with
      | false => rfl
      | true =>
          simp only [if_true, bytes_lcsMsgTranslate h0]
          rfl

include h in
theorem result_chatWhoPtr : (chatWhoPtr m x).result = chatWho x := by
  unfold chatWhoPtr
  cases hargs : x.cmd.args with
  | nil =>
      rw [chatWho, whoType, whoByte]
      simp only [NetCmd.getnumargs, hargs]
      rfl
  | cons a args =>
      have hfirst : x.cmd.args[0]? = some a := by rw [hargs]; rfl
      have hraw : x.getargRaw m 1 .null 0 = (0, .blk a) := by
        rw [Call.getargRaw, got_granted h, hfirst]
        rfl
      have hpos : 0 < x.cmd.getnumargs := by simp [NetCmd.getnumargs, hargs]
      rw [if_pos hpos, hraw, chatWho, whoType, whoByte, hfirst]
      cases a <;> rfl

include h in
theorem result_chatModePtr : (chatModePtr m x).result = chatMode x := by
  have h0 := held_fetch x.cmd held_null 0
  unfold chatModePtr chatMode
  cases x.udata.udataGetByFd x.fd with
  | none => rfl
  | some op =>
      by_cases hop : (decide (0 < x.cmd.getnumargs) && op.has udcFlagOperator) = true
      · simp only [if_pos hop]
        cases op.nick with
        | none => rfl
        | some tnick =>
            simp only [getarg_granted h, result_useLookup, h0]
            rfl
      · simp only [if_neg hop]
        rfl

include h in
theorem result_handleChatcmdPtr : (handleChatcmdPtr m x).result = handleChatcmd x := by
  unfold handleChatcmdPtr handleChatcmd
  cases x.cmd.get with
  | cNick => exact result_chatNickPtr h
  | cAway => exact result_chatAwayPtr h
  | cBeep => exact result_chatBeepPtr h
  | cOper => exact result_chatOperPtr h
  | cPsay => exact result_chatPsayPtr h
  | cSay => exact result_chatSayPtr h
  | cMe => exact result_chatSayPtr h
  | cWho => exact result_chatWhoPtr h
  | cBan => exact result_chatModePtr h
  | cDeop => exact result_chatModePtr h
  | cKick => exact result_chatModePtr h
  | cOp => exact result_chatModePtr h
  | cUnban => exact result_chatModePtr h
  | _ => rfl

include h in
theorem result_magicWhoPtr : (magicWhoPtr m x).result = .ok x.cmd.isMagicWho := by
  have h0 := held_fetch x.cmd held_null 0
  unfold magicWhoPtr
  split
  · rename_i hone
    obtain ⟨a, ha⟩ : ∃ a, x.cmd.args[0]? = some a :=
      ⟨_, List.getElem?_eq_getElem (by rw [show x.cmd.args.length = 1 from hone.2]; decide)⟩
    simp only [getarg_granted h, result_useString, h0]
    rw [NetCmd.fetch_some ha, Arg.str_blk, NetCmd.isMagicWho, hone.1, hone.2, NetCmd.fetch_some ha]
    rfl
  · rename_i hone
    refine congrArg Except.ok (Eq.symm ?_)
    rw [NetCmd.isMagicWho, Bool.and_eq_false_iff]
    left
    simpa using fun hop => fun hnum => hone ⟨hop, hnum⟩

include h in
theorem result_switch (op : NCMDOp) :
    (if op.isChatcmd then do
        let magic ← magicWhoPtr m x
        if magic || x.inChat then handleChatcmdPtr m x else return x.done x.udata []
      else pure { x.done x.udata [] with retval := -1 } : Handling Outcome).result =
      if op.isChatcmd then
        if x.cmd.isMagicWho || x.inChat then handleChatcmd x else .ok (x.done x.udata [])
      else .ok { x.done x.udata [] with retval := -1 } := by
  split
  · rw [Watched.result_bind, result_magicWhoPtr h]
    show (if x.cmd.isMagicWho || x.inChat then handleChatcmdPtr m x
      else pure (x.done x.udata [])).result = _
    rw [Watched.result_ite, result_handleChatcmdPtr h]
    rfl
  · rfl

include h in
/--
**Where every call of `ncmd_getarg` succeeds, the handlers over pointers do what the others
do.**
-/
theorem result_lsHandleNetcmdPtr : (lsHandleNetcmdPtr m x).result = lsHandleNetcmd x := by
  unfold lsHandleNetcmdPtr lsHandleNetcmd
  cases x.cmd.get with
  | msg =>
      show (handleMsgPtr m x).result = _
      rw [result_handleMsgPtr]
      simp only [getarg_granted h]
      rfl
  | getqmsg => exact result_handleGetqmsgPtr h
  | getlist => rfl
  | setpref => exact result_handleSetprefPtr h
  | getpref => exact result_handleGetprefPtr h
  | chatdoor => exact result_handleChatdoorPtr h
  | _ => exact result_switch h _

end Smsg
