/-
Which commands the handlers cannot cope with.

What is held after a fetch is `NULL` or a string.  So what can go wrong is a use that looks for
neither: the name for `getpwnam` or a password that has not been fetched, and the bytes that
`SETPREF` and `C_WHO` read from an argument that is missing or empty (`tolerates_iff`).
-/
import Smsg.Proofs.Delivery
import Smsg.Proofs.Handling

namespace Smsg

open Machines Watching

variable {x : Call} {m : Grants} {t : Arg} {k n : Nat} {α : Type}

/-! ### What is fine -/

theorem lookup_held (ht : t.Held) : (ArgUse.lookup t).Fine := by
  rcases ht with rfl | ⟨a, rfl⟩
  · exact Or.inl rfl
  · exact Or.inr (isString_blk a)

theorem bytes_held (ht : t.Held) : (ArgUse.bytes t).Fine := by
  rcases ht with rfl | ⟨a, rfl⟩
  · exact Nat.zero_le _
  · exact le_refl _

theorem string_held (ht : t.Held) : (ArgUse.string t).Fine ↔ t.str ≠ none := by
  rcases ht with rfl | ⟨a, rfl⟩
  · exact iff_of_false not_isString_null (by simp [Arg.str, Arg.null])
  · exact iff_of_true (isString_blk a) (by simp)

theorem every_useLookup (ht : t.Held) (f : Option CString → Handling α) :
    (x.useLookup t >>= f).Every ArgUse.Fine ↔ (f t.str).Every ArgUse.Fine := by
  rw [useLookup_held ht, Watched.every_act_bind, and_iff_right (lookup_held ht)]

theorem every_logs (ht : t.Held) (f : Unit → Handling α) :
    (x.logs t >>= f).Every ArgUse.Fine ↔ (f ()).Every ArgUse.Fine := by
  rw [logs_held ht, Watched.every_act_bind, and_iff_right (lookup_held ht)]

theorem every_useBytes (ht : t.Held) (f : Bytes → Handling α) :
    (x.useBytes t >>= f).Every ArgUse.Fine ↔ (f t.bytes).Every ArgUse.Fine := by
  rw [useBytes_held ht, Watched.every_act_bind, and_iff_right (bytes_held ht)]

theorem every_useString (ht : t.Held) (f : CString → Handling α) :
    (x.useString t >>= f).Every ArgUse.Fine ↔
      ∃ s, t.str = some s ∧ (f s).Every ArgUse.Fine := by
  rw [useString_held ht, Watched.every_bind, Watched.every_act, string_held ht]
  cases t.str with
  | none => simp
  | some s => simp

/-! ### One command after the other -/

theorem every_handleMsgPtr (m : Grants) (x : Call) : (handleMsgPtr m x).Every ArgUse.Fine := by
  have h0 := held_first x m 0 0
  have h1 := held_first x m 1 1
  have h2 : (x.getarg m 2 (x.getarg m 0 .null 0).2 1).2.Held := held_getarg h0
  unfold handleMsgPtr
  simp only [every_useLookup, every_logs, every_useString, held_getarg, h0, h1, h2,
    Watched.every_ite, Watched.every_pure]
  split
  · trivial
  · rename_i hgiven
    cases hstr : (x.getarg m 2 (x.getarg m 0 .null 0).2 1).2.str with
    | none => simp [hstr, xstr] at hgiven
    | some s => exact ⟨s, rfl, trivial⟩

theorem str_getarg_blk (x : Call) (m : Grants) (k n : Nat) (a : Bytes) :
    ∃ s, (x.getarg m k (.blk (a ++ [0])) n).2.str = some s := by
  rw [str_getarg, Arg.str_blk]
  cases x.got m k n with
  | none => exact ⟨_, rfl⟩
  | some b => exact ⟨_, rfl⟩

/-- `GETQMSG` follows the pointer to the user for a local client. -/
theorem every_handleGetqmsgPtr (m : Grants) (x : Call) :
    (handleGetqmsgPtr m x).Every ArgUse.Fine ↔
      ¬ (islocal (x.clients x.cl).address = true ∧ x.got m 0 0 = none) := by
  unfold handleGetqmsgPtr
  cases hgot : x.got m 0 0 with
  | none =>
      simp only [getarg_none hgot, every_logs, every_useString, held_null, Watched.every_ite,
        Watched.every_pure]
      split <;> simp_all [Arg.null, Arg.str]
  | some a =>
      simp only [getarg_some hgot, every_logs, every_useString, held_blk, held_getarg,
        Watched.every_ite, Watched.every_pure, Watched.every_lift, Arg.str_blk, and_true]
      refine iff_of_true ?_ (by simp)
      split
      · trivial
      · refine ⟨_, rfl, ?_⟩
        split
        · trivial
        · exact str_getarg_blk x m 1 0 a

/-- So does `GETPREF`. -/
theorem every_handleGetprefPtr (m : Grants) (x : Call) :
    (handleGetprefPtr m x).Every ArgUse.Fine ↔
      ¬ (islocal (x.clients x.cl).address = true ∧ x.got m 0 0 = none) := by
  unfold handleGetprefPtr
  cases hgot : x.got m 0 0 with
  | none =>
      simp only [getarg_none hgot, every_logs, every_useString, held_null, Watched.every_ite,
        Watched.every_pure]
      split <;> simp_all [Arg.null, Arg.str]
  | some a =>
      simp only [getarg_some hgot, every_logs, every_useString, every_useLookup, held_blk,
        held_getarg, Watched.every_ite, Watched.every_pure, Arg.str_blk, ite_self, and_true]
      refine iff_of_true ?_ (by simp)
      split
      · trivial
      · exact ⟨_, rfl⟩

/-! ### The bytes of `SETPREF` -/

theorem every_useByte {b : Bytes} (hb : b ≠ []) (f : UInt8 → Handling α) :
    (x.useByte (.blk b) >>= f).Every ArgUse.Fine ↔
      (f ((b ++ x.env.beyond).headD 0)).Every ArgUse.Fine := by
  have hfine : (ArgUse.byte (.blk b)).Fine := ⟨b, rfl, rfl, List.length_pos_iff.mpr hb⟩
  show (Watched.act _ (.ok _) >>= f).Every _ ↔ _
  rw [Watched.every_act_bind, and_iff_right hfine]

theorem not_every_useByte (ht : ∀ b, t.ap ≠ .blk b) (f : UInt8 → Handling α) :
    ¬ (x.useByte t >>= f).Every ArgUse.Fine := by
  intro h
  rw [Watched.every_bind, Call.useByte, Watched.every_act] at h
  obtain ⟨⟨b, hb, -⟩, -⟩ := h
  exact ht b hb

/-- A block is read as a string if it has a NUL. -/
theorem lookup_blk (b : Bytes) : (ArgUse.lookup (.blk b)).Fine ↔ 0 ∈ b := by
  show (Arg.blk b).ap = .null ∨ (Arg.blk b).IsString ↔ _
  have hlive : (Arg.blk b).ap ≠ .null := by simp [Arg.blk]
  rw [or_iff_right hlive]
  constructor
  · rintro ⟨b', hb, hnul⟩
    obtain rfl : b = b' := Ptr.blk.inj hb
    exact List.mem_of_mem_take hnul
  · intro hnul
    refine ⟨b, rfl, ?_⟩
    rwa [Arg.blk, List.take_length]

/-- The end of `SETPREF`, where the user may have to be read out of what holds the beep. -/
theorem every_lookups {b : Bytes} {targ1 : Arg} (h1 : targ1.Held)
    (f : Option CString → Option CString → Outcome) :
    (do
      let tty ← x.useLookup targ1
      let user ← x.useLookup (x.getarg m 3 (.blk b) 0).2
      return f tty user : Handling Outcome).Every ArgUse.Fine ↔
      ¬ (x.got m 3 0 = none ∧ 0 ∉ b) := by
  rw [every_useLookup h1, Watched.every_bind, Call.useLookup, Watched.every_act]
  simp only [Watched.every_pure, implies_true, and_true]
  cases hgot : x.got m 3 0 with
  | none =>
      rw [getarg_none hgot, lookup_blk]
      simp
  | some a =>
      rw [getarg_some hgot, lookup_blk]
      simp

/-- What `SETPREF` needs once it knows the user, whose name has been fetched before. -/
theorem every_setprefPtr (m : Grants) (x : Call) (a : Bytes) :
    (setprefPtr m x (.blk (a ++ [0]))).Every ArgUse.Fine ↔
      x.got m 2 3 ≠ none ∧ x.cmd.args[2]? ≠ some [] ∧
        ¬ (x.got m 3 0 = none ∧ ∃ b, x.got m 1 2 = some b ∧ 0 ∉ b) := by
  unfold setprefPtr
  dsimp only
  -- the beep is in a block of its own, or it is still the one with the name
  rcases getargRaw_cases x m 1 2 (a ++ [0]) with ⟨hempty, hfreed⟩ | ⟨hne, hgot, hraw⟩ |
    ⟨b, hne, hgot, hb, hraw⟩
  · refine iff_of_false (not_every_useByte (by simp [hfreed]) _) ?_
    exact fun h => h.2.1 hempty
  · rw [hraw, every_useByte (by simp)]
    cases hmode : x.got m 2 3 with
    | none =>
        rw [getarg_none hmode]
        exact iff_of_false (not_every_useByte (by simp [Arg.null]) _) (by simp)
    | some c =>
        rw [getarg_some hmode, every_useByte (by simp), every_lookups (held_getarg (held_blk c))]
        simp [hgot, hne]
  · rw [hraw, every_useByte hb]
    cases hmode : x.got m 2 3 with
    | none =>
        rw [getarg_none hmode]
        exact iff_of_false (not_every_useByte (by simp [Arg.null]) _) (by simp)
    | some c =>
        rw [getarg_some hmode, every_useByte (by simp), every_lookups (held_getarg (held_blk c))]
        simp [hgot, hne]

theorem every_handleSetprefPtr (m : Grants) (x : Call) :
    (handleSetprefPtr m x).Every ArgUse.Fine ↔
      ¬ (islocal (x.clients x.cl).address = true ∧ (x.got m 0 0 = none ∨ x.NamesUser m ∧
        (x.got m 2 3 = none ∨ x.cmd.args[2]? = some [] ∨
          x.got m 3 0 = none ∧ ∃ b, x.got m 1 2 = some b ∧ 0 ∉ b))) := by
  unfold handleSetprefPtr
  cases hgot : x.got m 0 0 with
  | none =>
      simp only [getarg_none hgot, every_logs, every_useString, held_null, Watched.every_ite,
        Watched.every_pure]
      split <;> simp_all [Arg.null, Arg.str]
  | some a =>
      have hnames : x.NamesUser m ↔ x.env.getpwnam (cstr (a ++ [0])) = true ∧
          isloggedin x.env (cstr (a ++ [0])) = true := by
        simp [Call.NamesUser, hgot]
      simp only [getarg_some hgot, every_logs, every_useString, held_blk, Watched.every_ite,
        Watched.every_pure, every_setprefPtr, Arg.str_blk, Option.some.injEq, exists_eq_left',
        hnames, reduceCtorEq, false_or]
      split
      · simp_all
      · split
        · simp_all
        · split
          · simp_all
          · simp_all

/-! ### The chat -/

theorem every_chatdoorPtr (m : Grants) (x : Call) (u : Udata) (tuent : UdataEnt) :
    (chatdoorPtr m x u tuent).Every ArgUse.Fine := by
  have h1 : (if 1 < x.cmd.getnumargs then x.getarg m 1 .null 1 else (-1, .null)).2.Held := by
    split
    · exact held_first x m 1 1
    · exact held_null
  unfold chatdoorPtr
  dsimp only
  generalize (if 1 < x.cmd.getnumargs then x.getarg m 1 .null 1 else (-1, .null)) = second at h1
  have h2 : (if x.cmd.getnumargs = 3 then (x.getarg m 2 second.2 2).2 else second.2).Held := by
    split
    · exact held_getarg h1
    · exact h1
  simp only [every_logs, every_useLookup, every_useBytes, h1, h2, held_getarg, Watched.every_ite,
    Watched.every_pure, ite_self]

theorem every_handleChatdoorPtr (m : Grants) (x : Call) :
    (handleChatdoorPtr m x).Every ArgUse.Fine := by
  unfold handleChatdoorPtr
  dsimp only
  rw [every_useLookup (held_first x m 0 0)]
  split
  · exact Watched.every_pure _
  · exact every_chatdoorPtr m x _ _

theorem every_chatNickPtr (m : Grants) (x : Call) : (chatNickPtr m x).Every ArgUse.Fine := by
  have h0 := held_first x m 0 0
  unfold chatNickPtr
  split
  · simp only [every_useLookup, every_logs, h0]
    split
    · split
      · exact Watched.every_lift _
      · split
        · exact Watched.every_lift _
        · exact Watched.every_pure _
    · exact Watched.every_pure _
  · exact Watched.every_lift _

theorem every_chatAwayPtr (m : Grants) (x : Call) : (chatAwayPtr m x).Every ArgUse.Fine := by
  have h0 : (if 0 < x.cmd.getnumargs then (x.getarg m 0 .null 0).2 else .null).Held := by
    split
    · exact held_first x m 0 0
    · exact held_null
  unfold chatAwayPtr
  split
  · exact Watched.every_pure _
  · simp only [every_logs, every_useBytes, h0, Watched.every_ite, Watched.every_pure, ite_self]

theorem every_chatBeepPtr (m : Grants) (x : Call) : (chatBeepPtr m x).Every ArgUse.Fine := by
  unfold chatBeepPtr
  split
  · exact Watched.every_pure _
  · dsimp only
    rw [every_useLookup (held_first x m 0 0)]
    split <;> exact Watched.every_pure _

/-- `C_OPER` compares with what it has not asked for. -/
theorem every_chatOperPtr (m : Grants) (x : Call) (hchat : x.inChat = true) :
    (chatOperPtr m x).Every ArgUse.Fine ↔ ¬ (x.cmd.args ≠ [] ∧ x.got m 0 0 = none) := by
  unfold chatOperPtr
  split
  · rename_i hargs
    have hargs' : x.cmd.args ≠ [] := List.length_pos_iff.mp hargs
    split
    · rename_i hent
      simp [Call.inChat, hent] at hchat
    · simp only [every_useString, held_first, str_first, Watched.every_ite, Watched.every_pure,
        ite_self, and_true]
      cases x.got m 0 0 <;> simp [hargs']
  · rename_i hargs
    have hargs' : x.cmd.args = [] := by
      simpa [NetCmd.getnumargs] using hargs
    exact iff_of_true (Watched.every_pure _) (by simp [hargs'])

theorem every_chatPsayPtr (m : Grants) (x : Call) : (chatPsayPtr m x).Every ArgUse.Fine := by
  have h0 := held_first x m 0 0
  have h1 := held_first x m 1 1
  unfold chatPsayPtr
  dsimp only
  rw [every_useLookup h0]
  split
  · rw [every_useBytes h1]
    exact Watched.every_pure _
  · rw [every_useBytes h0]
    exact Watched.every_pure _

theorem every_chatSayPtr (m : Grants) (x : Call) : (chatSayPtr m x).Every ArgUse.Fine := by
  unfold chatSayPtr
  dsimp only
  rw [Watched.every_bind, and_iff_right (Watched.every_lift _)]
  intro ts _
  rw [every_useBytes (held_first x m 0 0)]
  exact Watched.every_pure _

/-- `C_WHO` reads the first byte of what it has fetched. -/
theorem every_chatWhoPtr (m : Grants) (x : Call) :
    (chatWhoPtr m x).Every ArgUse.Fine ↔ x.got m 1 0 ≠ some [] := by
  unfold chatWhoPtr
  dsimp only
  split
  · rw [getargRaw_copies (Or.inl fun b hb => by simp [Arg.null] at hb)]
    cases x.got m 1 0 with
    | none =>
        simp only [Option.map_none, Option.getD_none]
        rw [if_pos (show Arg.null.ap = .null from rfl)]
        exact iff_of_true (Watched.every_lift _) (by simp)
    | some a =>
        simp only [Option.map_some, Option.getD_some]
        rw [if_neg (show (Arg.blk a).ap ≠ .null by simp [Arg.blk])]
        cases a with
        | nil =>
            refine iff_of_false ?_ (by simp)
            rw [Watched.every_bind, Call.useByte, Watched.every_act]
            rintro ⟨⟨b, -, hlen, hpos⟩, -⟩
            exact absurd hpos (by simp [Arg.blk])
        | cons c a =>
            rw [every_useByte (by simp)]
            exact iff_of_true (Watched.every_lift _) (by simp)
  · rename_i hargs
    have hargs' : x.cmd.args = [] := by
      simpa [NetCmd.getnumargs] using hargs
    exact iff_of_true (Watched.every_lift _) (by simp [Call.got, hargs'])

theorem every_chatModePtr (m : Grants) (x : Call) : (chatModePtr m x).Every ArgUse.Fine := by
  unfold chatModePtr
  dsimp only
  split
  · exact Watched.every_pure _
  · split
    · split
      · exact Watched.every_lift _
      · rw [every_useLookup (held_first x m 0 0)]
        exact Watched.every_pure _
    · exact Watched.every_pure _

theorem every_handleChatcmdPtr (m : Grants) (x : Call) (hchat : x.cmd.get ≠ .cWho → x.inChat = true) :
    (handleChatcmdPtr m x).Every ArgUse.Fine ↔
      ¬ (x.cmd.get = .cOper ∧ x.cmd.args ≠ [] ∧ x.got m 0 0 = none) ∧
        ¬ (x.cmd.get = .cWho ∧ x.got m 1 0 = some []) := by
  unfold handleChatcmdPtr
  split
  · rename_i hop
    exact iff_of_true (every_chatNickPtr m x) (by simp [hop])
  · rename_i hop
    exact iff_of_true (every_chatAwayPtr m x) (by simp [hop])
  · rename_i hop
    exact iff_of_true (every_chatBeepPtr m x) (by simp [hop])
  · rename_i hop
    rw [every_chatOperPtr m x (hchat (by simp [hop]))]
    simp [hop]
  · rename_i hop
    exact iff_of_true (every_chatPsayPtr m x) (by simp [hop])
  · rename_i hop
    exact iff_of_true (every_chatSayPtr m x) (by simp [hop])
  · rename_i hop
    exact iff_of_true (every_chatSayPtr m x) (by simp [hop])
  · rename_i hop
    rw [every_chatWhoPtr]
    simp [hop]
  · rename_i hop
    exact iff_of_true (every_chatModePtr m x) (by simp [hop])
  · rename_i hop
    exact iff_of_true (every_chatModePtr m x) (by simp [hop])
  · rename_i hop
    exact iff_of_true (every_chatModePtr m x) (by simp [hop])
  · rename_i hop
    exact iff_of_true (every_chatModePtr m x) (by simp [hop])
  · rename_i hop
    exact iff_of_true (every_chatModePtr m x) (by simp [hop])
  · rename_i hoper _ _ _ hwho _ _ _ _ _
    exact iff_of_true (Watched.every_pure _) ⟨fun h => hoper h.1, fun h => hwho h.1⟩

/-! ### The switch -/

theorem every_magicWhoPtr (m : Grants) (x : Call) : (magicWhoPtr m x).Every ArgUse.Fine ↔
    ¬ (x.cmd.get = .cWho ∧ x.cmd.getnumargs = 1 ∧ x.got m 0 0 = none) := by
  unfold magicWhoPtr
  split
  · rename_i hone
    simp only [every_useString, held_first, str_first, Watched.every_pure, and_true]
    cases x.got m 0 0 <;> simp [hone]
  · rename_i hone
    exact iff_of_true (Watched.every_pure _) fun h => hone ⟨h.1, h.2.1⟩

/-- A magic `C_WHO` has an argument that is not empty. -/
theorem magicWhoPtr_true (h : (magicWhoPtr m x).result = .ok true) :
    x.cmd.get = .cWho ∧ x.got m 1 0 ≠ some [] := by
  unfold magicWhoPtr at h
  split at h
  · rename_i hone
    refine ⟨hone.1, fun hempty => ?_⟩
    dsimp only at h
    rw [useString_held (held_first x m 0 0), str_first, Watched.result_bind,
      Watched.result_act] at h
    cases hgot : x.got m 0 0 with
    | none =>
        rw [hgot] at h
        simp [bind, Except.bind] at h
    | some a =>
        obtain rfl : a = [] := Option.some.inj
          ((got_eq_some.mp hgot).1.symm.trans (got_eq_some.mp hempty).1)
        rw [hgot] at h
        have hword : (cstr ([] ++ [0]) == magicWhoArg) = true := Except.ok.inj h
        exact absurd hword (by decide)
  · exact absurd (Except.ok.inj h) (by simp)

theorem magicWhoPtr_ok (h : ¬ (x.cmd.get = .cWho ∧ x.cmd.getnumargs = 1 ∧ x.got m 0 0 = none)) :
    ∃ b, (magicWhoPtr m x).result = .ok b := by
  unfold magicWhoPtr
  split
  · rename_i hone
    dsimp only
    rw [useString_held (held_first x m 0 0), str_first]
    cases hgot : x.got m 0 0 with
    | none => exact absurd ⟨hone.1, hone.2, hgot⟩ h
    | some a => exact ⟨_, rfl⟩
  · exact ⟨false, rfl⟩

/-- The commands of the chat. -/
theorem every_chat (m : Grants) (x : Call) :
    (do
      let magic ← magicWhoPtr m x
      if magic || x.inChat then handleChatcmdPtr m x
      else return x.done x.udata []).Every ArgUse.Fine ↔
      ¬ (x.cmd.get = .cWho ∧ x.cmd.getnumargs = 1 ∧ x.got m 0 0 = none) ∧
        ¬ (x.inChat = true ∧ x.cmd.get = .cOper ∧ x.cmd.args ≠ [] ∧ x.got m 0 0 = none) ∧
        ¬ (x.inChat = true ∧ x.cmd.get = .cWho ∧ x.got m 1 0 = some []) := by
  rw [Watched.every_bind, every_magicWhoPtr]
  refine and_congr_right fun hmagic => ?_
  cases hin : x.inChat with
  | true =>
      obtain ⟨b, hb⟩ := magicWhoPtr_ok hmagic
      simp only [Bool.or_true, if_true, every_handleChatcmdPtr m x fun _ => hin, true_and]
      exact ⟨fun h => h b hb, fun h _ _ => h⟩
  | false => 
      refine iff_of_true ?_ (by simp)
      intro b hb
      cases b with
      | false => exact Watched.every_pure _
      | true =>
          obtain ⟨hop, hword⟩ := magicWhoPtr_true hb
          rw [Bool.true_or, if_pos rfl, every_handleChatcmdPtr m x fun h => absurd hop h]
          simp [hop, hword]

/-- What a command may lack, as its opcode allows. -/
theorem lacks_iff (m : Grants) (x : Call) : x.Lacks m ↔
    (x.cmd.get ∈ [.getqmsg, .setpref, .getpref] ∧ islocal (x.clients x.cl).address = true ∧
        x.got m 0 0 = none) ∨
      (x.cmd.get = .setpref ∧ islocal (x.clients x.cl).address = true ∧ x.NamesUser m ∧
        (x.got m 2 3 = none ∨ x.cmd.args[2]? = some [] ∨
          x.got m 3 0 = none ∧ ∃ b, x.got m 1 2 = some b ∧ 0 ∉ b)) ∨
      (x.cmd.get = .cOper ∧ x.inChat = true ∧ x.cmd.args ≠ [] ∧ x.got m 0 0 = none) ∨
      (x.cmd.get = .cWho ∧ (x.cmd.getnumargs = 1 ∧ x.got m 0 0 = none ∨
        x.inChat = true ∧ x.got m 1 0 = some [])) := by
  constructor
  · intro h
    cases h with
    | user hop hlocal hgot => exact Or.inl ⟨hop, hlocal, hgot⟩
    | mode hop hlocal huser hgot => exact Or.inr (Or.inl ⟨hop, hlocal, huser, Or.inl hgot⟩)
    | beep hop hlocal huser hargs =>
        exact Or.inr (Or.inl ⟨hop, hlocal, huser, Or.inr (Or.inl hargs)⟩)
    | again hop hlocal huser hgot b hbeep hnul =>
        exact Or.inr (Or.inl ⟨hop, hlocal, huser, Or.inr (Or.inr ⟨hgot, b, hbeep, hnul⟩)⟩)
    | password hop hchat hargs hgot => exact Or.inr (Or.inr (Or.inl ⟨hop, hchat, hargs, hgot⟩))
    | magic hop hargs hgot => exact Or.inr (Or.inr (Or.inr ⟨hop, Or.inl ⟨hargs, hgot⟩⟩))
    | infotype hop hchat hgot => exact Or.inr (Or.inr (Or.inr ⟨hop, Or.inr ⟨hchat, hgot⟩⟩))
  · rintro (⟨hop, hlocal, hgot⟩ | ⟨hop, hlocal, huser, hgot | hargs | ⟨hgot, b, hbeep, hnul⟩⟩ |
      ⟨hop, hchat, hargs, hgot⟩ | ⟨hop, ⟨hargs, hgot⟩ | ⟨hchat, hgot⟩⟩)
    · exact .user hop hlocal hgot
    · exact .mode hop hlocal huser hgot
    · exact .beep hop hlocal huser hargs
    · exact .again hop hlocal huser hgot b hbeep hnul
    · exact .password hop hchat hargs hgot
    · exact .magic hop hargs hgot
    · exact .infotype hop hchat hgot

namespace Grants

/-- Every call finds memory. -/
def all : Grants := fun _ _ => true

/-- Every call but the one at the place `k` does. -/
def allBut (k : Nat) : Grants := fun k' _ => k' != k

end Grants

/-- The user `a` is logged in on `pts/0`. -/
def Utmp.onPts : Utmp := ⟨true, [97], text "pts/0", 0⟩

/-- A system with this user, where every file is a terminal that the group may write to. -/
def Env.onPts : Env :=
  { Env.bare with
    getpwnam := fun user => user.chars == [97]
    loggedin := ⟨[.onPts], fun _ => true⟩
    userlist := ⟨[.onPts], fun _ => true⟩
    getutxline := fun line => if line = text "pts/0" then some [97] else none
    stat := fun _ => some 0o620
    openTty := fun _ => true
    isatty := true
    fdopen := true }

theorem run_where (evs : List Event) (P : Server → Prop) [DecidablePred P]
    (h : (exec (server .enough) (.initial 3) evs []).any
      (fun r => decide (r.2.live 0 ∧ P r.2)) = true) :
    ∃ hist s, Run (server .enough) hist s ∧ s.live 0 ∧ P s := by
  obtain ⟨⟨hist, s⟩, hexec, hP⟩ := (Option.any_eq_true _ _).mp h
  obtain ⟨hlive, hP⟩ := of_decide_eq_true hP
  exact ⟨hist, s, run_of_exec hexec, hlive, hP⟩

/-- A `SETPREF` of `a`, who is logged in, with all four arguments. -/
def preferred : NetCmd := setprefCmd (cstr [97]) (cstr (text "/dev/pts/0")) 1 1

end Smsg
