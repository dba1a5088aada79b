/-
What the server sends can be read.

`chatter_func` looks at the arguments of a message by their number and follows them
without asking whether they are there.  It gets away with it: every message of the
server has the arguments that its operation code calls for (`messages_readable`).
-/
import Smsg.Proofs.Members
import Smsg.Proofs.Reports

namespace Smsg

open Machines

/-- Wherever a client is, it can go on after the message. -/
def NetCmd.Readable (m : NetCmd) : Prop := ∀ v, chatterFunc v m ≠ none

section

variable {m : NetCmd}

theorem readable_of (htold : ∃ said, chatterSays m = some said)
    (hself : ∀ d : Identity, ∃ d', d.handle m = some d') : m.Readable := by
  intro v hnone
  obtain ⟨said, hsaid⟩ := htold
  obtain ⟨d, hd⟩ := hself v.identity
  simp only [chatterFunc, hsaid, hd, Option.bind_eq_bind, Option.bind_some] at hnone
  cases hnone

theorem readable_plain (hop : m.op ∉ identityOps) (htold : ∃ said, chatterSays m = some said) :
    m.Readable :=
  readable_of htold fun d => ⟨d, handle_plain d hop⟩

theorem readable_who (args : List Bytes) : NetCmd.Readable ⟨.cWho, args⟩ :=
  readable_plain (show NCMDOp.cWho ∉ identityOps by decide) ⟨_, rfl⟩

theorem printed_arg {k : Nat} {a : Bytes} (h : m.args[k]? = some a) (t : Arg) :
    (m.fetch t k).printed = some (.str (cstr (a ++ [0]))) := by
  rw [NetCmd.fetch, h]
  exact printed_nul a

theorem length_le_one {l : List Bytes} (h : l.length ≤ 1) : l = [] ∨ ∃ a, l = [a] := by
  rcases Nat.le_one_iff_eq_zero_or_eq_one.mp h with h | h
  · exact Or.inl (List.length_eq_zero_iff.mp h)
  · exact Or.inr (List.length_eq_one_iff.mp h)

theorem length_le_two {l : List Bytes} (h : l.length ≤ 2) :
    l = [] ∨ (∃ a, l = [a]) ∨ ∃ a b, l = [a, b] := by
  rcases Nat.lt_or_ge 1 l.length with hlen | hlen
  · exact Or.inr (Or.inr (List.length_eq_two.mp (Nat.le_antisymm h hlen)))
  · exact (length_le_one hlen).imp id Or.inl

/-- The commands of operators come back with up to two arguments. -/
theorem readable_mode {op : NCMDOp} (hop : op ∈ modeOps) {args : List Bytes}
    (hargs : args.length ≤ 2) : NetCmd.Readable ⟨op, args⟩ := by
  have htold : ∀ t : ModeTexts, ∃ said, clMode t ⟨op, args⟩ = some said := by
    intro t
    rcases length_le_two hargs with rfl | ⟨a, rfl⟩ | ⟨a, b, rfl⟩
    · exact ⟨_, rfl⟩
    · simp [clMode, NetCmd.getnumargs, printed_arg]
    · simp [clMode, NetCmd.getnumargs, printed_arg]
  have hself : ∀ d : Identity, op = .cDeop ∨ op = .cOp →
      ∃ d', d.handle ⟨op, args⟩ = some d' := by
    intro d hop
    rcases length_le_two hargs with rfl | ⟨a, rfl⟩ | ⟨a, b, rfl⟩
    · rcases hop with rfl | rfl <;> exact ⟨_, rfl⟩
    · rcases hop with rfl | rfl <;> exact ⟨_, rfl⟩
    · rcases hop with rfl | rfl <;> exact ⟨_, rfl⟩
  simp only [modeOps, List.mem_cons, List.not_mem_nil, or_false] at hop
  rcases hop with rfl | rfl | rfl | rfl | rfl
  · exact readable_plain (show NCMDOp.cBan ∉ identityOps by decide) (htold banTexts)
  · exact readable_of (htold deopTexts) fun d => hself d (Or.inl rfl)
  · exact readable_plain (show NCMDOp.cKick ∉ identityOps by decide) (htold kickTexts)
  · exact readable_of (htold opTexts) fun d => hself d (Or.inr rfl)
  · exact readable_plain (show NCMDOp.cUnban ∉ identityOps by decide) (htold unbanTexts)

/-- Somebody has come, or gone. -/
theorem readable_door (dir : UInt8) (nick : Bytes) (more : List Bytes) :
    NetCmd.Readable ⟨.cDoor, [dir] :: nick :: more⟩ := by
  refine readable_plain (show NCMDOp.cDoor ∉ identityOps by decide) ?_
  show ∃ said, clDoor _ = some said
  have hdir : NetCmd.getarg ⟨.cDoor, [dir] :: nick :: more⟩ .null 0 false
      = some (0, .blk [dir]) := rfl
  have hwho : (NetCmd.fetch ⟨.cDoor, [dir] :: nick :: more⟩ .null 1).printed
      = some (.str (cstr (nick ++ [0]))) := printed_arg rfl _
  have hreason : 2 < NetCmd.getnumargs ⟨.cDoor, [dir] :: nick :: more⟩ →
      ∃ reason, (NetCmd.fetch ⟨.cDoor, [dir] :: nick :: more⟩ (.blk [dir]) 2).printed
        = some reason := by
    intro hlen
    cases more with
    | nil => simp [NetCmd.getnumargs] at hlen
    | cons reason more => exact ⟨_, printed_arg rfl _⟩
  simp only [clDoor, hdir, hwho, Option.bind_eq_bind, Option.bind_some, Arg.blk, Ptr.bytes,
    List.head?_cons]
  split
  · exact ⟨_, rfl⟩
  · split
    · rename_i hlen
      obtain ⟨reason, hprinted⟩ := hreason hlen
      rw [Arg.blk] at hprinted
      rw [hprinted]
      exact ⟨_, rfl⟩
    · exact ⟨_, rfl⟩

/-- Somebody has stepped away, or is back. -/
theorem readable_away (b : UInt8) (nick : Bytes) {more : List Bytes} (hmore : more.length ≤ 1) :
    NetCmd.Readable ⟨.cAway, [b] :: nick :: more⟩ := by
  refine readable_of ?_ fun d => ?_
  · show ∃ said, clAway _ = some said
    have hstate : (NetCmd.fetch ⟨.cAway, [b] :: nick :: more⟩ .null 0).ap.bytes.head? = some b := rfl
    have hwho : (NetCmd.fetch ⟨.cAway, [b] :: nick :: more⟩ .null 1).printed
        = some (.str (cstr (nick ++ [0]))) := printed_arg rfl _
    simp only [clAway, hstate, hwho, Option.bind_eq_bind, Option.bind_some]
    rcases length_le_one hmore with rfl | ⟨reason, rfl⟩
    · exact ⟨_, rfl⟩
    · simp [NetCmd.getnumargs, printed_arg]
  · exact ⟨_, rfl⟩

theorem readable_psay (a : Bytes) {more : List Bytes} (hmore : more.length ≤ 2) :
    NetCmd.Readable ⟨.cPsay, a :: more⟩ := by
  refine readable_plain (show NCMDOp.cPsay ∉ identityOps by decide) ?_
  show ∃ said, clPsay ⟨.cPsay, a :: more⟩ = some said
  rcases length_le_two hmore with rfl | ⟨b, rfl⟩ | ⟨b, d, rfl⟩
  · simp [clPsay, NetCmd.getnumargs, printed_arg]
  · simp [clPsay, NetCmd.getnumargs, printed_arg]
  · simp [clPsay, NetCmd.getnumargs, printed_arg]

/-- **Every answer can be read.** -/
theorem Answer.readable (h : Answer m) : m.Readable := by
  cases h with
  | request hop =>
      have hall : ∀ op ∈ [NCMDOp.ack, .nak, .qmsg, .list, .pref], op ∉ identityOps ∧
          ∀ args, ∃ said, chatterSays ⟨op, args⟩ = some said := by
        intro op hop
        simp only [List.mem_cons, List.not_mem_nil, or_false] at hop
        rcases hop with rfl | rfl | rfl | rfl | rfl <;> exact ⟨by decide, fun args => ⟨_, rfl⟩⟩
      exact readable_plain (hall _ hop).1 ((hall _ hop).2 m.args)
  | @refused op hop =>
      rcases List.mem_append.mp hop with hop | hop
      · simp only [List.mem_cons, List.not_mem_nil, or_false] at hop
        rcases hop with rfl | rfl
        · exact readable_of ⟨_, rfl⟩ fun d => ⟨_, rfl⟩
        · exact readable_of ⟨_, rfl⟩ fun d => ⟨_, rfl⟩
      · exact readable_mode hop (Nat.zero_le 2)
  | @named op hop a =>
      rcases List.mem_append.mp hop with hop | hop
      · simp only [List.mem_cons, List.not_mem_nil, or_false] at hop
        rcases hop with rfl | rfl | rfl
        · refine readable_of ?_ fun d => ⟨_, rfl⟩
          show ∃ said, clNick ⟨.cNick, [a]⟩ = some said
          simp [clNick, NetCmd.getnumargs, printed_arg]
        · refine readable_plain (show NCMDOp.cBeep ∉ identityOps by decide) ?_
          show ∃ said, clBeep _ = some said
          simp [clBeep, NetCmd.getnumargs, printed_arg]
        · exact readable_psay a (Nat.zero_le 2)
      · exact readable_mode hop (Nat.le_succ 1)
  | listing args => exact readable_who args

/-- **And so can the news.** -/
theorem News.readable (h : News m) : m.Readable := by
  cases h with
  | @spoken op hop name msg =>
      rcases hop with rfl | rfl
      · refine readable_plain (show NCMDOp.cSay ∉ identityOps by decide) ?_
        show ∃ said, clSay _ = some said
        simp [clSay, printed_arg]
      · refine readable_plain (show NCMDOp.cMe ∉ identityOps by decide) ?_
        show ∃ said, clMe _ = some said
        simp [clMe, printed_arg]
  | away on nick hmore =>
      cases on
      · exact readable_away 0 nick hmore
      · exact readable_away 1 nick hmore
  | renamed new old =>
      refine readable_of ?_ fun d => ⟨_, rfl⟩
      show ∃ said, clNick ⟨.cNick, [new, old]⟩ = some said
      simp [clNick, NetCmd.getnumargs, printed_arg]
  | opered nick =>
      refine readable_of ?_ fun d => ⟨_, rfl⟩
      show ∃ said, clOper _ = some said
      simp [clOper, NetCmd.getnumargs, printed_arg]
  | mode hop nick oper => exact readable_mode hop (le_refl 2)
  | door dir nick more => exact readable_door dir nick more

end

/-! ### Every message -/

section

variable {x : Call} {o : Outcome} {mem : Memory} {hist : List ServerStep} {s s' : Server}
  {ev : Event} {out : List Effect} {fd : Int} {m : NetCmd}

theorem Post.readable (h : Post x o) (hm : .send fd m ∈ o.effects) : m.Readable := by
  have hposts := mem_posts.mpr hm
  have hdist : ∀ {low : Int} {clients : Slot → Client} {u : Udata} {msg : NetCmd}
      {excl : Option Slot}, .send fd m ∈ distribute low clients u msg excl → m = msg := by
    intro low clients u msg excl hmem
    obtain ⟨fd', hsend⟩ := mem_distribute hmem
    exact (Effect.send.inj hsend).2
  have hbeep : NetCmd.Readable (.set .cBeep) :=
    readable_plain (show NCMDOp.cBeep ∉ identityOps by decide) ⟨_, rfl⟩
  have hack : NetCmd.Readable (.set .ack) := (Answer.request (by decide)).readable
  cases h with
  | silent _ h => simp [h] at hposts
  | answer _ hanswer h =>
      rw [h, List.mem_singleton, Prod.mk.injEq] at hposts
      rw [hposts.2]
      exact hanswer.readable
  | told _ hnews h =>
      rw [h] at hm
      rw [hdist hm]
      exact hnews.readable
  | door _ _ hnews _ h =>
      rw [h, List.mem_append] at hm
      rcases hm with hm | hm
      · rw [hdist hm]
        exact hnews.readable
      · rw [(Effect.send.inj (List.mem_singleton.mp hm)).2]
        exact hack
  | beepAll _ h =>
      rw [h] at hm
      rw [hdist hm]
      exact hbeep
  | beep _ _ h =>
      rw [h, List.mem_singleton, Prod.mk.injEq] at hposts
      rw [hposts.2]
      exact hbeep
  | psay _ _ _ msg h =>
      simp only [h, List.mem_cons, List.not_mem_nil, or_false, Prod.mk.injEq] at hposts
      rcases hposts with hpost | hpost
      · rw [hpost.2]
        exact readable_psay _ (Nat.le_succ 1)
      · rw [hpost.2]
        exact readable_psay _ (le_refl 2)

theorem Turn.readable (hs : s.Ok) (hturn : Turn mem s ev s' out) (hm : .send fd m ∈ out) :
    m.Readable := by
  cases hturn with
  | hungUp =>
      rcases List.mem_append.mp hm with hm | hm
      · obtain ⟨fd', hsend⟩ := mem_distribute hm
        rw [(Effect.send.inj hsend).2]
        exact readable_door 0 _ [errorChatPeerclose]
      · simp at hm
  | @netcmd i c env o act hlive hmem hcall hdoes =>
      have hpos : 0 ≤ (s.call i c env).fd := le_of_lt (hs.fd_pos hlive)
      rw [← mem_sentTo, sentTo_settle, mem_sentTo] at hm
      exact (post_lsHandleNetcmd hpos hcall).readable hm
  | _ => simp at hm

end

end Smsg
