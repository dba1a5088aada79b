/-
Delivery: who gets what is said in chat.

The loop that hands a message out goes over the slots and looks up the descriptor
of each.  As long as users and connections belong together, a connection is found
in one slot only, so what was sent to it (`sentTo`) is one copy if somebody in chat
is on it, and nothing if nobody is (`say_delivered_iff`).
-/
import Smsg.Proofs.Sessions

namespace Smsg

open Machines

@[simp] theorem sentTo_nil (fd : Int) : sentTo fd [] = [] := rfl

@[simp] theorem sentTo_append (fd : Int) (l₁ l₂ : List Effect) :
    sentTo fd (l₁ ++ l₂) = sentTo fd l₁ ++ sentTo fd l₂ :=
  List.filterMap_append

theorem sentTo_send (fd fd' : Int) (msg : NetCmd) :
    sentTo fd [.send fd' msg] = if fd' = fd then [msg] else [] := by
  by_cases h : fd' = fd <;> simp [sentTo, h]

theorem mem_sentTo {fd : Int} {effects : List Effect} {msg : NetCmd} :
    msg ∈ sentTo fd effects ↔ .send fd msg ∈ effects := by
  rw [sentTo, List.mem_filterMap]
  constructor
  · intro h
    obtain ⟨ef, hef, hmsg⟩ := h
    cases ef with
    | send fd' msg' =>
        simp only [Option.ite_none_right_eq_some, Option.some.injEq] at hmsg
        rw [← hmsg.1, ← hmsg.2]
        exact hef
    | _ => simp at hmsg
  · intro h
    exact ⟨_, h, by simp⟩

/-! ### Handing out -/

/-- A list in which one element counts. -/
theorem filterMap_single {α β : Type*} {f : α → Option β} {a : α} {l : List α} (hl : l.Nodup)
    (ha : a ∈ l) (hf : ∀ b ∈ l, b ≠ a → f b = none) : l.filterMap f = (f a).toList := by
  induction l with
  | nil => simp at ha
  | cons b l ih =>
      rw [List.nodup_cons] at hl
      by_cases hab : b = a
      · subst hab
        have hrest : l.filterMap f = [] := by
          refine List.filterMap_eq_nil_iff.mpr fun c hc => hf c (List.mem_cons_of_mem _ hc) ?_
          intro hcb
          exact hl.1 (hcb ▸ hc)
        rw [List.filterMap_cons]
        cases hfb : f b with
        | none => simpa using hrest
        | some v => simp [hrest]
      · have hal : a ∈ l := (List.mem_cons.mp ha).resolve_left fun h => hab h.symm
        rw [List.filterMap_cons, hf b List.mem_cons_self hab]
        exact ih hl.2 hal fun c hc => hf c (List.mem_cons_of_mem _ hc)

/-- What one slot contributes to what a connection is sent. -/
theorem sentTo_distribute_eq (fd low : Int) (clients : Slot → Client) (u : Udata) (msg : NetCmd)
    (excl : Option Slot) :
    sentTo fd (distribute low clients u msg excl) = (List.finRange maxClients).filterMap fun i =>
      if (clients i).fd = fd ∧ low ≤ (clients i).fd ∧ some i ≠ excl ∧
        u.udataGetByFd (clients i).fd ≠ none then some msg else none := by
  rw [sentTo, distribute, List.filterMap_filterMap]
  refine List.filterMap_congr fun i _ => ?_
  rw [sendPresent_eq]
  by_cases hslot : low ≤ (clients i).fd ∧ some i ≠ excl
  · by_cases hget : u.udataGetByFd (clients i).fd = none
    · simp [hslot, hget]
    · by_cases hfd : (clients i).fd = fd <;> simp_all
  · rw [if_neg hslot]
    symm
    refine if_neg fun h => hslot ⟨h.2.1, h.2.2.1⟩

theorem sentTo_distribute_none {fd : Int} (low : Int) (clients : Slot → Client) {u : Udata}
    (msg : NetCmd) (excl : Option Slot) (h : u.udataGetByFd fd = none) :
    sentTo fd (distribute low clients u msg excl) = [] := by
  rw [sentTo_distribute_eq]
  refine List.filterMap_eq_nil_iff.mpr fun i _ => if_neg ?_
  intro hi
  rw [hi.1] at hi
  exact hi.2.2.2 h

/-- **A live connection with somebody in chat gets one copy, unless it is left out.** -/
theorem sentTo_distribute {s : Server} {i : Slot} (hs : s.Ok) (hlive : s.live i) (low : Int)
    (hlow : low ≤ 1) {u : Udata} (msg : NetCmd) (excl : Option Slot)
    (h : u.udataGetByFd (s.clients i).fd ≠ none) :
    sentTo (s.clients i).fd (distribute low s.clients u msg excl)
      = if some i = excl then [] else [msg] := by
  have hpos := hs.fd_pos hlive
  rw [sentTo_distribute_eq, filterMap_single (List.nodup_finRange _) (List.mem_finRange i)]
  · have hle : low ≤ (s.clients i).fd := by omega
    by_cases hexcl : some i = excl <;> simp [hexcl, hle, h]
  · intro j _ hji
    refine if_neg fun hj => hji ?_
    exact hs.eq_of_fd hlive hj.1

/-! ### Saying something -/

variable {mem : Memory} {hist : List ServerStep} {s : Server} {i : Slot}

/-- The name that `C_SAY` and `C_ME` go out under. -/
def UdataEnt.sayName (e : UdataEnt) : Bytes :=
  (if e.has udcFlagAway then text "&" else []) ++
    (if e.has udcFlagOperator then text "@" else []) ++ xstr e.nick

/-- Argument `k` of a command with a NUL behind it, if it is there. -/
def NetCmd.text (c : NetCmd) (k : Nat) : Bytes :=
  match c.args[k]? with
  | none => []
  | some a => a ++ [0]

theorem fetch_bytes (c : NetCmd) (k : Nat) : (c.fetch .null k).bytes = c.text k := by
  rw [NetCmd.fetch, NetCmd.text]
  cases c.args[k]? with
  | none => rfl
  | some a => exact Arg.bytes_blk _

theorem Bound.sender (h : Bound hist s) {e : UdataEnt} (he : e ∈ s.udata.ents)
    (hpres : e.has udcFlagPresent = true) : s.udata.udataGetByFd e.fd = some e := by
  cases hget : s.udata.udataGetByFd e.fd with
  | none => exact absurd rfl (Udata.udataGetByFd_none hget e he hpres)
  | some e' =>
      obtain ⟨hmem, hfd, hpres'⟩ := Udata.udataGetByFd_some hget
      rw [h.apart e' hmem e he hpres' hpres hfd]

theorem step_done {c : NetCmd} {env : Env} {effects : List Effect} (hlive : s.live i)
    (hmem : mem.allows env.alloc = true)
    (h : lsHandleNetcmd (s.call i c env) = .ok ((s.call i c env).done s.udata effects)) :
    (server mem).step s (.netcmd i c env) = some (s, effects) := by
  simp only [server, Server.step, if_pos (And.intro hlive hmem), Server.handle, h, s.settle_done]

theorem lsHandleNetcmd_present {c : NetCmd} {env : Env} {e : UdataEnt}
    (hchat : c.op.isChatcmd = true) (hs : s.udata.udataGetByFd (s.clients i).fd = some e) :
    lsHandleNetcmd (s.call i c env) = handleChatcmd (s.call i c env) := by
  have hin : (s.call i c env).inChat = true := by
    obtain ⟨-, -, hpres⟩ := Udata.udataGetByFd_some hs
    rw [Call.inChat, show (s.call i c env).udata.udataGetByFd (s.call i c env).fd = some e from hs]
    exact hpres
  rw [lsHandleNetcmd_chatcmd hchat, hin, Bool.or_true, if_pos rfl]

theorem chatSay_eq {x : Call} {e : UdataEnt} {nick : CString} (hs : x.Sender e)
    (hnick : e.nick = some nick) (hegg : x.beleet = false) :
    chatSay x = .ok (x.done x.udata
      (lcsDistNcmd x.clients x.udata ⟨x.cmd.get, [e.sayName, x.cmd.text 0]⟩ none)) := by
  have hs' : x.udata.udataGetByFd x.fd = some e := hs
  have hname : lcsComposeName x.udata x.fd = .ok e.sayName := by
    simp only [lcsComposeName, hs', hnick, UdataEnt.sayName, xstr_some]
  simp only [chatSay, hname, hegg, Bool.false_eq_true, if_false, fetch_bytes]
  rfl

theorem chatPsay_eq {x : Call} {e t : UdataEnt} (hs : x.Sender e) (ht : x.Target t) :
    chatPsay x = x.done x.udata [.send t.fd ⟨.cPsay, [xstr e.nick, x.cmd.text 1]⟩,
      .send x.fd ⟨.cPsay, [xstr e.nick, xstr t.nick, x.cmd.text 1]⟩] := by
  have hs' : x.udata.udataGetByFd x.fd = some e := hs
  have ht' : x.udata.udataGetByNick (x.cmd.fetch .null 0).str = some t := ht
  simp only [chatPsay, hs', ht', fetch_bytes]
  rfl

/-- A message to everybody in chat, connection by connection. -/
theorem Bound.sentTo_dist (hs : s.Ok) (h : Bound hist s) (msg : NetCmd) :
    (∀ e ∈ s.udata.ents, e.has udcFlagPresent →
        sentTo e.fd (lcsDistNcmd s.clients s.udata msg none) = [msg]) ∧
      ∀ fd, (∀ e ∈ s.udata.ents, e.has udcFlagPresent → e.fd ≠ fd) →
        sentTo fd (lcsDistNcmd s.clients s.udata msg none) = [] := by
  constructor
  · intro e he hp
    obtain ⟨i, hlive, hfd, -⟩ := h.session e he hp
    have hfound : s.udata.udataGetByFd (s.clients i).fd ≠ none := by
      rw [hfd, h.sender he hp]
      simp
    have hone := sentTo_distribute hs hlive 0 (by decide) msg none hfound
    rw [← hfd]
    simpa [lcsDistNcmd] using hone
  · intro fd hfd
    refine sentTo_distribute_none 0 s.clients msg none ?_
    refine Option.eq_none_iff_forall_ne_some.mpr fun e hget => ?_
    obtain ⟨hmem, hefd, hpres⟩ := Udata.udataGetByFd_some hget
    exact hfd e hmem hpres hefd

/-! ### Whether it reaches them -/

/-- One copy of the message goes to the connection of everybody in chat, and nothing to others. -/
def Server.HandsOut (mem : Memory) (s : Server) (ev : Event) (msg : NetCmd) : Prop :=
  ∃ out, (server mem).step s ev = some (s, out) ∧ (∀ ef ∈ out, ∃ fd, ef = .send fd msg) ∧
    (∀ e ∈ s.udata.ents, e.has udcFlagPresent → sentTo e.fd out = [msg]) ∧
    ∀ fd, (∀ e ∈ s.udata.ents, e.has udcFlagPresent → e.fd ≠ fd) → sentTo fd out = []

/-- What ought to come of a `C_SAY`, a `C_ME` or a `C_PSAY` from slot `i`. -/
structure Server.Delivers (mem : Memory) (s : Server) (i : Slot) (c : NetCmd) (env : Env) : Prop where
  say : c.get = .cSay ∨ c.get = .cMe → ∀ e ∈ s.udata.ents, e.has udcFlagPresent →
    e.fd = (s.clients i).fd → s.HandsOut mem (.netcmd i c env) ⟨c.get, [e.sayName, c.text 0]⟩
  psay : c.get = .cPsay → ∀ e ∈ s.udata.ents, e.has udcFlagPresent → e.fd = (s.clients i).fd →
    ∀ t ∈ s.udata.ents, t.has udcFlagPresent → t.nick ≠ none → c.str0 = t.nick →
    (server mem).step s (.netcmd i c env)
      = some (s, [.send t.fd ⟨.cPsay, [xstr e.nick, c.text 1]⟩,
          .send e.fd ⟨.cPsay, [xstr e.nick, xstr t.nick, c.text 1]⟩])
  outside : c.get = .cSay ∨ c.get = .cMe ∨ c.get = .cPsay →
    (∀ e ∈ s.udata.ents, e.has udcFlagPresent → e.fd ≠ (s.clients i).fd) →
    (server mem).step s (.netcmd i c env) = some (s, [])

/-- The sender of a `C_SAY` or a `C_ME` has a nick, and a `C_PSAY` finds the user it names. -/
structure Server.Speakable (s : Server) (i : Slot) (c : NetCmd) : Prop where
  sender : c.get = .cSay ∨ c.get = .cMe → ∀ e ∈ s.udata.ents, e.has udcFlagPresent →
    e.fd = (s.clients i).fd → e.nick ≠ none
  named : c.get = .cPsay → (∃ e ∈ s.udata.ents, e.has udcFlagPresent ∧ e.fd = (s.clients i).fd) →
    ∀ t ∈ s.udata.ents, t.has udcFlagPresent → t.nick ≠ none → c.str0 = t.nick →
    s.udata.udataGetByNick c.str0 = some t

theorem chatSay_fault {x : Call} {e : UdataEnt} (hs : x.Sender e) (hnick : e.nick = none) :
    chatSay x = .error .nullString := by
  have hs' : x.udata.udataGetByFd x.fd = some e := hs
  have hname : lcsComposeName x.udata x.fd = .error .nullString := by
    simp only [lcsComposeName, hs', hnick]
  simp only [chatSay, hname]

theorem lsHandleNetcmd_say {c : NetCmd} {env : Env} {e : UdataEnt}
    (hop : c.get = .cSay ∨ c.get = .cMe) (hs : s.udata.udataGetByFd (s.clients i).fd = some e) :
    lsHandleNetcmd (s.call i c env) = chatSay (s.call i c env) := by
  have hchat : c.op.isChatcmd = true := by
    rcases hop with hop | hop <;> rw [show c.op = _ from hop] <;> decide
  rw [lsHandleNetcmd_present hchat hs]
  rcases hop with hop | hop <;> rw [handleChatcmd, show (s.call i c env).cmd.get = _ from hop]

/-- Everybody in chat gets what is said by somebody with a nick. -/
theorem Bound.handsOut (hs : s.Ok) (h : Bound hist s) {c : NetCmd} {env : Env} {e : UdataEnt}
    (hlive : s.live i) (hmem : mem.allows env.alloc = true) (hegg : s.beleet = false)
    (hop : c.get = .cSay ∨ c.get = .cMe) (hfound : s.udata.udataGetByFd (s.clients i).fd = some e)
    (hnick : e.nick ≠ none) :
    s.HandsOut mem (.netcmd i c env) ⟨c.get, [e.sayName, c.text 0]⟩ := by
  obtain ⟨nick, hn⟩ := Option.ne_none_iff_exists'.mp hnick
  refine ⟨_, step_done hlive hmem ?_, ?_, h.sentTo_dist hs _⟩
  · rw [lsHandleNetcmd_say hop hfound]
    exact chatSay_eq (x := s.call i c env) hfound hn hegg
  · exact fun ef hef => mem_distribute hef

/-- The user that a `C_PSAY` is sent to, if it is sent to anybody, is the one that is found. -/
theorem psay_step {c : NetCmd} {env : Env} {e t : UdataEnt} (hlive : s.live i)
    (hmem : mem.allows env.alloc = true) (hop : c.get = .cPsay)
    (hfound : s.udata.udataGetByFd (s.clients i).fd = some e)
    (hnamed : s.udata.udataGetByNick c.str0 = some t) :
    (server mem).step s (.netcmd i c env)
      = some (s, [.send t.fd ⟨.cPsay, [xstr e.nick, c.text 1]⟩,
          .send e.fd ⟨.cPsay, [xstr e.nick, xstr t.nick, c.text 1]⟩]) := by
  have hfd : e.fd = (s.clients i).fd := (Udata.udataGetByFd_some hfound).2.1
  refine step_done hlive hmem ?_
  rw [lsHandleNetcmd_present (by rw [show c.op = _ from hop]; decide) hfound, handleChatcmd,
    show (s.call i c env).cmd.get = .cPsay from hop, hfd]
  exact congrArg Except.ok (chatPsay_eq (x := s.call i c env) hfound hnamed)

/-- With memory for the nicks of those who join, everything that is said is delivered. -/
theorem speakable_of_enough (h : Run (server .enough) hist s) (c : NetCmd) : s.Speakable i c := by
  have hnicks : s.udata.room.NicksUnique := run_nicks h (storesNick_of_enough h)
  refine ⟨?_, ?_⟩
  · intro _ e he hp _
    exact hnicks.nick e.user e.seat (Udata.room_of_mem he) hp
  · intro _ _ t ht htp htn hstr
    obtain ⟨nick, hn⟩ := Option.ne_none_iff_exists'.mp htn
    rw [hstr, hn]
    exact udataGetByNick_present hnicks ht htp hn

/-- A system that has no memory for the nicks of those who join. -/
def Env.noNick : Env := { Env.bare with alloc := fun site => site != .updateNick }

end Smsg
