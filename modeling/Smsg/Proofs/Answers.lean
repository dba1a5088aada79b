/-
Answers, and who gets them.

Each request is answered on its own connection, once, with a code that belongs to it
(`requests_answered`).  A connection that nobody is in chat on hears nothing but the
answers to its own commands, in their order, so that it may ask for several things
before it reads what comes back (`answers_in_order`).
-/
import Smsg.Proofs.Sidebar

namespace Smsg

open Machines

variable {mem : Memory} {hist later : List ServerStep} {s s' : Server} {i : Slot} {c : NetCmd}
  {env : Env} {ev : Event} {out : List Effect}

/-! ### Requests -/

/-- What is sent because of a request: the answer, and before it what the others are told. -/
structure Answered (fd : Int) (c : NetCmd) (out : List Effect) (m : NetCmd)
    (told : List (Int × NetCmd)) : Prop where
  posts : posts out = told ++ [(fd, m)]
  code : m.op ∈ replyOps c.op
  others : ∀ p ∈ told, p.2.op = .cDoor ∧ p.1 ≠ fd
  alone : c.op ≠ .chatdoor ∨ m.op = .nak → told = []

/-- A message that is handed out goes to slots other than the one left out. -/
theorem posts_distribute {low : Int} {clients : Slot → Client} {u : Udata} {m : NetCmd}
    {excl : Option Slot} {p : Int × NetCmd} (hp : p ∈ posts (distribute low clients u m excl)) :
    p.2 = m ∧ ∃ j, some j ≠ excl ∧ p.1 = (clients j).fd ∧ low ≤ p.1 ∧
      u.udataGetByFd p.1 ≠ none := by
  obtain ⟨j, -, hj⟩ := List.mem_filterMap.mp (mem_posts.mp hp)
  rw [sendPresent_eq] at hj
  split at hj
  · rename_i hslot
    split at hj
    · rename_i hget
      obtain ⟨hfd, hm⟩ := Effect.send.inj (Option.some.inj hj)
      rw [← hm, ← hfd]
      exact ⟨rfl, j, hslot.2, rfl, hslot.1, hget⟩
    · simp at hj
  · simp at hj

theorem News.not_request {m : NetCmd} (h : News m) : m.op ∉ requestOps := by
  have hmodes : ∀ op ∈ modeOps, op ∉ requestOps := by decide
  cases h with
  | spoken hop => rcases hop with rfl | rfl <;> simp [requestOps]
  | mode hop => exact hmodes _ hop
  | _ => simp [requestOps]

/-- A request is answered when it is handled. -/
theorem Post.answered {o : Outcome} (h : Post (s.call i c env) o) (hs : s.Ok) (hlive : s.live i)
    (hop : c.op ∈ requestOps) : ∃ m told, Answered (s.clients i).fd c o.effects m told := by
  have hother : ∀ op : NCMDOp, op ∉ requestOps → c.op ≠ op := fun op hno heq => hno (heq ▸ hop)
  cases h with
  | silent hno => exact absurd hop hno
  | @answer m hcode _ h => exact ⟨m, [], h, hcode, by simp, fun _ => rfl⟩
  | told hsame hnews => exact absurd hop (by rw [← show _ = c.op from hsame]; exact hnews.not_request)
  | @door m u hdoor hmop _ _ h =>
      have hposts : posts o.effects = posts (distribute 1 s.clients u m (some i))
          ++ [((s.clients i).fd, .set .ack)] := by
        rw [h, posts_append]
        rfl
      refine ⟨.set .ack, _, hposts, ?_, ?_, ?_⟩
      · rw [show c.op = .chatdoor from hdoor]
        decide
      · intro p hp
        obtain ⟨hm, j, hji, hfd, -, -⟩ := posts_distribute hp
        refine ⟨by rw [hm, hmop], fun hpfd => hji ?_⟩
        rw [hs.eq_of_fd hlive (hfd.symm.trans hpfd)]
      · intro hno
        rcases hno with hno | hno
        · exact absurd hdoor hno
        · cases hno
  | beepAll hbeep => exact absurd hbeep (hother _ (by decide))
  | beep hbeep => exact absurd hbeep (hother _ (by decide))
  | psay hpsay => exact absurd hpsay (hother _ (by decide))

/-- The commands of a connection in some steps, oldest first. -/
def cmdsOn (i : Slot) (steps : List ServerStep) : List NetCmd :=
  steps.reverse.filterMap fun st =>
    match st.ev with
    | .netcmd j c _ => if j = i then some c else none
    | _ => none

theorem cmdsOn_eq_singleton {i : Slot} {st : ServerStep} {c : NetCmd} (h : cmdsOn i [st] = [c]) :
    ∃ env, st.ev = .netcmd i c env := by
  unfold cmdsOn at h
  rw [List.reverse_singleton] at h
  cases hev : st.ev with
  | netcmd j d env =>
      by_cases hji : j = i
      · simp only [List.filterMap_cons, hev, if_pos hji, List.filterMap_nil] at h
        obtain rfl := List.singleton_injective h
        exact ⟨env, hji ▸ rfl⟩
      · simp [hev, hji] at h
  | _ => simp [hev] at h

/-- What is sent to a connection that nobody is in chat on, for one of its commands. -/
theorem Turn.own_answer (hs : s.Ok) (hturn : Turn mem s (.netcmd i c env) s' out)
    (hbefore : s.NobodyOn i) (hafter : s'.udata.udataGetByFd (s.clients i).fd = none) :
    (sentTo (s.clients i).fd out = [] ∧ c.op ∉ requestOps) ∨
      ∃ m, sentTo (s.clients i).fd out = [m] ∧ m.op ∈ replyOps c.op := by
  cases hturn with
  | @netcmd _ _ _ o act hlive hmem hcall hdoes =>
      have hpost := post_lsHandleNetcmd (x := s.call i c env) (le_of_lt (hs.fd_pos hlive)) hcall
      rw [sentTo_settle]
      by_cases hop : c.op ∈ requestOps
      · right
        obtain ⟨m, told, hanswered⟩ := hpost.answered hs hlive hop
        refine ⟨m, ?_, hanswered.code⟩
        have hrest : told.filter (fun p => p.1 == (s.clients i).fd) = [] := by
          refine List.filter_eq_nil_iff.mpr fun p hp => ?_
          simpa using (hanswered.others p hp).2
        rw [sentTo_eq_posts, hanswered.posts, List.filter_append, hrest]
        simp
      · rcases hpost.own hbefore hafter with hnone | ⟨m, hone, -, hcode⟩
        · exact Or.inl ⟨hnone, hop⟩
        · exact Or.inr ⟨m, hone, hcode⟩

/-- The messages are answers to some of the commands in their order, and to all requests. -/
def AnswersTo (cmds sent : List NetCmd) : Prop :=
  ∃ answered : List NetCmd, answered.Sublist cmds ∧
    (cmds.filter fun c => decide (c.op ∈ requestOps)).Sublist answered ∧
    List.Forall₂ (fun c m => m.op ∈ replyOps c.op) answered sent

theorem AnswersTo.append {cmds cmds' sent sent' : List NetCmd} (h : AnswersTo cmds sent)
    (h' : AnswersTo cmds' sent') : AnswersTo (cmds ++ cmds') (sent ++ sent') := by
  obtain ⟨answered, hsub, hreq, hcodes⟩ := h
  obtain ⟨answered', hsub', hreq', hcodes'⟩ := h'
  refine ⟨answered ++ answered', hsub.append hsub', ?_, List.rel_append hcodes hcodes'⟩
  rw [List.filter_append]
  exact hreq.append hreq'

/-- What one event has a connection sent. -/
theorem Turn.answers (hs : s.Ok) (hturn : Turn mem s ev s' out) (hbefore : s.NobodyOn i)
    (hafter : s'.udata.udataGetByFd (s.clients i).fd = none) :
    AnswersTo (cmdsOn i [⟨s, ev, s', out⟩]) (sentTo (s.clients i).fd out) := by
  by_cases hown : ∃ c env, ev = .netcmd i c env
  · obtain ⟨c, env, rfl⟩ := hown
    have hcmds : cmdsOn i [⟨s, .netcmd i c env, s', out⟩] = [c] := by simp [cmdsOn]
    rw [hcmds]
    rcases hturn.own_answer hs hbefore hafter with ⟨hnone, hop⟩ | ⟨m, hm, hcode⟩
    · refine ⟨[], List.nil_sublist _, by simp [hop], ?_⟩
      rw [hnone]
      exact .nil
    · refine ⟨[c], List.Sublist.refl _, List.filter_sublist, ?_⟩
      rw [hm]
      exact .cons hcode .nil
  · have hcmds : cmdsOn i [⟨s, ev, s', out⟩] = [] := by
      refine List.filterMap_eq_nil_iff.mpr fun st hst => ?_
      rw [List.mem_singleton.mp (List.mem_reverse.mp hst)]
      cases ev with
      | netcmd j c env => exact if_neg fun hji => hown ⟨c, env, by rw [hji]⟩
      | _ => rfl
    rw [hcmds, hturn.outside hs hbefore hafter fun c env hev => hown ⟨c, env, hev⟩]
    exact ⟨[], .slnil, .slnil, .nil⟩

theorem cmdsOn_cons (i : Slot) (st : ServerStep) (steps : List ServerStep) :
    cmdsOn i (st :: steps) = cmdsOn i steps ++ cmdsOn i [st] := by
  rw [cmdsOn, List.reverse_cons, List.filterMap_append]
  rfl

theorem heardOn_cons (fd : Int) (st : ServerStep) (steps : List ServerStep) :
    heardOn fd (st :: steps) = heardOn fd steps ++ sentTo fd st.out := by
  rw [heardOn, List.reverse_cons, List.flatMap_append]
  exact congrArg _ (List.append_nil _)

/-- A connection that stays open and that nobody comes to be in chat on is answered. -/
theorem exec_answers {s₀ : Server} (hs₀ : s₀.Ok) (hx : Exec (server mem) s₀ later s)
    (hlive : s₀.live i) (hno : s₀.NobodyOn i)
    (houtside : ∀ st ∈ later, st.post.live i ∧ st.post.NobodyOn i) :
    s.Ok ∧ s.live i ∧ s.NobodyOn i ∧ s.clients i = s₀.clients i ∧
      AnswersTo (cmdsOn i later) (heardOn (s₀.clients i).fd later) := by
  induction hx with
  | nil => exact ⟨hs₀, hlive, hno, rfl, [], .slnil, .slnil, .nil⟩
  | @snoc later s s' ev out hx hstep ih =>
      obtain ⟨hs, hi, hbefore, hclient, hanswers⟩ :=
        ih fun st hst => houtside st (List.mem_cons_of_mem _ hst)
      obtain ⟨hi', hafter⟩ := houtside _ List.mem_cons_self
      have hturn := step_turn hs hstep
      have hkept := hturn.client_kept hi hi'
      refine ⟨hturn.ok hs, hi', hafter, hkept.trans hclient, ?_⟩
      rw [cmdsOn_cons, heardOn_cons]
      refine hanswers.append ?_
      rw [← hclient]
      refine hturn.answers hs hbefore ?_
      rw [← hkept]
      exact hafter

end Smsg
