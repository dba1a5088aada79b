/-
`smsgwho` tells who is in chat.

The loop around `recvbuf` ends with the last byte of the answer, whatever the pieces are that
it comes in (`whoReceive_whole`), and what is printed then is what the decoded command says
(`whoPrints_encode`).  So the program prints a record for everybody who was in chat when the
server handled its request, or how many they were, in the form that its command line asks
for; and with less than the whole answer it prints nothing (`smsgwho_tells`).
-/
import Smsg.Smsgwho
import Smsg.Proofs.Client
import Smsg.Proofs.Who

namespace Smsg

open Settings Machines Framing

/-! ### The command line -/

theorem isWhoOption_apart {arg : CString} {a b : String} (ha : isWhoOption a arg = true)
    (hlen : (text a).length = (text b).length) (hne : text a ≠ text b) :
    isWhoOption b arg = false := by
  rw [Bool.eq_false_iff]
  intro hb
  have hpa : text a <+: arg.chars := List.isPrefixOf_iff_prefix.mp ha
  have hpb : text b <+: arg.chars := List.isPrefixOf_iff_prefix.mp hb
  exact hne ((List.prefix_of_prefix_length_le hpa hpb hlen.le).eq_of_length hlen)

/-- **The arguments**, one after the other. -/
theorem foldl_whoArg (args : List CString) : args.foldl whoArg .default = whoSettings args := by
  induction args using List.reverseRecOn with
  | nil => rfl
  | append_singleton args a ih =>
      rw [List.foldl_concat, ih]
      simp only [whoSettings, lastOr_concat, List.any_append, List.any_cons, List.any_nil,
        Bool.or_false]
      unfold whoArg
      by_cases hf : isWhoOption "-f" a = true
      · have hr := isWhoOption_apart (b := "-r") hf rfl (by decide)
        have hc := isWhoOption_apart (b := "-c") hf rfl (by decide)
        simp only [hf, hr, hc, isWhoHost]
        cases a.chars[2]? <;> simp
      · by_cases hr : isWhoOption "-r" a = true
        · have hc := isWhoOption_apart (b := "-c") hr rfl (by decide)
          simp only [hf, hr, hc, isWhoHost]
          cases a.chars[2]? <;> simp
        · by_cases hc : isWhoOption "-c" a = true
          · simp [hf, hr, hc, isWhoHost]
          · simp only [hf, hr, hc, isWhoHost]
            cases whoPort a <;> by_cases hhost : (whoHost a).chars = [] <;> simp [hhost]

/-! ### Receiving -/

section

variable {c : NetCmd} {rbuf : Bytes}

/-- **The loop ends with the whole command**, and whatever else came with its last byte. -/
theorem whoReceive_whole (hc : c.Short) (chunks : List Bytes) (more : List Received) :
    ∀ rbuf, c.encode <+: rbuf ++ chunks.flatten → (rbuf <+: c.encode ∨ c.encode <+: rbuf) →
      ∃ rest, whoReceive rbuf (chunks.map .bytes ++ more) = some (.inr (c.encode ++ rest)) := by
  have hwhole : ∀ rest received,
      whoReceive (c.encode ++ rest) received = some (.inr (c.encode ++ rest)) := by
    intro rest received
    have hk := ncmdIscomplete_encode hc rest
    have hpos : (c.encode.length : Int) ≠ 0 := by
      have := c.four_le_length
      omega
    cases received with
    | nil => rw [whoReceive, hk, Option.bind_eq_bind, Option.bind_some, if_neg hpos]
    | cons r received =>
        cases r <;> rw [whoReceive, hk, Option.bind_eq_bind, Option.bind_some, if_pos hpos]
  induction chunks with
  | nil =>
      intro rbuf hpre _
      rw [List.flatten_nil, List.append_nil] at hpre
      obtain ⟨rest, rfl⟩ := hpre
      exact ⟨rest, hwhole rest _⟩
  | cons b chunks ih =>
      intro rbuf hpre hcase
      by_cases hin : c.encode <+: rbuf
      · obtain ⟨rest, rfl⟩ := hin
        exact ⟨rest, hwhole rest _⟩
      · have hpart : rbuf <+: c.encode := hcase.resolve_right hin
        have hk := ncmdIscomplete_part hc hpart fun heq => hin (by rw [heq])
        have hnext : c.encode <+: (rbuf ++ b) ++ chunks.flatten := by
          rw [List.append_assoc]
          exact hpre
        obtain ⟨rest, hrest⟩ := ih (rbuf ++ b) hnext
          (List.prefix_or_prefix_of_prefix (List.prefix_append _ _) hnext)
        refine ⟨rest, ?_⟩
        rw [List.map_cons, List.cons_append, whoReceive, hk]
        exact hrest

/-- With less than the whole command, the end of the connection ends the program. -/
theorem whoReceive_short (hc : c.Short) {last : Received} (hlast : ∀ b, last ≠ .bytes b)
    (more : List Received) (chunks : List Bytes) :
    ∀ rbuf, rbuf ++ chunks.flatten <+: c.encode → rbuf ++ chunks.flatten ≠ c.encode →
      ∃ err, whoReceive rbuf (chunks.map .bytes ++ last :: more)
        = some (.inl (.exits 3 [] err)) := by
  induction chunks with
  | nil =>
      intro rbuf hpre hne
      rw [List.flatten_nil, List.append_nil] at hpre hne
      have hk := ncmdIscomplete_part hc hpre hne
      cases last with
      | bytes b => exact absurd rfl (hlast b)
      | closed =>
          refine ⟨text "connection closed by peer\n", ?_⟩
          rw [List.map_nil, List.nil_append, whoReceive, hk]
          rfl
      | error =>
          refine ⟨text "error receiving data\n", ?_⟩
          rw [List.map_nil, List.nil_append, whoReceive, hk]
          rfl
  | cons b chunks ih =>
      intro rbuf hpre hne
      rw [List.flatten_cons, ← List.append_assoc] at hpre hne
      have hpart : rbuf <+: c.encode :=
        ((List.prefix_append rbuf b).trans (List.prefix_append _ _)).trans hpre
      have hproper : rbuf ≠ c.encode := by
        rintro rfl
        exact hne (hpre.eq_of_length_le (by simp))
      have hk := ncmdIscomplete_part hc hpart hproper
      obtain ⟨err, herr⟩ := ih (rbuf ++ b) hpre hne
      refine ⟨err, ?_⟩
      rw [List.map_cons, List.cons_append, whoReceive, hk]
      exact herr

/-! ### Printing -/

/-- An argument that is there, fetched from a buffer that begins with the command. -/
theorem getarg_front (hc : c.Short) {k : Nat} {a : Bytes} (ha : c.args[k]? = some a) {t : Arg}
    (ht : t.ap ≠ .freed) (rest : Bytes) :
    getarg (c.encode ++ rest) t k true = some (.blk (a ++ [0])) := by
  have hread := congrArg (fun r => r.arg k) (readCmd_encode hc rest)
  have hnull : ncmdGetarg (c.encode ++ rest) .null k true = some (0, .blk (a ++ [0])) := by
    refine Eq.trans (b := c.getarg .null k true) hread ?_
    rw [NetCmd.getarg, ha]
    rfl
  rw [getarg, ncmdGetarg_target hnull ht]
  rfl

theorem getnumargs_front (hc : c.Short) (rest : Bytes) :
    ncmdGetnumargs (c.encode ++ rest) = c.args.length :=
  congrArg Read.numargs (readCmd_encode hc rest)

/-- An argument that is not there leaves what it would have been fetched into. -/
theorem getarg_absent {k : Nat} (h : ncmdGetnumargs rbuf ≤ k) (t : Arg) :
    getarg rbuf t k true = some t := by
  rw [getarg, ncmdGetarg, if_pos h]
  rfl

/-- **The loop over the buffer** prints what the loop over the arguments says. -/
theorem whoPrintsLoop_encode (hc : c.Short) (ofs ors : UInt8) (rest : Bytes) :
    ∀ (fuel ti : Nat) (tnick tinfo : Arg), c.args.length ≤ ti + fuel → tnick.ap ≠ .freed →
      tinfo.ap ≠ .freed →
      whoPrintsLoop (c.encode ++ rest) ofs ors (fuel + 1) ti tnick tinfo
        = some (smsgwhoLoop ofs ors tinfo (c.args.drop ti)) := by
  have hnum := getnumargs_front hc rest
  have hlive : ∀ b : Bytes, (Arg.blk b).ap ≠ .freed := fun b h => by cases h
  intro fuel
  induction fuel with
  | zero =>
      intro ti tnick tinfo hti _ _
      rw [whoPrintsLoop, hnum, if_neg (by omega), List.drop_of_length_le (by omega)]
      rfl
  | succ fuel ih =>
      intro ti tnick tinfo hti htnick htinfo
      rw [whoPrintsLoop, hnum]
      by_cases hlt : ti < c.args.length
      · have hnick := getarg_front hc (List.getElem?_eq_getElem hlt) htnick rest
        rw [if_pos hlt, hnick, List.drop_eq_getElem_cons hlt, Option.bind_eq_bind, Option.bind_some]
        by_cases hlt' : ti + 1 < c.args.length
        · -- a pair
          have hinfo := getarg_front hc (List.getElem?_eq_getElem hlt') htinfo rest
          have hrest := ih (ti + 2) _ _ (by omega) (hlive (c.args[ti] ++ [0]))
            (hlive (c.args[ti + 1] ++ [0]))
          rw [hinfo, List.drop_eq_getElem_cons hlt', Option.bind_eq_bind, Option.bind_some, hrest]
          rfl
        · -- a nick without what is known of its user
          have hinfo := getarg_absent (k := ti + 1) (by rw [hnum]; omega) tinfo
          have hrest := ih (ti + 2) _ _ (by omega) (hlive (c.args[ti] ++ [0])) htinfo
          rw [List.drop_of_length_le (by omega)] at hrest ⊢
          rw [hinfo, Option.bind_eq_bind, Option.bind_some, hrest]
          simp [smsgwhoLoop, smsgwhoRecord, whoPrintsRecord, printStr]
      · rw [if_neg hlt, List.drop_of_length_le (by omega)]
        rfl

/-- **What is printed from a buffer** that begins with the command. -/
theorem whoPrints_encode (hc : c.Short) (ofs ors : UInt8) (countOnly : Bool) (rest : Bytes) :
    whoPrints ofs ors countOnly (c.encode ++ rest) = some (smsgwho ofs ors countOnly c) := by
  rw [whoPrints, smsgwho, getnumargs_front hc rest]
  split
  · rfl
  · exact whoPrintsLoop_encode hc ofs ors rest c.args.length 1 .null .null (by omega)
      (by simp [Arg.null]) (by simp [Arg.null])

end

/-! ### The program and the server -/

section

variable {mem : Memory} {hist : List ServerStep} {s : Server} {i : Slot} {env : Env}

/-- The answer to `smsgwho`. -/
def whoAnswer (clients : Slot → Client) (l : List (UdataEnt × Slot)) : NetCmd :=
  ⟨.cWho, [38] :: l.flatMap (whoPair clients)⟩

/-- What is printed for the answer. -/
theorem smsgwho_answer (o : WhoOpts) (clients : Slot → Client) (l : List (UdataEnt × Slot)) :
    smsgwho o.ofs o.ors o.countOnly (whoAnswer clients l) = o.lists clients l := by
  rw [smsgwho, WhoOpts.lists]
  have hhalf : (whoAnswer clients l).getnumargs / 2 = l.length := by
    have hlen := length_pairs clients l
    rw [whoAnswer, NetCmd.getnumargs, List.length_cons, hlen]
    omega
  split
  · rw [hhalf]
  · exact smsgwhoLoop_pairs o.ofs o.ors clients l .null

theorem smsgwhoMain_whole {args : List CString} {wenv : WhoEnv} (hasks : wenv.Asks args)
    {rbuf out : Bytes} (hgot : whoReceive [] wenv.received = some (.inr rbuf))
    (hout : whoPrints (whoSettings args).ofs (whoSettings args).ors (whoSettings args).countOnly rbuf
      = some out) :
    smsgwhoMain args wenv = some (.exits 0 out []) := by
  rw [smsgwhoMain, foldl_whoArg]
  simp only [hasks.1, hasks.2, hgot, hout, Option.bind_eq_bind, Option.bind_some]

theorem smsgwhoMain_short {args : List CString} {wenv : WhoEnv} (hasks : wenv.Asks args)
    {outcome : WhoOutcome} (hgot : whoReceive [] wenv.received = some (.inl outcome)) :
    smsgwhoMain args wenv = some outcome := by
  rw [smsgwhoMain, foldl_whoArg]
  simp only [hasks.1, hasks.2, hgot, Option.bind_eq_bind, Option.bind_some]

/--
**`smsgwho` tells who is in chat.**  In runs in which nobody joins on a used connection, its
request is answered, and the answer goes over those in chat, each of them once.  Whatever the
arguments of the program are and whatever the pieces are that the answer comes in, the program
prints one record for each of them, or their number; if the connection ends before the answer
does, it prints nothing.
-/
theorem smsgwho_tells (h : Run (server mem) hist s) (hjoins : ∀ st ∈ hist, ¬ st.pre.JoinsTwice st.ev)
    (hlive : s.live i) (hmem : mem.allows env.alloc = true)
    (hnick : s.AllNamed) :
    ∃ m l, (server mem).step s (.netcmd i smsgwhoAsks env)
        = some (s, [.send (s.clients i).fd m]) ∧ s.Goes l ∧
      (m.encode.length < 2 ^ 31 → ∀ (args : List CString) (wenv : WhoEnv), wenv.Asks args →
        (∀ (chunks : List Bytes) more, wenv.received = chunks.map Received.bytes ++ more →
          m.encode <+: chunks.flatten →
          smsgwhoMain args wenv = some (.exits 0 ((whoSettings args).lists s.clients l) [])) ∧
        (∀ (chunks : List Bytes) last more, wenv.received = chunks.map Received.bytes ++ last :: more →
          (∀ b, last ≠ .bytes b) → chunks.flatten <+: m.encode → chunks.flatten ≠ m.encode →
          ∃ err, smsgwhoMain args wenv = some (.exits 3 [] err))) := by
  have hs := run_ok h
  have hbound := seated_iff_bound.mp (seated_run h hjoins)
  have hasks : s.AsksWho i smsgwhoAsks := ⟨rfl, Or.inl (by decide)⟩
  have hgoes := goes_slots hs hbound
  have hstep := @step_asksWho mem s i smsgwhoAsks env hlive hmem hasks hnick
  have hslots : ((List.finRange maxClients).filterMap (whoAt s.clients s.udata)).length
      ≤ maxClients := by
    simpa using List.length_filterMap_le (whoAt s.clients s.udata) (List.finRange maxClients)
  generalize (List.finRange maxClients).filterMap (whoAt s.clients s.udata) = l
    at hgoes hstep hslots
  refine ⟨whoAnswer s.clients l, l, hstep, hgoes, ?_⟩
  intro hlen args wenv hto
  have hshort : (whoAnswer s.clients l).Short := by
    refine ⟨?_, hlen⟩
    have hpairs := length_pairs s.clients l
    have hmax : maxClients = 111 := rfl
    rw [whoAnswer, List.length_cons, hpairs]
    omega
  refine ⟨fun chunks more hgot hpre => ?_, fun chunks last more hgot hlast hpre hne => ?_⟩
  · obtain ⟨rest, hrest⟩ := whoReceive_whole hshort chunks more [] hpre (Or.inl List.nil_prefix)
    rw [← hgot] at hrest
    refine smsgwhoMain_whole hto hrest ?_
    rw [whoPrints_encode hshort, smsgwho_answer]
  · obtain ⟨err, herr⟩ := whoReceive_short hshort hlast more chunks [] hpre hne
    rw [← hgot] at herr
    exact ⟨err, smsgwhoMain_short hto herr⟩

end

/-- Two are in chat, and the answer with their number comes in two pieces. -/
theorem smsgwho_tells_two : ∃ hist s m wenv, Run (server .enough) hist s ∧
    (server .enough).step s (.netcmd 2 smsgwhoAsks .bare) = some (s, [.send (s.clients 2).fd m]) ∧
    wenv.received = [.bytes (m.encode.take 5), .bytes (m.encode.drop 5)] ∧
    smsgwhoMain [⟨text "-c", by decide⟩] wenv = some (.exits 0 (text "2\n") []) := by
  have hrun : (exec (server .enough) (.initial 3) (twoUsers ++ [arrives 6]) []).any (fun r =>
      r.1.all ServerStep.joinsApart && decide (r.2.live 2) &&
        decide (r.2.udata.chatting.length = 2) &&
        ((server .enough).step r.2 (.netcmd 2 smsgwhoAsks .bare)).all fun r' =>
          (sentTo (r.2.clients 2).fd r'.2).all fun m => decide (m.encode.length < 2 ^ 31)) = true := by
    decide +kernel
  simp only [Option.any_eq_true, Bool.and_eq_true, decide_eq_true_eq] at hrun
  obtain ⟨⟨hist, s⟩, hexec, ⟨⟨hapart, hlive⟩, hlen⟩, hsize⟩ := hrun
  have h : Run (server .enough) hist s := run_of_exec hexec
  obtain ⟨m, l, hstep, hgoes, htells⟩ := @smsgwho_tells .enough hist s 2 .bare h
    (not_joinsTwice hapart) hlive (by decide) (allNamed_of_enough h)
  have hshort : m.encode.length < 2 ^ 31 := by
    rw [hstep] at hsize
    simpa [sentTo] using hsize
  let wenv : WhoEnv := ⟨fun _ _ => .ok (), none, [.bytes (m.encode.take 5), .bytes (m.encode.drop 5)]⟩
  refine ⟨hist, s, m, wenv, h, hstep, rfl, ?_⟩
  have hall := (htells hshort [⟨text "-c", by decide⟩] wenv ⟨rfl, rfl⟩).1
    [m.encode.take 5, m.encode.drop 5] [] rfl (by simp)
  have htwo : l.length = 2 := by
    rw [← hlen, ← hgoes.once.length_eq, List.length_map]
  have hcount : (whoSettings [⟨text "-c", by decide⟩]).countOnly = true := by decide
  rw [hall, WhoOpts.lists, hcount, if_pos rfl, htwo]
  rfl

end Smsg
