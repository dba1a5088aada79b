/-
What the options come to.

`main` gets through its options just when each of them can be used where it stands, and then
each setting is as the last option has it that is about it: options for different settings
may come in any order (`main_settings`).  What is passed on has passed the checks for it.

For the preferences this goes on to the server.  When `sendprefs` says that they are set, the
server has what the options say, and when it complains, the server has what it had before
(`prefs_as_asked`).
-/
import Smsg.Options
import Smsg.Proofs.Main
import Smsg.Proofs.Prefs
import Smsg.Proofs.Client

namespace Smsg

open Heaps Blocks Settings Machines

/-! ### Numbers -/

theorem isDigitOf_ten (c : UInt8) : isDigitOf 10 c = isdigit c := by
  have key : ∀ n : Fin 256, isDigitOf 10 (.ofNat n.val) = isdigit (.ofNat n.val) := by
    decide +kernel
  have h := key ⟨c.toNat, c.toNat_lt⟩
  rwa [UInt8.ofNat_toNat] at h

theorem digitValue_isdigit {c : UInt8} (h : isdigit c = true) :
    (digitValue c).getD 0 = c.toNat - 48 := by
  simp only [isdigit, Bool.and_eq_true, decide_eq_true_eq] at h
  rw [digitValue, if_pos h]
  rfl

/-- The digits at the front of a string, read as they are worth. -/
theorem foldl_digitValue (s : Bytes) (n : Nat) :
    (s.takeWhile isdigit).foldl (fun n c => n * 10 + (digitValue c).getD 0) n
      = (s.takeWhile isdigit).foldl (fun n c => n * 10 + (c.toNat - 48)) n := by
  induction s generalizing n with
  | nil => rfl
  | cons c s ih =>
      by_cases hc : isdigit c = true
      · rw [List.takeWhile_cons_of_pos hc, List.foldl_cons, List.foldl_cons,
          digitValue_isdigit hc]
        exact ih _
      · rw [List.takeWhile_cons_of_neg hc]
        rfl

/-- With base 10 the number is the one that `atoi` gets. -/
theorem strtolEnd_ten (s : Bytes) : (strtolEnd 10 s).1 = strtol s := by
  have hdigit : isDigitOf 10 = isdigit := funext isDigitOf_ten
  have hfold : ∀ t : Bytes, (t.takeWhile isdigit).foldl
      (fun n c => n * 10 + (digitValue c).getD 0) 0 = digits t := fun t => foldl_digitValue t 0
  have hnone : ∀ t : Bytes, t.takeWhile isdigit = [] → digits t = 0 := by
    intro t ht
    rw [digits, ht]
    rfl
  simp only [strtolEnd, strtol, numberBase, hdigit, ne_eq, OfNat.ofNat_ne_zero, not_false_eq_true,
    if_true, hfold]
  generalize s.dropWhile isspace = t
  have hcase : ∀ u : Bytes, ∀ neg : Prop, [Decidable neg] →
      (if u.takeWhile isdigit = [] then ((0 : Int), s)
        else (if neg then max (-(digits u : Int)) (-2 ^ 63) else min (digits u : Int) (2 ^ 63 - 1),
          u.drop (u.takeWhile isdigit).length)).1
      = if neg then max (-(digits u : Int)) (-2 ^ 63) else min (digits u : Int) (2 ^ 63 - 1) := by
    intro u neg _
    by_cases hu : u.takeWhile isdigit = []
    · rw [if_pos hu, hnone u hu]
      split <;> rfl
    · rw [if_neg hu]
  rw [hcase]
  by_cases hminus : t.head? = some 45
  · simp only [hminus, true_or, if_true]
  · by_cases hplus : t.head? = some 43
    · simp [hplus]
    · simp only [hminus, hplus, or_self, if_false]

/-! ### One option -/

section

variable {env : MainEnv} {opts pre : List Opt} {o s : MainOpts} {p : Opt} {optarg : CString}

/-- What an option makes of the settings when it is used. -/
def Opt.applied (env : MainEnv) (p : Opt) (o : MainOpts) : MainOpts where
  command := (p.asks.map some).getD o.command
  tport := p.givesPort.getD o.tport
  autofork := p.givesFork.getD o.autofork
  beepspec := p.givesBeep.getD o.beepspec
  mode := p.givesMode.getD o.mode
  targethost := (p.givesHost.map some).getD o.targethost
  targetuser := (p.givesUser.map some).getD o.targetuser
  ttyspec := ((p.givesTty env).map some).getD o.ttyspec
  nick := (p.givesNick.map some).getD o.nick
  chatopts :=
    ⟨p.givesColor.getD o.chatopts.forcecolor, o.chatopts.barspec,
      p.givesErase.getD o.chatopts.eraseKey, o.chatopts.mailchecktime,
      (p.givesRoom.map some).getD o.chatopts.room⟩
  loglevel := p.givesLoglevel.getD o.loglevel
  logfilename := (p.givesLogfile.map some).getD o.logfilename
  usegui := p.givesGui.getD o.usegui

theorem settingsOf_concat (env : MainEnv) (pre : List Opt) (p : Opt) :
    settingsOf env (pre ++ [p]) = p.applied env (settingsOf env pre) := by
  simp only [settingsOf, Opt.applied, lastOr_concat]

/-- An option that ends the program. -/
theorem complain_iff {format : String} {args : List Printed} {U : Prop} {o' : MainOpts}
    (hu : ¬ U) : (env.complain format args = .ok o) ↔ U ∧ o = o' :=
  iff_of_false (fun h => by cases h) fun h => hu h.1

/-- An option that is used. -/
theorem used_iff {U : Prop} {s o' : MainOpts} (hu : U) (hs : o' = s) :
    (Except.ok s : Except (List Line) MainOpts) = .ok o ↔ U ∧ o = o' := by
  rw [Except.ok.injEq, hs]
  exact ⟨fun h => ⟨hu, h.symm⟩, fun h => h.2.symm⟩

/-- The command is still open just when no option has asked for one. -/
theorem command_settingsOf (env : MainEnv) (pre : List Opt) :
    (settingsOf env pre).command = none ↔ ∀ p ∈ pre, p.asks = none := by
  induction pre using List.reverseRecOn with
  | nil => simp [settingsOf]
  | append_singleton pre p ih =>
      have hlast : (settingsOf env (pre ++ [p])).command
          = (p.asks.map some).getD (settingsOf env pre).command := by
        rw [settingsOf_concat]
        rfl
      rw [hlast]
      simp only [List.mem_append, List.mem_singleton]
      cases hp : p.asks with
      | none =>
          simp only [Option.map_none, Option.getD_none, ih]
          constructor
          · rintro h q (hq | rfl)
            · exact h q hq
            · exact hp
          · exact fun h q hq => h q (Or.inl hq)
      | some code =>
          simp only [Option.map_some, Option.getD_some, reduceCtorEq, false_iff]
          intro h
          rw [h p (Or.inr rfl)] at hp
          cases hp

/-- A destination that there is memory for. -/
theorem mainDest_some {m : Malloc} {optarg : CString} {d : Dest} (h : mainDest m optarg = some d) :
    d.targethost = destHost optarg ∧
      d.targetuser = (optarg.chars.idxOf? 64).map (userBlock optarg.chars) := by
  unfold mainDest at h
  unfold destHost
  split at h
  · rename_i hnone
    rw [hnone]
    split at h
    · rw [← Option.some.inj h]
      exact ⟨rfl, rfl⟩
    · cases h
  · rename_i len hlen
    rw [hlen]
    dsimp only at h
    split at h
    · cases h
    · split at h
      · cases h
      · rw [← Option.some.inj h]
        exact ⟨rfl, rfl⟩

theorem strdup_some {s t : CString} (h : env.strdup s = some t) : t = s := by
  rw [MainEnv.strdup] at h
  split at h
  · exact (Option.some.inj h).symm
  · cases h

/-! #### Option by option -/

theorem optCommand_iff (hcommand : s.command = none ↔ ∀ p ∈ pre, p.asks = none) :
    optCommand env s optarg = .ok o ↔
      (Opt.command optarg).Usable env pre ∧ o = (Opt.command optarg).applied env s := by
  rw [optCommand]
  by_cases hnone : s.command = none
  · rw [if_neg (not_not.mpr hnone)]
    cases hcode : cmdCode optarg with
    | none => exact complain_iff fun h => h.2 hcode
    | some code =>
        refine used_iff ⟨hcommand.mp hnone, by simp [hcode]⟩ ?_
        show { s with command := ((cmdCode optarg).map some).getD s.command } = _
        rw [hcode]
        rfl
  · rw [if_pos hnone]
    exact complain_iff fun h => hnone (hcommand.mpr h.1)

theorem optPort_iff :
    optPort env s optarg = .ok o ↔
      (Opt.port optarg).Usable env pre ∧ o = (Opt.port optarg).applied env s := by
  rw [optPort]
  cases hport : numberOf optarg with
  | none => exact complain_iff fun ⟨_, h, _⟩ => by rw [hport] at h; cases h
  | some tport =>
      dsimp only
      by_cases hlow : tport < 1024
      · rw [if_pos hlow]
        refine complain_iff fun ⟨port, h, hle⟩ => ?_
        obtain rfl := Option.some.inj (hport.symm.trans h)
        exact absurd hlow (Int16.not_lt.mpr hle)
      · rw [if_neg hlow]
        refine used_iff ⟨tport, hport, Int16.not_lt.mp hlow⟩ ?_
        show { s with tport := (numberOf optarg).getD s.tport } = _
        rw [hport]
        rfl

theorem optDestination_iff :
    optDestination env s optarg = .ok o ↔
      (Opt.destination optarg).Usable env pre ∧ o = (Opt.destination optarg).applied env s := by
  rw [optDestination]
  cases hdest : mainDest env.malloc optarg with
  | none =>
      dsimp only
      split <;> exact complain_iff fun h => h hdest
  | some d =>
      obtain ⟨hhost, huser⟩ := mainDest_some hdest
      refine used_iff (Option.ne_none_iff_exists'.mpr ⟨_, hdest⟩) ?_
      show { s with
        targethost := some (destHost optarg)
        targetuser := (((optarg.chars.idxOf? 64).map (userBlock optarg.chars)).map some).getD
          s.targetuser } = _
      rw [← hhost, ← huser]
      cases d.targetuser <;> rfl

theorem optTty_iff :
    optTty env s optarg = .ok o ↔
      (Opt.tty optarg).Usable env pre ∧ o = (Opt.tty optarg).applied env s := by
  rw [optTty]
  cases htty : ttyOf env optarg with
  | none =>
      dsimp only
      split <;> exact complain_iff fun h => h htty
  | some tty =>
      refine used_iff (Option.ne_none_iff_exists'.mpr ⟨_, htty⟩) ?_
      show { s with ttyspec := ((ttyOf env optarg).map some).getD s.ttyspec } = _
      rw [htty]
      rfl

theorem optBeep_iff :
    optBeep env s optarg = .ok o ↔
      (Opt.beep optarg).Usable env pre ∧ o = (Opt.beep optarg).applied env s := by
  rw [optBeep]
  cases hbeep : beepOf optarg with
  | none => exact complain_iff fun h => h hbeep
  | some beepspec =>
      refine used_iff (Option.ne_none_iff_exists'.mpr ⟨_, hbeep⟩) ?_
      show { s with beepspec := (beepOf optarg).getD s.beepspec } = _
      rw [hbeep]
      rfl

theorem optMode_iff :
    optMode env s optarg = .ok o ↔
      (Opt.mode optarg).Usable env pre ∧ o = (Opt.mode optarg).applied env s := by
  rw [optMode]
  cases hmode : modeOf optarg with
  | none => exact complain_iff fun h => h hmode
  | some mode =>
      refine used_iff (Option.ne_none_iff_exists'.mpr ⟨_, hmode⟩) ?_
      show { s with mode := (modeOf optarg).getD s.mode } = _
      rw [hmode]
      rfl

theorem optLoglevel_iff :
    optLoglevel env s optarg = .ok o ↔
      (Opt.loglevel optarg).Usable env pre ∧ o = (Opt.loglevel optarg).applied env s := by
  rw [optLoglevel]
  cases hlevel : numberOf optarg with
  | none => exact complain_iff fun h => h hlevel
  | some loglevel =>
      refine used_iff (Option.ne_none_iff_exists'.mpr ⟨_, hlevel⟩) ?_
      show { s with loglevel := (numberOf optarg).getD s.loglevel } = _
      rw [hlevel]
      rfl

theorem optLogfile_iff :
    optLogfile env s optarg = .ok o ↔
      (Opt.logfile optarg).Usable env pre ∧ o = (Opt.logfile optarg).applied env s := by
  rw [optLogfile]
  cases hname : env.strdup optarg with
  | none => exact complain_iff fun h => h hname
  | some name =>
      refine used_iff (Option.ne_none_iff_exists'.mpr ⟨_, hname⟩) ?_
      rw [strdup_some hname]
      rfl

theorem optNick_iff :
    optNick env s optarg = .ok o ↔
      (Opt.nick optarg).Usable env pre ∧ o = (Opt.nick optarg).applied env s := by
  rw [optNick]
  cases hnick : env.strdup optarg with
  | none => exact complain_iff fun h => h hnick
  | some nick =>
      refine used_iff (Option.ne_none_iff_exists'.mpr ⟨_, hnick⟩) ?_
      rw [strdup_some hnick]
      rfl

theorem optErase_iff :
    optErase env s optarg = .ok o ↔
      (Opt.erase optarg).Usable env pre ∧ o = (Opt.erase optarg).applied env s := by
  rw [optErase]
  cases hkey : eraseOf optarg with
  | none => exact complain_iff fun ⟨_, h, _⟩ => by rw [hkey] at h; cases h
  | some key =>
      dsimp only
      by_cases hbad : badEraseKey key = true
      · rw [if_pos hbad]
        refine complain_iff fun ⟨key', h, hgood⟩ => ?_
        obtain rfl := Option.some.inj (hkey.symm.trans h)
        rw [hbad] at hgood
        cases hgood
      · rw [if_neg hbad]
        refine used_iff ⟨key, hkey, Bool.eq_false_iff.mpr hbad⟩ ?_
        show { s with chatopts :=
          { s.chatopts with eraseKey := (eraseOf optarg).getD s.chatopts.eraseKey } } = _
        rw [hkey]
        rfl

theorem optRoom_iff :
    optRoom env s optarg = .ok o ↔
      (Opt.room optarg).Usable env pre ∧ o = (Opt.room optarg).applied env s := by
  rw [optRoom]
  cases hroom : env.strdup optarg with
  | none => exact complain_iff fun h => h hroom
  | some room =>
      refine used_iff (Option.ne_none_iff_exists'.mpr ⟨_, hroom⟩) ?_
      rw [strdup_some hroom]
      rfl

/-- **One option**, behind those that have made the settings what they are. -/
theorem mainOption_iff (env : MainEnv) (pre : List Opt) (p : Opt) (o : MainOpts) :
    mainOption env (settingsOf env pre) p = .ok o ↔
      p.Usable env pre ∧ o = settingsOf env (pre ++ [p]) := by
  rw [settingsOf_concat]
  cases p with
  | command optarg => exact optCommand_iff (command_settingsOf env pre)
  | gui => exact used_iff trivial rfl
  | color => exact used_iff trivial rfl
  | help => exact used_iff trivial rfl
  | nofork => exact used_iff trivial rfl
  | port optarg => exact optPort_iff
  | destination optarg => exact optDestination_iff
  | tty optarg => exact optTty_iff
  | beep optarg => exact optBeep_iff
  | mode optarg => exact optMode_iff
  | loglevel optarg => exact optLoglevel_iff
  | logfile optarg => exact optLogfile_iff
  | nick optarg => exact optNick_iff
  | sidebar optarg => exact complain_iff fun h => h
  | erase optarg => exact optErase_iff
  | room optarg => exact optRoom_iff
  | unknown => exact iff_of_false (fun h => by cases h) fun h => h.1
  | other c => exact used_iff trivial rfl

/-! ### All options -/

/-- **The loop** gets to its end just when every option can be used. -/
theorem mainLoop_iff (env : MainEnv) (opts : List Opt) (o : MainOpts) :
    mainLoop env opts = .ok o ↔
      EachOk (fun pre p => p.Usable env pre) opts ∧ o = settingsOf env opts := by
  have hstep : ∀ pre p o, mainOption env (settingsOf env pre) p = .ok o ↔
      p.Usable env pre ∧ o = settingsOf env (pre ++ [p]) := mainOption_iff env
  exact foldlM_settles hstep opts o

/-- What holds of the settings that `main` comes to. -/
structure MainOpts.Checked (o : MainOpts) : Prop where
  port : o.tport = -1 ∨ 1024 ≤ o.tport
  beep : o.beepspec ∈ [(-2 : Int8), 0, 1]
  mode : o.mode ∈ [(-2 : Int8), 0, 1]
  erase : o.chatopts.eraseKey = -1 ∨ badEraseKey o.chatopts.eraseKey = false
  bar : o.chatopts.barspec = -1

theorem MainOpts.Checked.thinned (h : o.Checked) : o.thinned.Checked :=
  ⟨h.port, h.beep, h.mode, h.erase, h.bar⟩

theorem beepOf_mem {optarg : CString} {b : Int8} (h : beepOf optarg = some b) :
    b ∈ [(-2 : Int8), 0, 1] := by
  unfold beepOf at h
  split at h
  · rw [← Option.some.inj h]
    decide
  · split at h
    · rw [← Option.some.inj h]
      decide
    · cases h

theorem modeOf_mem {optarg : CString} {b : Int8} (h : modeOf optarg = some b) :
    b ∈ [(-2 : Int8), 0, 1] := by
  unfold modeOf at h
  split at h
  · rw [← Option.some.inj h]
    decide
  · split at h
    · rw [← Option.some.inj h]
      decide
    · cases h

theorem checked_settingsOf (h : EachOk (fun pre p => p.Usable env pre) opts) :
    (settingsOf env opts).Checked where
  port := by
    refine lastOr_of_forall (P := fun port : Int16 => port = -1 ∨ 1024 ≤ port) (Or.inl rfl) ?_
    intro p hp port hgives
    obtain ⟨pre, hok⟩ := h.of_mem hp
    cases p with
    | port optarg =>
        obtain ⟨port', hport, hle⟩ := hok
        obtain rfl := Option.some.inj (hport.symm.trans hgives)
        exact Or.inr hle
    | _ => cases hgives
  beep := by
    refine lastOr_of_forall (P := fun b => b ∈ [(-2 : Int8), 0, 1]) (by decide) ?_
    intro p _ b hgives
    cases p with
    | beep optarg => exact beepOf_mem hgives
    | _ => cases hgives
  mode := by
    refine lastOr_of_forall (P := fun b => b ∈ [(-2 : Int8), 0, 1]) (by decide) ?_
    intro p _ b hgives
    cases p with
    | mode optarg => exact modeOf_mem hgives
    | _ => cases hgives
  erase := by
    refine lastOr_of_forall (P := fun key => key = -1 ∨ badEraseKey key = false) (Or.inl rfl) ?_
    intro p hp key hgives
    obtain ⟨pre, hok⟩ := h.of_mem hp
    cases p with
    | erase optarg =>
        obtain ⟨key', hkey, hgood⟩ := hok
        obtain rfl := Option.some.inj (hkey.symm.trans hgives)
        exact Or.inr hgood
    | _ => cases hgives
  bar := rfl

/-! ### The nick -/

/-- Taking out the first character of a string moves a byte from behind it into its block. -/
theorem filterNick_illegal {c d : UInt8} (pre rest beyond : Bytes) (hc : c ≠ 0)
    (hnul : (0 : UInt8) ∉ rest) (hill : illegal c = true) :
    filterNick (pre ++ (c :: rest ++ 0 :: d :: beyond)) pre.length
      = filterNick (pre ++ (rest ++ 0 :: d :: d :: beyond)) (pre.length + 1) := by
  have hget : (pre ++ (c :: rest ++ 0 :: d :: beyond))[pre.length]? = some c := by simp
  have hlen : strlenAt (pre ++ (c :: rest ++ 0 :: d :: beyond)) pre.length
      = some (rest.length + 1) := by
    rw [strlenAt, List.drop_left]
    exact idxOf_first (by simp [hnul, Ne.symm hc]) (d :: beyond)
  have hsrc : (pre ++ (c :: rest ++ 0 :: d :: beyond)).drop (pre.length + 1)
      = (rest ++ [0, d]) ++ beyond := by
    rw [← List.drop_drop, List.drop_left]
    simp
  have hbehind : (pre ++ (c :: rest ++ 0 :: d :: beyond)).drop (pre.length + (rest.length + 1 + 1))
      = d :: beyond := by
    rw [← List.drop_drop, List.drop_left,
      show c :: rest ++ 0 :: d :: beyond = (c :: rest ++ [0]) ++ d :: beyond by simp]
    exact List.drop_left' (by simp)
  have hmove : Blocks.move (pre ++ (c :: rest ++ 0 :: d :: beyond)) pre.length (pre.length + 1)
      (rest.length + 1 + 1) = some (pre ++ (rest ++ 0 :: d :: d :: beyond)) := by
    rw [Blocks.move_inside (by simp; omega) (by simp), List.take_left, hsrc, hbehind,
      List.take_left' (by simp)]
    simp
  exact filterNick_move hget hc hill hlen hmove

/-- The loop from a character on, or from the one `behind` it when one has been taken out there. -/
theorem filterNick_thinned (rest : Bytes) : ∀ (behind : Bool) (pre beyond : Bytes) {b : Bytes},
    (0 : UInt8) ∉ pre → (0 : UInt8) ∉ rest →
    filterNick (pre ++ (rest ++ 0 :: beyond)) (pre.length + if behind then 1 else 0) = some b →
    (cstr b).chars = pre ++ thinned behind rest := by
  induction rest with
  | nil =>
      intro behind pre beyond b hpre _ h
      have htake : b.take (pre.length + 1) = pre ++ [0] := by
        have hpast : (pre ++ 0 :: beyond).take (pre.length + 1) = pre ++ [0] := by
          rw [show pre ++ 0 :: beyond = (pre ++ [0]) ++ beyond by simp]
          exact List.take_left' (by simp)
        cases behind with
        | false =>
            have hb : filterNick (pre ++ 0 :: beyond) pre.length = some (pre ++ 0 :: beyond) :=
              filterNick_nul (by simp)
            rw [← Option.some.inj (hb.symm.trans h), hpast]
        | true => exact (filterNick_take h).trans hpast
      have hb : b = pre ++ 0 :: b.drop (pre.length + 1) := by
        conv_lhs => rw [← List.take_append_drop (pre.length + 1) b, htake]
        simp
      rw [thinned, List.append_nil, hb]
      exact takeWhile_append_nul hpre _
  | cons c rest ih =>
      intro behind pre beyond b hpre hnul h
      obtain ⟨hc, hrest⟩ : 0 ≠ c ∧ (0 : UInt8) ∉ rest := by simpa [not_or] using hnul
      have hpre' : (0 : UInt8) ∉ pre ++ [c] := by simp [hpre, hc]
      have hshift : pre ++ (c :: rest ++ 0 :: beyond) = (pre ++ [c]) ++ (rest ++ 0 :: beyond) := by
        simp
      have hkept : filterNick (pre ++ (c :: rest ++ 0 :: beyond)) (pre.length + 1) = some b →
          (cstr b).chars = pre ++ c :: thinned false rest := by
        intro hgo
        rw [hshift] at hgo
        have hgo' := ih false (pre ++ [c]) beyond hpre' hrest (by simpa using hgo)
        simpa using hgo'
      have hget : (pre ++ (c :: rest ++ 0 :: beyond))[pre.length]? = some c := by simp
      cases behind with
      | true =>
          rw [thinned, Bool.not_true, Bool.and_false, if_neg Bool.false_ne_true]
          exact hkept h
      | false =>
          cases hill : illegal c with
          | false =>
              rw [thinned, hill, Bool.false_and, if_neg Bool.false_ne_true]
              exact hkept ((filterNick_legal hget (Ne.symm hc) hill).symm.trans h)
          | true =>
              rw [thinned, hill, Bool.not_false, Bool.and_true, if_pos rfl]
              cases beyond with
              | nil =>
                  -- the move does not stay in what there is
                  have hfrom := filterNick_from (c :: rest) pre hnul
                  rw [List.any_cons, hill, Bool.true_or, if_pos rfl] at hfrom
                  cases hfrom.symm.trans h
              | cons d beyond =>
                  rw [if_neg Bool.false_ne_true, Nat.add_zero,
                    filterNick_illegal pre rest beyond (Ne.symm hc) hrest hill] at h
                  exact ih true pre (d :: d :: beyond) hpre hrest h

/-- The loop ends where a zero follows the block. -/
theorem filterNick_ends (rest : Bytes) : ∀ (behind : Bool) (pre beyond : Bytes),
    (0 : UInt8) ∉ rest → filterNick (pre ++ (rest ++ 0 :: 0 :: beyond))
      (pre.length + if behind then 1 else 0) ≠ none := by
  induction rest with
  | nil =>
      intro behind pre beyond _
      have hget : ∀ p, p = pre.length ∨ p = pre.length + 1 →
          (pre ++ 0 :: 0 :: beyond)[p]? = some 0 := by
        rintro p (rfl | rfl) <;> simp
      rw [List.nil_append, filterNick_nul (hget _ (by cases behind <;> simp))]
      simp
  | cons c rest ih =>
      intro behind pre beyond hnul
      obtain ⟨hc, hrest⟩ : 0 ≠ c ∧ (0 : UInt8) ∉ rest := by simpa [not_or] using hnul
      have hget : (pre ++ (c :: rest ++ 0 :: 0 :: beyond))[pre.length]? = some c := by simp
      have hkept : filterNick (pre ++ (c :: rest ++ 0 :: 0 :: beyond)) (pre.length + 1) ≠ none := by
        have h := ih false (pre ++ [c]) beyond hrest
        simpa using h
      cases behind with
      | true => exact hkept
      | false =>
          rw [if_neg Bool.false_ne_true, Nat.add_zero]
          cases hill : illegal c with
          | false =>
              rw [filterNick_legal hget (Ne.symm hc) hill]
              exact hkept
          | true =>
              rw [filterNick_illegal pre rest beyond (Ne.symm hc) hrest hill]
              exact ih true pre (0 :: beyond) hrest

theorem mainNick_eq {nick nick' : Option CString} (h : mainNick env nick = some nick') :
    nick' = nick.map CString.thinned := by
  cases nick with
  | none => exact (Option.some.inj h).symm
  | some n =>
      obtain ⟨b, hb, rfl⟩ := Option.map_eq_some_iff.mp h
      have hchars := filterNick_thinned n.chars false [] env.beyond (by simp) n.nulFree hb
      exact congrArg some (CString.ext hchars)

theorem mainNick_ends (hbeyond : env.beyond.head? = some 0) (nick : Option CString) :
    mainNick env nick ≠ none := by
  cases nick with
  | none => simp [mainNick]
  | some n =>
      obtain ⟨rest, hrest⟩ : ∃ rest, env.beyond = 0 :: rest := by
        cases hb : env.beyond with
        | nil => simp [hb] at hbeyond
        | cons c rest => exact ⟨rest, by simpa [hb] using hbeyond⟩
      rw [mainNick, hrest, Ne, Option.map_eq_none_iff]
      exact filterNick_ends n.chars false [] rest n.nulFree

/-- Where there is nothing to take out, nothing is. -/
theorem thinned_legal {s : Bytes} (h : ∀ c ∈ s, 33 ≤ c ∧ c ≤ 126) :
    ∀ behind, thinned behind s = s := by
  induction s with
  | nil => exact fun _ => rfl
  | cons c s ih =>
      intro behind
      obtain ⟨hc, hs⟩ := List.forall_mem_cons.mp h
      rw [thinned, illegal_eq, decide_eq_true hc, ih hs, ih hs]
      rfl

/-- What the switch over the command passes on. -/
theorem mainDispatch_checked {call : MainCall} (ho : o.Checked)
    (h : mainDispatch env o = .ok call) : call.Checked := by
  have hport : o.port = portDefault ∨ 1024 ≤ o.port := by
    rw [MainOpts.port]
    split
    · exact Or.inl rfl
    · rename_i hne
      exact Or.inr (ho.port.resolve_left hne)
  unfold mainDispatch at h
  split at h
  · rw [← Except.ok.inj h]
    exact hport
  · split at h
    · cases h
    · split at h
      · cases h
      · rename_i hne
        split at h
        · rw [← Except.ok.inj h]
          trivial
        · rw [← Except.ok.inj h]
          exact ⟨hne, hport⟩
  · rw [← Except.ok.inj h]
    split
    · trivial
    · exact hport
  · split at h
    · cases h
    · rw [← Except.ok.inj h]
      split
      · trivial
      · exact hport
  · split at h
    · cases h
    · rw [← Except.ok.inj h]
      exact ⟨hport, ho.erase, ho.bar, rfl⟩
  · rw [← Except.ok.inj h]
    split
    · trivial
    · exact ⟨ho.beep, ho.mode, hport⟩
  · rw [← Except.ok.inj h]
    trivial
  · cases h

/-- `main` goes on with the settings that the options come to, when it has been through the nick. -/
theorem smsgMain_ok {call : MainCall} (h : smsgMain env opts = some (.ok call)) :
    EachOk (fun pre p => p.Usable env pre) opts ∧
      mainDispatch env (settingsOf env opts).thinned = .ok call := by
  unfold smsgMain at h
  split at h
  · cases h
  · rename_i o hloop
    obtain ⟨heach, rfl⟩ := (mainLoop_iff env opts o).mp hloop
    obtain ⟨nick, hnick, hcall⟩ := Option.map_eq_some_iff.mp h
    rw [mainNick_eq hnick] at hcall
    exact ⟨heach, hcall⟩

theorem mainDispatch_prefs {tty : Option CString} {beep mode : Int8} {port : Int16}
    (h : mainDispatch env o = .ok (.sendprefs tty beep mode port)) :
    o.ttyspec = tty ∧ o.beepspec = beep ∧ o.mode = mode := by
  unfold mainDispatch at h
  split at h
  · cases h
  · split at h
    · cases h
    · split at h
      · cases h
      · split at h <;> cases h
  · split at h <;> cases h
  · split at h
    · cases h
    · split at h <;> cases h
  · split at h <;> cases h
  · split at h
    · cases h
    · cases h
      exact ⟨rfl, rfl, rfl⟩
  · cases h
  · cases h

/--
**What the options come to.**  `main` gets through a list of options just when each of them
can be used where it stands, and then every setting is as the last option has it that is
about it.  What it goes on to is called with these settings, the nick as the loop over it
leaves it, and with port, beep, mode, erase key and sidebar such as have passed their checks.
It does go on if a zero follows the block that the nick is in.
-/
theorem main_settings (env : MainEnv) (opts : List Opt) :
    (∀ o, mainLoop env opts = .ok o ↔
      EachOk (fun pre p => p.Usable env pre) opts ∧ o = settingsOf env opts) ∧
    (∀ call, smsgMain env opts = some (.ok call) →
      mainDispatch env (settingsOf env opts).thinned = .ok call ∧ call.Checked) ∧
    (env.beyond.head? = some 0 → ∀ o, mainLoop env opts = .ok o →
      smsgMain env opts = some (mainDispatch env o.thinned)) := by
  refine ⟨mainLoop_iff env opts, fun call h => ?_, fun hbeyond o hloop => ?_⟩
  · obtain ⟨heach, hcall⟩ := smsgMain_ok h
    exact ⟨hcall, mainDispatch_checked (checked_settingsOf heach).thinned hcall⟩
  · obtain ⟨nick, hnick⟩ := Option.ne_none_iff_exists'.mp (mainNick_ends hbeyond o.nick)
    rw [smsgMain, hloop]
    simp only [hnick, Option.map_some, mainNick_eq hnick]
    rfl

end

/-- A system with memory, and zeros behind the blocks. -/
def MainEnv.ample : MainEnv := ⟨cstr (text "smsg"), .ample, none, .empty, [0]⟩

/-- A chat, with a second thought about the port, and two blanks and one more in the nick. -/
def chatOptions : List Opt :=
  [.command (cstr (text "chat")), .port (cstr (text "2000")),
    .nick (cstr (text "a  b c")), .destination (cstr (text "h")), .color,
    .port (cstr (text "3000"))]

/-- One of the two blanks in a row is left in the nick. -/
theorem main_settings_chat : EachOk (fun pre p => p.Usable .ample pre) chatOptions ∧
    smsgMain .ample chatOptions = some (.ok (.chatter (some (cstr (text "a bc")))
      (cstr (text "h")) 3000 ⟨1, -1, -1, 5, none⟩)) ∧
    (MainCall.chatter (some (cstr (text "a bc"))) (cstr (text "h")) 3000
      ⟨1, -1, -1, 5, none⟩).Checked := by
  obtain ⟨hloop, hmain, hgoes⟩ := main_settings .ample chatOptions
  have hopts : mainLoop .ample chatOptions = .ok (settingsOf .ample chatOptions) := rfl
  have hcall : smsgMain .ample chatOptions = some (.ok (.chatter (some (cstr (text "a bc")))
      (cstr (text "h")) 3000 ⟨1, -1, -1, 5, none⟩)) := hgoes rfl _ hopts
  exact ⟨((hloop _).mp hopts).1, hcall, (hmain _ hcall).2⟩

/-- The preferences of a queue and no beep, with a second thought about the beep. -/
def prefsOpts : List Opt :=
  [.command (cstr (text "prefs")), .beep (cstr (text "on")), .mode (cstr (text "q")),
    .beep (cstr (text "off"))]

theorem smsgMain_prefsOpts :
    smsgMain .ample prefsOpts = some (.ok (.sendprefs none 0 1 portDefault)) := rfl

/-! ### Preferences -/

section

variable {mem : Memory} {s s' : Server} {i : Slot} {env : Env} {out : List Effect} {x : Call}
  {o : Outcome} {user tty : CString} {beep mode : UInt8}

/-- A `SETPREF` is refused with a reason and changes nothing, or is acknowledged and sets the
preferences of the user. -/
theorem setpref_answer (hcmd : x.cmd = setprefCmd user tty beep mode)
    (h : lsHandleNetcmd x = .ok o) :
    (∃ reason, o = x.nak x.udata reason) ∨
      ∃ u, o = x.done u [x.reply (.set .ack)] ∧ ∀ v, u.pref v = if v = user then
        (x.udata.pref v).set tty.chars beep.toInt8 mode.toInt8 else x.udata.pref v := by
  have hop : x.cmd.get = .setpref := by rw [hcmd]; rfl
  have hstr : x.cmd.fetch .null 0 = .blk (user.chars ++ [0]) := by rw [hcmd]; rfl
  rw [lsHandleNetcmd, hop] at h
  unfold handleSetpref at h
  simp only [hstr, str_arg] at h
  split at h
  · exact Or.inl ⟨_, (Except.ok.inj h).symm⟩
  · split at h
    · exact Or.inl ⟨_, (Except.ok.inj h).symm⟩
    · split at h
      · exact Or.inl ⟨_, (Except.ok.inj h).symm⟩
      · rw [setpref_eq hcmd, Except.ok.injEq] at h
        rcases Udata.udataUpdate_pref x.env.alloc x.udata user tty beep.toInt8 mode.toInt8 with
          hfail | ⟨hret, hpref⟩
        · rw [hfail] at h
          simp only [if_true] at h
          split at h <;> exact Or.inl ⟨_, h.symm⟩
        · simp only [hret, show ¬ (0 : Int) = -1 by decide, if_false] at h
          exact Or.inr ⟨_, h.symm, hpref⟩

theorem sendprefs_ack :
    sendprefs (NetCmd.set .ack).encode = some [.say (text "preferences set\n") []] := rfl

theorem sendprefs_nak {reason : Bytes} (hm : NetCmd.Short ⟨.nak, [reason]⟩) :
    sendprefs (NetCmd.encode ⟨.nak, [reason]⟩)
      = some [.say (text "error setting preferences (%s)\n") [.str (cstr (reason ++ [0]))]] := by
  have hwhole := ncmdIscomplete_encode hm []
  have hop := congrArg Read.op (readCmd_encode hm [])
  rw [List.append_nil] at hwhole hop
  have hpos : ¬ ((NetCmd.encode ⟨.nak, [reason]⟩).length : Int) = 0 := by
    have := NetCmd.four_le_length ⟨.nak, [reason]⟩
    omega
  have hget : ncmdGet (NetCmd.encode ⟨.nak, [reason]⟩) = .nak := hop
  have harg := getarg_encode (k := 0) (t := .null) hm rfl (by simp [Arg.null])
  have hprinted : (Arg.blk (reason ++ [0])).printed = some (.str (cstr (reason ++ [0]))) := by
    simp [Arg.printed, Arg.terminated, Arg.blk]
  simp only [sendprefs, hwhole, Option.bind_eq_bind, Option.bind_some, if_neg hpos, hget, harg,
    hprinted]

/--
**Preferences are what has been asked for.**  Whatever the options are that `main` goes on to
`sendprefs` with: one answer is sent, and `sendprefs` tells from it what has happened.  When it
says that the preferences are set, the last option about each of them has been stored for the
user, and what no option is about has been left as it was; when it says that there has been an
error, nothing has changed.  Nobody else's preferences are touched.
-/
theorem prefs_as_asked {menv : MainEnv} {opts : List Opt} {tty : Option CString} {beep mode : Int8}
    {port : Int16} (hmain : smsgMain menv opts = some (.ok (.sendprefs tty beep mode port)))
    (hstep : (server mem).step s (.netcmd i (sendprefsAsks user tty beep mode) env)
      = some (s', out)) :
    ∃ m, out = [.send (s.clients i).fd m] ∧
      ((sendprefs m.encode = some [.say (text "preferences set\n") []] ∧
          ∀ v, s'.udata.pref v =
            if v = user then
              (s.udata.pref v).set (xstr (lastOr (fun p => (p.givesTty menv).map some) opts none))
                (lastOr Opt.givesBeep opts (-2)) (lastOr Opt.givesMode opts (-2))
            else s.udata.pref v) ∨
        ((m.Short → ∃ reason, sendprefs m.encode
            = some [.say (text "error setting preferences (%s)\n") [.str reason]]) ∧
          s'.udata = s.udata)) := by
  -- the arguments of the call are what the options come to
  obtain ⟨-, hcall⟩ := smsgMain_ok hmain
  have hprefs := mainDispatch_prefs hcall
  obtain ⟨rfl, rfl, rfl⟩ : (settingsOf menv opts).ttyspec = tty ∧
      (settingsOf menv opts).beepspec = beep ∧ (settingsOf menv opts).mode = mode := hprefs
  have hasks : sendprefsAsks user (settingsOf menv opts).ttyspec (settingsOf menv opts).beepspec
      (settingsOf menv opts).mode
      = setprefCmd user ((settingsOf menv opts).ttyspec.getD .empty)
        (settingsOf menv opts).beepspec.toUInt8 (settingsOf menv opts).mode.toUInt8 := by
    cases (settingsOf menv opts).ttyspec <;> rfl
  have hxstr : ((settingsOf menv opts).ttyspec.getD .empty).chars
      = xstr (settingsOf menv opts).ttyspec := by
    cases (settingsOf menv opts).ttyspec <;> rfl
  rw [hasks] at hstep
  simp only [server, Server.step, Option.ite_none_right_eq_some] at hstep
  obtain ⟨-, hhandle⟩ := hstep
  unfold Server.handle at hhandle
  split at hhandle
  · cases hhandle
  · rename_i o hcall
    have hsettle := Option.some.inj hhandle
    rcases setpref_answer rfl hcall with ⟨reason, rfl⟩ | ⟨u, rfl, hpref⟩
    · -- refused
      rw [Call.nak, Server.settle_done] at hsettle
      obtain ⟨rfl, rfl⟩ := Prod.mk.inj hsettle
      exact ⟨_, rfl, Or.inr ⟨fun hm => ⟨_, sendprefs_nak hm⟩, rfl⟩⟩
    · -- acknowledged
      rw [Server.settle_done] at hsettle
      obtain ⟨rfl, rfl⟩ := Prod.mk.inj hsettle
      refine ⟨_, rfl, Or.inl ⟨sendprefs_ack, fun v => ?_⟩⟩
      refine (hpref v).trans ?_
      rw [hxstr, Int8.toInt8_toUInt8, Int8.toInt8_toUInt8]
      rfl

end

/-- A user asks for a queue and for no beep, and gets both. -/
theorem prefs_as_asked_queue : ∃ s s' : Server, ∃ out m,
    (server .enough).step s (.netcmd 0 (sendprefsAsks ⟨[97], by decide⟩ none 0 1) .oneUser)
      = some (s', out) ∧ s'.udata.pref ⟨[97], by decide⟩ = ⟨text "none", 0, 1⟩ ∧
    sendprefs (NetCmd.encode m) = some [.say (text "preferences set\n") []] := by
  have hrun : ((server .enough).step ((Server.initial 3).accept 4 ⟨127, 0, 0, 1⟩).1
      (.netcmd 0 (sendprefsAsks ⟨[97], by decide⟩ none 0 1) .oneUser)).any (fun r =>
        decide (r.1.udata.pref ⟨[97], by decide⟩ = ⟨text "none", 0, 1⟩)) = true := by
    decide +kernel
  obtain ⟨⟨s', out⟩, hstep, hpref⟩ := (Option.any_eq_true _ _).mp hrun
  have hpref := of_decide_eq_true hpref
  obtain ⟨m, -, hset | ⟨-, hkept⟩⟩ := prefs_as_asked smsgMain_prefsOpts hstep
  · exact ⟨_, s', out, m, hstep, hpref, hset.1⟩
  · dsimp only at hpref
    rw [hkept] at hpref
    exact absurd hpref (by decide +kernel)

end Smsg
