/-
`smsg.c`: the options of `main`, and what it goes on to.

What `getopt_long` makes of the command line is a list: one `Opt` for each character that
it returns, with the argument that there is for it.  A word that is no option comes as
the character 1.  `main` goes through them and stops, with a complaint, at the first one
that it cannot use; the rest of what it says while it does so is left out.

A `short int` is an `Int16`, into which the result of `strtol` is cut.  There is no gui.
-/
import Smsg.Lib.Settings
import Smsg.Client
import Smsg.Cmdline
import Smsg.Main

namespace Smsg

open Heaps Blocks Settings

/-! ### Numbers -/

/-- What a digit is worth. -/
def digitValue (c : UInt8) : Option Nat :=
  if 48 ≤ c ∧ c ≤ 57 then some (c.toNat - 48)
  else if 65 ≤ c ∧ c ≤ 90 then some (c.toNat - 55)
  else if 97 ≤ c ∧ c ≤ 122 then some (c.toNat - 87)
  else none

def isDigitOf (base : Nat) (c : UInt8) : Bool := (digitValue c).any fun d => decide (d < base)

/-- The base that a number is written in, when 0 is asked for, and its digits. -/
def numberBase (base : Nat) (s : Bytes) : Nat × Bytes :=
  if base ≠ 0 then (base, s)
  else
    match s with
    | 48 :: x :: c :: rest =>
        if (x = 120 ∨ x = 88) ∧ isDigitOf 16 c then (16, c :: rest) else (8, s)
    | 48 :: _ => (8, s)
    | _ => (10, s)

/-- `strtol` with a base of 0 or up to 10: the number, and what `*endptr` points to. -/
def strtolEnd (base : Nat) (s : Bytes) : Int × Bytes :=
  let t := s.dropWhile isspace
  let digits := if t.head? = some 45 ∨ t.head? = some 43 then t.tail else t
  let (base, digits) := numberBase base digits
  let used := digits.takeWhile (isDigitOf base)
  let n := used.foldl (fun n c => n * base + (digitValue c).getD 0) 0
  if used = [] then (0, s)
  else
    (if t.head? = some 45 then max (-(n : Int)) (-2 ^ 63) else min (n : Int) (2 ^ 63 - 1),
      digits.drop used.length)

/-! ### Settings -/

inductive CmdCode
  | help | server | list | chat | message | getmsg | prefs
deriving DecidableEq

/-- The table `cmds`. -/
def cmds : List (Bytes × CmdCode) :=
  [(text "help", .help), (text "server", .server), (text "list", .list), (text "chat", .chat),
    (text "msg", .message), (text "mesg", .message), (text "message", .message),
    (text "getmsg", .getmsg), (text "get", .getmsg), (text "prefs", .prefs), (text "pref", .prefs)]

/-- `struct chatopts_s`. -/
structure ChatOpts where
  forcecolor : Int16
  barspec : Int16
  eraseKey : Int16
  mailchecktime : Int16
  room : Option CString
deriving DecidableEq

/-- What an option is; the arguments are those of `optarg`. -/
inductive Opt
  /-- `z`, and a word that is no option. -/
  | command (optarg : CString)
  /-- `g`, `x` and `X`. -/
  | gui
  | color
  | help
  | nofork
  | port (optarg : CString)
  | destination (optarg : CString)
  | tty (optarg : CString)
  | beep (optarg : CString)
  | mode (optarg : CString)
  | loglevel (optarg : CString)
  | logfile (optarg : CString)
  | nick (optarg : CString)
  | sidebar (optarg : CString)
  | erase (optarg : CString)
  | room (optarg : CString)
  /-- `?`: `getopt_long` does not know it. -/
  | unknown
  /-- Any other character. -/
  | other (c : Int)

/-- The variables of `main` that options are for, with `loglevel`, `logfilename` and `usegui`. -/
structure MainOpts where
  command : Option CmdCode
  tport : Int16
  autofork : Bool
  beepspec : Int8
  mode : Int8
  targethost : Option CString
  targetuser : Option (Written (Option UInt8))
  ttyspec : Option CString
  nick : Option CString
  chatopts : ChatOpts
  loglevel : Int16
  logfilename : Option CString
  usegui : Bool

def MainOpts.initial : MainOpts where
  command := none
  tport := -1
  autofork := true
  beepspec := -2
  mode := -2
  targethost := none
  targetuser := none
  ttyspec := none
  nick := none
  chatopts := ⟨0, -1, -1, 0, none⟩
  loglevel := 0
  logfilename := none
  usegui := false

/-- What `main` asks the system for. -/
structure MainEnv where
  progName : CString
  malloc : Malloc
  /-- `ttyname(1)`. -/
  ttyname : Option CString
  /-- `strerror(errno)`, when there is no memory. -/
  strerror : CString
  /-- What lies behind the block that `strdup` made for the nick. -/
  beyond : Bytes

namespace MainEnv

variable (env : MainEnv)

/-- `strdup`. -/
def strdup (s : CString) : Option CString :=
  if env.malloc.grants (s.chars.length + 1) then some s else none

/-- `error`, with the name of the program in front of everything else, and `exit(1)`. -/
def complain {α : Type} (format : String) (args : List Printed) : Except (List Line) α :=
  .error [.error (text format) (.str env.progName :: args)]

end MainEnv

/-! ### Arguments -/

def cmdCode (optarg : CString) : Option CmdCode :=
  (cmds.find? fun c => c.1 == optarg.chars).map (·.2)

/-- A decimal number, as it is kept. -/
def numberOf (optarg : CString) : Option Int16 :=
  if (strtolEnd 10 optarg.chars).2 = [] then some (.ofInt (strtolEnd 10 optarg.chars).1) else none

/-- `-e`: the number may be written in other bases. -/
def eraseOf (optarg : CString) : Option Int16 :=
  if (strtolEnd 0 optarg.chars).2 = [] then some (.ofInt (strtolEnd 0 optarg.chars).1) else none

/-- What `-e` may not be. -/
def badEraseKey (key : Int16) : Bool :=
  decide (key < 1) || decide (255 < key) || isalnum (.ofNat key.toInt.toNat) || decide (key = 47)

def beepOf (optarg : CString) : Option Int8 :=
  if [text "on", text "yes", text "1"].contains optarg.chars then some 1
  else if [text "off", text "no", text "0"].contains optarg.chars then some 0
  else none

def modeOf (optarg : CString) : Option Int8 :=
  if [text "i", text "imm", text "immediate"].contains optarg.chars then some 0
  else if [text "q", text "queue", text "queued"].contains optarg.chars then some 1
  else none

/-- `TTYSET_THISTTY`, or its first character. -/
def isThisTty (optarg : CString) : Bool :=
  optarg.chars == text "this" || optarg.chars == text "t"

/-- `-t`: the terminal, if it can be told. -/
def ttyOf (env : MainEnv) (optarg : CString) : Option CString :=
  if isThisTty optarg then env.ttyname else env.strdup optarg

/-- The host of a destination. -/
def destHost (optarg : CString) : CString :=
  match optarg.chars.idxOf? 64 with
  | none => optarg
  | some len => optarg.behind (len + 1)

/-! ### The loop over the options -/

section

variable (env : MainEnv) (o : MainOpts)

/-- `z` and 1. -/
def optCommand (optarg : CString) : Except (List Line) MainOpts :=
  if o.command ≠ none then env.complain "%s: more than one command found\n" []
  else
    match cmdCode optarg with
    | some code => .ok { o with command := some code }
    | none => env.complain "%s: unknown command: \x60%s', try help\n" [.str optarg]

/-- `p`. -/
def optPort (optarg : CString) : Except (List Line) MainOpts :=
  match numberOf optarg with
  | none =>
      env.complain "%s: found incorrect argument for port, please specify a number\n" []
  | some tport =>
      if tport < 1024 then
        env.complain "%s: incorrect port: %i (must be above 1023 and below 65535)\n"
          [.int tport.toInt]
      else .ok { o with tport := tport }

/-- `d`: a destination without a user leaves the user of an earlier one. -/
def optDestination (optarg : CString) : Except (List Line) MainOpts :=
  match mainDest env.malloc optarg with
  | some d =>
      .ok { o with targethost := some d.targethost, targetuser := d.targetuser.or o.targetuser }
  | none =>
      if env.malloc.grants ((destHost optarg).chars.length + 1) then
        env.complain "%s: error copying username (probably due to insufficient memory)\n" []
      else env.complain "%s: error copying hostname (probably due to insufficient memory)\n" []

/-- `t`. -/
def optTty (optarg : CString) : Except (List Line) MainOpts :=
  match ttyOf env optarg with
  | some tty => .ok { o with ttyspec := some tty }
  | none =>
      if isThisTty optarg then env.complain "%s: error getting tty name\n" []
      else env.complain "%s: error duplicating tty specification (%s)\n" [.str env.strerror]

/-- `b`. -/
def optBeep (optarg : CString) : Except (List Line) MainOpts :=
  match beepOf optarg with
  | some beepspec => .ok { o with beepspec := beepspec }
  | none =>
      env.complain
        "%s: incorrect argument for beep option specified, use 'on', 'off' and the like\n" []

/-- `m`. -/
def optMode (optarg : CString) : Except (List Line) MainOpts :=
  match modeOf optarg with
  | some mode => .ok { o with mode := mode }
  | none =>
      env.complain "%s: incorrect argument for mode option specified, use 'q' or 'i'\n" []

/-- `l`. -/
def optLoglevel (optarg : CString) : Except (List Line) MainOpts :=
  match numberOf optarg with
  | some loglevel => .ok { o with loglevel := loglevel }
  | none =>
      env.complain "%s: found incorrect argument for loglevel, please specify a number\n" []

/-- `L`. -/
def optLogfile (optarg : CString) : Except (List Line) MainOpts :=
  match env.strdup optarg with
  | some name => .ok { o with logfilename := some name }
  | none => env.complain "%s: error duplicating logging filename (%s)\n" [.str env.strerror]

/-- `n`. -/
def optNick (optarg : CString) : Except (List Line) MainOpts :=
  match env.strdup optarg with
  | some nick => .ok { o with nick := some nick }
  | none => env.complain "%s: error duplicating nick (%s)\n" [.str env.strerror]

/-- `e`. -/
def optErase (optarg : CString) : Except (List Line) MainOpts :=
  match eraseOf optarg with
  | none =>
      env.complain "%s: found incorrect argument for erasekey, please specify a number\n" []
  | some key =>
      if badEraseKey key then
        env.complain ("%s: incorrect erasekey: 0%o " ++
          "(may not be below 1, above 255, alphanumeric or '/')\n") [.int key.toInt]
      else .ok { o with chatopts := { o.chatopts with eraseKey := key } }

/-- `r`. -/
def optRoom (optarg : CString) : Except (List Line) MainOpts :=
  match env.strdup optarg with
  | some room => .ok { o with chatopts := { o.chatopts with room := some room } }
  | none => env.complain "%s: error duplicating roomname (%s)\n" [.str env.strerror]

/-- The switch. -/
def mainOption : Opt → Except (List Line) MainOpts
  | .command optarg => optCommand env o optarg
  | .gui => .ok { o with usegui := true }
  | .color => .ok { o with chatopts := { o.chatopts with forcecolor := 1 } }
  | .help => .ok { o with command := some .help }
  | .nofork => .ok { o with autofork := false }
  | .port optarg => optPort env o optarg
  | .destination optarg => optDestination env o optarg
  | .tty optarg => optTty env o optarg
  | .beep optarg => optBeep env o optarg
  | .mode optarg => optMode env o optarg
  | .loglevel optarg => optLoglevel env o optarg
  | .logfile optarg => optLogfile env o optarg
  | .nick optarg => optNick env o optarg
  | .sidebar _ =>
      env.complain ("%s: sidebar customization has been disabled temporarily " ++
        "due to resize code bugs [incompleteness]\n") []
  | .erase optarg => optErase env o optarg
  | .room optarg => optRoom env o optarg
  | .unknown => .error []
  -- it says what it got, and goes on
  | .other _ => .ok o

end

/-- `while(1)`. -/
def mainLoop (env : MainEnv) (opts : List Opt) : Except (List Line) MainOpts :=
  opts.foldlM (mainOption env) .initial

/-! ### What `main` goes on to -/

/-- The calls of the last switch, with their arguments. -/
inductive MainCall
  | runserver (port : Int16) (autofork : Bool)
  /-- `sendmessage`, with what `get_stdin` has got. -/
  | sendmessage (targethost : CString) (targetuser : Option (Written (Option UInt8))) (port : Int16)
  | getmessage (port : Int16)
  | getlist (targethost : CString) (port : Int16)
  | chatter (nick : Option CString) (targethost : CString) (port : Int16) (chatopts : ChatOpts)
  | sendprefs (tty : Option CString) (beep mode : Int8) (port : Int16)
  /-- The help, or a complaint about the gui. -/
  | told

/-- `PORT_DEFAULT`, as `config.mk` has it. -/
def portDefault : Int16 := 16354

def MainOpts.port (o : MainOpts) : Int16 := if o.tport = -1 then portDefault else o.tport

/-- `chatopts`, as `chatter` gets it. -/
def MainOpts.chatting (o : MainOpts) : ChatOpts := { o.chatopts with mailchecktime := 5 }

/-- A program that is called `chat` has only one command. -/
def MainOpts.cmd (env : MainEnv) (o : MainOpts) : Option CmdCode :=
  if env.progName.chars = text "chat" then some .chat else o.command

/-- The switch over the command. -/
def mainDispatch (env : MainEnv) (o : MainOpts) : Except (List Line) MainCall :=
  match o.cmd env with
  | some .server => .ok (.runserver o.port o.autofork)
  | some .message =>
      match o.targethost with
      | none => env.complain "%s: no destination given\n" []
      | some host =>
          if host.chars = [] then env.complain "%s: no destination given\n" []
          else if o.usegui then .ok .told
          else .ok (.sendmessage host o.targetuser o.port)
  | some .getmsg => .ok (if o.usegui then .told else .getmessage o.port)
  | some .list =>
      match o.targethost with
      | none => env.complain "%s: no destination given\n" []
      | some host => .ok (if o.usegui then .told else .getlist host o.port)
  | some .chat =>
      match o.targethost.or (env.strdup ⟨text "localhost", by decide⟩) with
      | none =>
          env.complain "%s: error copying hostname (probably due to insufficient memory)\n" []
      | some host => .ok (.chatter o.nick host o.port o.chatting)
  | some .prefs =>
      .ok (if o.usegui then .told else .sendprefs o.ttyspec o.beepspec o.mode o.port)
  | some .help => .ok .told
  | none => env.complain "%s: no command found, try 'help'\n" []

/--
The nick when the loop has been through it; `none` when that goes on even behind what lies
behind the block.  The first character that is taken out makes it read one byte of that.
-/
def mainNick (env : MainEnv) : Option CString → Option (Option CString)
  | none => some none
  | some nick => (filterNick (nick.chars ++ 0 :: env.beyond) 0).map fun b => some (cstr b)

/-- `main`: `none` when the loop over the nick does not end, and an error when it exits. -/
def smsgMain (env : MainEnv) (opts : List Opt) : Option (Except (List Line) MainCall) :=
  match mainLoop env opts with
  | .error lines => some (.error lines)
  | .ok o => (mainNick env o.nick).map fun nick => mainDispatch env { o with nick := nick }

/-! ### What the options come to -/

namespace Opt

/-- The command that an option asks for. -/
def asks : Opt → Option CmdCode
  | .command optarg => cmdCode optarg
  | .help => some .help
  | _ => none

/-- Each of the following is what an option gives for one setting. -/
def givesPort : Opt → Option Int16
  | .port optarg => numberOf optarg
  | _ => none

def givesHost : Opt → Option CString
  | .destination optarg => some (destHost optarg)
  | _ => none

def givesUser : Opt → Option (Written (Option UInt8))
  | .destination optarg => (optarg.chars.idxOf? 64).map (userBlock optarg.chars)
  | _ => none

def givesTty (env : MainEnv) : Opt → Option CString
  | .tty optarg => ttyOf env optarg
  | _ => none

def givesBeep : Opt → Option Int8
  | .beep optarg => beepOf optarg
  | _ => none

def givesMode : Opt → Option Int8
  | .mode optarg => modeOf optarg
  | _ => none

def givesLoglevel : Opt → Option Int16
  | .loglevel optarg => numberOf optarg
  | _ => none

def givesLogfile : Opt → Option CString
  | .logfile optarg => some optarg
  | _ => none

def givesNick : Opt → Option CString
  | .nick optarg => some optarg
  | _ => none

def givesErase : Opt → Option Int16
  | .erase optarg => eraseOf optarg
  | _ => none

def givesRoom : Opt → Option CString
  | .room optarg => some optarg
  | _ => none

def givesColor : Opt → Option Int16
  | .color => some 1
  | _ => none

def givesFork : Opt → Option Bool
  | .nofork => some false
  | _ => none

def givesGui : Opt → Option Bool
  | .gui => some true
  | _ => none

end Opt

/-- The settings, each as the last option has it that is about it. -/
def settingsOf (env : MainEnv) (opts : List Opt) : MainOpts where
  command := lastOr (fun p => p.asks.map some) opts none
  tport := lastOr Opt.givesPort opts (-1)
  autofork := lastOr Opt.givesFork opts true
  beepspec := lastOr Opt.givesBeep opts (-2)
  mode := lastOr Opt.givesMode opts (-2)
  targethost := lastOr (fun p => p.givesHost.map some) opts none
  targetuser := lastOr (fun p => p.givesUser.map some) opts none
  ttyspec := lastOr (fun p => (p.givesTty env).map some) opts none
  nick := lastOr (fun p => p.givesNick.map some) opts none
  chatopts :=
    ⟨lastOr Opt.givesColor opts 0, -1, lastOr Opt.givesErase opts (-1), 0,
      lastOr (fun p => p.givesRoom.map some) opts none⟩
  loglevel := lastOr Opt.givesLoglevel opts 0
  logfilename := lastOr (fun p => p.givesLogfile.map some) opts none
  usegui := lastOr Opt.givesGui opts false

/-- A nick without its illegal characters; one stays that comes right `behind` one taken out. -/
def thinned : Bool → Bytes → Bytes
  | _, [] => []
  | behind, c :: s => if illegal c && !behind then thinned true s else c :: thinned false s

theorem mem_of_mem_thinned {c : UInt8} {s : Bytes} : ∀ {behind : Bool}, c ∈ thinned behind s → c ∈ s := by
  induction s with
  | nil => exact fun h => h
  | cons d s ih =>
      intro behind h
      rw [thinned] at h
      split at h
      · exact List.mem_cons_of_mem _ (ih h)
      · exact List.mem_cons.mpr ((List.mem_cons.mp h).imp_right ih)

/-- What the loop leaves of a nick. -/
def CString.thinned (nick : CString) : CString :=
  ⟨Smsg.thinned false nick.chars, fun h => nick.nulFree (mem_of_mem_thinned h)⟩

/-- The settings when the loop has been through the nick. -/
def MainOpts.thinned (o : MainOpts) : MainOpts := { o with nick := o.nick.map CString.thinned }

/-- An option that can be used behind the options `pre`: it is right in itself, there is memory
for it, and a command comes behind no other one. -/
def Opt.Usable (env : MainEnv) (pre : List Opt) : Opt → Prop
  | .command optarg => (∀ p ∈ pre, p.asks = none) ∧ cmdCode optarg ≠ none
  | .port optarg => ∃ port, numberOf optarg = some port ∧ 1024 ≤ port
  | .destination optarg => mainDest env.malloc optarg ≠ none
  | .tty optarg => ttyOf env optarg ≠ none
  | .beep optarg => beepOf optarg ≠ none
  | .mode optarg => modeOf optarg ≠ none
  | .loglevel optarg => numberOf optarg ≠ none
  | .logfile optarg => env.strdup optarg ≠ none
  | .nick optarg => env.strdup optarg ≠ none
  | .erase optarg => ∃ key, eraseOf optarg = some key ∧ badEraseKey key = false
  | .room optarg => env.strdup optarg ≠ none
  | .sidebar _ => False
  | .unknown => False
  | _ => True

/-- What `main` passes on has passed its checks. -/
def MainCall.Checked : MainCall → Prop
  | .runserver port _ => port = portDefault ∨ 1024 ≤ port
  | .sendmessage host _ port => host.chars ≠ [] ∧ (port = portDefault ∨ 1024 ≤ port)
  | .getmessage port => port = portDefault ∨ 1024 ≤ port
  | .getlist _ port => port = portDefault ∨ 1024 ≤ port
  | .chatter _ _ port chatopts =>
      (port = portDefault ∨ 1024 ≤ port) ∧
        (chatopts.eraseKey = -1 ∨ badEraseKey chatopts.eraseKey = false) ∧
        chatopts.barspec = -1 ∧ chatopts.mailchecktime = 5
  | .sendprefs _ beep mode port =>
      beep ∈ [(-2 : Int8), 0, 1] ∧ mode ∈ [(-2 : Int8), 0, 1] ∧ (port = portDefault ∨ 1024 ≤ port)
  | .told => True

end Smsg
