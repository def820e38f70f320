-- SUMMARY: What a call of the program does: the configuration it finds, the three commands, exit code and output.
import Combo.Cli.Arguments
import Combo.Config.File
import Combo.Queue.Record
import Combo.Clockwork.Environment
import Combo.Datum.Json

/-!
# A call of the program

A call reads its arguments, finds its configuration and carries out a command.
It ends with an exit code and its output. The surroundings of a call are values:
the variables and files it may look at and the text it is fed.
-/

namespace Combo.Cli

/-- What a call can see. -/
structure Surroundings where
  /-- The variable that names a configuration file. -/
  configVariable : Option String := none
  home : Option String := none
  /-- The bytes of the files. -/
  file : String → Option ByteArray
  input : String := ""

/-- How a call ends. -/
structure Result where
  exit : Nat
  output : String
  deriving DecidableEq, Repr

/-- The name and version of the program. -/
def versionLine : String := "actscript 0.1.0\n"

/-- A call that fails without output. -/
def Result.failure : Result := ⟨1, ""⟩

/-- A call with unusable arguments. -/
def Result.misuse : Result := ⟨2, ""⟩

/-! ## The configuration -/

/-- The configuration file in a home directory. -/
def homeConfig (home : String) : String :=
  let separator := if home.isEmpty || home.toList.getLast? = some '/' then "" else "/"
  home ++ separator ++ ".actscript/config.toml"

/-- The path of the configuration file: from the arguments, the variable, or the home directory. -/
def configPath (s : Surroundings) (path : Option String) : String :=
  match path, s.configVariable, s.home with
  | some path, _, _ => path
  | none, some path, _ => path
  | none, none, some home => homeConfig home
  | none, none, none => "config.toml"

/-- The configuration a call works with. -/
def configOf (s : Surroundings) (path : Option String) : Config :=
  Config.loadOrDefault (s.file (configPath s path))

/-! ## Commands -/

/-- Prints the configuration. -/
def config (c : Config) : Result :=
  match c.text? with
  | some text => ⟨0, text⟩
  | none => .failure

/-- Checks a script and prints it in canonical form with its size. -/
def check (c : Config) (script : String) : Result :=
  match Script.check c.engine.maxActionSeconds script with
  | .error _ => .failure
  | .ok groups =>
    ⟨0, Script.format groups ++ "\n" ++ Number.natText groups.length ++ " group(s), estimated "
      ++ Number.natText (Duration.millisOfSeconds (totalEstimate groups)) ++ " ms\n"⟩

/-- The lines of a text, each without its end. -/
def lines (text : List Char) : List (List Char) :=
  match text with
  | [] => []
  | c :: r =>
    if c = '\n' then [] :: lines r
    else match lines r with
      | [] => [[c]]
      | l :: ls => (c :: l) :: ls

/-- Submits a line; blank lines and comments are passed over. -/
def submit (e : Environment) (line : List Char) : Environment :=
  match Text.trim line with
  | [] => e
  | '#' :: _ => e
  | script => (e.add (String.ofList script)).2

/-- A status as a line of output. -/
def statusLine (e : Environment) : String := Json.write e.status.datum ++ "\n"

/-- Whether nothing is pending or running. -/
def isDrained (e : Environment) : Bool := e.feed.pending.isEmpty && e.feed.running.isEmpty

/-- Milliseconds between two looks at a queue that is being drained. -/
def drainMs : Nat := 50

/-- The milliseconds a group may take, with focus and rest. -/
def groupMs (c : Config) (g : Group) : Nat :=
  c.target.settleMs + c.engine.backoffMs
    + (g.actions.map fun a => (a.plan c.engine.attackMs).millis c.engine.attackMs).foldr (· + ·) 0

/-- Enough looks to see a queue drained. -/
def drainRounds (c : Config) (e : Environment) : Nat :=
  2 + (c.engine.pollMs + (e.feed.pending.map fun t => groupMs c t.group).foldr (· + ·) 0) / drainMs

/-- Advances the clock until nothing is pending or running. -/
def drain : Nat → Environment → Environment
  | 0, e => e
  | fuel + 1, e => if isDrained e then e else drain fuel (Environment.advance drainMs e)

/-- Feeds the lines of the input to an environment, waits for it, stops it and prints the status. -/
def play (c : Config) (device : Device) (focus : Focus) (statusMs : Nat) (input : String) :
    Result :=
  let started := (Environment.new c.engine c.target device focus).start
  let first := if 0 < statusMs then statusLine started else ""
  let fed := (lines input.toList).foldl submit started
  let drained := drain (drainRounds c fed) fed
  ⟨0, first ++ statusLine (Environment.stop drained)⟩

/-- Runs the scripts of the input; without a dry run the keys must be known and no device works. -/
def run (c : Config) (dryRun : Bool) (statusMs : Nat) (input : String) : Result :=
  if dryRun then play c {} {} statusMs input
  else match c.keys.bindings with
    | .error _ => .failure
    | .ok _ => play c { supported := false } { supported := false, active := false } statusMs input

/-! ## Calls -/

/-- Carries out a call. -/
def call (s : Surroundings) (arguments : List String) : Result :=
  match Invocation.ofArguments arguments with
  | .error .version => ⟨0, versionLine⟩
  | .error .misuse => .misuse
  | .ok invocation =>
    let c := configOf s invocation.configPath
    match invocation.order with
    | .config => config c
    | .check script => check c script
    | .run dryRun statusMs mode =>
      let c := { c with engine := { c.engine with mode := mode.getD c.engine.mode } }
      run c dryRun statusMs s.input

end Combo.Cli
