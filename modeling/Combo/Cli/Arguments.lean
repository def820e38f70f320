-- SUMMARY: The command line: its options and commands, and reading them from arguments.
import Combo.Config.Basic

/-!
# Arguments

Three commands: `run`, `check` and `config`. The options `-c`, `--config` and
`-l`, `--log-level` may stand before the command or after it; what stands after
it wins. No option may be repeated on one side of the command. `--` ends the
options.
-/

namespace Combo.Cli

/-- What is to be done. -/
inductive Order where
  | run (dryRun : Bool) (statusMs : Nat) (mode : Option Mode)
  | check (script : String)
  | config
  deriving DecidableEq

/-- A command with the options that go with every command. -/
structure Invocation where
  configPath : Option String
  logLevel : Option String
  order : Order
  deriving DecidableEq

/-- Arguments that lead to no command. -/
inductive NoOrder where
  /-- The version was asked for. -/
  | version
  | misuse
  deriving DecidableEq

/-! ## Single arguments -/

/-- What an argument is by its shape. -/
inductive Shape where
  /-- `--` alone. -/
  | escape
  /-- `--name` or `--name=value`. -/
  | long (name : List Char) (value : Option (List Char))
  /-- `-` and one or more letters. -/
  | short (letters : List Char)
  | word
  deriving DecidableEq

/-- The two sides of the first equals sign. -/
def atEquals (s : List Char) : List Char × Option (List Char) :=
  match s.span (· != '=') with
  | (name, _ :: value) => (name, some value)
  | (name, []) => (name, none)

/-- The shape of an argument. -/
def Shape.of (argument : String) : Shape :=
  match argument.toList with
  | ['-', '-'] => .escape
  | '-' :: '-' :: r => let (name, value) := atEquals r; .long name value
  | ['-'] => .word
  | '-' :: letters => .short letters
  | _ => .word

/-! ## Options -/

/-- The options. -/
inductive Name where
  | config | logLevel | version | dryRun | statusMs | mode
  deriving DecidableEq

/-- The commands, and the place before any command. -/
inductive Level where
  | top | run | check | config
  deriving DecidableEq

/-- The command with this name. -/
def Level.ofName? (name : String) : Option Level :=
  if name = "run" then some .run
  else if name = "check" then some .check
  else if name = "config" then some .config
  else none

/-- Whether an option may stand at a level. -/
def Name.allowedAt (name : Name) (level : Level) : Bool :=
  match name with
  | .config | .logLevel => true
  | .version => level == .top
  | .dryRun | .statusMs | .mode => level == .run

/-- Whether an option takes a value. -/
def Name.takesValue : Name → Bool
  | .config | .logLevel | .statusMs | .mode => true
  | .version | .dryRun => false

/-- The option with this long name. -/
def Name.ofLong? (name : List Char) : Option Name :=
  if name = "config".toList then some .config
  else if name = "log-level".toList then some .logLevel
  else if name = "version".toList then some .version
  else if name = "dry-run".toList then some .dryRun
  else if name = "status-interval-ms".toList then some .statusMs
  else if name = "mode".toList then some .mode
  else none

/-- The option with this letter. -/
def Name.ofShort? (letter : Char) : Option Name :=
  if letter = 'c' then some .config
  else if letter = 'l' then some .logLevel
  else if letter = 'V' then some .version
  else none

/-- The options and words read so far on one side of the command. -/
structure Given where
  config : Option String := none
  logLevel : Option String := none
  dryRun : Bool := false
  statusMs : Option Nat := none
  mode : Option Mode := none
  words : List String := []
  deriving DecidableEq

/-- Takes in an option with its value; refused when it is repeated or its value does not fit. -/
def Given.set (g : Given) (name : Name) (value : List Char) : Except NoOrder Given :=
  let text := String.ofList value
  match name with
  | .version => .error .version
  | .config =>
    if g.config.isNone && !value.isEmpty then .ok { g with config := some text }
    else .error .misuse
  | .logLevel =>
    if g.logLevel.isNone then .ok { g with logLevel := some text } else .error .misuse
  | .dryRun => if g.dryRun then .error .misuse else .ok { g with dryRun := true }
  | .statusMs =>
    match g.statusMs, Number.unsigned? (Number.wordMax 64) value with
    | none, some n => .ok { g with statusMs := some n }
    | _, _ => .error .misuse
  | .mode =>
    match g.mode, Mode.ofName? text with
    | none, some mode => .ok { g with mode := some mode }
    | _, _ => .error .misuse

/-- Takes in a word. -/
def Given.word (g : Given) (word : String) : Given := { g with words := g.words ++ [word] }

/-- Takes in letters after a dash; a letter left over is an option that waits for its value. -/
def Given.letters (level : Level) (g : Given) : List Char → Except NoOrder (Given × Option Name)
  | [] => .ok (g, none)
  | letter :: rest =>
    match Name.ofShort? letter with
    | none => .error .misuse
    | some name =>
      if !name.allowedAt level then .error .misuse
      else if name.takesValue then
        match rest with
        | [] => .ok (g, some name)
        | '=' :: value => (g.set name value).map fun g => (g, none)
        | value => (g.set name value).map fun g => (g, none)
      else (g.set name []).bind fun g => g.letters level rest

/-- Takes in an option by its long name; without its value it waits for one. -/
def Given.long (level : Level) (g : Given) (name : List Char) (value : Option (List Char)) :
    Except NoOrder (Given × Option Name) :=
  match Name.ofLong? name with
  | none => .error .misuse
  | some name =>
    if !name.allowedAt level then .error .misuse
    else match name.takesValue, value with
      | true, none => .ok (g, some name)
      | true, some value => (g.set name value).map fun g => (g, none)
      | false, none => (g.set name []).map fun g => (g, none)
      | false, some _ => .error .misuse

/-! ## All arguments -/

/-- The invocation that two sides of a command amount to. -/
def Invocation.of (level : Level) (before after : Given) : Except NoOrder Invocation :=
  let with_ (order : Order) : Except NoOrder Invocation :=
    .ok { configPath := after.config <|> before.config
          logLevel := after.logLevel <|> before.logLevel
          order }
  match level, after.words with
  | .run, [] => with_ (.run after.dryRun (after.statusMs.getD 0) after.mode)
  | .check, [script] => with_ (.check script)
  | .config, [] => with_ .config
  | _, _ => .error .misuse

/-- Where the reading of arguments stands: before the command, or after it with what came before. -/
structure Place where
  level : Level := .top
  before : Given := {}
  given : Given := {}

/-- Takes in a word: a command when none was given yet. -/
def Place.word (p : Place) (word : String) : Except NoOrder Place :=
  match p.level with
  | .top =>
    match Level.ofName? word with
    | some level => .ok { level, before := p.given, given := {} }
    | none => .error .misuse
  | _ => .ok { p with given := p.given.word word }

/-- Takes in the words after `--`; they are no commands. -/
def Place.words (p : Place) (words : List String) : Except NoOrder Place :=
  match p.level, words with
  | .top, _ :: _ => .error .misuse
  | _, _ => .ok { p with given := words.foldl Given.word p.given }

/-- Takes in arguments from left to right; `waiting` is an option that waits for its value. -/
def Place.read (p : Place) (waiting : Option Name) : List String → Except NoOrder Place
  | [] => if waiting.isSome then .error .misuse else .ok p
  | argument :: rest =>
    match Shape.of argument, waiting with
    | .word, some name => do
      let given ← p.given.set name argument.toList
      ({ p with given } : Place).read none rest
    | _, some _ => .error .misuse
    | .word, none => do
      let p ← p.word argument
      p.read none rest
    | .escape, none => p.words rest
    | .long name value, none => do
      let (given, waiting) ← p.given.long p.level name value
      ({ p with given } : Place).read waiting rest
    | .short letters, none => do
      let (given, waiting) ← p.given.letters p.level letters
      ({ p with given } : Place).read waiting rest

/-- The invocation that arguments amount to. -/
def Invocation.ofArguments (arguments : List String) : Except NoOrder Invocation := do
  let p ← ({} : Place).read none arguments
  Invocation.of p.level p.before p.given

end Combo.Cli
