import Unbundle.Build.Session
import Unbundle.Settings.File

/-! The command line. Options may stand on either side of the command; one that stands on both sides
counts as it is given behind the command. -/

namespace Unbundle.CommandLine
open Unbundle.Build Unbundle.Files

inductive Command where
  | build
  | createTypes
  | listModules
deriving DecidableEq, Repr

def Command.ofName? : String → Option Command
  | "build" => some .build
  | "create-types" => some .createTypes
  | "list-modules" => some .listModules
  | _ => none

inductive Flag where
  | clean
  | noSplitVersions
  | verbose
deriving DecidableEq, Repr

/-- The values of the options on one side of the command. -/
structure Given where
  config : Option String := none
  source : Option String := none
  output : Option String := none
  jobs : Option Nat := none
  flags : List Flag := []
deriving DecidableEq, Repr

/-- Options with a value. -/
inductive Setting where
  | config
  | source
  | output
  | jobs
deriving DecidableEq, Repr

def Setting.ofName? : String → Option Setting
  | "--config" => some .config
  | "--source" => some .source
  | "--output" => some .output
  | "--jobs" => some .jobs
  | _ => none

def Flag.ofName? : String → Option Flag
  | "--clean" => some .clean
  | "--no-split-versions" => some .noSplitVersions
  | "--verbose" => some .verbose
  | _ => none

/-- The numbers that `--jobs` takes: digits, a plus sign allowed before them. -/
def count? (text : String) : Option Nat :=
  let digits :=
    match text.toList with
    | '+' :: digits => digits
    | digits => digits
  if !digits.isEmpty && digits.all Char.isDigit then
    let value := Toml.ofDigits 10 (digits.map fun c => c.toNat - '0'.toNat)
    if value < UInt64.size then some value else none
  else none

namespace Given

def fill (slot : Option String) (value : String) : Option (Option String) :=
  if slot.isSome || value.isEmpty then none else some (some value)

/-- An option can be given once, and its value is not empty. -/
def set? (given : Given) (setting : Setting) (value : String) : Option Given :=
  match setting with
  | .config => (fill given.config value).map fun config => { given with config }
  | .source => (fill given.source value).map fun source => { given with source }
  | .output => (fill given.output value).map fun output => { given with output }
  | .jobs =>
    if given.jobs.isSome then none
    else (count? value).map fun jobs => { given with jobs := some jobs }

def raise? (given : Given) (flag : Flag) : Option Given :=
  if given.flags.contains flag then none else some { given with flags := flag :: given.flags }

def orElse (inner outer : Given) : Given where
  config := inner.config <|> outer.config
  source := inner.source <|> outer.source
  output := inner.output <|> outer.output
  jobs := inner.jobs <|> outer.jobs
  flags := inner.flags ++ outer.flags

end Given

/-- What a command line asks for. -/
inductive Request where
  | run (command : Command) (given : Given)
  | version
  | help
  | misused
deriving DecidableEq, Repr

/-- The options read so far on one side of the command. A value that is a word of its own waits to
be judged until the next option on its side, or the end. -/
structure Side where
  given : Given := {}
  waiting : Option (Setting × String) := none

def Side.settle? (side : Side) : Option Given :=
  match side.waiting with
  | none => some side.given
  | some (setting, value) => side.given.set? setting value

/-- What was read so far: the options before the command, and the command with those behind it. -/
structure Progress where
  before : Side := {}
  command : Option (Command × Side) := none

namespace Progress

def current (progress : Progress) : Side :=
  match progress.command with
  | none => progress.before
  | some (_, behind) => behind

def update (progress : Progress) (side : Side) : Progress :=
  match progress.command with
  | none => { progress with before := side }
  | some (command, _) => { progress with command := some (command, side) }

def finish (progress : Progress) : Request :=
  match progress.command with
  | none => .misused
  | some (command, behind) =>
    match behind.settle?, progress.before.settle? with
    | some inner, some outer => .run command (inner.orElse outer)
    | _, _ => .misused

/-- Changes the options on the present side, of which none is left waiting. -/
def change (progress : Progress) (edit : Given → Option Given) : Except Request Progress :=
  match progress.current.settle?.bind edit with
  | some given => .ok (progress.update { given })
  | none => .error .misused

/-- Ends the reading with a request, unless an option that waits is wrong. -/
def demand (progress : Progress) (request : Request) : Except Request Progress :=
  .error (if progress.current.settle?.isSome then request else .misused)

end Progress

/-- A word that would be taken for an option where a value is expected. -/
def looksLikeOption (word : String) : Bool :=
  match word.toList with
  | '-' :: _ :: _ => true
  | _ => false

/-- The letters behind a single dash. -/
def readLetters (progress : Progress) : List Char → Except Request Progress
  | [] => .ok progress
  | 'v' :: rest => do readLetters (← progress.change (·.raise? .verbose)) rest
  | 'V' :: _ => progress.demand (if progress.command.isNone then .version else .misused)
  | 'h' :: _ => progress.demand .help
  | _ => .error .misused

/-- A name behind two dashes, with the value written to it behind an equals sign. -/
def splitEquals (word : String) : String × Option String :=
  match Text.breakAt? ['='] word.toList with
  | some (name, rest) => (String.ofList name, some (String.ofList rest.tail))
  | none => (word, none)

def readFlag (progress : Progress) (name : String) : Except Request Progress :=
  match Flag.ofName? name with
  | some flag => progress.change (·.raise? flag)
  | none =>
    if name = "--help" then progress.demand .help
    else if name = "--version" ∧ progress.command.isNone then progress.demand .version
    else .error .misused

/-- What the words behind `help` ask for: they may name one command, or `help` itself. -/
def helpRequest : List String → Request
  | [] => .help
  | [word] => if word = "help" ∨ (Command.ofName? word).isSome then .help else .misused
  | _ => .misused

/-- Reads a command; `rest` are the words behind it. -/
def readCommand (progress : Progress) (word : String) (rest : List String) :
    Except Request Progress :=
  match progress.command, Command.ofName? word with
  | none, some command => .ok { progress with command := some (command, {}) }
  | none, none => .error (if word = "help" then helpRequest rest else .misused)
  | some _, _ => .error .misused

/-- Reads a word other than an option with its value in the next word. -/
def readWord (progress : Progress) (word : String) (rest : List String) :
    Except Request Progress :=
  if word.toList.take 2 = ['-', '-'] then
    match splitEquals word with
    | (name, some value) =>
      progress.change fun given => (Setting.ofName? name).bind (given.set? · value)
    | (name, none) => readFlag progress name
  else if looksLikeOption word then readLetters progress word.toList.tail
  else readCommand progress word rest

/-- Takes the words one by one; the first fault, or the first request for help or the version, ends
the reading. -/
def read (progress : Progress) : List String → Request
  | [] => progress.finish
  | [word] =>
    if word = "--" then progress.finish
    else
      match readWord progress word [] with
      | .ok progress => progress.finish
      | .error request => request
  | word :: value :: rest =>
    if word = "--" then .misused
    else
      match Setting.ofName? word with
      | some setting =>
        match looksLikeOption value, progress.current.settle? with
        | false, some given => read (progress.update ⟨given, some (setting, value)⟩) rest
        | _, _ => .misused
      | none =>
        match readWord progress word (value :: rest) with
        | .ok progress => read progress (value :: rest)
        | .error request => request

def Request.ofArguments (arguments : List String) : Request := read {} arguments

/-- The exit code and the texts printed, each on a line of its own. -/
structure Answer where
  exitCode : Nat
  lines : List String := []
deriving DecidableEq, Repr

/-- A character of a message. One that a terminal could obey is spelled out. -/
def spell (c : Char) : List Char :=
  match c with
  | '\x07' => "\\x07".toList
  | '\x08' => "\\x08".toList
  | '\x0c' => "\\x0c".toList
  | '\x1b' => "\\x1b".toList
  | '\x7f' => "\\x7f".toList
  | c =>
    if 0x80 ≤ c.toNat ∧ c.toNat ≤ 0x9f then
      "\\u\x7b".toList ++ Nat.toDigits 16 c.toNat ++ ['\x7d']
    else [c]

def message (level text : String) : String :=
  level ++ " " ++ String.ofList (text.toList.flatMap spell)

def errorLine (text : String) : String := message "ERROR" text

/-- Options win over the environment, and the environment over the settings file. -/
def settings (disk : Disk) (given : Given) (environmentOutput : Option String) :
    Except SettingsError Settings := do
  let settings ← Settings.load disk (given.config.map Files.Path.mk)
  let settings := (settings.overrideOutput environmentOutput).overrideOutput given.output
  let settings : Settings := {
    settings with
    sourceRoot := (given.source.map Files.Path.mk).getD settings.sourceRoot
    clean := settings.clean || given.flags.contains .clean
    splitVersions := settings.splitVersions && !given.flags.contains .noSplitVersions
    jobs := given.jobs.getD settings.jobs }
  match settings.validate with
  | .ok () => return settings
  | .error reason => throw (.invalid reason)

/-- The paths that a run may read or write, as far as the settings can be read. -/
def touched (disk : Disk) (arguments : List String) (environmentOutput : Option String) :
    List Files.Path :=
  match Request.ofArguments arguments with
  | .run _ given =>
    match settings disk given environmentOutput with
    | .ok settings => [settings.sourceRoot, settings.outputRoot]
    | .error _ => []
  | _ => []

/-- The settings files that a run may read. -/
def settingsFiles (arguments : List String) : List Files.Path :=
  match Request.ofArguments arguments with
  | .run _ given => [(given.config.map Files.Path.mk).getD Settings.defaultFile]
  | _ => []

def ofReport (settings : Settings) (report : Report) : Answer :=
  if report.isSuccess then
    ⟨0, [message "INFO" (toString report.packages.length ++ " packages, " ++
      toString report.typesWritten ++ " types directories written to " ++
      settings.outputRoot.text)]⟩
  else
    let failures := report.failures.map fun failure =>
      errorLine (failure.module ++ ": " ++ failure.failure.message)
    ⟨1, failures ++ [errorLine (toString report.failures.length ++ " unit(s) failed: " ++
      ", ".intercalate report.failedModules)]⟩

def ofResult {α : Type} (answer : α → Answer) : Except Failure α → Answer
  | .ok result => answer result
  | .error failure => ⟨1, [errorLine failure.message]⟩

def perform (settings : Settings) (command : Command) : StateM Session Answer :=
  let setup : Setup := ⟨settings, fun _ => .ok ()⟩
  match command with
  | .build => return ofResult (ofReport settings ·.report) (← setup.build.run)
  | .createTypes => return ofResult (ofReport settings ·.report) (← setup.createTypes.run)
  | .listModules =>
    return ofResult (fun packages => ⟨0, packages.map (·.name)⟩)
      (← (SessionM.ofWork setup.allPackages).run)

def versionLine : String := "sdksplit 0.2.0"

/-- How the program is called; shown to a reader and no part of an answer. -/
def usage : List String :=
  ["Usage: sdksplit [OPTIONS] <COMMAND>", "", "Commands:",
    "  build              make the packages and their types",
    "  create-types       write the types alone",
    "  list-modules       print the names of the packages", "", "Options:",
    "  --config FILE      read settings from FILE instead of sdksplit.toml",
    "  --source DIR       take the SDK from DIR", "  --output DIR       put the packages into DIR",
    "  --clean            empty the output directory first",
    "  --no-split-versions  keep versions inside the types of their module",
    "  --jobs N           the number of workers", "  -v, --verbose      tell more",
    "  -h, --help         print this", "  -V, --version      print the version"]

/-- Runs the program: an exit code of 1 says that the work failed, one of 2 that it never began. -/
def run (arguments : List String) (environmentOutput : Option String) : StateM Disk Answer := do
  match Request.ofArguments arguments with
  | .version => return ⟨0, [versionLine]⟩
  | .help => return ⟨0, []⟩
  | .misused => return ⟨2, []⟩
  | .run command given =>
    let disk ← get
    match settings disk given environmentOutput with
    | .error reason => return ⟨2, [errorLine reason.message]⟩
    | .ok settings =>
      let (answer, session) := (perform settings command).run { disk }
      set session.disk
      return answer

end Unbundle.CommandLine
