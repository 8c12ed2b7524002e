import StackLisp.FileTree
import StackLisp.Interpreter.Session

/-!
# The command line

The program as a function: from its arguments, its standard input, the files it
may load and its environment to what it writes and its exit code.

After loading the files given by `--load`, the forms of the standard input are
evaluated one by one. What a form prints is written before its value; an error
abandons the form that raised it. An error in a loaded file ends the program.
-/

namespace StackLisp.CommandLine

/-- The options of the program. -/
structure Options where
  load : List String := []
  trace : Bool := false
  maxSteps : Option Nat := none
  noPrelude : Bool := false
  disassemble : Bool := false
  logLevel : Option LogLevel := none
deriving DecidableEq, Repr

/-- What the arguments ask for. -/
inductive Command where
  | run (options : Options)
  | showHelp
  | showVersion
  | badUsage
deriving DecidableEq, Repr

/-! ## Arguments -/

/-- Whether an argument is an option rather than the value of one. -/
def looksLikeOption (arg : String) : Bool := arg.startsWith "-" && arg != "-"

/-- Sets an option that takes a value, each but `--load` at most once. -/
def Options.setValue? (o : Options) (name value : String) : Option Options :=
  match name with
  | "--load" => if value.isEmpty then none else some { o with load := o.load ++ [value] }
  | "--max-steps" =>
    match o.maxSteps, Text.count? value.toList with
    | none, some n => some { o with maxSteps := some n }
    | _, _ => none
  | "--log-level" =>
    match o.logLevel, LogLevel.ofText? value with
    | none, some level => some { o with logLevel := some level }
    | _, _ => none
  | _ => none

/-- Sets an option without a value, at most once. -/
def Options.setFlag? (o : Options) (name : String) : Option Options :=
  match name with
  | "--trace" => if o.trace then none else some { o with trace := true }
  | "--no-prelude" => if o.noPrelude then none else some { o with noPrelude := true }
  | "--disassemble" => if o.disassemble then none else some { o with disassemble := true }
  | _ => none

/-- Whether an option takes a value. -/
def takesValue (name : String) : Bool :=
  name == "--load" || name == "--max-steps" || name == "--log-level"

/-- The name of an option and the value after an equals sign. -/
def splitOption (arg : String) : String × Option String :=
  let cs := arg.toList
  match cs.dropWhile (· ≠ '=') with
  | _ :: value => (String.ofList (cs.takeWhile (· ≠ '=')), some (String.ofList value))
  | [] => (arg, none)

/-- What an argument asks to be told instead of running anything. Of short options
    run together, the first one counts. -/
def information? (arg : String) : Option Command :=
  match arg.toList with
  | '-' :: 'h' :: _ => some .showHelp
  | '-' :: 'V' :: _ => some .showVersion
  | _ =>
    if arg == "--help" then some .showHelp
    else if arg == "--version" then some .showVersion
    else none

/-- Parses arguments from left to right. -/
def parse (o : Options) : List String → Command
  | [] => .run o
  | "--" :: args => if args.isEmpty then .run o else .badUsage
  | arg :: args =>
    match information? arg with
    | some command => command
    | none =>
      let (name, value?) := splitOption arg
      if takesValue name then
        match value?, args with
        | some value, args =>
          match o.setValue? name value with
          | some o => parse o args
          | none => .badUsage
        | none, value :: args =>
          if looksLikeOption value then
            .badUsage
          else
            match o.setValue? name value with
            | some o => parse o args
            | none => .badUsage
        | none, [] => .badUsage
      else
        match o.setFlag? arg with
        | some o => parse o args
        | none => .badUsage

/-! ## Running -/

/-- The program at work: an interpreter and what has been written so far. -/
structure Shell where
  interpreter : Interpreter
  /-- What is left of the standard input. -/
  stdin : String := ""
  stdout : String := ""
  stderr : String := ""
deriving Inhabited

/-- Actions of the program, which may end with an exit code. -/
abbrev ShellM := EStateM Nat Shell

/-- What can be loaded: a text, or the standard input, which can be read once. -/
inductive Source where
  | text (s : String)
  | stdin
deriving DecidableEq, Repr

/-- Takes the standard input. -/
def takeInput : ShellM String :=
  modifyGet fun s => (s.stdin, { s with stdin := "" })

/-- The text of a source. -/
def Source.take : Source → ShellM String
  | .text s => pure s
  | .stdin => takeInput

/-- Writes text. -/
def write (text : String) : ShellM Unit :=
  modify fun s => { s with stdout := s.stdout ++ text }

/-- Writes a line of complaint. -/
def complain (line : String) : ShellM Unit :=
  modify fun s => { s with stderr := s.stderr ++ line ++ "\n" }

/-- The line of a log record. -/
def logLine (r : LogRecord) : String := s!"[{r.level.text}] {r.text}"

/-- Writes the log records to the standard error. -/
def flushLog (s : Shell) : Shell :=
  let records := s.interpreter.image.log.records
  { s with
    interpreter.image.log.records := #[]
    stderr := records.foldl (fun err r => err ++ logLine r ++ "\n") s.stderr }

/-- The outcome of an action of the interpreter; what it logs is written. -/
def perform {α : Type} (x : LispM α) : ShellM (Except Failure α) := fun s =>
  let interpreter := s.interpreter
  let s := { s with interpreter := default }
  match x interpreter with
  | .ok a interpreter => .ok (.ok a) (flushLog { s with interpreter })
  | .error e interpreter => .ok (.error e) (flushLog { s with interpreter })

/-- An action of the interpreter that does not fail. -/
def performPure {α : Type} [Inhabited α] (x : LispM α) : ShellM α := do
  match ← perform x with
  | .ok a => return a
  | .error _ => return default

/-- Evaluates the forms of a file, read within a bound; `count` were evaluated
    before. -/
def loadForms (path : String) : Nat → Nat → List Char → ShellM Unit
  | 0, _, _ => throw 1
  | fuel + 1, count, text => do
    match ← perform (Image.readWithin (fuel + 1) text) with
    | .error e =>
      complain s!"Read error in {path}: {e.message}"
      throw 1
    | .ok none => pure ()
    | .ok (some (form, rest, _)) =>
      match ← perform (Interpreter.eval form) with
      | .error e =>
        complain s!"Error at expression {count + 1} of {path}: {e.message}"
        throw 1
      | .ok _ =>
        write (← performPure Interpreter.takeOutput)
        loadForms path fuel (count + 1) rest

/-- Loads a file. -/
def load (files : String → Except FileFault Source) (path : String) : ShellM Unit := do
  match files path with
  | .error e =>
    complain s!"Error loading {path}: {e.message}"
    throw 1
  | .ok source =>
    let cs := (← source.take).toList
    loadForms path (Reading.bound cs) 0 cs

/-- Compiles a form, writes its listing, and runs it. -/
def evalDisassembled (form : Value) : ShellM (Except Failure Value) := do
  let compiled ← perform do
    let code ← Interpreter.compile form
    let listing ← Interpreter.walk (·.disassemble code)
    return (code, listing)
  match compiled with
  | .error e => return .error e
  | .ok (code, listing) =>
    write listing
    perform do
      Machine.clearCounts
      Interpreter.runCode code []

/-- Evaluates the forms of the input, read within a bound, and writes their
    values. -/
def evalForms (disassemble : Bool) : Nat → List Char → ShellM Unit
  | 0, _ => throw 1
  | fuel + 1, text => do
    match ← perform (Image.readWithin (fuel + 1) text) with
    | .error e => complain e.message
    | .ok none => pure ()
    | .ok (some (form, rest, _)) =>
      let result ← if disassemble then evalDisassembled form else perform (Interpreter.eval form)
      write (← performPure Interpreter.takeOutput)
      match result with
      | .ok v => write ((← performPure (Interpreter.shown v)) ++ "\n")
      | .error e => complain s!"Error: {e.message}"
      evalForms disassemble fuel rest

/-- What the program starts from. -/
structure Invocation where
  args : List String
  stdin : String
  /-- What a path leads to, or why it cannot be read. -/
  files : String → Except FileFault Source
  env : Config.Environment
  draws : Draws := {}

/-- What the program leaves. -/
structure Outcome where
  exitCode : Nat
  stdout : String := ""
  stderr : String := ""
deriving DecidableEq, Repr

/-- The settings that options and environment give. -/
def Options.config (o : Options) (env : Config.Environment) : Config :=
  let config := (Config.ofEnvironment env).1
  { config with
    trace := config.trace || o.trace
    maxSteps := o.maxSteps.or config.maxSteps
    loadPrelude := !o.noPrelude }

/-- Loads the files and evaluates the input. -/
def work (o : Options) (i : Invocation) : ShellM Unit := do
  o.load.forM (load i.files)
  let cs := (← takeInput).toList
  evalForms o.disassemble (Reading.bound cs) cs

/-- The outcome of the program's work. -/
def outcome : EStateM.Result Nat Shell Unit → Outcome
  | .ok _ s => ⟨0, s.stdout, s.stderr⟩
  | .error code s => ⟨code, s.stdout, s.stderr⟩

/-- Runs the program with given options. -/
def runWith (o : Options) (i : Invocation) : Outcome :=
  let config := { o.config i.env with draws := i.draws }
  let level := if config.trace then .trace else o.logLevel.getD .warn
  match Interpreter.start config level with
  | .ok _ interpreter => outcome (work o i (flushLog { interpreter, stdin := i.stdin }))
  | .error e interpreter =>
    let s := flushLog { interpreter }
    ⟨1, s.stdout, s.stderr ++ s!"Failed to initialize: {e.message}\n"⟩

/-- The text of `--help`. -/
def help : String :=
  "Usage: secd [OPTIONS]\n"

/-- Runs the program. -/
def run (i : Invocation) : Outcome :=
  match parse {} i.args with
  | .run o => runWith o i
  | .showHelp => ⟨0, help, ""⟩
  | .showVersion => ⟨0, "secd 0.1.0\n", ""⟩
  | .badUsage => ⟨2, "", help⟩

end StackLisp.CommandLine
