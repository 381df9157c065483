import Scriptlet.Session
import Scriptlet.Syntax.Printer
import Scriptlet.Text.Line
import Scriptlet.Text.Utf8

/-!
# The command line

The arguments `[--emit tokens|json|ast] [--log] [script]` ask to run a script or to print one of its
intermediate forms; when no script is named, chunks are read from the standard input line by line.

* `Request.ofArgs?`: what the arguments ask for; `none` is a usage error.
* `runScript`, `emitScript`: the answer to a script.
* `Prompt.feed`: the answer to one line of the prompt.
* `respond`: the answer of the whole program to its arguments, files and standard input.
-/

namespace Scriptlet.CommandLine

/-- The exit code when a file or the standard input cannot be read. -/
def exitFailure : Nat := 1

/-- The exit code of a usage error. -/
def exitUsage : Nat := 64

/-- The exit code of a script with compile errors. -/
def exitCompileError : Nat := 65

/-- The exit code of a script that ends with a run-time fault. -/
def exitRuntimeError : Nat := 70

def versionText : String := "jslox 0.1.0\n"

def usageText : String := "Usage: jslox [script]\n"

def helpText : String :=
  "Tree-walking interpreter for a small JavaScript-like language\n\n"
    ++ "Usage: jslox [OPTIONS] [SCRIPT]\n\n"
    ++ "Arguments:\n"
    ++ "  [SCRIPT]  Script to run.  Starts an interactive prompt when omitted\n\n"
    ++ "Options:\n"
    ++ "      --emit <EMIT>  Print an intermediate form of the script instead of running it"
    ++ " [possible values: tokens, json, ast]\n"
    ++ "      --log          Enable logging to jslox.log\n"
    ++ "  -h, --help         Print help\n"
    ++ "  -V, --version      Print version\n"

/-- The file that `--log` makes. -/
def logFile : String := "jslox.log"

/-! ## Arguments -/

/-- An intermediate form of a script. -/
inductive Form where
  | tokens
  | json
  | ast
deriving DecidableEq

def Form.ofName? : String → Option Form
  | "tokens" => some .tokens
  | "json" => some .json
  | "ast" => some .ast
  | _ => none

/-- What has been asked for by the arguments so far. -/
structure Settings where
  script : Option String := none
  emit : Option Form := none
  log : Bool := false
deriving DecidableEq

/-- What the arguments ask for. -/
inductive Request where
  | version
  | help
  | run (settings : Settings)
deriving DecidableEq

namespace Settings

/-- Names the script, which may be done once. -/
def setScript (s : Settings) (path : String) : Option Settings :=
  if s.script.isSome || path == "" then none else some { s with script := path }

/-- Names the form to print, which may be done once. -/
def setEmit (s : Settings) (name : String) : Option Settings :=
  if s.emit.isSome then none else (Form.ofName? name).map fun form => { s with emit := form }

/-- Asks for a log, which may be done once. -/
def setLog (s : Settings) : Option Settings :=
  if s.log then none else some { s with log := true }

/-- A form can only be printed of a script. -/
def finish (s : Settings) : Option Request :=
  if s.emit.isSome && s.script.isNone then none else some (.run s)

/-- Reads arguments after `--`, where nothing is an option. -/
def readPaths (s : Settings) : List String → Option Request
  | [] => s.finish
  | path :: paths => (s.setScript path).bind fun s => s.readPaths paths

/-- Begins with a dash, and is more than a dash. -/
def looksLikeOption (arg : String) : Bool :=
  match arg.toList with
  | '-' :: _ :: _ => true
  | _ => false

/-- The value in `--emit=value`. -/
def emitValue? (arg : String) : Option String :=
  if "--emit=".isPrefixOf arg then some (String.ofList (arg.toList.drop 7)) else none

/-- Reads arguments from left to right. The first that is wrong is a usage error; the first that asks
for the version or for help decides. -/
def readArgs (s : Settings) : List String → Option Request
  | [] => s.finish
  | arg :: args =>
    if !looksLikeOption arg then (s.setScript arg).bind fun s => s.readArgs args
    else if arg == "--" then s.readPaths args
    else if arg == "--version" || "-V".isPrefixOf arg then some .version
    else if arg == "--help" || "-h".isPrefixOf arg then some .help
    else if arg == "--log" then s.setLog.bind fun s => s.readArgs args
    else if arg == "--emit" then
      match args with
      | [] => none
      | value :: args =>
        if looksLikeOption value then none
        else (s.setEmit value).bind fun s => s.readArgs args
    else
      match emitValue? arg with
      | some value => (s.setEmit value).bind fun s => s.readArgs args
      | none => none

end Settings

/-- What the arguments ask for, if they are right. -/
def Request.ofArgs? (args : List String) : Option Request := Settings.readArgs {} args

/-! ## Scripts -/

/-- What the program leaves behind. -/
structure Response where
  exit : Nat
  stdout : String
  stderr : String
  /-- Whether a log has been made. -/
  logged : Bool := false
deriving DecidableEq

/-- Reports as they are written to the standard error output. -/
def textOfReports (reports : List Diagnostic) : String := textOfLines (reports.map Diagnostic.text)

def exitOf : Outcome → Nat
  | .completed => 0
  | .compileError => exitCompileError
  | .runtimeError => exitRuntimeError

/-- Runs a script. -/
def runScript (steps : Nat) (clock : Number) (source : String) : Option Response :=
  ((Session.start clock none).run steps source).map fun (outcome, s) =>
    { exit := exitOf outcome
      stdout := textOfLines (s.linesSince 0)
      stderr := textOfReports (s.reportsSince 0) }

/-- An intermediate form of a source text and the reports made on the way to it. -/
def emit (source : String) (form : Form) : String × List Diagnostic :=
  let items := lex source
  let tokens := items.filterMap LexItem.token?
  let lexical := (items.filterMap LexItem.error?).map LexicalError.diagnostic
  match form with
  | .tokens => (textOfLines (tokens.map Token.listing), lexical)
  | .json => ((Json.array (tokens.map Token.toJson)).pretty ++ "\n", lexical)
  | .ast =>
    let parsed := parse tokens 0
    (programTree parsed.program ++ "\n",
      lexical ++ parsed.errors.toList.map SyntaxError.diagnostic)

/-- Prints an intermediate form of a script. -/
def emitScript (source : String) (form : Form) : Response :=
  let (text, reports) := emit source form
  { exit := if reports.isEmpty then 0 else exitCompileError
    stdout := text
    stderr := textOfReports reports }

/-! ## The prompt -/

namespace Prompt

def mark : String := "> "

/-- The answer to a line: what is written, and the session to go on with or the code to exit with. -/
structure Reply where
  stdout : String
  stderr : String
  next : Except Nat Session

/-- Runs a line. A line that is not UTF-8 and one with compile errors end the program. -/
def feed (steps : Nat) (s : Session) (line : List UInt8) : Option Reply :=
  match Utf8.decode? line with
  | none =>
    some ⟨"", "Error: Failed to read from stdin\n", .error exitFailure⟩
  | some source =>
    let written := s.machine.output.size
    let reported := s.diagnostics.count
    (s.run steps source).map fun (outcome, after) =>
      { stdout := textOfLines (after.linesSince written)
        stderr := textOfReports (after.reportsSince reported)
        next := if outcome = .compileError then .error exitCompileError else .ok after }

/-- Runs lines up to the last or one that ends the program, after what has been written already. -/
def feedAll (steps : Nat) (s : Session) (stdout stderr : String) :
    List (List UInt8) → Option Response
  | [] => some { exit := 0, stdout := stdout ++ mark, stderr }
  | line :: lines =>
    match feed steps s line with
    | none => none
    | some reply =>
      let stdout := stdout ++ mark ++ reply.stdout
      let stderr := stderr ++ reply.stderr
      match reply.next with
      | .ok s => feedAll steps s stdout stderr lines
      | .error exit => some { exit, stdout, stderr }

end Prompt

/-! ## The program -/

/-- The answer when a script cannot be read. -/
def unreadable (path : String) : Response :=
  ⟨exitFailure, "", "Error: Failed to open file " ++ Json.quote path ++ "\n", false⟩

/-- The answer to a valid request, given what files hold and what is on the standard input. -/
def respondTo (steps : Nat) (clock : Number) (files : String → Option (List UInt8))
    (stdin : List UInt8) (settings : Settings) : Option Response :=
  match settings.script with
  | none => Prompt.feedAll steps (.start clock none) "" "" (Line.split stdin)
  | some path =>
    match files path with
    | none => some (unreadable path)
    | some bytes =>
      let source := Utf8.decodeLossy bytes
      match settings.emit with
      | some form => some (emitScript source form)
      | none => runScript steps clock source

/-- The answer of the program. -/
def respond (steps : Nat) (clock : Number) (files : String → Option (List UInt8))
    (stdin : List UInt8) (args : List String) : Option Response :=
  match Request.ofArgs? args with
  | none => some ⟨exitUsage, "", usageText, false⟩
  | some .version => some ⟨0, versionText, "", false⟩
  | some .help => some ⟨0, helpText, "", false⟩
  | some (.run settings) =>
    (respondTo steps clock files stdin settings).map fun r => { r with logged := settings.log }

end Scriptlet.CommandLine
