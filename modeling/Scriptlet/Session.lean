import Scriptlet.Eval
import Scriptlet.Token.Lexer
import Scriptlet.Syntax.Parser.Statement

/-!
# Sessions

A session runs source text a chunk at a time. What one chunk declares is there for the next. A chunk
with compile errors is not run. It leaves its reports behind, and traces that nothing looks at any more:
the identities its references were given, and the distances of those if its scopes were looked at. A
run-time fault ends its chunk only.

* `compile`: tokens, syntax tree and scopes of a chunk.
* `Session.run`: runs a chunk.
* `Session.evaluate`: the value of a chunk that is one expression.

A run that needs more than the granted steps has no outcome.
-/

namespace Scriptlet

/-- A chunk that has been scanned, parsed and resolved, whether or not it can be run. -/
structure Compiled where
  program : List Stmt
  nextRef : RefId
  bindings : Array Binding
  /-- Lexical errors, then syntax errors. -/
  syntaxReports : List Diagnostic
  scopeReports : List Diagnostic

/-- Scans, parses and resolves a source text. What could be parsed is resolved even after syntax
errors. -/
def compile (source : String) (nextRef : RefId) : Compiled :=
  let items := lex source
  let parsed := parse (items.filterMap LexItem.token?) nextRef
  let resolution := resolve parsed.program
  { program := parsed.program
    nextRef := parsed.nextRef
    bindings := resolution.bindings
    syntaxReports :=
      (items.filterMap LexItem.error?).map LexicalError.diagnostic
        ++ parsed.errors.toList.map SyntaxError.diagnostic
    scopeReports := resolution.errors.toList.map ScopeError.diagnostic }

namespace Compiled

/-- All reports of a chunk. -/
def allReports (c : Compiled) : List Diagnostic := c.syntaxReports ++ c.scopeReports

/-- The reports of a chunk when scopes are looked at only if the syntax is right. -/
def reports (c : Compiled) : List Diagnostic :=
  if c.syntaxReports.isEmpty then c.scopeReports else c.syntaxReports

end Compiled

/-- More steps than any run takes in practice. -/
def ampleSteps : Nat := Nat.pow 10 18

/-- How a chunk ended. -/
inductive Outcome where
  | completed
  | compileError
  | runtimeError
deriving DecidableEq

structure Session where
  machine : Machine
  distances : Distances
  nextRef : RefId
  diagnostics : Diagnostics

/-- How the evaluation of an expression ended. -/
inductive Evaluation where
  | value (v : Value)
  | fault (f : Fault)
  /-- The chunk has errors, or is no single expression. -/
  | rejected (reports : List Diagnostic)

namespace Session

/-- A session that has run nothing. -/
def start (clock : Number) (capacity : Option Nat) : Session where
  machine := .initial clock capacity
  distances := ∅
  nextRef := 0
  diagnostics := {}

/-- How references find their bindings. -/
def scoping (s : Session) : Scoping := .byDistance s.distances

/-- Keeps the distances of a chunk that is going to run. -/
def keep (s : Session) (c : Compiled) : Session :=
  { s with distances := s.distances.addBindings c.bindings.toList, nextRef := c.nextRef }

/-- What is left of a chunk that is not going to run: its identities are used up, the distances of its
references are noted if its syntax was right, and there are reports about it. -/
def reject (s : Session) (c : Compiled) (reports : List Diagnostic) : Session :=
  let noted := if c.syntaxReports.isEmpty then c.bindings.toList else []
  { s with
    distances := s.distances.addBindings noted
    nextRef := c.nextRef
    diagnostics := s.diagnostics.reportAll reports }

/-- Runs a program in the session, and reports the fault it ends with. -/
def execute (steps : Nat) (s : Session) (program : List Stmt) : Option (Outcome × Session) :=
  match interpret s.scoping steps program s.machine with
  | .ok _ machine => some (.completed, { s with machine })
  | .fault f machine =>
    some (.runtimeError, { s with machine, diagnostics := s.diagnostics.report f.diagnostic })
  | .exhausted => none

/-- Runs a compiled chunk unless there are reports about it. -/
def runUnless (steps : Nat) (s : Session) (reports : List Diagnostic) (c : Compiled) :
    Option (Outcome × Session) :=
  if reports.isEmpty then (s.keep c).execute steps c.program
  else some (.compileError, s.reject c reports)

/-- Runs a chunk of source text. -/
def run (steps : Nat) (s : Session) (source : String) : Option (Outcome × Session) :=
  let c := compile source s.nextRef
  s.runUnless steps c.reports c

/-- Evaluates a chunk that is one expression statement. -/
def evaluate (steps : Nat) (s : Session) (source : String) : Option (Evaluation × Session) :=
  let c := compile source s.nextRef
  match c.allReports, c.program with
  | [], [.expr e] =>
    let s := s.keep c
    match eval s.scoping steps e s.machine with
    | .ok v machine => some (.value v, { s with machine })
    | .fault f machine => some (.fault f, { s with machine })
    | .exhausted => none
  | reports, _ => some (.rejected reports, s)

/-- Calls a value, whatever number of arguments it takes. -/
def call (steps : Nat) (s : Session) (callee : Value) (args : List Value) (site : Token) :
    Option (Except Fault Value × Session) :=
  match apply s.scoping steps callee args site s.machine with
  | .ok v machine => some (.ok v, { s with machine })
  | .fault f machine => some (.error f, { s with machine })
  | .exhausted => none

/-- The lines that have been written since there were `count` of them. -/
def linesSince (s : Session) (count : Nat) : List String := s.machine.output.toList.drop count

/-- The reports that have been made since there were `count` of them. -/
def reportsSince (s : Session) (count : Nat) : List Diagnostic :=
  s.diagnostics.reports.toList.drop count

end Session

/-- Lines of text, each with its newline. -/
def textOfLines (lines : List String) : String := String.join (lines.map (· ++ "\n"))

end Scriptlet
