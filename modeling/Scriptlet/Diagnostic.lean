import Scriptlet.Token.Lexer

/-!
# Diagnostics

A diagnostic says in which phase, on which line and where on it something went wrong. `Diagnostics` is
the record of a session, oldest first. It never forgets, so that a compile error anywhere in a session
stays visible in `hadCompileError`, and a run-time error in `hadRuntimeError`.
-/

namespace Scriptlet

inductive Phase where
  | compile
  | runtime
deriving DecidableEq

/-- A report. `place` is empty or a blank followed by the place on the line. -/
structure Diagnostic where
  phase : Phase
  line : Nat
  place : String
  message : String
deriving DecidableEq

namespace Diagnostic

/-- A compile-time report at a token. -/
def atToken (t : Token) (message : String) : Diagnostic := ⟨.compile, t.line, t.place, message⟩

/-- A run-time report about some text of a line. -/
def atText (line : Nat) (lexeme : String) (message : String) : Diagnostic :=
  ⟨.runtime, line, " at '" ++ lexeme ++ "'", message⟩

/-- The report as it is written. -/
def text (d : Diagnostic) : String :=
  "[line " ++ toString d.line ++ "] Error" ++ d.place ++ ": " ++ d.message

end Diagnostic

/-- A lexical error is reported for its line only. -/
def LexicalError.diagnostic (e : LexicalError) : Diagnostic :=
  ⟨.compile, e.line, "", e.fault.message⟩

/-- All reports of a session, oldest first. -/
structure Diagnostics where
  reports : Array Diagnostic := #[]
deriving DecidableEq

namespace Diagnostics

def report (ds : Diagnostics) (d : Diagnostic) : Diagnostics := ⟨ds.reports.push d⟩

def reportAll (ds : Diagnostics) (new : List Diagnostic) : Diagnostics :=
  ⟨ds.reports ++ new.toArray⟩

def count (ds : Diagnostics) : Nat := ds.reports.size

def hadCompileError (ds : Diagnostics) : Bool := ds.reports.any (·.phase = .compile)

def hadRuntimeError (ds : Diagnostics) : Bool := ds.reports.any (·.phase = .runtime)

end Diagnostics

end Scriptlet
