import Scriptlet.Syntax.Basic
import Scriptlet.Diagnostic

/-!
# Parsing actions

A parsing action reads tokens from the front of `State.rest`. It succeeds, fails with a syntax error,
or runs out of the steps it was granted; in the first two cases it leaves a state behind. Errors that do
not stop the parser are noted in the state.

* `State.peek`: the token to be read next, at the end of the tokens the last one.
* `Parser.accept`, `Parser.expect`: read one given symbol, or leave the tokens as they are.
* `State.synchronize`: skip to where a statement may begin.
-/

namespace Scriptlet

/-- A function proper or a method: they are parsed alike and named apart in errors. -/
inductive FunctionForm where
  | function
  | method
deriving DecidableEq

def FunctionForm.text : FunctionForm → String
  | function => "function"
  | method => "method"

/-- What can be wrong with the syntax of a program. -/
inductive SyntaxFault where
  | noExpression
  | noClassName
  | noSuperclassName
  | noInterfaceName
  | noClassBody
  | unclosedClassBody
  | noFunctionName (form : FunctionForm)
  | noParameters (form : FunctionForm)
  | noParameterName
  | unclosedParameters
  | noFunctionBody (form : FunctionForm)
  | noVariableName
  | unclosedDeclaration
  | noForClauses
  | unclosedLoopCondition
  | unclosedForClauses
  | unclosedExpression
  | noIfCondition
  | unclosedIfCondition
  | noWhileCondition
  | unclosedWhileCondition
  | unclosedReturn
  | unclosedBlock
  | noPropertyName
  | unclosedArguments
  | noSuperDot
  | noSuperMethod
  | unclosedGroup
  | tooManyParameters
  | tooManyArguments
  | invalidAssignmentTarget
  | constructorAccess
deriving DecidableEq

namespace SyntaxFault

def message : SyntaxFault → String
  | noExpression => "Expected expression."
  | noClassName => "Expected class name."
  | noSuperclassName => "Expected superclass name."
  | noInterfaceName => "Expected interface name."
  | noClassBody => "Expected '\x7b' before class body."
  | unclosedClassBody => "Expected '\x7d' after class body."
  | noFunctionName form => "Expected " ++ form.text ++ " name."
  | noParameters form => "Expected '(' after " ++ form.text ++ " name."
  | noParameterName => "Expected parameter name."
  | unclosedParameters => "Expected ')' after parameters."
  | noFunctionBody form => "Expected '\x7b' before " ++ form.text ++ " body."
  | noVariableName => "Expected variable name."
  | unclosedDeclaration => "Expected ';' after variable declaration."
  | noForClauses => "Expected '(' after 'for'."
  | unclosedLoopCondition => "Expected ';' after loop condition."
  | unclosedForClauses => "Expected ')' after for clauses."
  | unclosedExpression => "Expected ';' after expression."
  | noIfCondition => "Expected '(' after 'if'."
  | unclosedIfCondition => "Expected ')' after if condition."
  | noWhileCondition => "Expected '(' after 'while'."
  | unclosedWhileCondition => "Expected ')' after while condition."
  | unclosedReturn => "Expected ';' after return value."
  | unclosedBlock => "Expected '\x7d' after block."
  | noPropertyName => "Expected property name after '.'."
  | unclosedArguments => "Expected ')' after arguments."
  | noSuperDot => "Expected '.' after 'super'."
  | noSuperMethod => "Expected superclass method name."
  | unclosedGroup => "Expected ')' after expression."
  | tooManyParameters => "Can't have more than 255 parameters."
  | tooManyArguments => "Can't have more than 255 arguments."
  | invalidAssignmentTarget => "Invalid assignment target."
  | constructorAccess => "Can't call constructor directly on an instance."

end SyntaxFault

/-- A syntax fault and the token it is noticed at. -/
structure SyntaxError where
  token : Token
  fault : SyntaxFault
deriving DecidableEq

def SyntaxError.diagnostic (e : SyntaxError) : Diagnostic :=
  .atToken e.token e.fault.message

namespace Parser

/-- What a parser has before it: the token read last, the tokens still to read, the next identity for a
reference, and the errors noted so far. -/
structure State where
  last : Token
  rest : List Token
  nextRef : RefId
  errors : Array SyntaxError

namespace State

/-- The token to be read next; when there is none, the one read last. -/
def peek (s : State) : Token := s.rest.headD s.last

/-- Nothing is left to read: no token at all, or the end of the text comes next. -/
def atEnd (s : State) : Bool :=
  match s.rest with
  | [] => true
  | t :: _ => t.is .endOfText

/-- The next token is the symbol `k`. -/
def sees (s : State) (k : Symbol) : Bool :=
  match s.rest with
  | [] => false
  | t :: _ => t.is k

/-- Notes an error. -/
def note (s : State) (e : SyntaxError) : State := { s with errors := s.errors.push e }

/-- The symbols a statement may begin with after an error. -/
def startsStatement (t : Token) : Bool :=
  t.is .classKw || t.is .constKw || t.is .functionKw || t.is .letKw || t.is .forKw || t.is .ifKw
    || t.is .whileKw || t.is .returnKw

/-- Skips tokens up to the end, a semicolon just read or a token that starts a statement. -/
def skipFrom (last : Token) : List Token → Token × List Token
  | [] => (last, [])
  | t :: rest =>
    if t.is .endOfText || last.is .semicolon || startsStatement t then (last, t :: rest)
    else skipFrom t rest

/-- Skips the token at which an error was noticed, and then to the next statement. -/
def synchronize (s : State) : State :=
  match s.rest with
  | [] => s
  | t :: rest =>
    if t.is .endOfText then s
    else
      let (last, rest) := skipFrom t rest
      { s with last, rest }

end State

/-- How a parsing action ends. -/
inductive Result (α : Type) where
  | ok (value : α) (state : State)
  | fail (error : SyntaxError) (state : State)
  | exhausted

end Parser

/-- An action that parses an `α`. -/
def Parser (α : Type) := Parser.State → Parser.Result α

namespace Parser

@[always_inline, inline]
protected def pure {α : Type} (value : α) : Parser α := fun s => .ok value s

@[always_inline, inline]
protected def bind {α β : Type} (p : Parser α) (f : α → Parser β) : Parser β := fun s =>
  match p s with
  | .ok value s => f value s
  | .fail error s => .fail error s
  | .exhausted => .exhausted

instance : Monad Parser where
  pure := Parser.pure
  bind := Parser.bind

/-- The action that was granted no step. -/
def exhausted {α : Type} : Parser α := fun _ => .exhausted

/-- Fails at the next token. -/
def fail {α : Type} (fault : SyntaxFault) : Parser α := fun s => .fail ⟨s.peek, fault⟩ s

/-- Notes an error at a token and goes on. -/
def report (token : Token) (fault : SyntaxFault) : Parser Unit := fun s => .ok () (s.note ⟨token, fault⟩)

/-- Notes an error at the next token and goes on. -/
def reportHere (fault : SyntaxFault) : Parser Unit := fun s => .ok () (s.note ⟨s.peek, fault⟩)

/-- A fresh identity for a reference. -/
def freshRef : Parser RefId := fun s => .ok s.nextRef { s with nextRef := s.nextRef + 1 }

/-- Nothing is left to read. -/
def atEnd : Parser Bool := fun s => .ok s.atEnd s

/-- The next token is the symbol `k`. -/
def sees (k : Symbol) : Parser Bool := fun s => .ok (s.sees k) s

/-- Reads the next token if it satisfies `p`. -/
def acceptIf (p : Token → Bool) : Parser (Option Token) := fun s =>
  match s.rest with
  | [] => .ok none s
  | t :: rest => if p t then .ok (some t) { s with last := t, rest } else .ok none s

/-- Reads the next token if it is the symbol `k`. -/
def accept (k : Symbol) : Parser (Option Token) := acceptIf (·.is k)

/-- Reads the symbol `k`, or fails. -/
def expect (k : Symbol) (fault : SyntaxFault) : Parser Token := do
  match ← accept k with
  | some t => return t
  | none => fail fault

end Parser

end Scriptlet
