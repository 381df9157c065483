import Scriptlet.Value
import Scriptlet.Diagnostic

/-!
# Run-time faults and operators

A fault ends a run. It has a cause and a site, the token that a report points at. The operators of the
language either yield a value or a fault at their own token.
-/

namespace Scriptlet

/-- Why a run ends. -/
inductive Cause where
  | undefinedVariable (name : String)
  | undefinedProperty (name : String)
  | operandNotNumber
  | operandsNotNumbers
  | operandsNotAddable
  | invalidUnaryOperator
  | invalidBinaryOperator
  | notCallable
  | wrongArity (expected got : Nat)
  | noProperties
  | noFields
  | superOutsideClass
  | superclassNotClass
  | outputFailed (reason : String)
deriving DecidableEq

namespace Cause

def message : Cause → String
  | undefinedVariable name => "Undefined variable '" ++ name ++ "'."
  | undefinedProperty name => "Undefined property '" ++ name ++ "'."
  | operandNotNumber => "Operand must be a number."
  | operandsNotNumbers => "Operands must be numbers."
  | operandsNotAddable => "Operands must be two numbers or two strings."
  | invalidUnaryOperator => "Invalid unary operator."
  | invalidBinaryOperator => "Invalid binary operator."
  | notCallable => "Can only call functions and classes."
  | wrongArity expected got =>
    "Expected " ++ toString expected ++ " arguments but got " ++ toString got ++ "."
  | noProperties => "Only instances have properties."
  | noFields => "Only instances have fields."
  | superOutsideClass => "Can't use 'super' outside of a class."
  | superclassNotClass => "Superclass must be a class."
  | outputFailed reason => "Could not write output: " ++ reason

end Cause

/-- A cause and the token it is reported at. -/
structure Fault where
  site : Token
  cause : Cause
deriving DecidableEq

namespace Fault

def diagnostic (f : Fault) : Diagnostic := .atText f.site.line f.site.lexeme f.cause.message

/-- The name of `token` is bound nowhere. -/
def undefinedVariable (token : Token) : Fault := ⟨token, .undefinedVariable token.lexeme⟩

/-- The property named by `token` exists nowhere. -/
def undefinedProperty (token : Token) : Fault := ⟨token, .undefinedProperty token.lexeme⟩

end Fault

namespace Value

/-- A unary operator applied to its operand. -/
def unary (op : Token) (operand : Value) : Except Fault Value :=
  match op.kind with
  | .symbol .minus =>
    match operand with
    | .number x => .ok (.number x.neg)
    | _ => .error ⟨op, .operandNotNumber⟩
  | .symbol .bang => .ok (.bool !operand.truthy)
  | _ => .error ⟨op, .invalidUnaryOperator⟩

/-- Both operands must be numbers. -/
def arithmetic (op : Token) (left right : Value) (f : Number → Number → Value) :
    Except Fault Value :=
  match left, right with
  | .number x, .number y => .ok (f x y)
  | _, _ => .error ⟨op, .operandsNotNumbers⟩

/-- A sum, or a concatenation if one operand is a string. -/
def plus (op : Token) (left right : Value) : Except Fault Value :=
  match left, right with
  | .number x, .number y => .ok (.number (x.add y))
  | .string s, .string t => .ok (.string (s ++ t))
  | .number x, .string t => .ok (.string (x.text ++ t))
  | .string s, .number y => .ok (.string (s ++ y.text))
  | _, _ => .error ⟨op, .operandsNotAddable⟩

/-- A binary operator applied to its operands. Differences are rounded to hundredths. Only `>` insists
on numbers; the other comparisons are false of anything else. -/
def binary (op : Token) (left right : Value) : Except Fault Value :=
  match op.kind with
  | .symbol .plus => plus op left right
  | .symbol .minus => arithmetic op left right fun x y => .number (x.sub y).roundToHundredths
  | .symbol .star => arithmetic op left right fun x y => .number (x.mul y)
  | .symbol .slash => arithmetic op left right fun x y => .number (x.div y)
  | .symbol .greater => arithmetic op left right fun x y => .bool (y.less x)
  | .symbol .greaterEqual => .ok (.bool (right.toNumber.lessEqual left.toNumber))
  | .symbol .less => .ok (.bool (left.toNumber.less right.toNumber))
  | .symbol .lessEqual => .ok (.bool (left.toNumber.lessEqual right.toNumber))
  | .symbol .equalEqual => .ok (.bool (left.equal right))
  | .symbol .bangEqual => .ok (.bool !left.equal right)
  | _ => .error ⟨op, .invalidBinaryOperator⟩

end Value

end Scriptlet
