import Scriptlet.Syntax.Parser.State

/-!
# Parsing expressions

```text
expression → ( call "." )? IDENT "=" expression | or
or         → and ( "||" and )*
and        → equality ( "&&" equality )*
equality   → comparison ( ( "!=" | "==" ) comparison )*
comparison → term ( ( ">" | ">=" | "<" | "<=" ) term )*
term       → factor ( ( "-" | "+" ) factor )*
factor     → unary ( ( "/" | "*" ) unary )*
unary      → ( "!" | "-" ) unary | call
call       → primary ( "(" arguments? ")" | "." IDENT )*
arguments  → expression ( "," expression )*
primary    → NUMBER | STRING | "true" | "false" | "null" | "undefined" | "this"
           | "super" "." IDENT | IDENT | "(" expression ")" | "new" call
```

The six levels of binary operators differ only in their operators, so one rule serves them all
(`level`, `more`). The left side of an assignment is parsed as an expression first and then has to turn
out to be a variable or a property. Each rule takes the number of steps it is granted; every rule it
uses is granted one less.
-/

namespace Scriptlet

/-- How tightly a binary operator binds, loosest first. -/
inductive Level where
  | or | and | equality | comparison | term | factor
deriving DecidableEq

namespace Level

/-- The operators of a level. -/
def operators : Level → List Symbol
  | or => [.pipePipe]
  | and => [.ampersandAmpersand]
  | equality => [.bangEqual, .equalEqual]
  | comparison => [.greater, .greaterEqual, .less, .lessEqual]
  | term => [.minus, .plus]
  | factor => [.slash, .star]

/-- The next tighter level; the operands of the tightest are unary. -/
def tighter : Level → Option Level
  | or => some and
  | and => some equality
  | equality => some comparison
  | comparison => some term
  | term => some factor
  | factor => none

/-- Two operands joined by an operator of the level. -/
def join (level : Level) (left : Expr) (op : Token) (right : Expr) : Expr :=
  match level with
  | or | and => .logical left op right
  | _ => .binary left op right

end Level

namespace Parser

/-- The largest number of parameters and arguments. -/
def maxArity : Nat := 255

/-- The literal that was read last: where no token is left it stands for the next one. -/
def lastLiteral : Parser Expr := fun s =>
  match s.last.kind with
  | .number value => .ok (.literal (.number value)) s
  | .string value => .ok (.literal (.string value)) s
  | _ => fail .noExpression s

/-- The rest of `super.method`, after its keyword. -/
def superAccess (keyword : Token) : Parser Expr := do
  let _ ← expect .dot .noSuperDot
  let method ← expect .identifier .noSuperMethod
  return .super (← freshRef) keyword method

mutual

/-- An expression: an assignment or something that binds more tightly. What is assigned to something
else than a variable or a property is read, reported and dropped. -/
def expression : Nat → Parser Expr
  | 0 => exhausted
  | n + 1 => do
    let target ← level n .or
    match ← accept .equal with
    | none => return target
    | some equals =>
      let value ← expression n
      match target with
      | .var _ name => return .assign (← freshRef) name value
      | .get object name => return .set object name value
      | other =>
        report equals .invalidAssignmentTarget
        return other

/-- Operands of one level, joined from the left. -/
def level : Nat → Level → Parser Expr
  | 0, _ => exhausted
  | n + 1, l => do
    let left ← operand n l
    more n l left

/-- An operand of a level. -/
def operand : Nat → Level → Parser Expr
  | 0, _ => exhausted
  | n + 1, l =>
    match l.tighter with
    | some l' => level n l'
    | none => unary n

/-- Further operands of a level, after `left`. -/
def more : Nat → Level → Expr → Parser Expr
  | 0, _, _ => exhausted
  | n + 1, l, left => do
    match ← acceptIf (fun t => l.operators.any t.is) with
    | none => return left
    | some op =>
      let right ← operand n l
      more n l (l.join left op right)

/-- Any number of unary operators and a call. -/
def unary : Nat → Parser Expr
  | 0 => exhausted
  | n + 1 => do
    match ← acceptIf (fun t => t.is .bang || t.is .minus) with
    | some op => return .unary op (← unary n)
    | none => call n

/-- A primary expression with its calls and property accesses. -/
def call : Nat → Parser Expr
  | 0 => exhausted
  | n + 1 => do
    let callee ← primary n
    suffixes n callee

/-- The calls and property accesses after `e`. -/
def suffixes : Nat → Expr → Parser Expr
  | 0, _ => exhausted
  | n + 1, e => do
    match ← accept .leftParen with
    | some _ =>
      let args ← if ← sees .rightParen then pure [] else arguments n 0
      let paren ← expect .rightParen .unclosedArguments
      suffixes n (.call e paren args)
    | none =>
      match ← accept .dot with
      | some _ =>
        let name ← expect .identifier .noPropertyName
        if name.lexeme == constructorName then report name .constructorAccess
        suffixes n (.get e name)
      | none => return e

/-- One argument or more, when `count` have been read. -/
def arguments : Nat → Nat → Parser (List Expr)
  | 0, _ => exhausted
  | n + 1, count => do
    if maxArity ≤ count then reportHere .tooManyArguments
    let arg ← expression n
    match ← accept .comma with
    | some _ => return arg :: (← arguments n (count + 1))
    | none => return [arg]

/-- A literal, a name, `this`, `super.method`, an expression in parentheses, or `new` and a call. -/
def primary : Nat → Parser Expr
  | 0 => exhausted
  | n + 1 => fun s =>
    match s.rest with
    | [] => lastLiteral s
    | t :: rest =>
      let after := { s with last := t, rest }
      match t.kind with
      | .number value => Parser.pure (.literal (.number value)) after
      | .string value => Parser.pure (.literal (.string value)) after
      | .symbol .falseKw => Parser.pure (.literal (.bool false)) after
      | .symbol .trueKw => Parser.pure (.literal (.bool true)) after
      | .symbol .nullKw => Parser.pure (.literal .null) after
      | .symbol .undefinedKw => Parser.pure (.literal .null) after
      | .symbol .superKw => superAccess t after
      | .symbol .thisKw => Parser.bind freshRef (fun ref => Parser.pure (.this ref t)) after
      | .symbol .identifier => Parser.bind freshRef (fun ref => Parser.pure (.var ref t)) after
      | .symbol .leftParen =>
        Parser.bind (expression n) (fun inner =>
          Parser.bind (expect .rightParen .unclosedGroup) fun _ => Parser.pure (.group inner)) after
      | .symbol .newKw => call n after
      | _ => fail .noExpression s

end

end Parser

end Scriptlet
