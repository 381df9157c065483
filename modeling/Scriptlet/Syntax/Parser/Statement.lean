import Scriptlet.Syntax.Parser.Expression

/-!
# Parsing programs

```text
program     → declaration* END
declaration → "class" IDENT ( "extends" IDENT )? ( "implements" IDENT )? "{" function* "}"
            | "function" function | letDecl | statement
function    → IDENT "(" ( IDENT ( "," IDENT )* )? ")" block
letDecl     → "let" IDENT ( "=" expression )? ";"
statement   → expression ";"
            | "for" "(" ( letDecl | expression ";" | ";" ) expression? ";" expression? ")" statement
            | "if" "(" expression ")" statement ( "else" statement )?
            | "return" expression? ";" | "while" "(" expression ")" statement | block
block       → "{" declaration* "}"
```

A declaration that cannot be parsed is reported and dropped, and parsing goes on where the next
statement may begin: inside a block with the next declaration of the block. `for` is read as the loop it
stands for (`forLoop`). `parse` grants enough steps for every list of tokens.
-/

namespace Scriptlet

namespace Parser

/-- `{ init; while (cond) { body; step; } }`, without the braces that are not needed; a missing
condition is `true`. -/
def forLoop (init : Option Stmt) (cond step : Option Expr) (body : Stmt) : Stmt :=
  let body :=
    match step with
    | some e => .block [body, .expr e]
    | none => body
  let loop := .loop (cond.getD (.literal (.bool true))) body
  match init with
  | some s => .block [s, loop]
  | none => loop

/-- An expression, unless the symbol `k` comes next. -/
def expressionUnless (n : Nat) (k : Symbol) : Parser (Option Expr) := do
  if ← sees k then return none else return some (← expression n)

/-- The rest of a variable declaration, after `let`. -/
def letDeclaration (n : Nat) : Parser Stmt := do
  let name ← expect .identifier .noVariableName
  let init ←
    match ← accept .equal with
    | some _ => some <$> expression n
    | none => pure none
  let _ ← expect .semicolon .unclosedDeclaration
  return .declare name init

/-- An expression and a semicolon. -/
def expressionStatement (n : Nat) : Parser Stmt := do
  let e ← expression n
  let _ ← expect .semicolon .unclosedExpression
  return .expr e

/-- The rest of a return statement, after its keyword. -/
def returnStatement (n : Nat) (keyword : Token) : Parser Stmt := do
  let value ← expressionUnless n .semicolon
  let _ ← expect .semicolon .unclosedReturn
  return .ret keyword value

/-- The first clause of a `for`, with its semicolon. -/
def forInit (n : Nat) : Parser (Option Stmt) := do
  match ← accept .semicolon with
  | some _ => return none
  | none =>
    match ← accept .letKw with
    | some _ => some <$> letDeclaration n
    | none => some <$> expressionStatement n

/-- One parameter or more, when `count` have been read. -/
def parameters : Nat → Nat → Parser (List Token)
  | 0, _ => exhausted
  | n + 1, count => do
    if maxArity ≤ count then reportHere .tooManyParameters
    let param ← expect .identifier .noParameterName
    match ← accept .comma with
    | some _ => return param :: (← parameters n (count + 1))
    | none => return [param]

/-- The name after the symbol `k`, if `k` comes next. -/
def nameAfter (k : Symbol) (fault : SyntaxFault) : Parser (Option Token) := do
  match ← accept k with
  | some _ => some <$> expect .identifier fault
  | none => return none

/-- The class named after `extends`, if there is one. -/
def superclass : Parser (Option Superclass) := do
  match ← nameAfter .extendsKw .noSuperclassName with
  | some name => return some ⟨← freshRef, name⟩
  | none => return none

/-- Runs a declaration; if it fails, its error is noted and the tokens up to the next statement are
skipped. -/
def recover (p : Parser Stmt) : Parser (Option Stmt) := fun s =>
  match p s with
  | .ok stmt s => .ok (some stmt) s
  | .fail error s => .ok none (s.note error).synchronize
  | .exhausted => .exhausted

mutual

/-- Declarations up to the end, inside a block also up to its closing brace. -/
def declarations : Nat → Bool → Parser (List Stmt)
  | 0, _ => exhausted
  | n + 1, inBlock => do
    if (← atEnd) || (inBlock && (← sees .rightBrace)) then return []
    else
      match ← recover (declaration n) with
      | some stmt => return stmt :: (← declarations n inBlock)
      | none => declarations n inBlock

def declaration : Nat → Parser Stmt
  | 0 => exhausted
  | n + 1 => do
    match ← accept .classKw with
    | some _ => classDeclaration n
    | none =>
      match ← accept .functionKw with
      | some _ => return .function (← function n .function)
      | none =>
        match ← accept .letKw with
        | some _ => letDeclaration n
        | none => statement n

/-- The rest of a class declaration, after its keyword. -/
def classDeclaration : Nat → Parser Stmt
  | 0 => exhausted
  | n + 1 => do
    let name ← expect .identifier .noClassName
    let superclass ← superclass
    let interface ← nameAfter .implementsKw .noInterfaceName
    let _ ← expect .leftBrace .noClassBody
    let methods ← methods n
    let _ ← expect .rightBrace .unclosedClassBody
    return .classDecl ⟨name, superclass, interface, methods⟩

/-- The methods of a class, up to its closing brace or the end. -/
def methods : Nat → Parser (List FunctionDecl)
  | 0 => exhausted
  | n + 1 => do
    if (← sees .rightBrace) || (← atEnd) then return []
    else
      let method ← function n .method
      return method :: (← methods n)

/-- Name, parameters and body of a function or method. -/
def function : Nat → FunctionForm → Parser FunctionDecl
  | 0, _ => exhausted
  | n + 1, form => do
    let name ← expect .identifier (.noFunctionName form)
    let _ ← expect .leftParen (.noParameters form)
    let params ← if ← sees .rightParen then pure [] else parameters n 0
    let _ ← expect .rightParen .unclosedParameters
    let _ ← expect .leftBrace (.noFunctionBody form)
    let body ← block n
    return ⟨name, params, body⟩

/-- The declarations of a block and its closing brace. -/
def block : Nat → Parser (List Stmt)
  | 0 => exhausted
  | n + 1 => do
    let body ← declarations n true
    let _ ← expect .rightBrace .unclosedBlock
    return body

def statement : Nat → Parser Stmt
  | 0 => exhausted
  | n + 1 => do
    match ← accept .forKw with
    | some _ => forStatement n
    | none =>
      match ← accept .ifKw with
      | some _ => ifStatement n
      | none =>
        match ← accept .returnKw with
        | some keyword => returnStatement n keyword
        | none =>
          match ← accept .whileKw with
          | some _ => whileStatement n
          | none =>
            match ← accept .leftBrace with
            | some _ => return .block (← block n)
            | none => expressionStatement n

/-- The rest of a `for`, after its keyword. -/
def forStatement : Nat → Parser Stmt
  | 0 => exhausted
  | n + 1 => do
    let _ ← expect .leftParen .noForClauses
    let init ← forInit n
    let cond ← expressionUnless n .semicolon
    let _ ← expect .semicolon .unclosedLoopCondition
    let step ← expressionUnless n .rightParen
    let _ ← expect .rightParen .unclosedForClauses
    let body ← statement n
    return forLoop init cond step body

/-- The rest of an `if`, after its keyword. An `else` belongs to the nearest `if`. -/
def ifStatement : Nat → Parser Stmt
  | 0 => exhausted
  | n + 1 => do
    let _ ← expect .leftParen .noIfCondition
    let cond ← expression n
    let _ ← expect .rightParen .unclosedIfCondition
    let thenDo ← statement n
    match ← accept .elseKw with
    | some _ => return .branch cond thenDo (some (← statement n))
    | none => return .branch cond thenDo none

/-- The rest of a `while`, after its keyword. -/
def whileStatement : Nat → Parser Stmt
  | 0 => exhausted
  | n + 1 => do
    let _ ← expect .leftParen .noWhileCondition
    let cond ← expression n
    let _ ← expect .rightParen .unclosedWhileCondition
    return .loop cond (← statement n)

end

/-- Enough steps to parse `tokens`: no rule goes through more than nineteen others without reading a
token. -/
def steps (tokens : List Token) : Nat := 20 * (tokens.length + 1)

end Parser

/-- A parsed program with the errors found in it and the next identity for a reference. -/
structure Parsed where
  program : List Stmt
  errors : Array SyntaxError
  nextRef : RefId

/-- Parses all tokens up to the end of the text or of the list. References get identities from
`nextRef` on. -/
def parse (tokens : List Token) (nextRef : RefId) : Parsed :=
  match tokens with
  | [] => ⟨[], #[], nextRef⟩
  | first :: _ =>
    match Parser.declarations (Parser.steps tokens) false ⟨first, tokens, nextRef, #[]⟩ with
    | .ok program s => ⟨program, s.errors, s.nextRef⟩
    | .fail _ s => ⟨[], s.errors, s.nextRef⟩
    | .exhausted => ⟨[], #[], nextRef⟩

end Scriptlet
