import Scriptlet.Syntax.Basic

/-!
# Values

What a script computes with. Functions and classes are never changed once they are made; each has an
`id` of its own that tells it from all others. Instances have fields that change, so a value only refers
to one.

* `Value.truthy`: what counts as true.
* `Value.equal`: `==` of the language.
* `Class.findMethod`: the method a class gives its instances.
* `Value.arity?`: how many arguments a value takes, if it can be called.
-/

namespace Scriptlet

/-- The position of a frame in the store. -/
abbrev FrameId := Nat

/-- The position of an instance in the store. -/
abbrev InstanceId := Nat

/-- The built-in functions. -/
inductive Native where
  | log
  | now
deriving DecidableEq

/-- The built-in modules of functions. -/
inductive Library where
  | console
  | date
deriving DecidableEq

namespace Library

def name : Library → String
  | console => "console"
  | date => "Date"

/-- The function a module has under a name. -/
def function? : Library → String → Option Native
  | console, "log" => some .log
  | date, "now" => some .now
  | _, _ => none

end Library

/-- A function or method: its declaration and the frame it was made in. -/
structure Function where
  id : Nat
  decl : FunctionDecl
  frame : FrameId

namespace Function

def name (f : Function) : String := f.decl.name.lexeme

def arity (f : Function) : Nat := f.decl.params.length

end Function

/-- A class: its own methods, latest first, and its superclass. -/
structure Class where
  id : Nat
  name : String
  superclass : Option Class
  methods : List Function

namespace Class

/-- The method of a name: the latest of the class's own, or else what the superclass has. -/
def findMethod (name : String) : Class → Option Function
  | ⟨_, _, none, methods⟩ => methods.find? (·.name == name)
  | ⟨_, _, some parent, methods⟩ =>
    match methods.find? (·.name == name) with
    | some method => some method
    | none => parent.findMethod name
termination_by structural c => c

/-- The arguments of a class are those of its constructor. -/
def arity (c : Class) : Nat := ((c.findMethod constructorName).map Function.arity).getD 0

end Class

inductive Value where
  | null
  | bool (b : Bool)
  | number (x : Number)
  | string (s : String)
  | function (f : Function)
  | native (f : Native)
  | cls (c : Class)
  | object (ref : InstanceId)
  | library (m : Library)

instance : Inhabited Value := ⟨.null⟩

def Literal.toValue : Literal → Value
  | number x => .number x
  | string s => .string s
  | bool b => .bool b
  | null => .null

def Native.arity : Native → Nat
  | log => 1
  | now => 0

namespace Value

/-- What counts as true: neither `null`, `false`, the empty string, nor a number that is not above
zero. -/
def truthy : Value → Bool
  | null => false
  | bool b => b
  | string s => s ≠ ""
  | number x => x.isPositive
  | _ => true

/-- Equality of the language: by value, or by identity where there is one. -/
def equal : Value → Value → Bool
  | null, null => true
  | bool a, bool b => a = b
  | number a, number b => a.equal b
  | string a, string b => a = b
  | function f, function g => f.id = g.id
  | native f, native g => f = g
  | cls c, cls d => c.id = d.id
  | object i, object j => i = j
  | library m, library n => m = n
  | _, _ => false

/-- The number of arguments a value takes, if it can be called. -/
def arity? : Value → Option Nat
  | function f => some f.arity
  | native f => some f.arity
  | cls c => some c.arity
  | _ => none

/-- The number a comparison sees: anything else than a number is a NaN to it. -/
def toNumber : Value → Number
  | number x => x
  | _ => .nan

end Value

end Scriptlet
