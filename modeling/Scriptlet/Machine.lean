import Std.Data.TreeMap
import Scriptlet.Store
import Scriptlet.Fault
import Scriptlet.Scope

/-!
# The machine

What a running program works on: the store, the current frame, the lines written so far. An `Exec` is a
computation on it; it yields a value, ends with a fault, or runs out of the steps it was granted. A
fault leaves behind the machine as it was at that moment.

How a reference finds its binding is a parameter of every computation (`Scoping`): by the distances
noted for the program, a reference without one being global, or by name along the frames from the
current one.
-/

namespace Scriptlet

/-- Scope distances of references. -/
abbrev Distances := Std.TreeMap RefId Nat

namespace Distances

/-- Notes the distances of bindings; global ones have none. -/
def addBindings (ds : Distances) (bindings : List Binding) : Distances :=
  bindings.foldl (fun ds b => match b.distance with
    | some d => ds.insert b.ref d
    | none => ds) ds

end Distances

/-- How a reference finds its binding. -/
inductive Scoping where
  | byDistance (distances : Distances)
  | byName

structure Machine where
  store : Store
  /-- The innermost frame. -/
  current : FrameId
  /-- The next identity of a function or class. -/
  nextId : Nat
  /-- The lines written so far. -/
  output : Array String
  /-- How many lines can be written at all. -/
  capacity : Option Nat
  /-- The time the clock shows, in seconds. -/
  clock : Number

/-- A machine that has not run yet. -/
def Machine.initial (clock : Number) (capacity : Option Nat) : Machine :=
  ⟨.initial, Store.global, 0, #[], capacity, clock⟩

/-- The machine with its store changed. -/
@[inline]
def Machine.mapStore (f : Store → Store) : Machine → Machine
  | ⟨store, current, nextId, output, capacity, clock⟩ =>
    ⟨f store, current, nextId, output, capacity, clock⟩

/-- How a computation ends. -/
inductive Result (α : Type) where
  | ok (value : α) (machine : Machine)
  | fault (fault : Fault) (machine : Machine)
  | exhausted

/-- A computation on the machine. -/
def Exec (α : Type) := Machine → Result α

namespace Exec

@[always_inline, inline]
protected def pure {α : Type} (value : α) : Exec α := fun m => .ok value m

@[always_inline, inline]
protected def bind {α β : Type} (x : Exec α) (f : α → Exec β) : Exec β := fun m =>
  match x m with
  | .ok value m => f value m
  | .fault fault m => .fault fault m
  | .exhausted => .exhausted

instance : Monad Exec where
  pure := Exec.pure
  bind := Exec.bind

/-- The computation that was granted no step. -/
def exhausted {α : Type} : Exec α := fun _ => .exhausted

/-- Ends the run. -/
def raise {α : Type} (site : Token) (cause : Cause) : Exec α := fun m => .fault ⟨site, cause⟩ m

/-- The value of an operator, or its fault. -/
def ofOperator {α : Type} (x : Except Fault α) : Exec α := fun m =>
  match x with
  | .ok value => .ok value m
  | .error fault => .fault fault m

/-- A value if there is one, and else the fault. -/
def ofOption {α : Type} (x : Option α) (fault : Fault) : Exec α := fun m =>
  match x with
  | some value => .ok value m
  | none => .fault fault m

/-! ## Frames -/

def currentFrame : Exec FrameId := fun m => .ok m.current m

/-- A new frame inside another one. -/
def newFrame (bindings : Bindings) (enclosing : FrameId) : Exec FrameId
  | ⟨store, current, nextId, output, capacity, clock⟩ =>
    let (frame, store) := store.newFrame bindings (some enclosing)
    .ok frame ⟨store, current, nextId, output, capacity, clock⟩

/-- Makes another frame the current one. -/
def setFrame (frame : FrameId) : Exec Unit := fun m => .ok () { m with current := frame }

/-- Runs a computation in another frame and returns to the current one, also after a fault. -/
@[specialize]
def inFrame {α : Type} (frame : FrameId) (x : Exec α) : Exec α := fun m =>
  let outer := m.current
  match x { m with current := frame } with
  | .ok value m => .ok value { m with current := outer }
  | .fault fault m => .fault fault { m with current := outer }
  | .exhausted => .exhausted

/-- Binds a name in the current frame. -/
def define (name : String) (value : Value) : Exec Unit := fun m =>
  let frame := m.current
  .ok () (m.mapStore (·.define frame name value))

/-- Binds a name in a frame, if there is one. -/
def assignIn (frame : Option FrameId) (name : Token) (value : Value) : Exec Unit := fun m =>
  match frame with
  | some frame => .ok () (m.mapStore (·.define frame name.lexeme value))
  | none => .fault (.undefinedVariable name) m

/-- Changes the binding of a name, from the frame `f` outwards. -/
def assignFrom (f : FrameId) (name : Token) (value : Value) : Exec Unit := fun m =>
  assignIn (m.store.owner? f name.lexeme) name value m

/-! ## References -/

/-- What a reference is bound to. -/
def readRef (σ : Scoping) (ref : RefId) (name : Token) : Exec Value := fun m =>
  let found :=
    match σ with
    | .byName => m.store.lookup m.current name.lexeme
    | .byDistance distances =>
      match distances[ref]? with
      | some d => m.store.getAt m.current d name.lexeme
      | none => m.store.lookup Store.global name.lexeme
  ofOption found (.undefinedVariable name) m

/-- Changes what a reference is bound to. -/
def writeRef (σ : Scoping) (ref : RefId) (name : Token) (value : Value) : Exec Unit := fun m =>
  match σ with
  | .byName => assignFrom m.current name value m
  | .byDistance distances =>
    match distances[ref]? with
    | some d => assignIn (m.store.ancestor m.current d) name value m
    | none => assignFrom Store.global name value m

/-- The token of the receiver that a `super` refers to. -/
def thisToken (keyword : Token) : Token := ⟨.symbol .thisKw, "this", keyword.line⟩

/-- What `super` is bound to. -/
def readSuper (σ : Scoping) (ref : RefId) (keyword : Token) : Exec Value := fun m =>
  match σ with
  | .byName => ofOption (m.store.lookup m.current keyword.lexeme) (.undefinedVariable keyword) m
  | .byDistance distances =>
    match distances[ref]? with
    | some d => ofOption (m.store.getAt m.current d keyword.lexeme) (.undefinedVariable keyword) m
    | none => .fault ⟨keyword, .superOutsideClass⟩ m

/-- What the receiver of a `super` is bound to, in the frame just inside the one that binds `super`. -/
def readReceiver (σ : Scoping) (ref : RefId) (keyword : Token) : Exec Value := fun m =>
  let this := thisToken keyword
  match σ with
  | .byName => ofOption (m.store.lookup m.current this.lexeme) (.undefinedVariable this) m
  | .byDistance distances =>
    match distances[ref]? with
    | some d => ofOption (m.store.getAt m.current (d - 1) this.lexeme) (.undefinedVariable this) m
    | none => .fault ⟨keyword, .superOutsideClass⟩ m

/-! ## Functions, classes and instances -/

/-- A fresh identity. -/
def freshId : Exec Nat := fun m => .ok m.nextId { m with nextId := m.nextId + 1 }

/-- A new function made in `frame`. -/
def newFunction (decl : FunctionDecl) (frame : FrameId) : Exec Function := do
  return ⟨← freshId, decl, frame⟩

/-- New functions made in `frame`, the last one first. -/
def newMethods (frame : FrameId) : List FunctionDecl → List Function → Exec (List Function)
  | [], made => pure made
  | decl :: decls, made => do newMethods frame decls ((← newFunction decl frame) :: made)

/-- A method with its receiver: a new function, made in a new frame that binds `this`. -/
def bindMethod (method : Function) (receiver : InstanceId) : Exec Function := do
  newFunction method.decl (← newFrame [("this", .object receiver)] method.frame)

def newInstance (cls : Class) : Exec InstanceId
  | ⟨store, current, nextId, output, capacity, clock⟩ =>
    let (ref, store) := store.newInstance cls
    .ok ref ⟨store, current, nextId, output, capacity, clock⟩

def setField (i : InstanceId) (name : String) (value : Value) : Exec Unit := fun m =>
  .ok () (m.mapStore (·.setField i name value))

/-- A property of an instance: a field, or else a method of its class. -/
def instanceProperty (i : InstanceId) (name : Token) : Exec Value := fun m =>
  match m.store.field? i name.lexeme with
  | some value => .ok value m
  | none =>
    match (m.store.class? i).bind (Class.findMethod name.lexeme) with
    | some method => (Value.function <$> bindMethod method i) m
    | none => .fault (.undefinedProperty name) m

/-- A property of a value: instances and built-in modules have some. -/
def property (value : Value) (name : Token) : Exec Value :=
  match value with
  | .object i => instanceProperty i name
  | .library l => ofOption ((l.function? name.lexeme).map .native) (.undefinedProperty name)
  | _ => raise name .noProperties

/-- The method of the superclass that `super.method` names, with the receiver. -/
def superMethod (σ : Scoping) (ref : RefId) (keyword method : Token) : Exec Value := do
  match ← readSuper σ ref keyword with
  | .cls parent =>
    match ← readReceiver σ ref keyword with
    | .object receiver =>
      match parent.findMethod method.lexeme with
      | some found => Value.function <$> bindMethod found receiver
      | none => raise method (.undefinedProperty method.lexeme)
    | _ => raise keyword .noProperties
  | _ => raise keyword .superclassNotClass

/-! ## Built-in functions -/

/-- Writes a line, or fails at `site` when no more can be written. -/
def writeLine (line : String) (site : Token) : Exec Unit := fun m =>
  match m.capacity with
  | some n =>
    if n ≤ m.output.size then .fault ⟨site, .outputFailed "disk full"⟩ m
    else .ok () { m with output := m.output.push line }
  | none => .ok () { m with output := m.output.push line }

/-- Calls a built-in function. -/
def callNative (f : Native) (args : List Value) (site : Token) : Exec Value := fun m =>
  match f with
  | .log =>
    let line := (args.head?.map m.store.text).getD ""
    Exec.bind (writeLine line site) (fun _ => Exec.pure .null) m
  | .now => .ok (.number m.clock) m

end Exec

end Scriptlet
