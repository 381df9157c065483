import Scriptlet.Value

/-!
# The store

Frames hold the variables of scopes while a program runs: bindings of names and a link to the enclosing
frame. Instances hold fields. Both are only ever added; a link leads to a frame that was there before,
so following links comes to an end.

* `Store.lookup`, `Store.assign?`: a name along the links from a frame.
* `Store.ancestor`: the frame a number of links away.
* `Store.getAt`, `Store.assignAt?`: a name in exactly that frame.
* `Store.text`: a value as scripts see it.
-/

namespace Scriptlet

/-- Values under names, each name once. -/
abbrev Bindings := List (String × Value)

namespace Bindings

def get? (bs : Bindings) (name : String) : Option Value := bs.lookup name

/-- Binds `name`, replacing what it was bound to. -/
def set (name : String) (value : Value) : Bindings → Bindings
  | [] => [(name, value)]
  | (n, v) :: rest =>
    if n = name then (n, value) :: rest else (n, v) :: set name value rest

/-- Binds names one after the other; what has no partner is left out. -/
def ofArguments (params : List Token) (args : List Value) : Bindings :=
  (params.zip args).foldl (fun bs (param, arg) => set param.lexeme arg bs) []

end Bindings

/-- The variables of a scope. -/
structure Frame where
  bindings : Bindings
  enclosing : Option FrameId

/-- An instance of a class. -/
structure Instance where
  cls : Class
  fields : Bindings

structure Store where
  frames : Array Frame
  instances : Array Instance

namespace Store

/-- The frame of the global names. -/
def global : FrameId := 0

/-! ## Frames -/

/-- Adds a frame. -/
def newFrame (bindings : Bindings) (enclosing : Option FrameId) : Store → FrameId × Store
  | ⟨frames, instances⟩ => (frames.size, ⟨frames.push ⟨bindings, enclosing⟩, instances⟩)

/-- What a name is bound to in one frame. -/
def get? (s : Store) (f : FrameId) (name : String) : Option Value :=
  (s.frames[f]?).bind (·.bindings.get? name)

/-- The frame that encloses `f`. -/
def enclosing? (s : Store) (f : FrameId) : Option FrameId := (s.frames[f]?).bind (·.enclosing)

/-- Binds a name in one frame. -/
def define (f : FrameId) (name : String) (value : Value) : Store → Store
  | ⟨frames, instances⟩ =>
    ⟨frames.modify f fun frame => { frame with bindings := frame.bindings.set name value },
      instances⟩

/-- The first frame that binds `name`, among `f` and the next `n` frames around it. -/
def ownerWithin (s : Store) (name : String) : Nat → FrameId → Option FrameId
  | 0, f => if (s.get? f name).isSome then some f else none
  | n + 1, f =>
    if (s.get? f name).isSome then some f
    else
      match s.enclosing? f with
      | some outer => s.ownerWithin name n outer
      | none => none

/-- The first frame that binds `name`, from `f` outwards. Links lead to earlier frames, so there are at
most `f` of them. -/
def owner? (s : Store) (f : FrameId) (name : String) : Option FrameId := s.ownerWithin name f f

/-- What a name is bound to, from `f` outwards. -/
def lookup (s : Store) (f : FrameId) (name : String) : Option Value :=
  (s.owner? f name).bind fun owner => s.get? owner name

/-- Changes the first binding of a name, from `f` outwards, if there is one. -/
def assign? (s : Store) (f : FrameId) (name : String) (value : Value) : Option Store :=
  (s.owner? f name).map fun owner => s.define owner name value

/-- The frame `distance` links outwards from `f`. -/
def ancestor (s : Store) : FrameId → Nat → Option FrameId
  | f, 0 => some f
  | f, distance + 1 =>
    match s.enclosing? f with
    | some outer => s.ancestor outer distance
    | none => none

/-- What a name is bound to in the frame `distance` links outwards. -/
def getAt (s : Store) (f : FrameId) (distance : Nat) (name : String) : Option Value :=
  (s.ancestor f distance).bind fun frame => s.get? frame name

/-- Binds a name in the frame `distance` links outwards, if there is one. -/
def assignAt? (s : Store) (f : FrameId) (distance : Nat) (name : String) (value : Value) :
    Option Store :=
  (s.ancestor f distance).map fun frame => s.define frame name value

/-! ## Instances -/

/-- Adds an instance without fields. -/
def newInstance (cls : Class) : Store → InstanceId × Store
  | ⟨frames, instances⟩ => (instances.size, ⟨frames, instances.push ⟨cls, []⟩⟩)

/-- The value of a field. -/
def field? (s : Store) (i : InstanceId) (name : String) : Option Value :=
  (s.instances[i]?).bind (·.fields.get? name)

/-- The class of an instance. -/
def class? (s : Store) (i : InstanceId) : Option Class := (s.instances[i]?).map (·.cls)

/-- Sets a field. -/
def setField (i : InstanceId) (name : String) (value : Value) : Store → Store
  | ⟨frames, instances⟩ =>
    ⟨frames,
      instances.modify i fun object => { object with fields := object.fields.set name value }⟩

/-! ## Text -/

/-- A value as scripts see it. -/
def text (s : Store) : Value → String
  | .null => "null"
  | .bool b => if b then "true" else "false"
  | .number x => x.text
  | .string t => t
  | .function f => "<fn " ++ f.name ++ ">"
  | .native _ => "<native fn>"
  | .cls c => c.name
  | .object i => ((s.class? i).map (·.name)).getD "" ++ " instance"
  | .library l => "<native module " ++ l.name ++ ">"

/-- The global frame with the built-in modules, and nothing else. -/
def initial : Store where
  frames := #[⟨[(Library.console.name, .library .console), (Library.date.name, .library .date)],
    none⟩]
  instances := #[]

end Store

end Scriptlet
