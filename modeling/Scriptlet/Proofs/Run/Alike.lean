import Scriptlet.Proofs.Run.Method
import Scriptlet.Proofs.Syntax.Like

/-!
# Values of two runs

When two runs are compared, numbers, texts and instances have to be the same, and only functions may
differ: in the trees they carry or the frames they were made in. `Value.Alike F M` says it, given which
functions answer each other (`F`) and which methods of classes do, before they have a receiver (`M`).
Whatever these relations are, as long as they respect what scripts can see of a function (`Faithful`),
values that are alike behave alike: they are equally true, equal to the same values, take the same
number of arguments and give the same results under all operators.

Results:
* `Value.Alike.truthy`, `Value.Alike.equal`, `Class.Alike.findMethod`: values that are alike behave alike.
* `unary_like`, `binary_like`: operators yield values that are alike, or faults that are.
* `Store.Instances`: instances that are alike, with one lemma for each change of the store.
-/

namespace Scriptlet

open List (Forall₂)

theorem isSome_of_rel {α β : Type} {R : α → β → Prop} {o : Option α} {o' : Option β}
    (h : Option.Rel R o o') : o.isSome = o'.isSome := by
  cases h <;> rfl

/-! ## Functions and classes -/

/-- What scripts can see of a function. -/
structure Function.Same (f f' : Function) : Prop where
  id : f.id = f'.id
  name : f.name = f'.name
  arity : f.arity = f'.arity

/-- Functions that answer each other cannot be told apart. -/
class Faithful (F : Function → Function → Prop) : Prop where
  same {f f' : Function} : F f f' → f.Same f'

inductive Class.Alike (M : Function → Function → Prop) : Class → Class → Prop
  | base {id name methods methods'} (hmethods : Forall₂ M methods methods') :
    Class.Alike M ⟨id, name, none, methods⟩ ⟨id, name, none, methods'⟩
  | derived {id name parent parent' methods methods'} (hparent : Class.Alike M parent parent')
      (hmethods : Forall₂ M methods methods') :
    Class.Alike M ⟨id, name, some parent, methods⟩ ⟨id, name, some parent', methods'⟩

/-- **Values that are the same but for the functions in them**, which answer each other. -/
inductive Value.Alike (F M : Function → Function → Prop) : Value → Value → Prop
  | null : Alike F M .null .null
  | bool (b : Bool) : Alike F M (.bool b) (.bool b)
  | number (x : Number) : Alike F M (.number x) (.number x)
  | string (s : String) : Alike F M (.string s) (.string s)
  | function {f f'} (hf : F f f') : Alike F M (.function f) (.function f')
  | native (f : Native) : Alike F M (.native f) (.native f)
  | cls {c c'} (hc : c.Alike M c') : Alike F M (.cls c) (.cls c')
  | object (i : InstanceId) : Alike F M (.object i) (.object i)
  | library (l : Library) : Alike F M (.library l) (.library l)

/-- Statements that end the same way. -/
inductive Flow.Alike (V : Value → Value → Prop) : Flow → Flow → Prop
  | normal : Alike V .normal .normal
  | returned {v v'} (hv : V v v') : Alike V (.returned v) (.returned v')

/-- The same cause, at sites that are alike. -/
structure Fault.Like (line : Nat → Nat → Prop) (f f' : Fault) : Prop where
  site : f.site.Like line f'.site
  cause : f.cause = f'.cause

theorem Fault.Like.eq {f f' : Fault} (h : f.Like Eq f') : f = f' := by
  obtain ⟨site, cause⟩ := f
  obtain ⟨hsite, hcause⟩ := h
  cases hsite.eq
  cases hcause
  rfl

theorem Literal.alike_toValue (F M : Function → Function → Prop) (l : Literal) :
    l.toValue.Alike F M l.toValue := by
  cases l with
  | number x => exact .number x
  | string s => exact .string s
  | bool b => exact .bool b
  | null => exact .null

section
variable {F F' M M' : Function → Function → Prop}

theorem Class.Alike.mono (hM : ∀ f f', M f f' → M' f f') {c c' : Class} (h : c.Alike M c') :
    c.Alike M' c' := by
  induction h with
  | base hmethods => exact .base (hmethods.imp hM)
  | derived _ hmethods ih => exact .derived ih (hmethods.imp hM)

theorem Value.Alike.mono (hF : ∀ f f', F f f' → F' f f') (hM : ∀ f f', M f f' → M' f f')
    {v v' : Value} (h : v.Alike F M v') : v.Alike F' M' v' := by
  cases h with
  | null => exact .null
  | bool b => exact .bool b
  | number x => exact .number x
  | string s => exact .string s
  | function hf => exact .function (hF _ _ hf)
  | native f => exact .native f
  | cls hc => exact .cls (hc.mono hM)
  | object i => exact .object i
  | library l => exact .library l

namespace Class.Alike

variable {c c' : Class}

theorem id (h : c.Alike M c') : c.id = c'.id := by
  cases h <;> rfl

theorem name (h : c.Alike M c') : c.name = c'.name := by
  cases h <;> rfl

/-- The latest method of a name among methods that answer each other. -/
theorem find [Faithful M] {ms ms' : List Function} (h : Forall₂ M ms ms') (x : String) :
    Option.Rel M (ms.find? (·.name == x)) (ms'.find? (·.name == x)) := by
  induction h with
  | nil => exact .none
  | @cons f f' ms ms' hf _ ih =>
    rw [List.find?_cons, List.find?_cons, (Faithful.same hf).name]
    cases f'.name == x with
    | true => exact .some hf
    | false => exact ih

theorem findMethod [Faithful M] (h : c.Alike M c') (x : String) :
    Option.Rel M (c.findMethod x) (c'.findMethod x) := by
  induction h with
  | base hmethods => exact find hmethods x
  | @derived id name parent parent' methods methods' hparent hmethods ih =>
    simp only [Class.findMethod]
    have hfound := find hmethods x
    generalize methods.find? (·.name == x) = o at hfound ⊢
    generalize methods'.find? (·.name == x) = o' at hfound ⊢
    cases hfound with
    | none => exact ih
    | some hf => exact .some hf

theorem arity [Faithful M] (h : c.Alike M c') : c.arity = c'.arity := by
  unfold Class.arity
  have hfound := h.findMethod constructorName
  generalize c.findMethod constructorName = o at hfound ⊢
  generalize c'.findMethod constructorName = o' at hfound ⊢
  cases hfound with
  | none => rfl
  | some hf => exact (Faithful.same hf).arity

end Class.Alike

/-! ## Operators -/

namespace Value.Alike

variable {v v' w w' : Value}

theorem truthy (h : v.Alike F M v') : v.truthy = v'.truthy := by
  cases h <;> rfl

theorem toNumber (h : v.Alike F M v') : v.toNumber = v'.toNumber := by
  cases h <;> rfl

theorem arity? [Faithful F] [Faithful M] (h : v.Alike F M v') : v.arity? = v'.arity? := by
  cases h with
  | function hf => exact congrArg some (Faithful.same hf).arity
  | cls hc => exact congrArg some hc.arity
  | _ => rfl

theorem equal [Faithful F] (hv : v.Alike F M v') (hw : w.Alike F M w') : v.equal w = v'.equal w' := by
  cases hv with
  | function hf =>
    cases hw with
    | function hg => simp only [Value.equal, (Faithful.same hf).id, (Faithful.same hg).id]
    | _ => rfl
  | cls hc =>
    cases hw with
    | cls hd => simp only [Value.equal, hc.id, hd.id]
    | _ => rfl
  | _ => cases hw <;> rfl

end Value.Alike

/-- Operators yield values that are alike, or the same fault at operators that are alike. -/
inductive OperatorLike (F M : Function → Function → Prop) (line : Nat → Nat → Prop) :
    Except Fault Value → Except Fault Value → Prop
  | ok {v v'} (hv : v.Alike F M v') : OperatorLike F M line (.ok v) (.ok v')
  | error {f f'} (hf : f.Like line f') : OperatorLike F M line (.error f) (.error f')

section
variable {line : Nat → Nat → Prop} {v v' w w' : Value} {op op' : Token}

theorem unary_like (hop : op.Like line op') (hv : v.Alike F M v') :
    OperatorLike F M line (v.unary op) (v'.unary op') := by
  unfold Value.unary
  rw [hop.kind, hv.truthy]
  split
  · cases hv with
    | number x => exact .ok (.number _)
    | _ => exact .error ⟨hop, rfl⟩
  · exact .ok (.bool _)
  · exact .error ⟨hop, rfl⟩

theorem arithmetic_like (hop : op.Like line op') (hv : v.Alike F M v') (hw : w.Alike F M w')
    {f : Number → Number → Value} (hf : ∀ x y, (f x y).Alike F M (f x y)) :
    OperatorLike F M line (Value.arithmetic op v w f) (Value.arithmetic op' v' w' f) := by
  cases hv with
  | number x =>
    cases hw with
    | number y => exact .ok (hf x y)
    | _ => exact .error ⟨hop, rfl⟩
  | _ => cases hw <;> exact .error ⟨hop, rfl⟩

theorem plus_like (hop : op.Like line op') (hv : v.Alike F M v') (hw : w.Alike F M w') :
    OperatorLike F M line (Value.plus op v w) (Value.plus op' v' w') := by
  cases hv with
  | number x =>
    cases hw with
    | number y => exact .ok (.number _)
    | string t => exact .ok (.string _)
    | _ => exact .error ⟨hop, rfl⟩
  | string s =>
    cases hw with
    | number y => exact .ok (.string _)
    | string t => exact .ok (.string _)
    | _ => exact .error ⟨hop, rfl⟩
  | _ => cases hw <;> exact .error ⟨hop, rfl⟩

theorem binary_like [Faithful F] (hop : op.Like line op') (hv : v.Alike F M v')
    (hw : w.Alike F M w') :
    OperatorLike F M line (Value.binary op v w) (Value.binary op' v' w') := by
  unfold Value.binary
  rw [hop.kind, hv.toNumber, hw.toNumber, hv.equal hw]
  split
  · exact plus_like hop hv hw
  · exact arithmetic_like hop hv hw fun _ _ => .number _
  · exact arithmetic_like hop hv hw fun _ _ => .number _
  · exact arithmetic_like hop hv hw fun _ _ => .number _
  · exact arithmetic_like hop hv hw fun _ _ => .bool _
  · exact .ok (.bool _)
  · exact .ok (.bool _)
  · exact .ok (.bool _)
  · exact .ok (.bool _)
  · exact .ok (.bool _)
  · exact .error ⟨hop, rfl⟩

end

end

/-! ## Bindings -/

/-- The same names bound to values that answer each other. -/
def Bindings.Alike (V : Value → Value → Prop) (bs bs' : Bindings) : Prop :=
  ∀ x, Option.Rel V (bs.get? x) (bs'.get? x)

namespace Bindings.Alike

variable {V : Value → Value → Prop}

theorem nil : Bindings.Alike V [] [] := fun _ => .none

theorem single (x : String) {v v' : Value} (hv : V v v') :
    Bindings.Alike V [(x, v)] [(x, v')] := by
  intro y
  rw [get?_cons, get?_cons]
  split_ifs
  · exact .some hv
  · exact .none

theorem set {bs bs' : Bindings} (h : bs.Alike V bs') {x x' : String} (hx : x = x')
    {v v' : Value} (hv : V v v') : Bindings.Alike V (bs.set x v) (bs'.set x' v') := by
  subst hx
  intro y
  rw [get?_set, get?_set]
  split_ifs
  · exact .some hv
  · exact h y

theorem ofArguments {line : Nat → Nat → Prop} {params params' : List Token}
    {args args' : List Value} (hparams : Forall₂ (Token.Like line) params params')
    (hargs : Forall₂ V args args') :
    Bindings.Alike V (.ofArguments params args) (.ofArguments params' args') := by
  have hfold {bs bs' : Bindings} (hbs : bs.Alike V bs') : Bindings.Alike V
      ((params.zip args).foldl (fun bs given => Bindings.set given.1.lexeme given.2 bs) bs)
      ((params'.zip args').foldl (fun bs given => Bindings.set given.1.lexeme given.2 bs) bs') := by
    induction hparams generalizing args args' bs bs' with
    | nil => exact hbs
    | cons hp _ ih =>
      cases hargs with
      | nil => exact hbs
      | cons ha hargs => exact ih hargs (hbs.set hp.lexeme ha)
  exact hfold nil

end Bindings.Alike

/-- The global names that are there from the start. -/
theorem Bindings.alike_initial (F M : Function → Function → Prop) (x : String) :
    Option.Rel (Value.Alike F M) (Store.initial.get? Store.global x)
      (Store.initial.get? Store.global x) := by
  change Option.Rel _ (Bindings.get? [("console", .library .console), ("Date", .library .date)] x)
    (Bindings.get? [("console", .library .console), ("Date", .library .date)] x)
  rw [Bindings.get?_cons, Bindings.get?_cons, Bindings.get?_nil]
  split_ifs
  · exact .some (.library _)
  · exact .some (.library _)
  · exact .none

/-! ## Instances -/

/-- **Stores with the same instances**: their classes and fields are alike. -/
structure Store.Instances (F M : Function → Function → Prop) (s s' : Store) : Prop where
  size : s.instances.size = s'.instances.size
  cls (i : InstanceId) : Option.Rel (Class.Alike M) (s.class? i) (s'.class? i)
  field (i : InstanceId) (x : String) :
    Option.Rel (Value.Alike F M) (s.field? i x) (s'.field? i x)

namespace Store.Instances

variable {F F' M M' : Function → Function → Prop} {s s' : Store}

theorem mono (hF : ∀ f f', F f f' → F' f f') (hM : ∀ f f', M f f' → M' f f')
    (h : s.Instances F M s') : s.Instances F' M' s' :=
  ⟨h.size, fun i => relOption_imp (fun _ _ hc => hc.mono hM) (h.cls i),
    fun i x => relOption_imp (fun _ _ hv => hv.mono hF hM) (h.field i x)⟩

theorem newInstance (h : s.Instances F M s') {c c' : Class} (hc : c.Alike M c') :
    (s.newInstance c).2.Instances F M (s'.newInstance c').2 := by
  refine ⟨?_, fun i => ?_, fun i x => ?_⟩
  · simp [Store.newInstance, h.size]
  · rw [class?_newInstance, class?_newInstance, h.size]
    split_ifs
    · exact .some hc
    · exact h.cls i
  · rw [field?_newInstance, field?_newInstance, h.size]
    split_ifs
    · exact .none
    · exact h.field i x

theorem setField (h : s.Instances F M s') (i : InstanceId) (x : String) {v v' : Value}
    (hv : v.Alike F M v') : (s.setField i x v).Instances F M (s'.setField i x v') := by
  refine ⟨?_, fun j => ?_, fun j y => ?_⟩
  · simp [Store.setField, h.size]
  · rw [class?_setField, class?_setField]
    exact h.cls j
  · rw [field?_setField, field?_setField, h.size]
    split_ifs
    · exact .some hv
    · exact h.field j y

/-- The method that a name stands for in an instance. -/
theorem method [Faithful M] (h : s.Instances F M s') (i : InstanceId) (x : String) :
    Option.Rel M ((s.class? i).bind (Class.findMethod x))
      ((s'.class? i).bind (Class.findMethod x)) := by
  have hclass := h.cls i
  generalize s.class? i = o at hclass ⊢
  generalize s'.class? i = o' at hclass ⊢
  cases hclass with
  | none => exact .none
  | some hc => exact hc.findMethod x

/-- **Values that are alike have the same text.** -/
theorem text [Faithful F] (h : s.Instances F M s') {v v' : Value} (hv : v.Alike F M v') :
    s.text v = s'.text v' := by
  cases hv with
  | function hf => exact congrArg (fun name => "<fn " ++ name ++ ">") (Faithful.same hf).name
  | cls hc => exact hc.name
  | object i =>
    show ((s.class? i).map (·.name)).getD "" ++ " instance" =
      ((s'.class? i).map (·.name)).getD "" ++ " instance"
    have hclass := h.cls i
    generalize s.class? i = o at hclass ⊢
    generalize s'.class? i = o' at hclass ⊢
    cases hclass with
    | none => rfl
    | some hc => exact congrArg (· ++ " instance") hc.name
  | _ => rfl

end Store.Instances

end Scriptlet
