import IntLang.Eval.Effects
import IntLang.Scope.Basic

/-!
What evaluation works on. The machine holds the variables in sight, the functions declared so far,
the lines printed, and two counters: the calls that are open, and the statements and expressions
that are being evaluated inside one another. A computation takes a machine and is done with a value,
has failed with an error, or has run out of the fuel that bounds its length; only in the last case
is no machine left.
-/
namespace IntLang

/-- Functions with a further one. The last function of a name counts. -/
def Table.declare (functions : Table Function) (f : Function) : Table Function :=
  functions.insert f.name f

/-- A function that is found after a declaration is the declared one or was there before. -/
theorem Table.eq_or_get?_of_declare {functions : Table Function} {f g : Function} {name : String}
    (h : (functions.declare f).get? name = some g) : g = f ∨ functions.get? name = some g := by
  by_cases hname : name = f.name
  · subst hname
    rw [declare, get?_insert_self] at h
    exact Or.inl (Option.some.inj h).symm
  · rw [declare, get?_insert_of_ne hname] at h
    exact Or.inr h

structure Machine where
  env : Environment
  functions : Table Function
  output : Array String
  callDepth : Nat
  nestingDepth : Nat

namespace Machine

def opened (m : Machine) : Machine := { m with nestingDepth := m.nestingDepth + 1 }

def closed (m : Machine) : Machine := { m with nestingDepth := m.nestingDepth - 1 }

/-- The machine inside a call with the given variables: around them it sees the outermost scope of
the caller. -/
def entered (m : Machine) (scope : Scope) : Machine :=
  { m with env := ⟨scope, [m.env.root]⟩, callDepth := m.callDepth + 1 }

def left (m : Machine) (caller : Environment) : Machine :=
  { m with env := caller, callDepth := m.callDepth - 1 }

end Machine

inductive Outcome (α : Type) where
  | done (value : α) (machine : Machine)
  | failed (error : Error) (machine : Machine)
  | outOfFuel

@[inline]
def Outcome.onMachine (outcome : Outcome α) (change : Machine → Machine) : Outcome α :=
  match outcome with
  | .done value machine => .done value (change machine)
  | .failed error machine => .failed error (change machine)
  | .outOfFuel => .outOfFuel

def Eval (α : Type) : Type := Machine → Outcome α

namespace Eval

@[always_inline, inline]
def ret (a : α) : Eval α := fun m => .done a m

@[always_inline, inline]
def andThen (x : Eval α) (f : α → Eval β) : Eval β := fun m =>
  match x m with
  | .done a m => f a m
  | .failed e m => .failed e m
  | .outOfFuel => .outOfFuel

protected def exhausted : Eval α := fun _ => .outOfFuel

protected def fail (cause : Cause) (position : Position) : Eval α := fun m =>
  .failed ⟨cause, position⟩ m

protected def lookup (name : String) (position : Position) : Eval Int64 := fun m =>
  match m.env.lookup name position with
  | .ok value => .done value m
  | .error e => .failed e m

protected def assign (name : String) (value : Int64) (position : Position) : Eval Unit := fun m =>
  match m.env.assign name value position with
  | .ok env => .done () { m with env }
  | .error e => .failed e m

protected def function? (name : String) : Eval (Option Function) := fun m =>
  .done (m.functions.get? name) m

protected def declare (f : Function) : Eval Unit := fun m =>
  .done () { m with functions := m.functions.declare f }

protected def emit (line : String) : Eval Unit := fun m =>
  .done () { m with output := m.output.push line }

protected def descend (config : Config) (position : Position) : Eval Unit := fun m =>
  match config.descend m.nestingDepth position with
  | .ok levels => .done () { m with nestingDepth := levels }
  | .error e => .failed e m

/-- Enters a call at a position, with the given variables in a new scope. The value is what the
caller had in sight. -/
protected def enter (config : Config) (position : Position) (bindings : List (String × Int64)) :
    Eval Environment := fun m =>
  if config.maxCallDepth ≤ m.callDepth then
    .failed ⟨.recursionLimit config.maxCallDepth, position⟩ m
  else
    match (Scope.empty config.maxVariables).assignAll bindings with
    | .ok scope => .done m.env (m.entered scope)
    | .error cause => .failed ⟨cause, position⟩ m

/-- A computation after which the machine is changed, whether it has succeeded or failed. -/
@[inline]
protected def ensuring (change : Machine → Machine) (x : Eval α) : Eval α := fun m =>
  (x m).onMachine change

/-- Performs a computation one nesting level further in. The level is closed however the
computation ends. -/
@[inline]
protected def nested (config : Config) (position : Position) (x : Eval α) : Eval α :=
  andThen (Eval.descend config position) fun _ => Eval.ensuring Machine.closed x

/-- Performs a computation inside a call. The caller's variables are back however it ends. -/
@[inline]
protected def called (config : Config) (position : Position) (bindings : List (String × Int64))
    (x : Eval α) : Eval α :=
  andThen (Eval.enter config position bindings) fun caller => Eval.ensuring (·.left caller) x

@[always_inline]
instance : Effects Eval where
  pure := ret
  bind := andThen
  exhausted := Eval.exhausted
  fail := Eval.fail
  lookup := Eval.lookup
  assign := Eval.assign
  function? := Eval.function?
  declare := Eval.declare
  emit := Eval.emit
  nested := Eval.nested
  called := Eval.called

theorem bind_of_done {x : Eval α} {m after : Machine} {a : α} (h : x m = .done a after)
    (f : α → Eval β) : (x >>= f) m = f a after := by
  change andThen x f m = _
  simp only [andThen, h]

theorem bind_of_failed {x : Eval α} {m after : Machine} {e : Error} (h : x m = .failed e after)
    (f : α → Eval β) : (x >>= f) m = .failed e after := by
  change andThen x f m = _
  simp only [andThen, h]

theorem bind_of_outOfFuel {x : Eval α} {m : Machine} (h : x m = .outOfFuel) (f : α → Eval β) :
    (x >>= f) m = .outOfFuel := by
  change andThen x f m = _
  simp only [andThen, h]

section

variable {config : Config} {m : Machine} {name : String} {value : Int64} {p : Position}
variable {bindings : List (String × Int64)} {cause : Cause} {e : Error}

theorem lookup_of_ok (h : m.env.lookup name p = .ok value) :
    Eval.lookup name p m = .done value m := by
  simp only [Eval.lookup, h]

theorem lookup_of_error (h : m.env.lookup name p = .error e) :
    Eval.lookup name p m = .failed e m := by
  simp only [Eval.lookup, h]

theorem assign_of_ok {env : Environment} (h : m.env.assign name value p = .ok env) :
    Eval.assign name value p m = .done () { m with env } := by
  simp only [Eval.assign, h]

theorem assign_of_error (h : m.env.assign name value p = .error e) :
    Eval.assign name value p m = .failed e m := by
  simp only [Eval.assign, h]

/-- Only an unbound variable makes a lookup fail. -/
theorem error_of_lookup {after : Machine} (h : Eval.lookup name p m = .failed e after) :
    e = ⟨.undefinedVariable name, p⟩ := by
  cases hvalue : m.env.lookup name p with
  | ok value =>
    rw [lookup_of_ok hvalue] at h
    cases h
  | error e' =>
    rw [lookup_of_error hvalue] at h
    cases h
    exact Environment.eq_of_lookup_eq_error hvalue

/-- Only a full scope makes a binding fail. -/
theorem error_of_assign {after : Machine} (h : Eval.assign name value p m = .failed e after) :
    ∃ limit, e = ⟨.capacityExceeded limit, p⟩ := by
  cases henv : m.env.assign name value p with
  | ok env =>
    rw [assign_of_ok henv] at h
    cases h
  | error e' =>
    rw [assign_of_error henv] at h
    cases h
    exact Environment.exists_of_assign_eq_error henv

theorem descend_of_limit (h : config.nestingLimit ≤ m.nestingDepth) :
    Eval.descend config p m = .failed ⟨.recursionLimit config.nestingLimit, p⟩ m := by
  simp only [Eval.descend, Config.descend_of_limit h]

theorem descend_of_room (h : ¬config.nestingLimit ≤ m.nestingDepth) :
    Eval.descend config p m = .done () m.opened := by
  simp only [Eval.descend, Config.descend_of_room h, Machine.opened]

theorem enter_of_limit (h : config.maxCallDepth ≤ m.callDepth) :
    Eval.enter config p bindings m = .failed ⟨.recursionLimit config.maxCallDepth, p⟩ m :=
  if_pos h

theorem enter_of_noRoom (h : ¬config.maxCallDepth ≤ m.callDepth)
    (hscope : (Scope.empty config.maxVariables).assignAll bindings = .error cause) :
    Eval.enter config p bindings m = .failed ⟨cause, p⟩ m := by
  simp only [Eval.enter, if_neg h, hscope]

theorem enter_of_room {scope : Scope} (h : ¬config.maxCallDepth ≤ m.callDepth)
    (hscope : (Scope.empty config.maxVariables).assignAll bindings = .ok scope) :
    Eval.enter config p bindings m = .done m.env (m.entered scope) := by
  simp only [Eval.enter, if_neg h, hscope]

theorem nested_of_limit (h : config.nestingLimit ≤ m.nestingDepth) (x : Eval α) :
    Eval.nested config p x m = .failed ⟨.recursionLimit config.nestingLimit, p⟩ m :=
  bind_of_failed (descend_of_limit h) _

theorem nested_of_room (h : ¬config.nestingLimit ≤ m.nestingDepth) (x : Eval α) :
    Eval.nested config p x m = (x m.opened).onMachine Machine.closed :=
  bind_of_done (descend_of_room h) _

theorem called_of_limit (h : config.maxCallDepth ≤ m.callDepth) (x : Eval α) :
    Eval.called config p bindings x m = .failed ⟨.recursionLimit config.maxCallDepth, p⟩ m :=
  bind_of_failed (enter_of_limit h) _

theorem called_of_noRoom (h : ¬config.maxCallDepth ≤ m.callDepth)
    (hscope : (Scope.empty config.maxVariables).assignAll bindings = .error cause) (x : Eval α) :
    Eval.called config p bindings x m = .failed ⟨cause, p⟩ m :=
  bind_of_failed (enter_of_noRoom h hscope) _

theorem called_of_room {scope : Scope} (h : ¬config.maxCallDepth ≤ m.callDepth)
    (hscope : (Scope.empty config.maxVariables).assignAll bindings = .ok scope) (x : Eval α) :
    Eval.called config p bindings x m = (x (m.entered scope)).onMachine (·.left m.env) :=
  bind_of_done (enter_of_room h hscope) _

end

end Eval

end IntLang
