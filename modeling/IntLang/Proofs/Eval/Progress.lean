import IntLang.Eval.Related
import IntLang.Session.Basic

/-!
What evaluation makes of the machine. A relation between the machine before and the machine after
that holds of every single operation, and that a nesting level and a call hand on from their inside,
holds of every evaluation that ends, whether it succeeds or fails.
-/
namespace IntLang

/-- The machine that a computation leaves, unless it runs out of fuel. -/
def Outcome.machine? : Outcome α → Option Machine
  | .done _ m | .failed _ m => some m
  | .outOfFuel => none

@[simp] theorem Outcome.machine?_onMachine (outcome : Outcome α) (change : Machine → Machine) :
    (outcome.onMachine change).machine? = outcome.machine?.map change := by
  cases outcome <;> rfl

/-- A failure on a changed machine is one on the machine before the change. -/
theorem Outcome.exists_of_onMachine_eq_failed {outcome : Outcome α} {change : Machine → Machine}
    {e : Error} {after : Machine} (h : outcome.onMachine change = .failed e after) :
    ∃ inside, outcome = .failed e inside ∧ after = change inside := by
  cases outcome with
  | failed e' inside =>
    cases h
    exact ⟨inside, rfl, rfl⟩
  | done a inside => cases h
  | outOfFuel => cases h

/-- A relation between the machine before and the machine after that every single operation
respects, opening and closing aside. -/
structure Machine.Stepwise (R : Machine → Machine → Prop) : Prop where
  refl : ∀ m, R m m
  assign : ∀ {m : Machine} {name value p env}, m.env.assign name value p = .ok env →
    R m { m with env }
  declare : ∀ (m : Machine) f, R m { m with functions := m.functions.declare f }
  emit : ∀ (m : Machine) line, R m { m with output := m.output.push line }

/-- A relation between the machine before and the machine after that all operations respect, in a
row and inside a level or a call. -/
structure Machine.Progress (R : Machine → Machine → Prop) : Prop extends Machine.Stepwise R where
  trans : ∀ {m mid after}, R m mid → R mid after → R m after
  nested : ∀ {m inside : Machine}, R m.opened inside → R m inside.closed
  called : ∀ {m inside : Machine} {scope}, R (m.entered scope) inside → R m (inside.left m.env)

namespace Eval

theorem machine?_bind {x : Eval α} {f : α → Eval β} {m after : Machine}
    (h : ((x >>= f) m).machine? = some after) :
    (∃ a mid, x m = .done a mid ∧ (f a mid).machine? = some after) ∨
      ∃ e, x m = .failed e after := by
  cases hx : x m with
  | done a mid =>
    rw [bind_of_done hx] at h
    exact Or.inl ⟨a, mid, rfl, h⟩
  | failed e mid =>
    rw [bind_of_failed hx] at h
    cases h
    exact Or.inr ⟨e, rfl⟩
  | outOfFuel =>
    rw [bind_of_outOfFuel hx] at h
    cases h

theorem machine?_lookup {name : String} {p : Position} {m after : Machine}
    (h : (Eval.lookup name p m).machine? = some after) : after = m := by
  cases hvalue : m.env.lookup name p with
  | ok value =>
    rw [lookup_of_ok hvalue] at h
    exact (Option.some.inj h).symm
  | error e =>
    rw [lookup_of_error hvalue] at h
    exact (Option.some.inj h).symm

theorem machine?_assign {name : String} {value : Int64} {p : Position} {m after : Machine}
    (h : (Eval.assign name value p m).machine? = some after) :
    after = m ∨ ∃ env, m.env.assign name value p = .ok env ∧ after = { m with env } := by
  cases henv : m.env.assign name value p with
  | ok env =>
    rw [assign_of_ok henv] at h
    exact Or.inr ⟨env, rfl, (Option.some.inj h).symm⟩
  | error e =>
    rw [assign_of_error henv] at h
    exact Or.inl (Option.some.inj h).symm

section Opening

variable {config : Config} {p : Position} {bindings : List (String × Int64)}
variable {m inside after : Machine} {caller : Environment}

theorem opened_of_descend (h : Eval.descend config p m = .done () inside) :
    m.nestingDepth < config.nestingLimit ∧ inside = m.opened := by
  by_cases hlimit : config.nestingLimit ≤ m.nestingDepth
  · rw [descend_of_limit hlimit] at h
    cases h
  · rw [descend_of_room hlimit] at h
    cases h
    exact ⟨Nat.lt_of_not_le hlimit, rfl⟩

theorem machine?_descend (h : (Eval.descend config p m).machine? = some after) :
    after = m ∨ m.nestingDepth < config.nestingLimit ∧ after = m.opened := by
  by_cases hlimit : config.nestingLimit ≤ m.nestingDepth
  · rw [descend_of_limit hlimit] at h
    exact Or.inl (Option.some.inj h).symm
  · rw [descend_of_room hlimit] at h
    exact Or.inr ⟨Nat.lt_of_not_le hlimit, (Option.some.inj h).symm⟩

theorem entered_of_enter (h : Eval.enter config p bindings m = .done caller inside) :
    m.callDepth < config.maxCallDepth ∧ caller = m.env ∧ ∃ scope, inside = m.entered scope := by
  by_cases hlimit : config.maxCallDepth ≤ m.callDepth
  · rw [enter_of_limit hlimit] at h
    cases h
  · cases hscope : (Scope.empty config.maxVariables).assignAll bindings with
    | error cause =>
      rw [enter_of_noRoom hlimit hscope] at h
      cases h
    | ok scope =>
      rw [enter_of_room hlimit hscope] at h
      cases h
      exact ⟨Nat.lt_of_not_le hlimit, rfl, scope, rfl⟩

theorem machine?_enter (h : (Eval.enter config p bindings m).machine? = some after) :
    after = m ∨ m.callDepth < config.maxCallDepth ∧ ∃ scope, after = m.entered scope := by
  by_cases hlimit : config.maxCallDepth ≤ m.callDepth
  · rw [enter_of_limit hlimit] at h
    exact Or.inl (Option.some.inj h).symm
  · cases hscope : (Scope.empty config.maxVariables).assignAll bindings with
    | error cause =>
      rw [enter_of_noRoom hlimit hscope] at h
      exact Or.inl (Option.some.inj h).symm
    | ok scope =>
      rw [enter_of_room hlimit hscope] at h
      exact Or.inr ⟨Nat.lt_of_not_le hlimit, scope, (Option.some.inj h).symm⟩

end Opening

theorem machine?_nested {config : Config} {p : Position} {x : Eval α} {m after : Machine}
    (h : (Eval.nested config p x m).machine? = some after) :
    after = m ∨ ∃ inside, (x m.opened).machine? = some inside ∧ after = inside.closed := by
  by_cases hlimit : config.nestingLimit ≤ m.nestingDepth
  · rw [nested_of_limit hlimit] at h
    cases h
    exact Or.inl rfl
  · rw [nested_of_room hlimit, Outcome.machine?_onMachine, Option.map_eq_some_iff] at h
    obtain ⟨inside, hinside, rfl⟩ := h
    exact Or.inr ⟨inside, hinside, rfl⟩

theorem machine?_called {config : Config} {p : Position} {bindings : List (String × Int64)}
    {x : Eval α} {m after : Machine}
    (h : (Eval.called config p bindings x m).machine? = some after) :
    after = m ∨ ∃ scope inside, (x (m.entered scope)).machine? = some inside ∧
      after = inside.left m.env := by
  by_cases hlimit : config.maxCallDepth ≤ m.callDepth
  · rw [called_of_limit hlimit] at h
    cases h
    exact Or.inl rfl
  · cases hscope : (Scope.empty config.maxVariables).assignAll bindings with
    | error cause =>
      rw [called_of_noRoom hlimit hscope] at h
      cases h
      exact Or.inl rfl
    | ok scope =>
      rw [called_of_room hlimit hscope, Outcome.machine?_onMachine, Option.map_eq_some_iff] at h
      obtain ⟨inside, hinside, rfl⟩ := h
      exact Or.inr ⟨scope, inside, hinside, rfl⟩

/-- A computation that leaves a machine in the given relation to the one it was given. -/
def Advances (R : Machine → Machine → Prop) (x : Eval α) : Prop :=
  ∀ m after, (x m).machine? = some after → R m after

variable {R : Machine → Machine → Prop}

section Stepwise

variable (hR : Machine.Stepwise R)
include hR

theorem advances_pure (a : α) : Advances R (Pure.pure a) := by
  intro m after h
  cases h
  exact hR.refl m

theorem advances_fail (cause : Cause) (p : Position) :
    Advances R (Eval.fail cause p : Eval α) := by
  intro m after h
  cases h
  exact hR.refl m

theorem advances_function? (name : String) : Advances R (Eval.function? name) := by
  intro m after h
  cases h
  exact hR.refl m

theorem advances_declare (f : Function) : Advances R (Eval.declare f) := by
  intro m after h
  cases h
  exact hR.declare m f

theorem advances_emit (line : String) : Advances R (Eval.emit line) := by
  intro m after h
  cases h
  exact hR.emit m line

theorem advances_lookup (name : String) (p : Position) : Advances R (Eval.lookup name p) := by
  intro m after h
  obtain rfl := machine?_lookup h
  exact hR.refl after

theorem advances_assign (name : String) (value : Int64) (p : Position) :
    Advances R (Eval.assign name value p) := by
  intro m after h
  rcases machine?_assign h with rfl | ⟨env, henv, rfl⟩
  · exact hR.refl after
  · exact hR.assign henv

end Stepwise

variable (hR : Machine.Progress R)
include hR

theorem advances_bind {x : Eval α} {f : α → Eval β} (hx : x.Advances R)
    (hf : ∀ a, (f a).Advances R) : Advances R (x >>= f) := by
  intro m after h
  rcases machine?_bind h with ⟨a, mid, hdone, hafter⟩ | ⟨e, hfailed⟩
  · have hmid := hx m mid (by rw [hdone]; rfl)
    exact hR.trans hmid (hf a mid after hafter)
  · exact hx m after (by rw [hfailed]; rfl)

theorem advances_nested {x : Eval α} (hx : x.Advances R) (config : Config) (p : Position) :
    Advances R (Eval.nested config p x) := by
  intro m after h
  rcases machine?_nested h with rfl | ⟨inside, hinside, rfl⟩
  · exact hR.refl after
  · exact hR.nested (hx m.opened inside hinside)

theorem advances_called {x : Eval α} (hx : x.Advances R) (config : Config) (p : Position)
    (bindings : List (String × Int64)) : Advances R (Eval.called config p bindings x) := by
  intro m after h
  rcases machine?_called h with rfl | ⟨scope, inside, hinside, rfl⟩
  · exact hR.refl after
  · exact hR.called (hx (m.entered scope) inside hinside)

def advancing (config : Config) : Congruence Eval Eval config config where
  rel x _ := x.Advances R
  within x _ := x.Advances R
  within_of_rel := id
  pure a := advances_pure hR.toStepwise a
  bind hx hf := advances_bind hR hx hf
  within_bind hx hf := advances_bind hR hx hf
  exhausted := nofun
  fail cause p := advances_fail hR.toStepwise cause p
  lookup name p := advances_lookup hR.toStepwise name p
  assign name value p := advances_assign hR.toStepwise name value p
  function? name := advances_function? hR.toStepwise name
  declare f := advances_declare hR.toStepwise f
  emit line := advances_emit hR.toStepwise line
  nested p _ _ hx := advances_nested hR hx config p
  called p bindings _ _ hx := advances_called hR hx config p bindings

end Eval

theorem Session.exists_machine_of_perform {s after : Session} {x : Eval α}
    {answer : Except Error α} (h : s.perform x = some (answer, after)) :
    ∃ m, (x s.machine).machine? = some m ∧ after = s.after m := by
  rcases perform_eq_some_iff.mp h with ⟨a, m, hrun, -, rfl⟩ | ⟨e, m, hrun, -, rfl⟩
  · exact ⟨m, by rw [hrun]; rfl, rfl⟩
  · exact ⟨m, by rw [hrun]; rfl, rfl⟩

end IntLang
