import IntLang.Proofs.Eval.Progress

/-!
Evaluation watched step by step. A recorded computation yields, beside its outcome, the machine as
each of its operations left it. To open and to close a level and to enter and to leave a call are
operations too, and all of them are those of the evaluator, so a record without its moments is the
evaluation itself. The moments are there also if the computation fails or runs out of fuel, and each
of them is one step away from the one before.
-/
namespace IntLang

/-- What a single operation of the evaluator does to the machine. A counter goes up only below its
limit, and down only if it is not zero. -/
inductive Machine.Step (config : Config) : Machine → Machine → Prop where
  | stays (m : Machine) : Step config m m
  | assigns {m : Machine} {name value p env} : m.env.assign name value p = .ok env →
    Step config m { m with env }
  | declares (m : Machine) (f : Function) :
    Step config m { m with functions := m.functions.declare f }
  | prints (m : Machine) (line : String) : Step config m { m with output := m.output.push line }
  | opens {m : Machine} : m.nestingDepth < config.nestingLimit → Step config m m.opened
  | closes {m : Machine} : 0 < m.nestingDepth → Step config m m.closed
  | enters {m : Machine} (scope : Scope) : m.callDepth < config.maxCallDepth →
    Step config m (m.entered scope)
  | leaves {m : Machine} (caller : Environment) : 0 < m.callDepth → Step config m (m.left caller)

/-- The machines after some steps, one after the other, and where they end. -/
inductive Machine.Path (config : Config) : Machine → List Machine → Machine → Prop where
  | nil (m : Machine) : Path config m [] m
  | cons {m mid after : Machine} {moments : List Machine} : m.Step config mid →
    Path config mid moments after → Path config m (mid :: moments) after

namespace Machine

variable {config : Config} {m mid after : Machine}

theorem Step.path (h : m.Step config after) : m.Path config [after] after :=
  .cons h (.nil after)

theorem Path.append {moments later : List Machine} (h : m.Path config moments mid)
    (hlater : mid.Path config later after) : m.Path config (moments ++ later) after := by
  induction h with
  | nil _ => exact hlater
  | cons hstep _ ih => exact .cons hstep (ih hlater)

end Machine

/-- How a computation ends, and the machines after its operations up to there. -/
structure Record (α : Type) where
  moments : List Machine
  outcome : Outcome α

/-- The moments of a record lead from the given machine to the one that is left, if one is. -/
def Record.Traces (config : Config) (m : Machine) (r : Record α) : Prop :=
  ∃ last, m.Path config r.moments last ∧ ∀ after, r.outcome.machine? = some after → last = after

def Recorded (α : Type) : Type := Machine → Record α

namespace Recorded

/-- The computation without the record of it. -/
def run (x : Recorded α) : Eval α := fun m => (x m).outcome

def single (x : Eval α) : Recorded α := fun m => ⟨(x m).machine?.toList, x m⟩

def andThen (x : Recorded α) (f : α → Recorded β) : Recorded β := fun m =>
  match (x m).outcome with
  | .done a mid => ⟨(x m).moments ++ (f a mid).moments, (f a mid).outcome⟩
  | .failed e after => ⟨(x m).moments, .failed e after⟩
  | .outOfFuel => ⟨(x m).moments, .outOfFuel⟩

/-- To change the machine in the end is a moment of its own. -/
def ensuring (change : Machine → Machine) (x : Recorded α) : Recorded α := fun m =>
  ⟨(x m).moments ++ ((x m).outcome.machine?.map change).toList, (x m).outcome.onMachine change⟩

def nested (config : Config) (position : Position) (x : Recorded α) : Recorded α :=
  andThen (single (Eval.descend config position)) fun _ => ensuring Machine.closed x

def called (config : Config) (position : Position) (bindings : List (String × Int64))
    (x : Recorded α) : Recorded α :=
  andThen (single (Eval.enter config position bindings)) fun caller => ensuring (·.left caller) x

instance : Effects Recorded where
  pure a := single (pure a)
  bind := andThen
  exhausted := single Effects.exhausted
  fail cause position := single (Effects.fail cause position)
  lookup name position := single (Effects.lookup name position)
  assign name value position := single (Effects.assign name value position)
  function? name := single (Effects.function? name)
  declare f := single (Effects.declare f)
  emit line := single (Effects.emit line)
  nested := nested
  called := called

section Erasure

theorem run_andThen (x : Recorded α) (f : α → Recorded β) :
    (x.andThen f).run = x.run >>= fun a => (f a).run := by
  funext m
  change (x.andThen f m).outcome = Eval.andThen x.run (fun a => (f a).run) m
  simp only [andThen, Eval.andThen, run]
  cases (x m).outcome <;> rfl

theorem run_nested (config : Config) (p : Position) (x : Recorded α) :
    (nested config p x).run = Eval.nested config p x.run :=
  run_andThen _ _

theorem run_called (config : Config) (p : Position) (bindings : List (String × Int64))
    (x : Recorded α) : (called config p bindings x).run = Eval.called config p bindings x.run :=
  run_andThen _ _

/-- Recording does not change what a computation does. -/
def faithful (config : Config) : Congruence Recorded Eval config config where
  rel x y := x.run = y
  within x y := x.run = y
  within_of_rel := id
  pure _ := rfl
  bind h hf := (run_andThen _ _).trans (congr (congrArg Eval.andThen h) (funext hf))
  within_bind h hf := (run_andThen _ _).trans (congr (congrArg Eval.andThen h) (funext hf))
  exhausted := rfl
  fail _ _ := rfl
  lookup _ _ := rfl
  assign _ _ _ := rfl
  function? _ := rfl
  declare _ := rfl
  emit _ := rfl
  nested p x _ h := (run_nested config p x).trans (congrArg (Eval.nested config p) h)
  called p bindings x _ h :=
    (run_called config p bindings x).trans (congrArg (Eval.called config p bindings) h)

theorem run_expr (config : Config) (fuel : Nat) (e : Expr) :
    (Eval.expr config fuel e : Recorded Int64).run = Eval.expr config fuel e :=
  ((faithful config).allRelated fuel).expr e

theorem run_program (config : Config) (fuel : Nat) (last : Int64) (ss : List Stmt) :
    (Eval.program config fuel last ss : Recorded Int64).run = Eval.program config fuel last ss :=
  ((faithful config).allRelated fuel).program last ss

end Erasure

section Moments

variable {x : Recorded α} {f : α → Recorded β} {config : Config} {p : Position} {m t : Machine}
variable {bindings : List (String × Int64)}

theorem machine?_of_mem_single {y : Eval α} (h : t ∈ (single y m).moments) :
    (y m).machine? = some t :=
  Option.mem_toList.mp h

theorem cases_of_mem_andThen (h : t ∈ (x.andThen f m).moments) :
    t ∈ (x m).moments ∨ ∃ a mid, x.run m = .done a mid ∧ t ∈ (f a mid).moments := by
  unfold andThen at h
  cases hrun : (x m).outcome with
  | done a mid =>
    simp only [hrun] at h
    exact (List.mem_append.mp h).imp_right fun h => ⟨a, mid, hrun, h⟩
  | failed e after =>
    simp only [hrun] at h
    exact Or.inl h
  | outOfFuel =>
    simp only [hrun] at h
    exact Or.inl h

theorem cases_of_mem_ensuring {change : Machine → Machine}
    (h : t ∈ (ensuring change x m).moments) :
    t ∈ (x m).moments ∨ ∃ inside, (x.run m).machine? = some inside ∧ t = change inside := by
  rcases List.mem_append.mp h with h | h
  · exact Or.inl h
  · obtain ⟨inside, hinside, rfl⟩ := Option.map_eq_some_iff.mp (Option.mem_toList.mp h)
    exact Or.inr ⟨inside, hinside, rfl⟩

/-- A moment of a computation one level further in is that of the level's opening, which may fail,
one of what goes on inside or that of its closing. -/
theorem cases_of_mem_nested (h : t ∈ (nested config p x m).moments) :
    t = m ∨ m.nestingDepth < config.nestingLimit ∧ (t = m.opened ∨ t ∈ (x m.opened).moments ∨
      ∃ inside, (x.run m.opened).machine? = some inside ∧ t = inside.closed) := by
  rcases cases_of_mem_andThen h with h | ⟨_, mid, hdone, h⟩
  · rcases Eval.machine?_descend (machine?_of_mem_single h) with rfl | ⟨hroom, rfl⟩
    · exact Or.inl rfl
    · exact Or.inr ⟨hroom, Or.inl rfl⟩
  · obtain ⟨hroom, rfl⟩ := Eval.opened_of_descend hdone
    exact Or.inr ⟨hroom, Or.inr (cases_of_mem_ensuring h)⟩

/-- A moment of a call is that of its beginning, which may fail, one of what goes on inside or that
of its end. -/
theorem cases_of_mem_called (h : t ∈ (called config p bindings x m).moments) :
    t = m ∨ m.callDepth < config.maxCallDepth ∧ ∃ scope, t = m.entered scope ∨
      t ∈ (x (m.entered scope)).moments ∨
        ∃ inside, (x.run (m.entered scope)).machine? = some inside ∧ t = inside.left m.env := by
  rcases cases_of_mem_andThen h with h | ⟨caller, mid, hdone, h⟩
  · rcases Eval.machine?_enter (machine?_of_mem_single h) with rfl | ⟨hroom, scope, rfl⟩
    · exact Or.inl rfl
    · exact Or.inr ⟨hroom, scope, Or.inl rfl⟩
  · obtain ⟨hroom, rfl, scope, rfl⟩ := Eval.entered_of_enter hdone
    exact Or.inr ⟨hroom, scope, Or.inr (cases_of_mem_ensuring h)⟩

end Moments

end Recorded

namespace Record.Traces

variable {x : Recorded α} {f : α → Recorded β} {config : Config} {m : Machine}

theorem single {y : Eval α} (h : ∀ after, (y m).machine? = some after → m.Step config after) :
    (Recorded.single y m).Traces config m := by
  unfold Recorded.single
  cases hend : (y m).machine? with
  | none => exact ⟨m, .nil m, by simp [hend]⟩
  | some after => exact ⟨after, (h after hend).path, by simp [hend]⟩

theorem andThen (hx : (x m).Traces config m)
    (hf : ∀ a mid, x.run m = .done a mid → (f a mid).Traces config mid) :
    (x.andThen f m).Traces config m := by
  obtain ⟨mid, hpath, hmid⟩ := hx
  unfold Recorded.andThen
  unfold Recorded.run at hf
  cases hrun : (x m).outcome with
  | done a after =>
    obtain rfl := hmid after (by rw [hrun]; rfl)
    obtain ⟨last, hlater, hlast⟩ := hf a mid hrun
    exact ⟨last, hpath.append hlater, hlast⟩
  | failed e after =>
    rw [hrun] at hmid
    exact ⟨mid, hpath, hmid⟩
  | outOfFuel => exact ⟨mid, hpath, nofun⟩

theorem ensuring {change : Machine → Machine} (hx : (x m).Traces config m)
    (h : ∀ inside, (x.run m).machine? = some inside → inside.Step config (change inside)) :
    (Recorded.ensuring change x m).Traces config m := by
  obtain ⟨inside, hpath, hinside⟩ := hx
  unfold Recorded.run at h
  unfold Recorded.ensuring Traces
  rw [Outcome.machine?_onMachine]
  cases hend : (x m).outcome.machine? with
  | none => exact ⟨inside, by simpa using hpath, nofun⟩
  | some after =>
    obtain rfl := hinside after hend
    refine ⟨change inside, hpath.append (h inside hend).path, fun after h => ?_⟩
    exact Option.some.inj h

end Record.Traces

end IntLang
