import IntLang.Eval.Basic
import IntLang.Eval.Machine
import IntLang.Grammar.Program

/-!
A session runs programs and evaluates expressions one after the other on the same global variables
and functions, and collects what they print. Its limits may be changed between two runs, but the
global scope keeps the capacity it was made with. A source that cannot be parsed leaves the session
as it was.
-/
namespace IntLang

/-- The limits of a session, its global variables and functions, the lines printed so far, and the
counters as the last run left them. -/
structure Session where
  config : Config
  globals : Scope
  functions : Table Function
  output : Array String
  callDepth : Nat
  nestingDepth : Nat

namespace Session

def new (config : Config) : Session :=
  ⟨config, .empty config.maxVariables, .empty, #[], 0, 0⟩

/-- The machine on which a run begins, with both counters at zero. -/
def machine (s : Session) : Machine := ⟨.ofScope s.globals, s.functions, s.output, 0, 0⟩

def after (s : Session) (m : Machine) : Session :=
  ⟨s.config, m.env.scope, m.functions, m.output, m.callDepth, m.nestingDepth⟩

/-- Performs a computation on the globals of a session. There is no answer if its fuel runs out. The
stack that a host sets aside for evaluation is taken to be available: the failure to provide it,
which would come before the computation and leave the session with both counters at zero, is left
out. -/
def perform (s : Session) (x : Eval α) : Option (Except Error α × Session) :=
  match x s.machine with
  | .done a m => some (.ok a, s.after m)
  | .failed e m => some (.error e, s.after m)
  | .outOfFuel => none

theorem perform_of_done {s : Session} {x : Eval α} {a : α} {m : Machine}
    (h : x s.machine = .done a m) : s.perform x = some (.ok a, s.after m) := by
  simp only [perform, h]

theorem perform_of_failed {s : Session} {x : Eval α} {e : Error} {m : Machine}
    (h : x s.machine = .failed e m) : s.perform x = some (.error e, s.after m) := by
  simp only [perform, h]

theorem perform_eq_some_iff {s after : Session} {x : Eval α} {answer : Except Error α} :
    s.perform x = some (answer, after) ↔
      (∃ a m, x s.machine = .done a m ∧ answer = .ok a ∧ after = s.after m) ∨
        ∃ e m, x s.machine = .failed e m ∧ answer = .error e ∧ after = s.after m := by
  constructor
  · intro h
    cases hx : x s.machine with
    | done a m =>
      rw [perform_of_done hx] at h
      cases h
      exact Or.inl ⟨a, m, rfl, rfl, rfl⟩
    | failed e m =>
      rw [perform_of_failed hx] at h
      cases h
      exact Or.inr ⟨e, m, rfl, rfl, rfl⟩
    | outOfFuel =>
      simp only [perform, hx, reduceCtorEq] at h
  · rintro (⟨a, m, hx, rfl, rfl⟩ | ⟨e, m, hx, rfl, rfl⟩)
    · exact perform_of_done hx
    · exact perform_of_failed hx

def run (s : Session) (fuel : Nat) (program : Block) : Option (Except Error Int64 × Session) :=
  s.perform (Eval.program s.config fuel 0 program.body)

def runSource (s : Session) (fuel : Nat) (source file : String) :
    Option (Except Error Int64 × Session) :=
  match parseProgram source file with
  | .ok program => s.run fuel program
  | .error e => some (.error e, s)

def evalSource (s : Session) (fuel : Nat) (source : String) :
    Option (Except Error Int64 × Session) :=
  match parseExpr source unnamedSource with
  | .ok e => s.perform (Eval.expr s.config fuel e)
  | .error e => some (.error e, s)

section Source

variable {s after : Session} {fuel : Nat} {source file : String} {answer : Except Error Int64}

/-- A source is run if it can be parsed, and otherwise nothing happens. -/
theorem cases_of_runSource (h : s.runSource fuel source file = some (answer, after)) :
    (∃ program, parseProgram source file = .ok program ∧
      s.run fuel program = some (answer, after)) ∨
      ∃ e, parseProgram source file = .error e ∧ answer = .error e ∧ after = s := by
  unfold runSource at h
  cases hprogram : parseProgram source file with
  | ok program =>
    simp only [hprogram] at h
    exact Or.inl ⟨program, rfl, h⟩
  | error e =>
    simp only [hprogram, Option.some.injEq, Prod.mk.injEq] at h
    exact Or.inr ⟨e, rfl, h.1.symm, h.2.symm⟩

theorem cases_of_evalSource (h : s.evalSource fuel source = some (answer, after)) :
    (∃ e, parseExpr source unnamedSource = .ok e ∧
      s.perform (Eval.expr s.config fuel e) = some (answer, after)) ∨
      ∃ e, parseExpr source unnamedSource = .error e ∧ answer = .error e ∧ after = s := by
  unfold evalSource at h
  cases hexpr : parseExpr source unnamedSource with
  | ok e =>
    simp only [hexpr] at h
    exact Or.inl ⟨e, rfl, h⟩
  | error e =>
    simp only [hexpr, Option.some.injEq, Prod.mk.injEq] at h
    exact Or.inr ⟨e, rfl, h.1.symm, h.2.symm⟩

end Source

def descend (s : Session) (position : Position) : Except Error Session :=
  (s.config.descend s.nestingDepth position).map fun levels => { s with nestingDepth := levels }

def ascend (s : Session) : Session := { s with nestingDepth := s.nestingDepth - 1 }

/-- Between two runs a level is opened as during one. -/
theorem descend_after_of_done {s : Session} {m inside : Machine} {p : Position}
    (h : Eval.descend s.config p m = .done () inside) :
    (s.after m).descend p = .ok (s.after inside) := by
  by_cases hlimit : s.config.nestingLimit ≤ m.nestingDepth
  · rw [Eval.descend_of_limit hlimit] at h
    cases h
  · rw [Eval.descend_of_room hlimit] at h
    cases h
    exact congrArg (Except.map _) (Config.descend_of_room hlimit p)

theorem descend_after_of_failed {s : Session} {m after : Machine} {p : Position} {e : Error}
    (h : Eval.descend s.config p m = .failed e after) : (s.after m).descend p = .error e := by
  by_cases hlimit : s.config.nestingLimit ≤ m.nestingDepth
  · rw [Eval.descend_of_limit hlimit] at h
    cases h
    exact congrArg (Except.map _) (Config.descend_of_limit hlimit p)
  · rw [Eval.descend_of_room hlimit] at h
    cases h

/-- Between two runs a level is closed as during one. -/
theorem ascend_after (s : Session) (m : Machine) : (s.after m).ascend = s.after m.closed := rfl

def emit (s : Session) (line : String) : Session := { s with output := s.output.push line }

def takeOutput (s : Session) : Array String × Session := (s.output, { s with output := #[] })

end Session

/-- The value of a program in a session of its own with the standard limits. -/
def runProgram (fuel : Nat) (source : String) : Option (Except Error Int64) :=
  ((Session.new .standard).runSource fuel source unnamedSource).map Prod.fst

end IntLang
