import Mathlib.Logic.Relation
import IntLang.Proofs.Eval.Limits
import IntLang.Proofs.Eval.Targets
import IntLang.Proofs.Scope.History

/-!
The state of a session only grows. Whatever is run in it, with whatever success and under whatever
limits, the global variables and the lines printed keep their order and get new ones behind them,
and no function is forgotten. The global scope never holds more than the session was made for, as
its capacity is not among the limits that can be changed. Expressions leave the global variables
alone.
-/
namespace IntLang

structure Machine.Grows (m after : Machine) : Prop where
  scope : m.env.scope.Grows after.env.scope
  functions : m.functions.names ⊆ after.functions.names
  output : m.PrintsLess after

/-- A call gives the caller its own scope back, so that only what it declares and prints counts. -/
theorem Machine.progress_grows : Progress Grows where
  refl m := ⟨.refl _, List.Subset.refl _, progress_printsLess.refl m⟩
  trans h₁ h₂ := ⟨h₁.scope.trans h₂.scope, List.Subset.trans h₁.functions h₂.functions,
    progress_printsLess.trans h₁.output h₂.output⟩
  assign {m name value p env} h := by
    obtain ⟨scope, hscope, rfl⟩ := Environment.exists_of_assign_eq_ok h
    exact ⟨Scope.grows_of_assign hscope, List.Subset.refl _, progress_printsLess.assign h⟩
  declare m f := ⟨.refl _, (Table.names_prefix_insert _ _ _).subset,
    progress_printsLess.declare m f⟩
  emit m line := ⟨.refl _, List.Subset.refl _, progress_printsLess.emit m line⟩
  nested h := ⟨h.scope, h.functions, h.output⟩
  called h := ⟨.refl _, h.functions, h.output⟩

namespace Session

/-- One call on a session that has come to its end, or a change of the limits in between. -/
inductive Step : Session → Session → Prop
  | runSource {s fuel source file answer after}
      (h : s.runSource fuel source file = some (answer, after)) : Step s after
  | run {s fuel program answer after} (h : s.run fuel program = some (answer, after)) : Step s after
  | evalSource {s fuel source answer after} (h : s.evalSource fuel source = some (answer, after)) :
      Step s after
  | configure (s config) : Step s { s with config }

/-- The second session is what any number of calls on the first one leave. -/
abbrev Reaches : Session → Session → Prop := Relation.ReflTransGen Step

/-- The second session has what the first one has, in the same order, and more behind it. -/
structure Grows (s after : Session) : Prop where
  globals : s.globals.Grows after.globals
  functions : s.functions.names ⊆ after.functions.names
  output : s.output.toList <+: after.output.toList

variable {s mid after : Session}

theorem Grows.refl (s : Session) : s.Grows s := ⟨.refl _, List.Subset.refl _, List.prefix_rfl⟩

theorem Grows.trans (h : s.Grows mid) (h' : mid.Grows after) : s.Grows after :=
  ⟨h.globals.trans h'.globals, List.Subset.trans h.functions h'.functions, h.output.trans h'.output⟩

theorem grows_of_perform {x : Eval α} (hx : x.Advances Machine.Grows) {answer : Except Error α}
    (h : s.perform x = some (answer, after)) : s.Grows after := by
  obtain ⟨m, hm, rfl⟩ := exists_machine_of_perform h
  obtain ⟨hscope, hfunctions, houtput⟩ := hx s.machine m hm
  exact ⟨hscope, hfunctions, houtput⟩

theorem grows_of_run {fuel : Nat} {program : Block} {answer : Except Error Int64}
    (h : s.run fuel program = some (answer, after)) : s.Grows after :=
  grows_of_perform
    (((Eval.advancing Machine.progress_grows s.config).allRelated fuel).program 0 program.body) h

theorem grows_of_runSource {fuel : Nat} {source file : String} {answer : Except Error Int64}
    (h : s.runSource fuel source file = some (answer, after)) : s.Grows after := by
  rcases cases_of_runSource h with ⟨program, -, hrun⟩ | ⟨e, -, -, rfl⟩
  · exact grows_of_run hrun
  · exact .refl _

theorem grows_of_evalSource {fuel : Nat} {source : String} {answer : Except Error Int64}
    (h : s.evalSource fuel source = some (answer, after)) : s.Grows after := by
  rcases cases_of_evalSource h with ⟨e, -, heval⟩ | ⟨e, -, -, rfl⟩
  · have hexpr : Eval.Advances Machine.Grows (Eval.expr s.config fuel e) :=
      ((Eval.advancing Machine.progress_grows s.config).allRelated fuel).expr e
    exact grows_of_perform hexpr heval
  · exact .refl _

theorem Step.grows (h : s.Step after) : s.Grows after := by
  cases h with
  | runSource h => exact grows_of_runSource h
  | run h => exact grows_of_run h
  | evalSource h => exact grows_of_evalSource h
  | configure config => exact ⟨.refl _, List.Subset.refl _, List.prefix_rfl⟩

theorem Reaches.grows (h : s.Reaches after) : s.Grows after := by
  induction h with
  | refl => exact .refl s
  | tail _ hstep ih => exact ih.trans hstep.grows

/-- The global scope holds no more than the session was made for. -/
theorem Reaches.size_le {config : Config} (h : (new config).Reaches after) {limit : Nat}
    (hlimit : config.maxVariables = some limit) : after.globals.bindings.size ≤ limit := by
  have hgrows := h.grows.globals
  have hfits : (new config).globals.Fits := fun _ _ => Nat.zero_le _
  exact hgrows.fits hfits limit (hgrows.capacity.trans hlimit)

theorem globals_of_evalSource {fuel : Nat} {source : String} {answer : Except Error Int64}
    (h : s.evalSource fuel source = some (answer, after)) : after.globals = s.globals := by
  rcases cases_of_evalSource h with ⟨e, -, heval⟩ | ⟨e, -, -, rfl⟩
  · obtain ⟨m, hm, rfl⟩ := exists_machine_of_perform heval
    exact congrArg Environment.scope (Eval.env_of_expr hm)
  · rfl

/-- The state of a session only grows, and in order. After any calls, each succeeding or failing and
with the limits changed in between, the global variables of before come first and in their order,
no function is forgotten, and the lines of before come first; the global scope holds no more than
the session was made for; and an evaluation leaves the global variables as they were. -/
theorem grows_in_order :
    (∀ s after : Session, s.Reaches after →
      s.globals.bindings.names <+: after.globals.bindings.names ∧
        after.globals.bindings.names.Nodup ∧ s.functions.names ⊆ after.functions.names ∧
          s.output.toList <+: after.output.toList) ∧
      (∀ config (after : Session) limit, (new config).Reaches after →
        config.maxVariables = some limit → after.globals.bindings.size ≤ limit) ∧
      ∀ (s : Session) fuel source answer after, s.evalSource fuel source = some (answer, after) →
        after.globals = s.globals := by
  refine ⟨fun s after h => ?_, fun config after limit h hlimit => h.size_le hlimit,
    fun s fuel source answer after h => globals_of_evalSource h⟩
  obtain ⟨hglobals, hfunctions, houtput⟩ := h.grows
  exact ⟨hglobals.names, after.globals.bindings.nodup_names, hfunctions, houtput⟩

/-- A session made for two variables has no room for a third one, even under a laxer limit, and
keeps the ones it has when an expression calls a function that assigns. -/
theorem grows_in_order_full :
    ∃ full after : Session,
      (new ⟨4, 64, some 2⟩).runSource 60 "function f(a) { x = a; return x; } x = 1; y = 2; z = 3;"
        "f" = some (.error ⟨.capacityExceeded 2, ⟨"f", 49⟩⟩, full) ∧
      { full with config := .standard }.evalSource 60 "f(7)" = some (.ok 7, after) ∧
        ["x", "y"] <+: after.globals.bindings.names ∧ after.globals.bindings.size ≤ 2 ∧
          after.globals = full.globals := by
  obtain ⟨hgrows, hsize, heval⟩ := grows_in_order
  have hfull : ((new ⟨4, 64, some 2⟩).runSource 60
      "function f(a) { x = a; return x; } x = 1; y = 2; z = 3;" "f").map
        (fun run => (run.1, run.2.globals.bindings.names,
          ({ run.2 with config := .standard }.evalSource 60 "f(7)").map Prod.fst)) =
      some (.error ⟨.capacityExceeded 2, ⟨"f", 49⟩⟩, ["x", "y"], some (.ok 7)) := by
    rw [runSource, parseProgram, Parse.onSource, Cursor.start_of_toList ?chars]
    case chars => exact String.toList_ofList
    decide +kernel
  obtain ⟨⟨answer, full⟩, hrun, hfull⟩ := Option.map_eq_some_iff.mp hfull
  obtain ⟨rfl, hnames, hends⟩ : answer = _ ∧ full.globals.bindings.names = ["x", "y"] ∧
      ({ full with config := .standard }.evalSource 60 "f(7)").map Prod.fst = some (.ok 7) := by
    simpa only [Prod.mk.injEq] using hfull
  obtain ⟨⟨value, after⟩, hafter, rfl⟩ := Option.map_eq_some_iff.mp hends
  -- from the new session to the full one, and on to the last one under the other limits
  have hreaches : (new ⟨4, 64, some 2⟩).Reaches full := .single (.runSource hrun)
  have hlast : full.Reaches after :=
    .tail (.single (.configure full .standard)) (.evalSource hafter)
  refine ⟨full, after, hrun, hafter, ?_, hsize _ _ _ (hreaches.trans hlast) rfl,
    heval { full with config := .standard } 60 "f(7)" (.ok 7) after hafter⟩
  rw [← hnames]
  exact (hgrows full after hlast).1

end Session

end IntLang
