import IntLang.Proofs.Eval.Recorded

/-!
The counters of open calls and open nesting levels. Every computation of the evaluator gives them
back as it found them, however it ends. A call is made only inside a nesting level and each level is
opened only below the limit, so from a machine whose counters are within the limits of a
configuration every moment of an evaluation is within them too.
-/
namespace IntLang

namespace Machine

def SameDepths (m after : Machine) : Prop :=
  after.callDepth = m.callDepth ∧ after.nestingDepth = m.nestingDepth

/-- A level that was opened is closed, and a call that was entered is left. -/
theorem progress_sameDepths : Progress SameDepths where
  refl _ := ⟨rfl, rfl⟩
  trans h₁ h₂ := ⟨h₂.1.trans h₁.1, h₂.2.trans h₁.2⟩
  assign _ := ⟨rfl, rfl⟩
  declare _ _ := ⟨rfl, rfl⟩
  emit _ _ := ⟨rfl, rfl⟩
  nested := by
    intro m inside h
    have hclosed : inside.closed.nestingDepth = inside.nestingDepth - 1 := rfl
    have hopened : m.opened.nestingDepth = m.nestingDepth + 1 := rfl
    obtain ⟨hcalls, hlevels⟩ := h
    exact ⟨hcalls, by omega⟩
  called := by
    intro m inside scope h
    have hleft : (inside.left m.env).callDepth = inside.callDepth - 1 := rfl
    have hentered : (m.entered scope).callDepth = m.callDepth + 1 := rfl
    obtain ⟨hcalls, hlevels⟩ := h
    exact ⟨by omega, hlevels⟩

end Machine

structure Machine.Within (config : Config) (m : Machine) : Prop where
  calls_le_levels : m.callDepth ≤ m.nestingDepth
  levels_le_limit : m.nestingDepth ≤ config.nestingLimit
  calls_le_limit : m.callDepth ≤ config.maxCallDepth

theorem Machine.Within.congr {config : Config} {m after : Machine} (h : m.Within config)
    (hkeeps : m.SameDepths after) : after.Within config := by
  obtain ⟨hcalls, hlevels⟩ := hkeeps
  obtain ⟨h₁, h₂, h₃⟩ := h
  exact ⟨by omega, by omega, by omega⟩

/-- A single step that opens and closes nothing. -/
def Machine.EvenStep (config : Config) (m after : Machine) : Prop :=
  m.SameDepths after ∧ m.Step config after

theorem Machine.stepwise_evenStep (config : Config) :
    Machine.Stepwise (Machine.EvenStep config) where
  refl m := ⟨⟨rfl, rfl⟩, .stays m⟩
  assign h := ⟨⟨rfl, rfl⟩, .assigns h⟩
  declare m f := ⟨⟨rfl, rfl⟩, .declares m f⟩
  emit m line := ⟨⟨rfl, rfl⟩, .prints m line⟩

namespace Eval

variable {config : Config}

theorem step_descend (p : Position) :
    Advances (Machine.Step config) (Eval.descend config p) := by
  intro m after h
  rcases machine?_descend h with rfl | ⟨hroom, rfl⟩
  · exact .stays after
  · exact .opens hroom

theorem step_enter (p : Position) (bindings : List (String × Int64)) :
    Advances (Machine.Step config) (Eval.enter config p bindings) := by
  intro m after h
  rcases machine?_enter h with rfl | ⟨hroom, scope, rfl⟩
  · exact .stays after
  · exact .enters scope hroom

end Eval

namespace Recorded

/-- A computation that keeps the counters, that goes on step by step, and that is within the limits
all the time if it begins with at least so many more levels than calls. -/
structure Steady (config : Config) (spare : Nat) (x : Recorded α) : Prop where
  keeps : x.run.Advances Machine.SameDepths
  traces : ∀ m : Machine, (x m).Traces config m
  within : ∀ m : Machine, m.Within config → m.callDepth + spare ≤ m.nestingDepth →
    ∀ t ∈ (x m).moments, t.Within config

namespace Steady

variable {config : Config} {spare : Nat}

theorem mono {x : Recorded α} (h : Steady config spare x) {more : Nat} (hle : spare ≤ more) :
    Steady config more x :=
  ⟨h.keeps, h.traces, fun m hm hspare => h.within m hm (by omega)⟩

theorem single {x : Eval α} (hx : x.Advances (Machine.EvenStep config)) :
    Steady config spare (single x) := by
  refine ⟨fun m after h => (hx m after h).1, fun m => ?_, fun m hm _ t ht => ?_⟩
  · exact .single fun after h => (hx m after h).2
  · exact hm.congr (hx m t (machine?_of_mem_single ht)).1

theorem bind {x : Recorded α} {f : α → Recorded β} (hx : Steady config spare x)
    (hf : ∀ a, Steady config spare (f a)) : Steady config spare (x.andThen f) := by
  refine ⟨?_, fun m => .andThen (hx.traces m) fun a mid _ => (hf a).traces mid, ?_⟩
  · rw [run_andThen]
    exact Eval.advances_bind Machine.progress_sameDepths hx.keeps fun a => (hf a).keeps
  · intro m hm hspare t ht
    rcases cases_of_mem_andThen ht with ht | ⟨a, mid, hrun, ht⟩
    · exact hx.within m hm hspare t ht
    · have hmid := hx.keeps m mid (by rw [hrun]; rfl)
      have ⟨hcalls, hlevels⟩ := hmid
      exact (hf a).within mid (hm.congr hmid) (by omega) t ht

/-- Inside a level there is one more level than there are calls. -/
theorem nested {x : Recorded α} (hx : Steady config 1 x) (p : Position) :
    Steady config 0 (nested config p x) := by
  refine ⟨?_, fun m => ?_, fun m hm _ t ht => ?_⟩
  · rw [run_nested]
    exact Eval.advances_nested Machine.progress_sameDepths hx.keeps config p
  · refine .andThen (.single (Eval.step_descend p m)) fun _ mid hdone => ?_
    obtain ⟨-, rfl⟩ := Eval.opened_of_descend hdone
    refine .ensuring (hx.traces m.opened) fun inside hinside => .closes ?_
    have hlevels : inside.nestingDepth = m.nestingDepth + 1 := (hx.keeps _ _ hinside).2
    omega
  · rcases cases_of_mem_nested ht with rfl | ⟨hroom, ht⟩
    · exact hm
    · have hlevels : m.opened.nestingDepth = m.nestingDepth + 1 := rfl
      have hopened : m.opened.Within config := by
        obtain ⟨h₁, h₂, h₃⟩ := hm
        exact ⟨Nat.le_succ_of_le h₁, hroom, h₃⟩
      rcases ht with rfl | ht | ⟨inside, hinside, rfl⟩
      · exact hopened
      · exact hx.within m.opened hopened (Nat.succ_le_succ hm.calls_le_levels) t ht
      · exact hm.congr (Machine.progress_sameDepths.nested (hx.keeps _ _ hinside))

/-- A call uses up the level that it stands in. -/
theorem called {x : Recorded α} (hx : Steady config 0 x) (p : Position)
    (bindings : List (String × Int64)) : Steady config 1 (called config p bindings x) := by
  refine ⟨?_, fun m => ?_, fun m hm hspare t ht => ?_⟩
  · rw [run_called]
    exact Eval.advances_called Machine.progress_sameDepths hx.keeps config p bindings
  · refine .andThen (.single (Eval.step_enter p bindings m)) fun caller mid hdone => ?_
    obtain ⟨-, rfl, scope, rfl⟩ := Eval.entered_of_enter hdone
    refine .ensuring (hx.traces _) fun inside hinside => .leaves m.env ?_
    have hcalls : inside.callDepth = m.callDepth + 1 := (hx.keeps _ _ hinside).1
    omega
  · rcases cases_of_mem_called ht with rfl | ⟨hroom, scope, ht⟩
    · exact hm
    · have hentered : (m.entered scope).Within config := by
        obtain ⟨h₁, h₂, h₃⟩ := hm
        exact ⟨hspare, h₂, hroom⟩
      rcases ht with rfl | ht | ⟨inside, hinside, rfl⟩
      · exact hentered
      · exact hx.within (m.entered scope) hentered hspare t ht
      · exact hm.congr (Machine.progress_sameDepths.called (hx.keeps _ _ hinside))

end Steady

/-- Being steady is respected by all operations. What is evaluated inside a level may use it up. -/
def steady (config : Config) : Congruence Recorded Recorded config config where
  rel x _ := Steady config 0 x
  within x _ := Steady config 1 x
  within_of_rel h := h.mono (Nat.zero_le 1)
  pure a := .single (Eval.advances_pure (Machine.stepwise_evenStep config) a)
  bind h hf := .bind h hf
  within_bind h hf := .bind h hf
  exhausted := .single nofun
  fail cause p := .single (Eval.advances_fail (Machine.stepwise_evenStep config) cause p)
  lookup name p := .single (Eval.advances_lookup (Machine.stepwise_evenStep config) name p)
  assign name value p :=
    .single (Eval.advances_assign (Machine.stepwise_evenStep config) name value p)
  function? name := .single (Eval.advances_function? (Machine.stepwise_evenStep config) name)
  declare f := .single (Eval.advances_declare (Machine.stepwise_evenStep config) f)
  emit line := .single (Eval.advances_emit (Machine.stepwise_evenStep config) line)
  nested p _ _ h := .nested h p
  called p bindings _ _ h := .called h p bindings

end Recorded

/-- Every part of the evaluator keeps both counters. -/
theorem Eval.allKeepDepths (config : Config) (fuel : Nat) :
    (advancing Machine.progress_sameDepths config).AllRelated fuel fuel :=
  (advancing Machine.progress_sameDepths config).allRelated fuel

namespace Session

open Machine (SameDepths)

def AtRest (s : Session) : Prop := s.callDepth = 0 ∧ s.nestingDepth = 0

theorem atRest_of_perform {x : Eval α} (hx : x.Advances Machine.SameDepths) {s after : Session}
    {answer : Except Error α} (h : s.perform x = some (answer, after)) : after.AtRest := by
  obtain ⟨m, hm, rfl⟩ := exists_machine_of_perform h
  exact hx s.machine m hm

theorem within_machine (s : Session) : s.machine.Within s.config :=
  ⟨Nat.le_refl 0, Nat.zero_le _, Nat.zero_le _⟩

/-- A run is within the limits from its beginning on. -/
theorem within_of_steady {s : Session} {x : Recorded α} (hx : x.Steady s.config 0) :
    ∀ m ∈ s.machine :: (x s.machine).moments, m.Within s.config :=
  List.forall_mem_cons.mpr ⟨s.within_machine, hx.within _ s.within_machine (Nat.le_refl 0)⟩

/-- The counters are given back by every part of the evaluator, are at zero after every run, and
stay within the limits at every moment of it. -/
theorem depths_balanced_and_bounded (s : Session) (config : Config) (fuel : Nat) :
    ((∀ e, Eval.Advances SameDepths (Eval.expr config fuel e)) ∧
        (∀ statement, Eval.Advances SameDepths (Eval.stmt config fuel statement)) ∧
        (∀ body, Eval.Advances SameDepths (Eval.stmts config fuel body)) ∧
        ∀ callee args p, Eval.Advances SameDepths (Eval.call config fuel callee args p)) ∧
      ((∀ program answer after, s.run fuel program = some (answer, after) → after.AtRest) ∧
        (∀ source file program answer after, parseProgram source file = .ok program →
          s.runSource fuel source file = some (answer, after) → after.AtRest) ∧
        ∀ source e answer after, parseExpr source unnamedSource = .ok e →
          s.evalSource fuel source = some (answer, after) → after.AtRest) ∧
      (∀ program : Block, ∃ record : Recorded Int64,
        record = Eval.program s.config fuel 0 program.body ∧
          record.run = Eval.program s.config fuel 0 program.body ∧
            (record s.machine).Traces s.config s.machine ∧
              ∀ m ∈ s.machine :: (record s.machine).moments, m.Within s.config) ∧
      (∀ e : Expr, ∃ record : Recorded Int64, record = Eval.expr s.config fuel e ∧
        record.run = Eval.expr s.config fuel e ∧
          (record s.machine).Traces s.config s.machine ∧
            ∀ m ∈ s.machine :: (record s.machine).moments, m.Within s.config) ∧
      s.config.nestingLimit ≤ 8192 := by
  have hrun : ∀ program answer after, s.run fuel program = some (answer, after) →
      after.AtRest := fun program answer after h =>
    atRest_of_perform ((Eval.allKeepDepths s.config fuel).program 0 program.body) h
  have hkeeps := Eval.allKeepDepths config fuel
  refine ⟨⟨hkeeps.expr, hkeeps.stmt, hkeeps.stmts, hkeeps.call⟩, ⟨hrun, ?_, ?_⟩, ?_, ?_,
    Nat.min_le_right _ _⟩
  · intro source file program answer after hparse h
    simp only [runSource, hparse] at h
    exact hrun program answer after h
  · intro source e answer after hparse h
    simp only [evalSource, hparse] at h
    exact atRest_of_perform ((Eval.allKeepDepths s.config fuel).expr e) h
  · intro program
    have hsteady := ((Recorded.steady s.config).allRelated fuel).program 0 program.body
    exact ⟨_, rfl, Recorded.run_program _ _ _ _, hsteady.traces s.machine, within_of_steady hsteady⟩
  · intro e
    have hsteady := ((Recorded.steady s.config).allRelated fuel).expr e
    exact ⟨_, rfl, Recorded.run_expr _ _ _, hsteady.traces s.machine, within_of_steady hsteady⟩

/-- A call inside another one reaches a nesting limit of three. On the way there is a moment with
one call and three levels open, and afterwards none is. -/
theorem depths_balanced_and_bounded_tooDeep :
    ∃ (program : Block) (answer : Except Error Int64) (after : Session) (record : Recorded Int64),
      parseProgram "function f(a) { return a; } f(f(1));" "f" = .ok program ∧
        (new ⟨1, 3, none⟩).run 80 program = some (answer, after) ∧ answer.toBool = false ∧
          after.AtRest ∧ record.run = Eval.program ⟨1, 3, none⟩ 80 0 program.body ∧
            ∃ m ∈ (record (new ⟨1, 3, none⟩).machine).moments,
              m.callDepth = 1 ∧ m.nestingDepth = 3 ∧ m.Within ⟨1, 3, none⟩ := by
  have hends : (parseProgram "function f(a) { return a; } f(f(1));" "f").toOption.map
      (fun program => (((new ⟨1, 3, none⟩).run 80 program).map (·.1.toBool),
        ((Eval.program ⟨1, 3, none⟩ 80 0 program.body : Recorded Int64)
          (new ⟨1, 3, none⟩).machine).moments.any
            fun m => m.callDepth == 1 && m.nestingDepth == 3)) = some (some false, true) := by
    decide +kernel
  obtain ⟨program, hparse, hends⟩ := Option.map_eq_some_iff.mp hends
  obtain ⟨hrun, hmoment⟩ := Prod.mk.inj hends
  obtain ⟨⟨answer, after⟩, hrun, hfails⟩ := Option.map_eq_some_iff.mp hrun
  obtain ⟨m, hm, hdepths⟩ := List.any_eq_true.mp hmoment
  obtain ⟨hcalls, hlevels⟩ := Bool.and_eq_true_iff.mp hdepths
  obtain ⟨-, ⟨hrest, -⟩, hprogram, -⟩ :=
    depths_balanced_and_bounded (new ⟨1, 3, none⟩) .standard 80
  obtain ⟨record, rfl, herased, -, hwithin⟩ := hprogram program
  refine ⟨program, answer, after, _, ?_, hrun, hfails, hrest program answer after hrun, herased, m,
    hm, beq_iff_eq.mp hcalls, beq_iff_eq.mp hlevels, hwithin m (List.mem_cons_of_mem _ hm)⟩
  cases hprogram : parseProgram "function f(a) { return a; } f(f(1));" "f" with
  | ok parsed =>
    rw [hprogram] at hparse
    exact congrArg Except.ok (Option.some.inj hparse)
  | error e =>
    rw [hprogram] at hparse
    cases hparse

end Session

end IntLang
