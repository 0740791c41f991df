import IntLang.Proofs.Semantics.Complete
import IntLang.Proofs.Semantics.Unique
import IntLang.Session.Basic

/-!
Sessions against the semantics. A run that does not give up at a limit of depth ends just as the
semantics says, and whatever the semantics derives a run with fuel enough comes to, unless it gives
up at a limit of depth.
-/
namespace IntLang

namespace Session

variable {s after : Session}

def world (s : Session) : World := ⟨s.functions, s.output⟩

def GaveUp (answer : Except Error α) : Prop :=
  ∃ e, answer = .error e ∧ e.cause.isRecursionLimit = true

theorem machine_eq_place (s : Session) : s.machine = s.machine.place (.ofScope s.globals) s.world :=
  rfl

/-- An answer obeys the judgement that the computation obeys. -/
theorem judgement_of_perform {x : Eval α}
    {D : Environment → World → Except Error α → Environment → World → Prop} (hx : x.Derives D)
    {answer : Except Error α} (h : s.perform x = some (answer, after)) (hdepth : ¬GaveUp answer) :
    ∃ env, D (.ofScope s.globals) s.world answer env after.world ∧ env.scope = after.globals := by
  have hsatisfies := hx s.machine (.ofScope s.globals) s.world
  rw [← machine_eq_place] at hsatisfies
  rcases perform_eq_some_iff.mp h with ⟨a, m, hrun, rfl, rfl⟩ | ⟨e, m, hrun, rfl, rfl⟩
  · rw [hrun] at hsatisfies
    obtain ⟨env, w, rfl, hD⟩ := hsatisfies
    exact ⟨env, hD, rfl⟩
  · rw [hrun] at hsatisfies
    rcases hsatisfies with hlimit | ⟨env, w, rfl, hD⟩
    · exact absurd ⟨e, rfl, hlimit⟩ hdepth
    · exact ⟨env, hD, rfl⟩

/-- A computation that realizes a result answers with it once there is fuel enough. -/
theorem perform_of_realizes {x : Nat → Eval α} {r : Except Error α} {env : Environment} {w : World}
    (hx : Eval.Realizes x (.ofScope s.globals) s.world r env w) :
    ∃ fuel answer after, s.perform (x fuel) = some (answer, after) ∧
      (GaveUp answer ∨ answer = r ∧ after.globals = env.scope ∧ after.world = w) := by
  obtain ⟨n, hn⟩ := hx s.machine
  have hends := hn n (Nat.le_refl n)
  rw [← machine_eq_place] at hends
  cases hrun : x n s.machine with
  | done a m =>
    rw [hrun] at hends
    obtain ⟨rfl, rfl⟩ := hends
    exact ⟨n, _, _, perform_of_done hrun, Or.inr ⟨rfl, rfl, rfl⟩⟩
  | failed e m =>
    rw [hrun] at hends
    refine ⟨n, _, _, perform_of_failed hrun, ?_⟩
    rcases hends with hlimit | ⟨rfl, rfl⟩
    · exact Or.inl ⟨e, rfl, hlimit⟩
    · exact Or.inr ⟨rfl, rfl, rfl⟩
  | outOfFuel =>
    rw [hrun] at hends
    exact hends.elim

/-- Programs and expressions mean in a session what they mean in the semantics. -/
theorem run_refines (s : Session) :
    (∀ program : Block,
      (∀ fuel answer after, s.run fuel program = some (answer, after) → ¬GaveUp answer →
        ∃ env, Runs s.config.maxVariables (.ofScope s.globals) s.world 0 program.body answer env
          after.world ∧ env.scope = after.globals) ∧
      (∀ r env w, Runs s.config.maxVariables (.ofScope s.globals) s.world 0 program.body r env w →
        ∃ fuel answer after, s.run fuel program = some (answer, after) ∧
          (GaveUp answer ∨ answer = r ∧ after.globals = env.scope ∧ after.world = w)) ∧
      ∀ r env w r' env' w',
        Runs s.config.maxVariables (.ofScope s.globals) s.world 0 program.body r env w →
          Runs s.config.maxVariables (.ofScope s.globals) s.world 0 program.body r' env' w' →
            r = r' ∧ env = env' ∧ w = w') ∧
      ∀ source e, parseExpr source unnamedSource = .ok e →
        (∀ fuel answer after, s.evalSource fuel source = some (answer, after) → ¬GaveUp answer →
          Evaluates s.config.maxVariables (.ofScope s.globals) s.world e answer after.world ∧
            after.globals = s.globals) ∧
        (∀ r w, Evaluates s.config.maxVariables (.ofScope s.globals) s.world e r w →
          ∃ fuel answer after, s.evalSource fuel source = some (answer, after) ∧
            (GaveUp answer ∨ answer = r ∧ after.globals = s.globals ∧ after.world = w)) ∧
        ∀ r w r' w', Evaluates s.config.maxVariables (.ofScope s.globals) s.world e r w →
          Evaluates s.config.maxVariables (.ofScope s.globals) s.world e r' w' →
            r = r' ∧ w = w' := by
  constructor
  · intro program
    refine ⟨?_, ?_, ?_⟩
    · intro fuel answer after hrun hdepth
      exact judgement_of_perform (Sound.program s.config fuel 0 program.body) hrun hdepth
    · intro r env w hruns
      exact perform_of_realizes hruns.realizes
    · intro r env w r' env' w' hruns hruns'
      exact hruns.unique r' env' w' hruns'
  · intro source e hparse
    have heval : ∀ fuel, s.evalSource fuel source = s.perform (Eval.expr s.config fuel e) := by
      intro fuel
      simp only [evalSource, hparse]
    refine ⟨?_, ?_, ?_⟩
    · intro fuel answer after hrun hdepth
      rw [heval] at hrun
      obtain ⟨env, ⟨hevaluates, rfl⟩, hglobals⟩ :=
        judgement_of_perform ((Sound.of_fuel s.config fuel).expr e) hrun hdepth
      exact ⟨hevaluates, hglobals.symm⟩
    · intro r w hevaluates
      simp only [heval]
      exact perform_of_realizes hevaluates.realized.expr
    · intro r w r' w' hevaluates hevaluates'
      exact hevaluates.unique r' w' hevaluates'

/-- The semantics derives that an assignment and a call of `print` come before a `return`. -/
theorem run_refines_return :
    ∃ program : Block, parseProgram "x = 7; print(x / 2); return x - 8;" "f" = .ok program ∧
      ∃ env w, Runs none (.ofScope (.empty none)) ⟨.empty, #[]⟩ 0 program.body (.ok (-1)) env w ∧
        w.output = #["3"] := by
  obtain ⟨hprograms, -⟩ := run_refines (new .standard)
  have hends : ((new .standard).runSource 60 "x = 7; print(x / 2); return x - 8;" "f").map
      (fun answer => (answer.1.toOption, answer.2.output)) = some (some (-1), #["3"]) := by
    rw [runSource, parseProgram, Parse.onSource, Cursor.start_of_toList ?chars]
    case chars => exact String.toList_ofList
    decide +kernel
  obtain ⟨⟨answer, after⟩, hrun, hanswer⟩ := Option.map_eq_some_iff.mp hends
  obtain ⟨hvalue, houtput⟩ := Prod.mk.inj hanswer
  cases hparse : parseProgram "x = 7; print(x / 2); return x - 8;" "f" with
  | error e =>
    simp only [runSource, hparse, Option.some.injEq, Prod.mk.injEq] at hrun
    rw [← hrun.1] at hvalue
    cases hvalue
  | ok program =>
    simp only [runSource, hparse] at hrun
    cases answer with
    | error e => cases hvalue
    | ok value =>
      cases hvalue
      obtain ⟨hsound, -⟩ := hprograms program
      have hdepth : ¬GaveUp (Except.ok (-1 : Int64)) := by
        rintro ⟨e, he, -⟩
        cases he
      obtain ⟨env, hruns, -⟩ := hsound 60 _ after hrun hdepth
      exact ⟨program, rfl, env, after.world, hruns, houtput⟩

end Session

end IntLang
