import IntLang.Proofs.Eval.Bounded
import IntLang.Proofs.Grammar.CorrectPrefix

/-!
The limit of the parser bounds the nesting of evaluation. What has been parsed opens no more levels
than the parser allows for it, and a call begins anew. So as long as all functions of a session come
from parsed sources, and the nesting limit leaves room for the levels of all calls that may be open,
only the limit on calls can be reached.
-/
namespace IntLang

/-- An error before running is about none of its limits. -/
theorem Error.sparesLevels_of_stage {config : Config} {e : Error} (h : e.stage ≠ .running) :
    e.SparesLevels config := by
  intro limit hcause
  refine absurd ?_ h
  rw [stage, hcause]
  rfl

namespace Session

def Parsed (s : Session) : Prop := s.functions.AllDeclared

/-- Functions from parsed sources are left, and under a roomy limit no failure at it. -/
def EndsWell (s : Session) (answer : Except Error α) (after : Session) : Prop :=
  after.Parsed ∧ (s.config.Roomy → ∀ e, answer = .error e → e.SparesLevels s.config)

variable {s after : Session}

theorem parsed_new (config : Config) : (new config).Parsed := nofun

theorem Parsed.ready (h : s.Parsed) : s.machine.Ready levelsPerCall := by
  refine ⟨h, ?_⟩
  show 0 + levelsPerCall ≤ levelsPerCall * (0 + 1)
  omega

theorem Parsed.endsWell_perform (h : s.Parsed) {x : Recorded α}
    (hx : x.Bounded s.config levelsPerCall) {answer : Except Error α}
    (hperform : s.perform x.run = some (answer, after)) : s.EndsWell answer after := by
  constructor
  · obtain ⟨m, hm, rfl⟩ := exists_machine_of_perform hperform
    exact (hx.keeps s.machine m h hm).2
  · rintro hroomy e rfl
    rcases perform_eq_some_iff.mp hperform with ⟨a, m, -, hanswer, -⟩ | ⟨e', m, hrun, hanswer, -⟩
    · cases hanswer
    · cases hanswer
      exact hx.spares hroomy s.machine e m h.ready (Nat.zero_le _) hrun

/-- A source that cannot be parsed changes nothing and reaches no limit of evaluation. -/
theorem Parsed.endsWell_unparsed (h : s.Parsed) {e : Error} (he : e.stage ≠ .running) :
    s.EndsWell (.error e : Except Error α) s := by
  refine ⟨h, fun _ e' heq => ?_⟩
  cases heq
  exact Error.sparesLevels_of_stage he

theorem Parsed.endsWell_runSource (h : s.Parsed) {fuel : Nat} {source file : String}
    {answer : Except Error Int64} (hrun : s.runSource fuel source file = some (answer, after)) :
    s.EndsWell answer after := by
  rcases cases_of_runSource hrun with ⟨b, hparse, hrun⟩ | ⟨e, hparse, rfl, rfl⟩
  · rw [run, ← Recorded.run_program] at hrun
    exact h.endsWell_perform (Recorded.bounded_program hparse s.config fuel) hrun
  · exact h.endsWell_unparsed (stage_of_parseProgram_error hparse)

theorem Parsed.endsWell_evalSource (h : s.Parsed) {fuel : Nat} {source : String}
    {answer : Except Error Int64} (heval : s.evalSource fuel source = some (answer, after)) :
    s.EndsWell answer after := by
  rcases cases_of_evalSource heval with ⟨e, hparse, heval⟩ | ⟨e, hparse, rfl, rfl⟩
  · rw [← Recorded.run_expr] at heval
    exact h.endsWell_perform (Recorded.bounded_expr hparse s.config fuel) heval
  · exact h.endsWell_unparsed (stage_of_parseExpr_error hparse)

/-- The limit of the parser bounds the nesting of evaluation, in a session whose functions come from
parsed sources, as they do in a new one and after every run. If the nesting limit leaves room for
twice the levels of the parser for each open call and for what is run, only the limit on calls can
be reached; and at every moment no more levels than these are open. -/
theorem nesting_bounded :
    (∀ config, (new config).Parsed) ∧ ∀ s : Session, s.Parsed →
      (∀ fuel source file answer after, s.runSource fuel source file = some (answer, after) →
        after.Parsed ∧
          (2 * Parse.maxDepth * (s.config.maxCallDepth + 1) ≤ s.config.nestingLimit →
            ∀ e, answer = .error e → e.cause ≠ .recursionLimit s.config.nestingLimit ∧
              ∀ limit, e.cause = .recursionLimit limit → limit = s.config.maxCallDepth)) ∧
      (∀ fuel source answer after, s.evalSource fuel source = some (answer, after) →
        after.Parsed ∧
          (2 * Parse.maxDepth * (s.config.maxCallDepth + 1) ≤ s.config.nestingLimit →
            ∀ e, answer = .error e → e.cause ≠ .recursionLimit s.config.nestingLimit ∧
              ∀ limit, e.cause = .recursionLimit limit → limit = s.config.maxCallDepth)) ∧
      (∀ fuel source file b, parseProgram source file = .ok b → ∃ record : Recorded Int64,
        record = Eval.program s.config fuel 0 b.body ∧
          record.run = Eval.program s.config fuel 0 b.body ∧
            ∀ m ∈ s.machine :: (record s.machine).moments,
              m.nestingDepth ≤ 256 * (m.callDepth + 1)) ∧
      ∀ fuel source file e, parseExpr source file = .ok e → ∃ record : Recorded Int64,
        record = Eval.expr s.config fuel e ∧ record.run = Eval.expr s.config fuel e ∧
          ∀ m ∈ s.machine :: (record s.machine).moments,
            m.nestingDepth ≤ 256 * (m.callDepth + 1) := by
  refine ⟨parsed_new, fun s h => ⟨?_, ?_, ?_, ?_⟩⟩
  · intro fuel source file answer after hrun
    obtain ⟨hafter, hspares⟩ := h.endsWell_runSource hrun
    refine ⟨hafter, fun hroomy e he => ?_⟩
    exact ⟨Config.Roomy.ne_nestingLimit hroomy (hspares hroomy e he), hspares hroomy e he⟩
  · intro fuel source answer after heval
    obtain ⟨hafter, hspares⟩ := h.endsWell_evalSource heval
    refine ⟨hafter, fun hroomy e he => ?_⟩
    exact ⟨Config.Roomy.ne_nestingLimit hroomy (hspares hroomy e he), hspares hroomy e he⟩
  · intro fuel source file b hparse
    refine ⟨_, rfl, Recorded.run_program _ _ _ _, List.forall_mem_cons.mpr ⟨Nat.zero_le _, ?_⟩⟩
    exact (Recorded.bounded_program hparse s.config fuel).within s.machine h.ready
  · intro fuel source file e hparse
    refine ⟨_, rfl, Recorded.run_expr _ _ _, List.forall_mem_cons.mpr ⟨Nat.zero_le _, ?_⟩⟩
    exact (Recorded.bounded_expr hparse s.config fuel).within s.machine h.ready

/-- With one call and as many levels as it may need, endless recursion ends at the limit on
calls. -/
theorem nesting_bounded_endless :
    ∃ e after, (new ⟨1, 512, none⟩).runSource 90 "function f(a) { return f(a + 1); } f(0);" "f" =
      some (.error e, after) ∧ e.cause = .recursionLimit 1 ∧ e.cause ≠ .recursionLimit 512 := by
  obtain ⟨hnew, hparsed⟩ := nesting_bounded
  obtain ⟨hrun, -⟩ := hparsed (new ⟨1, 512, none⟩) (hnew _)
  have hends : ((new ⟨1, 512, none⟩).runSource 90 "function f(a) { return f(a + 1); } f(0);"
      "f").map (fun run => (run.1.map fun _ => ()).mapError Error.cause) =
        some (.error (.recursionLimit 1)) := by
    rw [runSource, parseProgram, Parse.onSource, Cursor.start_of_toList ?chars]
    case chars => exact String.toList_ofList
    decide +kernel
  obtain ⟨⟨answer, after⟩, hends, hanswer⟩ := Option.map_eq_some_iff.mp hends
  cases answer with
  | ok value => cases hanswer
  | error e =>
    obtain ⟨-, hlimits⟩ := hrun _ _ _ _ _ hends
    exact ⟨e, after, hends, Except.error.inj hanswer, (hlimits (by decide) e rfl).1⟩

end Session

end IntLang
