import IntLang.Proofs.Eval.Blame
import IntLang.Proofs.Grammar.CorrectPrefix

/-!
The failures of a session. An error of running stands at a node of what is run or of a function that
was there before, and no other errors come from a source that can be parsed. The errors of reading
come from the other sources, and these leave the session as it was.
-/
namespace IntLang

namespace Session

variable {s after : Session} {root m n : Node} {occurs : Node → Prop} {fuel : Nat} {e : Error}
variable {program : Block}

/-- The nodes that a run may come to: those of what is run, and those of the bodies of all functions
declared before it. -/
def Occurs (s : Session) (root n : Node) : Prop :=
  root.Contains n ∨ ∃ name f, s.functions.get? name = some f ∧ (Node.block f.body).Contains n

theorem occurs_root (s : Session) (root : Node) : s.Occurs root root := Or.inl .refl

theorem Occurs.child (h : s.Occurs root m) (hn : n ∈ m.children) : s.Occurs root n := by
  rcases h with h | ⟨name, f, hf, h⟩
  · exact Or.inl (h.tail hn)
  · exact Or.inr ⟨name, f, hf, h.tail hn⟩

theorem bodiesOccur (s : Session) (root : Node) : s.functions.BodiesOccur (s.Occurs root) :=
  fun name f hf => Or.inr ⟨name, f, hf, .refl⟩

theorem standsAtNode_of_perform {x : Eval α} (hx : x.Blames s.config occurs)
    (hbodies : s.functions.BodiesOccur occurs) (h : s.perform x = some (.error e, after)) :
    e.StandsAtNode s.config occurs := by
  rcases perform_eq_some_iff.mp h with ⟨a, m, -, hanswer, -⟩ | ⟨e', m, hrun, hanswer, -⟩
  · cases hanswer
  · cases hanswer
    exact hx.blames s.machine e m hbodies hrun

theorem bodiesOccur_of_perform {x : Eval α} (hx : x.Blames s.config occurs)
    (hbodies : s.functions.BodiesOccur occurs) {answer : Except Error α}
    (h : s.perform x = some (answer, after)) : after.functions.BodiesOccur occurs := by
  obtain ⟨m, hm, rfl⟩ := exists_machine_of_perform h
  exact hx.keeps s.machine m hbodies hm

section

variable (hchild : ∀ {m n}, occurs m → n ∈ m.children → occurs n)
include hchild

theorem blames_program (config : Config) (fuel : Nat) (hprogram : occurs (.block program)) :
    (Eval.program config fuel 0 program.body : Eval Int64).Blames config occurs := by
  refine ((Eval.blaming config hchild).allKeep fuel).program (g := ()) 0 fun t ht => ?_
  exact hchild hprogram (List.mem_map_of_mem ht)

theorem blames_expr (config : Config) (fuel : Nat) {x : Expr} (hx : occurs (.expr x)) :
    (Eval.expr config fuel x : Eval Int64).Blames config occurs :=
  ((Eval.blaming config hchild).allKeep fuel).expr (g := ()) hx

theorem standsAtNode_of_run (hbodies : s.functions.BodiesOccur occurs)
    (hprogram : occurs (.block program)) (h : s.run fuel program = some (.error e, after)) :
    e.StandsAtNode s.config occurs :=
  standsAtNode_of_perform (blames_program hchild s.config fuel hprogram) hbodies h

theorem standsAtNode_of_eval (hbodies : s.functions.BodiesOccur occurs) {x : Expr}
    (hx : occurs (.expr x)) (h : s.perform (Eval.expr s.config fuel x) = some (.error e, after)) :
    e.StandsAtNode s.config occurs :=
  standsAtNode_of_perform (blames_expr hchild s.config fuel hx) hbodies h

end

/-- An error of running stands at a node of its kind: one that the program or expression consists
of, or one in the body of a function declared before, however many calls it came through. An
expression whose source cannot be parsed fails with the error of the parser. -/
theorem failure_stands_at_node :
    (∀ (s : Session) fuel program e after, s.run fuel program = some (.error e, after) →
      ∃ n, s.Occurs (.block program) n ∧ e.position = n.span.position ∧
        e.cause.Fits s.config (s.Occurs (.block program)) n) ∧
    ∀ (s : Session) fuel source e after, s.evalSource fuel source = some (.error e, after) →
      parseExpr source unnamedSource = .error e ∨
        ∃ x, parseExpr source unnamedSource = .ok x ∧
          ∃ n, s.Occurs (.expr x) n ∧ e.position = n.span.position ∧
            e.cause.Fits s.config (s.Occurs (.expr x)) n := by
  constructor
  · intro s fuel program e after h
    exact standsAtNode_of_run Occurs.child (s.bodiesOccur _) (s.occurs_root _) h
  · intro s fuel source e after h
    rcases cases_of_evalSource h with ⟨x, hparse, heval⟩ | ⟨e', hparse, heq, -⟩
    · exact Or.inr ⟨x, hparse,
        standsAtNode_of_eval Occurs.child (s.bodiesOccur _) (s.occurs_root _) heval⟩
    · cases heq
      exact Or.inl hparse

/-- A variable that a function from `lib` misses is reported there, though it is called from
`main`. -/
theorem failure_stands_at_node_library :
    ∃ e after, Session.run { new .standard with
        functions := .declare .empty
          ⟨"g", [], ⟨[.ret (.var "x" ⟨"lib", 23, 24⟩) ⟨"lib", 16, 25⟩], ⟨"lib", 13, 27⟩⟩⟩ } 20
        ⟨[.expression (.call "g" [] ⟨"main", 0, 3⟩) ⟨"main", 0, 4⟩], ⟨"main", 0, 4⟩⟩ =
          some (.error e, after) ∧
      ∃ n span, n = Node.expr (.var "x" span) ∧ e.position = n.span.position ∧
        e.position = ⟨"lib", 23⟩ := by
  obtain ⟨hrun, -⟩ := failure_stands_at_node
  let library : Session := { new .standard with
    functions := .declare .empty
      ⟨"g", [], ⟨[.ret (.var "x" ⟨"lib", 23, 24⟩) ⟨"lib", 16, 25⟩], ⟨"lib", 13, 27⟩⟩⟩ }
  let main : Block := ⟨[.expression (.call "g" [] ⟨"main", 0, 3⟩) ⟨"main", 0, 4⟩], ⟨"main", 0, 4⟩⟩
  let missing : Error := ⟨.undefinedVariable "x", ⟨"lib", 23⟩⟩
  obtain ⟨n, -, hposition, span, rfl⟩ := hrun library 20 main missing library rfl
  exact ⟨missing, library, rfl, _, span, rfl, hposition, rfl⟩

theorem stage_of_run (h : s.run fuel program = some (.error e, after)) : e.stage = .running := by
  obtain ⟨n, -, -, hfits⟩ :=
    standsAtNode_of_run Occurs.child (s.bodiesOccur _) (s.occurs_root (.block program)) h
  exact hfits.stage_eq

theorem stage_of_eval {x : Expr}
    (h : s.perform (Eval.expr s.config fuel x) = some (.error e, after)) : e.stage = .running := by
  obtain ⟨n, -, -, hfits⟩ :=
    standsAtNode_of_eval Occurs.child (s.bodiesOccur _) (s.occurs_root (.expr x)) h
  exact hfits.stage_eq

/-- What fails before running fails as the parser does and changes nothing. -/
theorem runSource_fails_early_iff {source file : String} :
    (s.runSource fuel source file = some (.error e, after) ∧ e.stage ≠ .running) ↔
      parseProgram source file = .error e ∧ after = s := by
  constructor
  · rintro ⟨h, hstage⟩
    rcases cases_of_runSource h with ⟨program, -, hrun⟩ | ⟨e', hparse, heq, rfl⟩
    · exact absurd (stage_of_run hrun) hstage
    · cases heq
      exact ⟨hparse, rfl⟩
  · rintro ⟨hparse, rfl⟩
    refine ⟨?_, stage_of_parseProgram_error hparse⟩
    simp only [runSource, hparse]

theorem evalSource_fails_early_iff {source : String} :
    (s.evalSource fuel source = some (.error e, after) ∧ e.stage ≠ .running) ↔
      parseExpr source unnamedSource = .error e ∧ after = s := by
  constructor
  · rintro ⟨h, hstage⟩
    rcases cases_of_evalSource h with ⟨x, -, heval⟩ | ⟨e', hparse, heq, rfl⟩
    · exact absurd (stage_of_eval heval) hstage
    · cases heq
      exact ⟨hparse, rfl⟩
  · rintro ⟨hparse, rfl⟩
    refine ⟨?_, stage_of_parseExpr_error hparse⟩
    simp only [evalSource, hparse]

end Session

theorem Error.stage_ne_running_iff {e : Error} :
    e.stage ≠ .running ↔ e.stage = .lexing ∨ e.stage = .parsing := by
  cases e.stage <;> decide

/-- The stages do not mix. A session fails at the stage of the lexer or the parser just where the
parser fails, with its error, and is then left as it was; a source that can be parsed fails at no
stage but that of running. The lexer fails at its own stage, and the parser never at that of
running. -/
theorem stages_apart :
    (∀ (s : Session) fuel source file,
      (∀ e after, (s.runSource fuel source file = some (.error e, after) ∧
        (e.stage = .lexing ∨ e.stage = .parsing)) ↔
          parseProgram source file = .error e ∧ after = s) ∧
      ∀ program, parseProgram source file = .ok program → ∀ e after,
        s.runSource fuel source file = some (.error e, after) → e.stage = .running) ∧
    (∀ (s : Session) fuel source,
      (∀ e after, (s.evalSource fuel source = some (.error e, after) ∧
        (e.stage = .lexing ∨ e.stage = .parsing)) ↔
          parseExpr source unnamedSource = .error e ∧ after = s) ∧
      ∀ x, parseExpr source unnamedSource = .ok x → ∀ e after,
        s.evalSource fuel source = some (.error e, after) → e.stage = .running) ∧
    (∀ source file e, tokenize source file = .error e → e.stage = .lexing) ∧
    (∀ source file e, parseProgram source file = .error e →
      e.stage = .lexing ∨ e.stage = .parsing) ∧
    ∀ source file e, parseExpr source file = .error e → e.stage = .lexing ∨ e.stage = .parsing := by
  simp only [← Error.stage_ne_running_iff]
  refine ⟨fun s fuel source file => ⟨fun e after => Session.runSource_fails_early_iff, ?_⟩,
    fun s fuel source => ⟨fun e after => Session.evalSource_fails_early_iff, ?_⟩,
    fun _ _ _ => stage_of_tokenize_error, fun _ _ _ => stage_of_parseProgram_error,
    fun _ _ _ => stage_of_parseExpr_error⟩
  · intro program hprogram e after h
    by_contra hstage
    obtain ⟨herror, -⟩ := Session.runSource_fails_early_iff.mp ⟨h, hstage⟩
    rw [hprogram] at herror
    cases herror
  · intro x hx e after h
    by_contra hstage
    obtain ⟨herror, -⟩ := Session.evalSource_fails_early_iff.mp ⟨h, hstage⟩
    rw [hx] at herror
    cases herror

/-- An assignment without a value is refused by the parser, and the session stays as it was; a
division by zero inside a function of the session is an error of running. -/
theorem stages_apart_quotient :
    (∃ e, (Session.new .standard).runSource 0 "x = ;" "f" = some (.error e, .new .standard) ∧
      e.stage = .parsing) ∧
    ∃ e after, Session.runSource { Session.new .standard with
        functions := .declare .empty ⟨"g", ["a"],
          ⟨[.ret (.binary .divide (.number 1 ⟨"lib", 23, 24⟩) (.var "a" ⟨"lib", 25, 26⟩)
            ⟨"lib", 23, 26⟩) ⟨"lib", 16, 27⟩], ⟨"lib", 14, 28⟩⟩⟩ } 40 "g(0);" "main" =
          some (.error e, after) ∧ e.stage = .running := by
  obtain ⟨hsources, -⟩ := stages_apart
  constructor
  · obtain ⟨hearly, -⟩ := hsources (.new .standard) 0 "x = ;" "f"
    have hparse : parseProgram "x = ;" "f" = .error ⟨.unexpectedToken ";", ⟨"f", 4⟩⟩ :=
      eq_error_of_map (by decide +kernel)
    obtain ⟨hrun, -⟩ := (hearly _ _).mpr ⟨hparse, rfl⟩
    exact ⟨_, hrun, rfl⟩
  · let library : Session := { Session.new .standard with
      functions := .declare .empty ⟨"g", ["a"],
        ⟨[.ret (.binary .divide (.number 1 ⟨"lib", 23, 24⟩) (.var "a" ⟨"lib", 25, 26⟩)
          ⟨"lib", 23, 26⟩) ⟨"lib", 16, 27⟩], ⟨"lib", 14, 28⟩⟩⟩ }
    obtain ⟨-, hlate⟩ := hsources library 40 "g(0);" "main"
    have hends : (library.runSource 40 "g(0);" "main").map (·.1.toBool) = some false := by
      decide +kernel
    have hread : (parseProgram "g(0);" "main").toBool = true := by decide +kernel
    obtain ⟨⟨answer, after⟩, hrun, hfails⟩ := Option.map_eq_some_iff.mp hends
    cases hparse : parseProgram "g(0);" "main" with
    | error e =>
      rw [hparse] at hread
      cases hread
    | ok program =>
      cases answer with
      | ok value => cases hfails
      | error e => exact ⟨e, after, hrun, hlate program hparse e after hrun⟩

end IntLang
