import IntLang.Proofs.Grammar.Alike
import IntLang.Proofs.Grammar.Bare

/-!
Layout and positions do not influence behaviour. Two sources whose tokens have the same kinds and
texts, whatever stands between them and whatever the sources are called, are the same program up to
spans or fail to be one for the same reason at the same token; and their runs have the same effects
and end with the same value, or with the same error at the same token.
-/
namespace IntLang

variable {L : Leeway} {place : Position → Position → Prop}

mutual

theorem Expr.Alike.bare_eq {e e' : Expr} (h : e.Alike place e') : e.bare = e'.bare := by
  match h with
  | .number _ | .string _ | .var _ => rfl
  | .binary hleft hright _ => rw [Expr.bare, Expr.bare, hleft.bare_eq, hright.bare_eq]
  | .call hes _ => rw [Expr.bare, Expr.bare, hes.bareList_eq]

theorem Expr.AllAlike.bareList_eq {es es' : List Expr} (h : Expr.AllAlike place es es') :
    Expr.bareList es = Expr.bareList es' := by
  match h with
  | .nil => rfl
  | .cons he hes => rw [Expr.bareList, Expr.bareList, he.bare_eq, hes.bareList_eq]

end

mutual

theorem Stmt.Alike.bare_eq (hdead : ¬L.dead) {s s' : Stmt} (h : s.Alike L s') :
    s.bare = s'.bare := by
  match h with
  | .expression he _ => rw [Stmt.bare, Stmt.bare, he.bare_eq]
  | .assign he _ => rw [Stmt.bare, Stmt.bare, he.bare_eq]
  | .block hbody _ => rw [Stmt.bare, Stmt.bare, hbody.bareList_eq hdead]
  | .ifThen he hs _ => rw [Stmt.bare, Stmt.bare, he.bare_eq, hs.bare_eq hdead]
  | .ifElse he hs ht _ =>
    rw [Stmt.bare, Stmt.bare, he.bare_eq, hs.bare_eq hdead, ht.bare_eq hdead]
  | .loop he hs _ => rw [Stmt.bare, Stmt.bare, he.bare_eq, hs.bare_eq hdead]
  | .ret he _ => rw [Stmt.bare, Stmt.bare, he.bare_eq]
  | .function hbody _ _ => rw [Stmt.bare, Stmt.bare, hbody.bareList_eq hdead]

/-- Statements that differ in nothing but positions are equal up to spans. -/
theorem Stmt.AllAlike.bareList_eq (hdead : ¬L.dead) {ss ss' : List Stmt}
    (h : Stmt.AllAlike L ss ss') : Stmt.bareList ss = Stmt.bareList ss' := by
  match h with
  | .nil => rfl
  | .cons hs hss => rw [Stmt.bareList, Stmt.bareList, hs.bare_eq hdead, hss.bareList_eq hdead]
  | .dead hallowed _ _ => exact absurd hallowed hdead

end

def Function.bare (f : Function) : Function :=
  ⟨f.name, f.parameters, ⟨Stmt.bareList f.body.body, .blank⟩⟩

theorem Function.Alike.bare_eq (hdead : ¬L.dead) {f g : Function} (h : f.Alike L g) :
    f.bare = g.bare := by
  rw [Function.bare, Function.bare, h.name, h.parameters, h.body.bareList_eq hdead]

def Table.bareFunctions (functions : Table Function) : List (String × Function) :=
  functions.entries.map fun (name, f) => (name, f.bare)

theorem Table.Alike.bareFunctions_eq (hdead : ¬L.dead) {functions functions' : Table Function}
    (h : functions.Alike L functions') : functions.bareFunctions = functions'.bareFunctions := by
  unfold Table.Alike at h
  unfold bareFunctions
  generalize functions.entries = entries, functions'.entries = entries' at h
  induction h with
  | nil => rfl
  | @cons entry entry' rest rest' hentry _ ih =>
    obtain ⟨name, f⟩ := entry
    obtain ⟨name', f'⟩ := entry'
    obtain ⟨rfl, hf⟩ := hentry
    have hbare : f.bare = f'.bare := hf.bare_eq hdead
    simp only [List.map_cons, ih, hbare]

namespace Session

/-- Two sources that say the same are the same program up to spans, or the same is wrong with both
at the same token. Their runs in new sessions leave the same variables and lines, and functions that
are the same up to spans; they end with the same value or with the same error at the same token. -/
theorem runSource_layout (config : Config) (fuel : Nat) {source source' file file' : String}
    {ts ts' : List Token} (h : tokenize source file = .ok ts)
    (h' : tokenize source' file' = .ok ts') (hwords : ts.map Token.word = ts'.map Token.word) :
    AnswersAlike (SameIndex ts ts')
        ((parseProgram source file).map fun b => Stmt.bareList b.body)
        ((parseProgram source' file').map fun b => Stmt.bareList b.body) ∧
      Option.Rel (fun r r' => AnswersAlike (SameIndex ts ts') r.1 r'.1 ∧
          r.2.globals = r'.2.globals ∧ r.2.output = r'.2.output ∧
            r.2.functions.bareFunctions = r'.2.functions.bareFunctions)
        ((new config).runSource fuel source file) ((new config).runSource fuel source' file') := by
  have hfresh : (new config).Alike ⟨SameIndex ts ts', False⟩ (new config) :=
    ⟨rfl, rfl, .nil, rfl, rfl, rfl⟩
  unfold runSource
  rcases parseProgram_alike h h' hwords with ⟨b, b', hb, hb', hbody⟩ | ⟨e, e', he, he', halike⟩
  · rw [hb, hb']
    constructor
    · change AnswersAlike _ (.ok (Stmt.bareList b.body)) (.ok (Stmt.bareList b'.body))
      rw [hbody.bareList_eq id]
      exact .ok
    · have hruns := hfresh.run fuel hbody
      dsimp only
      generalize (new config).run fuel b = first, (new config).run fuel b' = second at hruns
      cases hruns with
      | none => exact .none
      | some hr =>
        obtain ⟨hanswer, hafter⟩ := hr
        exact .some ⟨hanswer, hafter.globals, hafter.output,
          hafter.functions.bareFunctions_eq id⟩
  · rw [he, he']
    exact ⟨.error halike, .some ⟨.error halike, rfl, rfl, rfl⟩⟩

/-- Blanks, a comment and another spelling of the tabulator leave a program as it was: it prints the
tabulator and then divides by zero, in both sources at the token of the same index. -/
theorem runSource_layout_tabulator :
    ∃ ts ts' e e' after after', tokenize "print(\"\\t\");x=1/0;" "f" = .ok ts ∧
      tokenize "print(\"\\x09\"); // a tabulator\nx = 1 / 0;" "g" = .ok ts' ∧
        (new .standard).runSource 30 "print(\"\\t\");x=1/0;" "f" = some (.error e, after) ∧
          (new .standard).runSource 30 "print(\"\\x09\"); // a tabulator\nx = 1 / 0;" "g" =
            some (.error e', after') ∧ e'.cause = .divisionByZero ∧
              SameIndex ts ts' e.position e'.position ∧ after'.output = #["\t"] := by
  have hwords : (tokenize "print(\"\\t\");x=1/0;" "f").toOption.map (List.map Token.word) =
      (tokenize "print(\"\\x09\"); // a tabulator\nx = 1 / 0;" "g").toOption.map
        (List.map Token.word) := by
    rw [tokenize, tokenize, Cursor.start_of_toList ?chars, Cursor.start_of_toList ?chars']
    case chars | chars' => exact String.toList_ofList
    decide +kernel
  have hends : ((new .standard).runSource 30 "print(\"\\t\");x=1/0;" "f").map
      (fun r => (r.1.mapError Error.cause, r.2.output)) =
        some (.error .divisionByZero, #["\t"]) := by
    decide +kernel
  cases h : tokenize "print(\"\\t\");x=1/0;" "f" with
  | error e =>
    have hreads : (tokenize "print(\"\\t\");x=1/0;" "f").toBool = true := by decide +kernel
    rw [h] at hreads
    cases hreads
  | ok ts =>
    cases h' : tokenize "print(\"\\x09\"); // a tabulator\nx = 1 / 0;" "g" with
    | error e =>
      rw [h, h'] at hwords
      cases hwords
    | ok ts' =>
      rw [h, h'] at hwords
      obtain ⟨-, hruns⟩ := runSource_layout .standard 30 h h' (Option.some.inj hwords)
      obtain ⟨⟨answer, after⟩, hrun, hanswer⟩ := Option.map_eq_some_iff.mp hends
      obtain ⟨hcause, houtput⟩ := Prod.mk.inj hanswer
      rw [hrun] at hruns ⊢
      generalize (new .standard).runSource 30 _ "g" = second at hruns ⊢
      cases hruns with
      | @some _ r' hr =>
        obtain ⟨answer', after'⟩ := r'
        obtain ⟨hanswers, -, houtputs, -⟩ := hr
        cases hanswers with
        | ok => cases hcause
        | @error e e' he =>
          refine ⟨ts, ts', e, e', after, after', rfl, rfl, rfl, rfl, ?_, he.position, ?_⟩
          · exact he.cause.symm.trans (Except.error.inj hcause)
          · exact houtputs.symm.trans houtput

end Session

end IntLang
