import IntLang.Proofs.Semantics.BigStep

/-!
The semantics is deterministic: an expression, a statement and a program have at most one result and
leave at most one environment and world. Two derivations begin with the same part; it has the same
result in both, so they go on by the same rule.
-/
namespace IntLang

mutual

theorem Evaluates.unique {room env w e r w₁} : Evaluates room env w e r w₁ →
    ∀ r' w₂, Evaluates room env w e r' w₂ → r = r' ∧ w₁ = w₂
  | .number, _, _, h' => by cases h'; exact ⟨rfl, rfl⟩
  | .string, _, _, h' => by cases h'; exact ⟨rfl, rfl⟩
  | .var, _, _, h' => by cases h'; exact ⟨rfl, rfl⟩
  | .leftFails ha, _, _, h' => by
    have hleft := ha.unique
    cases h' <;> grind
  | .rightFails ha hb, _, _, h' => by
    have hleft := ha.unique
    have hright := hb.unique
    cases h' <;> grind
  | .binary ha hb, _, _, h' => by
    have hleft := ha.unique
    have hright := hb.unique
    cases h' <;> grind
  | .undefined hf hbuiltin, _, _, h' => by cases h' <;> grind
  | .printFails hf hbuiltin hes, _, _, h' => by
    have hall := hes.unique
    cases h' <;> grind
  | .print hf hbuiltin hes, _, _, h' => by
    have hall := hes.unique
    cases h' <;> grind
  | .arity hf harity, _, _, h' => by cases h' <;> grind
  | .argumentFails hf harity hes, _, _, h' => by
    have hall := hes.unique
    cases h' <;> grind
  | .noRoom hf harity hes hscope, _, _, h' => by
    have hall := hes.unique
    cases h' <;> grind
  | .call hf harity hes hscope hbody, _, _, h' => by
    have hall := hes.unique
    have hinside := hbody.unique
    cases h' <;> grind
termination_by structural h => h

theorem EvaluatesAll.unique {room env w es r w₁} : EvaluatesAll room env w es r w₁ →
    ∀ r' w₂, EvaluatesAll room env w es r' w₂ → r = r' ∧ w₁ = w₂
  | .nil, _, _, h' => by cases h'; exact ⟨rfl, rfl⟩
  | .fails he, _, _, h' => by
    have hfirst := he.unique
    cases h' <;> grind
  | .cons he hes, _, _, h' => by
    have hfirst := he.unique
    have hrest := hes.unique
    cases h' <;> grind
termination_by structural h => h

theorem Shows.unique {room env w es r w₁} : Shows room env w es r w₁ →
    ∀ r' w₂, Shows room env w es r' w₂ → r = r' ∧ w₁ = w₂
  | .nil, _, _, h' => by cases h'; exact ⟨rfl, rfl⟩
  | .text hes, _, _, h' => by
    have hrest := hes.unique
    cases h' <;> grind [Expr.isString]
  | .fails hstring he, _, _, h' => by
    have hfirst := he.unique
    cases h' <;> grind [Expr.isString]
  | .value hstring he hes, _, _, h' => by
    have hfirst := he.unique
    have hrest := hes.unique
    cases h' <;> grind [Expr.isString]
termination_by structural h => h

theorem Executes.unique {room env w s r env₁ w₁} : Executes room env w s r env₁ w₁ →
    ∀ r' env₂ w₂, Executes room env w s r' env₂ w₂ → r = r' ∧ env₁ = env₂ ∧ w₁ = w₂
  | .expressionFails he, _, _, _, h' | .expression he, _, _, _, h'
  | .valueFails he, _, _, _, h' | .noRoom he _, _, _, _, h' | .assign he _, _, _, _, h'
  | .ifThenFails he, _, _, _, h' | .ifThenSkip he, _, _, _, h' | .ifElseFails he, _, _, _, h'
  | .retFails he, _, _, _, h' | .ret he, _, _, _, h' => by
    have hfirst := he.unique
    cases h' <;> grind
  | .block hbody, _, _, _, h' => by
    cases h' with
    | block hbody' => exact hbody.unique _ _ _ hbody'
  | .ifThen he hvalue hs, _, _, _, h' | .ifElse he hvalue hs, _, _, _, h' => by
    have hfirst := he.unique
    have hbranch := hs.unique
    cases h' <;> grind
  | .ifElseZero he hs, _, _, _, h' => by
    have hfirst := he.unique
    have hbranch := hs.unique
    cases h' <;> grind
  | .loop hloop, _, _, _, h' => by
    cases h' with
    | loop hloop' => exact hloop.unique _ _ _ hloop'
  | .function, _, _, _, h' => by cases h'; exact ⟨rfl, rfl, rfl⟩
termination_by structural h => h

theorem ExecutesAll.unique {room env w ss r env₁ w₁} : ExecutesAll room env w ss r env₁ w₁ →
    ∀ r' env₂ w₂, ExecutesAll room env w ss r' env₂ w₂ → r = r' ∧ env₁ = env₂ ∧ w₁ = w₂
  | .nil, _, _, _, h' => by cases h'; exact ⟨rfl, rfl, rfl⟩
  | .exit hs, _, _, _, h' => by
    have hfirst := hs.unique
    cases h' <;> grind
  | .cons hs hss, _, _, _, h' => by
    have hfirst := hs.unique
    have hrest := hss.unique
    cases h' <;> grind
termination_by structural h => h

theorem Repeats.unique {room env w e s r env₁ w₁} : Repeats room env w e s r env₁ w₁ →
    ∀ r' env₂ w₂, Repeats room env w e s r' env₂ w₂ → r = r' ∧ env₁ = env₂ ∧ w₁ = w₂
  | .fails he, _, _, _, h' | .stop he, _, _, _, h' => by
    have hfirst := he.unique
    cases h' <;> grind
  | .exit he hvalue hs, _, _, _, h' => by
    have hfirst := he.unique
    have hbody := hs.unique
    cases h' <;> grind
  | .again he hvalue hs hloop, _, _, _, h' => by
    have hfirst := he.unique
    have hbody := hs.unique
    have hrest := hloop.unique
    cases h' <;> grind
termination_by structural h => h

end

theorem Runs.unique {room env w last ss r env₁ w₁} (h : Runs room env w last ss r env₁ w₁) :
    ∀ r' env₂ w₂, Runs room env w last ss r' env₂ w₂ → r = r' ∧ env₁ = env₂ ∧ w₁ = w₂ := by
  induction h with
  | nil =>
    intro r' env₂ w₂ h'
    cases h'
    exact ⟨rfl, rfl, rfl⟩
  | fails he =>
    intro r' env₂ w₂ h'
    have hfirst := he.unique
    cases h' <;> grind [Stmt.isExpression]
  | expression he hss ih =>
    intro r' env₂ w₂ h'
    have hfirst := he.unique
    cases h' <;> grind [Stmt.isExpression]
  | exit hexpression hs =>
    intro r' env₂ w₂ h'
    have hfirst := hs.unique
    cases h' <;> grind [Stmt.isExpression]
  | statement hexpression hs hss ih =>
    intro r' env₂ w₂ h'
    have hfirst := hs.unique
    cases h' <;> grind [Stmt.isExpression]

end IntLang
