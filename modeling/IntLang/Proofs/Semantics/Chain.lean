import IntLang.Proofs.Semantics.BigStep

/-!
Chains of operators. The evaluator takes the operands of a chain one after the other from its first
one on; the semantics takes a chain apart from its last operator. Both come to the same result.
-/
namespace IntLang

variable {room : Option Nat} {env : Environment}

inductive Continues (room : Option Nat) (env : Environment) :
    World → Int64 → List (Operator × Expr) → Except Error Int64 → World → Prop
  | nil {w a} : Continues room env w a [] (.ok a) w
  | fails {w a operator b ls err w'} (hb : Evaluates room env w b (.error err) w') :
      Continues room env w a ((operator, b) :: ls) (.error err) w'
  | undefined {w a operator b ls y w' err} (hb : Evaluates room env w b (.ok y) w')
      (happly : operator.answer a y b.position = .error err) :
      Continues room env w a ((operator, b) :: ls) (.error err) w'
  | cons {w a operator b ls y w₁ value r w'} (hb : Evaluates room env w b (.ok y) w₁)
      (happly : operator.answer a y b.position = .ok value)
      (hls : Continues room env w₁ value ls r w') :
      Continues room env w a ((operator, b) :: ls) r w'

/-- If the first operand of a chain fails, so does the chain. -/
theorem Evaluates.of_chain_fails {w w' : World} {err : Error} (e : Expr)
    (ls : List (Operator × Expr)) (h : Evaluates room env w (e.chainOnto ls).1 (.error err) w') :
    Evaluates room env w e (.error err) w' := by
  match e with
  | .binary operator left right span =>
    rw [Expr.chainOnto] at h
    exact .leftFails (of_chain_fails left _ h)
  | .number .. | .string .. | .var .. | .call .. => exact h

/-- A chain that continues through its own operators and further ones has a value from which the
further ones go on, unless it fails. -/
theorem Evaluates.of_chain {w w₁ w' : World} {a : Int64} {r : Except Error Int64} (e : Expr)
    (ls : List (Operator × Expr)) (h : Evaluates room env w (e.chainOnto ls).1 (.ok a) w₁)
    (hls : Continues room env w₁ a (e.chainOnto ls).2 r w') :
    (∃ b w₂, Evaluates room env w e (.ok b) w₂ ∧ Continues room env w₂ b ls r w') ∨
      ∃ err, r = .error err ∧ Evaluates room env w e (.error err) w' := by
  match e with
  | .binary operator left right span =>
    rw [Expr.chainOnto] at h hls
    rcases of_chain left _ h hls with ⟨b, w₂, hleft, hcontinues⟩ | ⟨err, rfl, hleft⟩
    · cases hcontinues with
      | fails hright => exact Or.inr ⟨_, rfl, .rightFails hleft hright⟩
      | undefined hright happly =>
        have hbinary : Evaluates room env w (.binary operator left right span) _ _ :=
          .binary hleft hright
        rw [happly] at hbinary
        exact Or.inr ⟨_, rfl, hbinary⟩
      | cons hright happly hrest =>
        have hbinary : Evaluates room env w (.binary operator left right span) _ _ :=
          .binary hleft hright
        rw [happly] at hbinary
        exact Or.inl ⟨_, _, hbinary, hrest⟩
    · exact Or.inr ⟨err, rfl, .leftFails hleft⟩
  | .number .. | .string .. | .var .. | .call .. => exact Or.inl ⟨a, w₁, h, hls⟩

end IntLang
