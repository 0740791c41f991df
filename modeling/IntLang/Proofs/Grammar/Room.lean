import IntLang.Grammar.Program

/-!
What the number of nesting levels decides. A reader with few levels does what the same reader does
with more, unless it fails because none is left. The parts of an expression are read by a parameter,
so each reader hands this on from its parameter, and the reader of expressions has it by induction
on the levels.
-/
namespace IntLang.Parse

/-- The first step does what the second one does unless it lacks a nesting level. -/
def Narrower (x y : Parse α) : Prop :=
  ∀ s, (∃ p u, x s = .error ⟨.nestingTooDeep maxDepth, p⟩ u) ∨ x s = y s

theorem Narrower.refl (x : Parse α) : Narrower x x := fun _ => Or.inr rfl

theorem Narrower.tooDeep (y : Parse α) : Narrower tooDeep y := fun s =>
  Or.inl ⟨s.current.position, s, rfl⟩

theorem Narrower.bind {x y : Parse α} {f g : α → Parse β} (h : Narrower x y)
    (hf : ∀ a, Narrower (f a) (g a)) : Narrower (x >>= f) (y >>= g) := by
  intro s
  change _ ∨ EStateM.bind x f s = EStateM.bind y g s
  rcases h s with ⟨p, u, hdeep⟩ | heq
  · refine Or.inl ⟨p, u, ?_⟩
    change EStateM.bind x f s = _
    unfold EStateM.bind
    rw [hdeep]
  · unfold EStateM.bind
    rw [← heq]
    cases hx : x s with
    | ok a t =>
      rcases hf a t with ⟨p, u, hdeep⟩ | hsame
      · refine Or.inl ⟨p, u, ?_⟩
        change EStateM.bind x f s = _
        unfold EStateM.bind
        rw [hx]
        exact hdeep
      · exact Or.inr hsame
    | error e t => exact Or.inr rfl

/-- What comes after a common step decides. -/
theorem Narrower.bind_left (x : Parse α) {f g : α → Parse β} (hf : ∀ a, Narrower (f a) (g a)) :
    Narrower (x >>= f) (x >>= g) :=
  (Narrower.refl x).bind hf

section Readers

variable {sub sub' : BindingPower → Parse Expr} (h : ∀ p, Narrower (sub p) (sub' p))
include h

theorem narrower_argumentRounds (n : Nat) :
    Narrower (argumentRounds sub n) (argumentRounds sub' n) := by
  induction n with
  | zero => exact .refl _
  | succ n ih =>
    unfold argumentRounds
    refine (h .lowest).bind fun first => .bind_left _ fun t => ?_
    split
    · exact .bind_left _ fun _ => ih.bind fun _ => .refl _
    · exact .refl _

theorem narrower_arguments : Narrower (arguments sub) (arguments sub') := by
  unfold arguments
  refine .bind_left _ fun t => ?_
  split
  · exact .refl _
  · exact .bind_left _ fun n => narrower_argumentRounds h n

theorem narrower_symbolTail (name : Token) :
    Narrower (symbolTail sub name) (symbolTail sub' name) := by
  unfold symbolTail call
  refine .bind_left _ fun t => ?_
  split
  · exact .bind_left _ fun _ => (narrower_arguments h).bind fun _ => .refl _
  · exact .refl _

theorem narrower_operandBy (rule : OperandRule) :
    Narrower (operandBy sub rule) (operandBy sub' rule) := by
  cases rule with
  | literal => exact .refl _
  | symbol => exact .bind_left _ fun name => narrower_symbolTail h name
  | group => exact .bind_left _ fun _ => (h .lowest).bind fun _ => .refl _

theorem narrower_operand (rules : Rules) :
    Narrower (operand rules sub) (operand rules sub') := by
  unfold operand
  refine .bind_left _ fun t => ?_
  split
  · next rule _ => exact narrower_operandBy h rule
  · exact .refl _

theorem narrower_operatorRounds (rules : Rules) (p : BindingPower) (n : Nat) (left : Expr) :
    Narrower (operatorRounds rules sub p n left) (operatorRounds rules sub' p n left) := by
  induction n generalizing left with
  | zero => exact .refl _
  | succ n ih =>
    unfold operatorRounds
    refine .bind_left _ fun t => ?_
    dsimp only
    split
    · split
      · refine Narrower.bind ?_ ih
        unfold binary
        refine .bind_left _ fun sign => ?_
        split
        · exact (h _).bind fun _ => .refl _
        · exact .refl _
      · exact .refl _
    · exact .refl _

theorem narrower_operators (rules : Rules) (p : BindingPower) (left : Expr) :
    Narrower (operators rules sub p left) (operators rules sub' p left) :=
  .bind_left _ fun n => narrower_operatorRounds h rules p n left

end Readers

/-- With more levels the reader of expressions does the same, unless it lacked one. -/
theorem narrower_expr (rules : Rules) {room more : Nat} (hle : room ≤ more) (p : BindingPower) :
    Narrower (expr rules room p) (expr rules more p) := by
  induction room generalizing more p with
  | zero => exact .tooDeep _
  | succ room ih =>
    obtain ⟨k, rfl⟩ : ∃ k, more = k + 1 := ⟨more - 1, by omega⟩
    have hsub : ∀ q, Narrower (expr rules room q) (expr rules k q) := ih (by omega)
    exact (narrower_operand hsub rules).bind fun left => narrower_operators hsub rules p left

end IntLang.Parse
