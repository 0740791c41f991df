import IntLang.Expr.Basic
import IntLang.Grammar.Parse
import IntLang.Text.Decimal

/-!
Reading expressions. An operand is read by the rule of its first token; then, as long as the
current token binds tighter than the given power, it joins the expression read so far to a further
operand, which is read at the token's own power. So an operator takes to its left all that binds at
least as tightly, and equal operators group to the left.

The parts of an expression are read by a parameter, `sub`: the reader for expressions one nesting
level further in. The reader of expressions itself goes down on the number of levels that may still
be opened.
-/
namespace IntLang.Parse

variable {σ : Type} [TokenSource σ]

def literal : ParseOn σ Expr := do
  match (← peek).kind with
  | .number =>
    let t ← advance
    match integer? t.text.toList with
    | some value => pure (.number value t.span)
    | none => throw ⟨.numberOutOfRange t.text, t.position⟩
  | .string =>
    let t ← advance
    pure (.string t.text t.span)
  | _ => unexpected

def argumentRounds (sub : BindingPower → ParseOn σ Expr) : Nat → ParseOn σ (List Expr)
  | 0 => pure []
  | n + 1 => do
    let first ← sub .lowest
    if (← peek).kind = .comma then
      let _ ← advance
      let more ← argumentRounds sub n
      pure (first :: more)
    else pure [first]

def arguments (sub : BindingPower → ParseOn σ Expr) : ParseOn σ (List Expr) := do
  if (← peek).kind = .closeParen then pure [] else argumentRounds sub (← rounds)

def call (sub : BindingPower → ParseOn σ Expr) (callee : Token) : ParseOn σ Expr := do
  let _ ← expect .openParen
  let args ← arguments sub
  let close ← expect .closeParen
  pure (.call callee.text args (callee.span.through close.span))

/-- Reads what follows an identifier that has been taken: an opening parenthesis makes it a call,
anything else leaves it a variable. -/
def symbolTail (sub : BindingPower → ParseOn σ Expr) (name : Token) : ParseOn σ Expr := do
  if (← peek).kind = .openParen then call sub name
  else pure (.var name.text name.span)

def symbol (sub : BindingPower → ParseOn σ Expr) : ParseOn σ Expr := do
  let name ← expect .identifier
  symbolTail sub name

def group (sub : BindingPower → ParseOn σ Expr) : ParseOn σ Expr := do
  let _ ← advance
  let e ← sub .lowest
  let _ ← expect .closeParen
  pure e

def operandBy (sub : BindingPower → ParseOn σ Expr) : OperandRule → ParseOn σ Expr
  | .literal => literal
  | .symbol => symbol sub
  | .group => group sub

def operand (rules : Rules) (sub : BindingPower → ParseOn σ Expr) : ParseOn σ Expr := do
  match rules.operand? (← peek).kind with
  | some rule => operandBy sub rule
  | none => unexpected

def binary (sub : BindingPower → ParseOn σ Expr) (left : Expr) (power : BindingPower) :
    ParseOn σ Expr := do
  let sign ← advance
  match Operator.ofKind? sign.kind with
  | some operator =>
    let right ← sub power
    pure (.binary operator left right (left.span.through right.span))
  | none => throw ⟨.unexpectedToken sign.text, sign.position⟩

def operatorRounds (rules : Rules) (sub : BindingPower → ParseOn σ Expr) (power : BindingPower) :
    Nat → Expr → ParseOn σ Expr
  | 0, left => pure left
  | n + 1, left => do
    let kind := (← peek).kind
    if (rules.power kind).tighter power then
      if rules.joins kind then
        let joined ← binary sub left (rules.power kind)
        operatorRounds rules sub power n joined
      else unexpected
    else pure left

/-- Continues an expression as long as the current token binds tighter than the given power. -/
def operators (rules : Rules) (sub : BindingPower → ParseOn σ Expr) (power : BindingPower)
    (left : Expr) : ParseOn σ Expr := do
  operatorRounds rules sub power (← rounds) left

/-- Reads an expression whose operators bind tighter than the given power, with at most `room`
nesting levels, its own included. -/
def expr (rules : Rules) : (room : Nat) → BindingPower → ParseOn σ Expr
  | 0, _ => tooDeep
  | room + 1, power => do
    let left ← operand rules (expr rules room)
    operators rules (expr rules room) power left

end IntLang.Parse
