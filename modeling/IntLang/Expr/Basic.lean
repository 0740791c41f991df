import IntLang.Source.Position

/-!
Expressions over 64-bit integers: literals, variables, the four arithmetic operators and calls by
name. Strings occur as arguments of a call. Parentheses leave no trace in the tree.
-/
namespace IntLang

inductive Operator where
  | add
  | subtract
  | multiply
  | divide
deriving DecidableEq, Repr

def Operator.sign : Operator → String
  | .add => "+"
  | .subtract => "-"
  | .multiply => "*"
  | .divide => "/"

/-- The result of an operator, unless it divides by zero. Arithmetic wraps around at 64 bits, and
a quotient is rounded toward zero. -/
def Operator.result? : Operator → Int64 → Int64 → Option Int64
  | .add, a, b => some (a + b)
  | .subtract, a, b => some (a - b)
  | .multiply, a, b => some (a * b)
  | .divide, a, b => if b = 0 then none else some (a / b)

/-- An expression; each node carries the span it was read from. -/
inductive Expr where
  | number (value : Int64) (span : Span)
  | string (text : String) (span : Span)
  | var (name : String) (span : Span)
  | binary (operator : Operator) (left right : Expr) (span : Span)
  | call (callee : String) (arguments : List Expr) (span : Span)
deriving Repr

namespace Expr

def span : Expr → Span
  | number _ span | string _ span | var _ span | binary _ _ _ span | call _ _ span => span

def position (e : Expr) : Position := e.span.position

/-- The first operand of a chain of operators, which is no chain itself, and the operators with
their right operands from the innermost out, followed by `links`. -/
def chainOnto : Expr → List (Operator × Expr) → Expr × List (Operator × Expr)
  | binary operator left right _, links => left.chainOnto ((operator, right) :: links)
  | e, links => (e, links)

def isBinary : Expr → Bool
  | binary .. => true
  | _ => false

theorem isBinary_chainOnto (e : Expr) (links : List (Operator × Expr)) :
    (e.chainOnto links).1.isBinary = false := by
  match e with
  | binary _ left _ _ => exact left.isBinary_chainOnto _
  | number .. | string .. | var .. | call .. => rfl

end Expr

end IntLang
