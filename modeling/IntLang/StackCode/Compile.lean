import IntLang.StackCode.Basic

/-!
Stack code for expressions: operands from left to right, then the operator or the call. The code of
an expression leaves one value more on the stack than there was before.
-/
namespace IntLang

namespace Expr

mutual

/-- The code of an expression, followed by further code. -/
def compileOnto : Expr → List Instruction → List Instruction
  | number value _, code => .push value :: code
  | string text _, code => .pushString text :: code
  | var name _, code => .load name :: code
  | binary operator left right _, code =>
    left.compileOnto (right.compileOnto (.apply operator :: code))
  | call callee arguments _, code =>
    compileListOnto arguments (.call callee arguments.length :: code)

def compileListOnto : List Expr → List Instruction → List Instruction
  | [], code => code
  | e :: es, code => e.compileOnto (compileListOnto es code)

end

def compile (e : Expr) : List Instruction := e.compileOnto []

/-- The code that applies operators to the value on top of the stack, followed by further code. -/
def compileLinksOnto : List (Operator × Expr) → List Instruction → List Instruction
  | [], code => code
  | (operator, right) :: links, code =>
    right.compileOnto (.apply operator :: compileLinksOnto links code)

/-- Going through a chain of operators from its first operand on makes the code of the chain. -/
theorem compileOnto_chainOnto (e : Expr) (links : List (Operator × Expr))
    (code : List Instruction) :
    (e.chainOnto links).1.compileOnto (compileLinksOnto (e.chainOnto links).2 code) =
      e.compileOnto (compileLinksOnto links code) := by
  match e with
  | binary operator left right _ =>
    rw [chainOnto, compileOnto_chainOnto left, compileLinksOnto, compileOnto]
  | number .. | string .. | var .. | call .. => rfl

end Expr

end IntLang
