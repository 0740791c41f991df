import IntLang.Expr.Basic
import IntLang.Text.Quoted

/-!
The printed form of an expression. Every operator stands in parentheses of its own, so that the
printed form shows the tree, and strings stand in quotes.
-/
namespace IntLang

namespace Expr

mutual

def print : Expr → String
  | number value _ => toString value.toInt
  | string text _ => quote text
  | var name _ => name
  | binary operator left right _ =>
    "(" ++ left.print ++ " " ++ operator.sign ++ " " ++ right.print ++ ")"
  | call callee arguments _ => callee ++ "(" ++ printList arguments ++ ")"

def printList : List Expr → String
  | [] => ""
  | [e] => e.print
  | e :: f :: es => e.print ++ ", " ++ printList (f :: es)

end

/-- Operators with their right operands as text, each with the parenthesis that closes it. -/
def printLinks : List (Operator × Expr) → String
  | [] => ""
  | (operator, right) :: links =>
    " " ++ operator.sign ++ " " ++ right.print ++ ")" ++ printLinks links

/-- Going through a chain of operators from its first operand on prints the chain, if as many
parentheses are opened in front of the operand as there are operators. -/
theorem print_chainOnto (e : Expr) (links : List (Operator × Expr)) :
    String.ofList (List.replicate (e.chainOnto links).2.length '(') ++
        (e.chainOnto links).1.print ++ printLinks (e.chainOnto links).2 =
      String.ofList (List.replicate links.length '(') ++ e.print ++ printLinks links := by
  match e with
  | binary operator left right _ =>
    have hopened : String.ofList (List.replicate (links.length + 1) '(') =
        String.ofList (List.replicate links.length '(') ++ "(" := by
      rw [List.replicate_succ', String.ofList_append]
    rw [chainOnto, print_chainOnto left, List.length_cons, hopened, printLinks, print]
    simp only [String.append_assoc]
  | number .. | string .. | var .. | call .. => rfl

end Expr

end IntLang
