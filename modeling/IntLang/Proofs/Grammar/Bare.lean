import IntLang.Stmt.Basic

/-!
Trees up to spans. The bare form of a tree has the empty span at every node, so two trees are equal
up to spans just if their bare forms are equal.
-/
namespace IntLang

def Span.blank : Span := ⟨"", 0, 0⟩

namespace Expr

mutual

def bare : Expr → Expr
  | number value _ => .number value .blank
  | string text _ => .string text .blank
  | var name _ => .var name .blank
  | binary operator left right _ => .binary operator left.bare right.bare .blank
  | call callee arguments _ => .call callee (bareList arguments) .blank

def bareList : List Expr → List Expr
  | [] => []
  | e :: es => e.bare :: bareList es

end

theorem bareList_eq_map (es : List Expr) : bareList es = es.map bare := by
  induction es with
  | nil => rfl
  | cons e es ih => rw [bareList, ih, List.map_cons]

end Expr

namespace Stmt

mutual

def bare : Stmt → Stmt
  | expression value _ => .expression value.bare .blank
  | assign name value _ => .assign name value.bare .blank
  | block body _ => .block (bareList body) .blank
  | ifThen test thenBranch _ => .ifThen test.bare thenBranch.bare .blank
  | ifElse test thenBranch elseBranch _ => .ifElse test.bare thenBranch.bare elseBranch.bare .blank
  | loop test body _ => .loop test.bare body.bare .blank
  | ret value _ => .ret value.bare .blank
  | function name parameters body _ _ => .function name parameters (bareList body) .blank .blank

def bareList : List Stmt → List Stmt
  | [] => []
  | s :: ss => s.bare :: bareList ss

end

end Stmt

end IntLang
