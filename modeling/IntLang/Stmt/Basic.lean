import IntLang.Expr.Basic

/-!
Statements and blocks. A block groups statements and opens no scope. A function declaration is a
statement: it takes effect when it is executed.
-/
namespace IntLang

/-- A statement; each node carries the span it was read from. -/
inductive Stmt where
  | expression (value : Expr) (span : Span)
  | assign (name : String) (value : Expr) (span : Span)
  | block (body : List Stmt) (span : Span)
  | ifThen (condition : Expr) (thenBranch : Stmt) (span : Span)
  | ifElse (condition : Expr) (thenBranch elseBranch : Stmt) (span : Span)
  | loop (condition : Expr) (body : Stmt) (span : Span)
  /-- Ends the enclosing call, or the program, with a value. -/
  | ret (value : Expr) (span : Span)
  /-- Declares a function; `bodySpan` is the span of its body's brackets. -/
  | function (name : String) (parameters : List String) (body : List Stmt) (bodySpan span : Span)
deriving Repr

namespace Stmt

def span : Stmt → Span
  | expression _ span | assign _ _ span | block _ span | ifThen _ _ span | ifElse _ _ _ span
  | loop _ _ span | ret _ span | function _ _ _ _ span => span

def position (s : Stmt) : Position := s.span.position

end Stmt

/-- A sequence of statements and the span it was read from. -/
structure Block where
  body : List Stmt
  span : Span
deriving Repr

end IntLang
