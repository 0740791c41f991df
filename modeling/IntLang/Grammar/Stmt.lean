import IntLang.Grammar.Expr
import IntLang.Stmt.Basic

/-!
Reading statements. The current token picks the form of a statement; an identifier begins an
assignment or an expression, and anything else an expression. As for expressions, the parts are
read by parameters: `sub` for expressions and `inner` for statements one nesting level further in.
-/
namespace IntLang.Parse

variable {σ : Type} [TokenSource σ]

def endExpression (e : Expr) : ParseOn σ Stmt := do
  let close ← expect .semicolon
  pure (.expression e (e.span.through close.span))

def identifierStmt (rules : Rules) (sub : BindingPower → ParseOn σ Expr) : ParseOn σ Stmt := do
  let name ← expect .identifier
  if (← peek).kind = .assign then
    let _ ← advance
    let value ← sub .lowest
    let close ← expect .semicolon
    pure (.assign name.text value (name.span.through close.span))
  else
    let left ← symbolTail sub name
    let e ← operators rules sub .lowest left
    endExpression e

def condition (sub : BindingPower → ParseOn σ Expr) : ParseOn σ Expr := do
  let _ ← expect .openParen
  let e ← sub .lowest
  let _ ← expect .closeParen
  pure e

/-- Reads a conditional. An `else` belongs to the nearest conditional that has none. -/
def branch (sub : BindingPower → ParseOn σ Expr) (inner : ParseOn σ Stmt) : ParseOn σ Stmt := do
  let word ← advance
  let test ← condition sub
  let thenBranch ← inner
  if (← peek).kind = .elseWord then
    let _ ← advance
    let elseBranch ← inner
    pure (.ifElse test thenBranch elseBranch (word.span.through elseBranch.span))
  else
    pure (.ifThen test thenBranch (word.span.through thenBranch.span))

def loop (sub : BindingPower → ParseOn σ Expr) (inner : ParseOn σ Stmt) : ParseOn σ Stmt := do
  let word ← advance
  let test ← condition sub
  let body ← inner
  pure (.loop test body (word.span.through body.span))

def ret (sub : BindingPower → ParseOn σ Expr) : ParseOn σ Stmt := do
  let word ← advance
  let value ← sub .lowest
  let close ← expect .semicolon
  pure (.ret value (word.span.through close.span))

/-- Reads statements up to a token that ends them, at most as many as given. -/
def stmtsUntil (ends : TokenKind → Bool) (inner : ParseOn σ Stmt) : Nat → ParseOn σ (List Stmt)
  | 0 => pure []
  | n + 1 => do
    if ends (← peek).kind then pure []
    else
      let first ← inner
      let more ← stmtsUntil ends inner n
      pure (first :: more)

def endsBlock (kind : TokenKind) : Bool := kind = .closeCurly || kind = .endOfSource

def block (inner : ParseOn σ Stmt) : ParseOn σ Block := do
  let start ← expect .openCurly
  let body ← stmtsUntil endsBlock inner (← rounds)
  let close ← expect .closeCurly
  pure ⟨body, start.span.through close.span⟩

/-- Reads names with commas between them after those already read, at most as many as given. No
name may come twice. -/
def parameterRounds : Nat → List String → ParseOn σ (List String)
  | 0, names => pure names
  | n + 1, names => do
    let name ← expect .identifier
    if names.contains name.text then
      throw ⟨.misplacedToken name.text "duplicate parameter name", name.position⟩
    else if (← peek).kind = .comma then
      let _ ← advance
      parameterRounds n (names ++ [name.text])
    else pure (names ++ [name.text])

def parameters : ParseOn σ (List String) := do
  if (← peek).kind = .closeParen then pure [] else parameterRounds (← rounds) []

def function (inner : ParseOn σ Stmt) : ParseOn σ Stmt := do
  let word ← advance
  let next ← peek
  let name ← expectOr .identifier
    ⟨.misplacedToken next.text "expected a function name", next.position⟩
  let _ ← expect .openParen
  let names ← parameters
  let _ ← expect .closeParen
  let body ← block inner
  pure (.function name.text names body.body body.span (word.span.through body.span))

def stmtBy (rules : Rules) (sub : BindingPower → ParseOn σ Expr) (inner : ParseOn σ Stmt) :
    StmtRule → ParseOn σ Stmt
  | .branch => branch sub inner
  | .loop => loop sub inner
  | .ret => ret sub
  | .function => function inner
  | .block => do
    let b ← block inner
    pure (.block b.body b.span)
  | .identifier => identifierStmt rules sub
  | .any => inner

def stmtHere (rules : Rules) (sub : BindingPower → ParseOn σ Expr) (inner : ParseOn σ Stmt) :
    ParseOn σ Stmt := do
  let kind := (← peek).kind
  match rules.stmt? kind with
  | some rule => stmtBy rules sub inner rule
  | none =>
    if kind = .identifier then identifierStmt rules sub
    else
      let e ← sub .lowest
      endExpression e

/-- Reads a statement with at most `room` nesting levels, its own included. -/
def stmt (rules : Rules) : (room : Nat) → ParseOn σ Stmt
  | 0 => tooDeep
  | room + 1 => stmtHere rules (expr rules room) (stmt rules room)

end IntLang.Parse
