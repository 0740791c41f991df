import IntLang.Grammar.Stmt

/-!
A parser as an object that is asked for one piece after the other. It keeps the current token and a
cursor behind it, from which the next token is read only when the current one is taken; rules that
may be changed between two requests; and a count of the nesting levels open. Each statement and each
expression opens a level and closes it again, whether it was read or not. A request that fails
leaves the tokens behind the failure to be asked for.
-/
namespace IntLang

namespace Parse

/-- A state from which tokens are taken and which counts the nesting levels open. -/
class LevelCount (σ : Type) extends TokenSource σ where
  depth : σ → Nat
  setDepth : σ → Nat → σ

variable {σ : Type} [LevelCount σ]

open LevelCount

def descend : ParseOn σ Unit := fun s =>
  if maxDepth ≤ depth s then tooDeep s else .ok () (setDepth s (depth s + 1))

def ascend (s : σ) : σ := setDepth s (depth s - 1)

/-- Performs a step and closes a level behind it, also if the step fails. -/
def closing (x : ParseOn σ α) : ParseOn σ α := fun s =>
  match x s with
  | .ok a u => .ok a (ascend u)
  | .error e u => .error e (ascend u)

def nested (x : ParseOn σ α) : ParseOn σ α := do
  descend
  closing x

/-- Reads an expression whose operators bind tighter than the given power. The recursion is on a
bound of the levels inside one another; as `descend` opens no more than `maxDepth` of them, a bound
above that is never reached. -/
def countedExpr (rules : Rules) : (bound : Nat) → BindingPower → ParseOn σ Expr
  | 0, _ => tooDeep
  | bound + 1, power => nested do
    let left ← operand rules (countedExpr rules bound)
    operators rules (countedExpr rules bound) power left

def countedStmt (rules : Rules) : (bound : Nat) → ParseOn σ Stmt
  | 0 => tooDeep
  | bound + 1 => nested (stmtHere rules (countedExpr rules bound) (countedStmt rules bound))

end Parse

/-- The rules in force, the cursor behind the current token, that token, and the number of nesting
levels open. -/
structure Parser where
  rules : Rules
  cursor : Cursor
  current : Token
  depth : Nat

namespace Parser

def ofSource (source file : String) : Except Error Parser :=
  match (Cursor.start source file).next with
  | (.ok first, c) => .ok ⟨.standard, c, first, 0⟩
  | (.error e, _) => .error e

/-- Takes the current token once the next one is read. If that fails the current token stays, and
the cursor stands in front of the character that begins no token. -/
def take (p : Parser) : EStateM.Result Error Parser Token :=
  match p.cursor.next with
  | (.ok t, c) => .ok p.current { p with cursor := c, current := t }
  | (.error e, c) => .error e { p with cursor := c }

instance : Parse.LevelCount Parser where
  current := current
  take := take
  ahead p := p.cursor.tokens.1.length
  depth := depth
  setDepth p depth := { p with depth }

def stream (p : Parser) : TokenStream :=
  ⟨p.current, p.cursor.tokens.1, p.cursor.tokens.2⟩

def power (p : Parser) : BindingPower := p.rules.power p.current.kind

def file (p : Parser) : String := p.cursor.file

/-- Performs a step and keeps the parser that it leaves, also if it fails. -/
def run (p : Parser) (step : ParseOn Parser α) : Except Error α × Parser :=
  match step p with
  | .ok a q => (.ok a, q)
  | .error e q => (.error e, q)

def advance (p : Parser) : Except Error Token × Parser := p.run Parse.advance

def expect (p : Parser) (kind : TokenKind) : Except Error Token × Parser :=
  p.run (Parse.expect kind)

def expectOr (p : Parser) (kind : TokenKind) (complaint : String) : Except Error Token × Parser :=
  p.run (Parse.expectOr kind ⟨.misplacedToken p.current.text complaint, p.current.position⟩)

def descend (p : Parser) : Except Error Unit × Parser := p.run Parse.descend

def ascend (p : Parser) : Parser := Parse.ascend p

def exprStep (p : Parser) : BindingPower → ParseOn Parser Expr :=
  Parse.countedExpr p.rules (Parse.maxDepth + 1)

def stmtStep (p : Parser) : ParseOn Parser Stmt := Parse.countedStmt p.rules (Parse.maxDepth + 1)

def expr (p : Parser) (power : BindingPower) : Except Error Expr × Parser :=
  p.run (p.exprStep power)

def operand (p : Parser) (rule : OperandRule) : Except Error Expr × Parser :=
  p.run (Parse.operandBy p.exprStep rule)

def operators (p : Parser) (left : Expr) (power : BindingPower) : Except Error Expr × Parser :=
  p.run (Parse.operators p.rules p.exprStep power left)

def binary (p : Parser) (left : Expr) (power : BindingPower) : Except Error Expr × Parser :=
  p.run (Parse.binary p.exprStep left power)

def call (p : Parser) (callee : Token) : Except Error Expr × Parser :=
  p.run (Parse.call p.exprStep callee)

def symbolTail (p : Parser) (name : Token) : Except Error Expr × Parser :=
  p.run (Parse.symbolTail p.exprStep name)

def stmt (p : Parser) (rule : StmtRule) : Except Error Stmt × Parser :=
  p.run (Parse.stmtBy p.rules p.exprStep p.stmtStep rule)

end Parser

end IntLang
