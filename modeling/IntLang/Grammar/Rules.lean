import IntLang.Expr.Basic
import IntLang.Token.Basic

/-!
The rules by which the next token decides what is read. A token may begin an operand, may stand
between two operands, and may begin a statement of a special form; a binding power says how tightly
a token binds to what stands before it. The rules are tables from kinds of token, with one standard
choice, and can be changed one kind at a time.
-/
namespace IntLang

inductive BindingPower where
  | lowest
  | additive
  | multiplicative
  | primary
deriving DecidableEq, Repr

namespace BindingPower

def rank : BindingPower → Nat
  | lowest => 0
  | additive => 1
  | multiplicative => 2
  | primary => 3

def name : BindingPower → String
  | lowest => "Default"
  | additive => "Additive"
  | multiplicative => "Multiplicative"
  | primary => "Primary"

def tighter (p q : BindingPower) : Bool := q.rank < p.rank

end BindingPower

def Operator.ofKind? : TokenKind → Option Operator
  | .plus => some .add
  | .dash => some .subtract
  | .star => some .multiply
  | .slash => some .divide
  | _ => none

inductive OperandRule where
  /-- A number or a string literal. -/
  | literal
  | symbol
  | group
deriving DecidableEq, Repr

inductive StmtRule where
  | branch
  | loop
  | ret
  | function
  | block
  /-- An assignment, or an expression that begins with an identifier. -/
  | identifier
  /-- Any statement, one nesting level further in. -/
  | any
deriving DecidableEq, Repr

/-- What a kind of token may begin, whether it may join two operands, and how tightly it binds. -/
structure Rules where
  operand? : TokenKind → Option OperandRule
  joins : TokenKind → Bool
  stmt? : TokenKind → Option StmtRule
  power : TokenKind → BindingPower

namespace Rules

/-- The rules of the language. A token that begins an operand binds as tightly as can be, so that
two operands in a row are refused at the second one. -/
def standard : Rules where
  operand?
    | .number | .string => some .literal
    | .identifier => some .symbol
    | .openParen => some .group
    | _ => none
  joins
    | .plus | .dash | .star | .slash => true
    | _ => false
  stmt?
    | .ifWord => some .branch
    | .whileWord => some .loop
    | .returnWord => some .ret
    | .functionWord => some .function
    | .openCurly => some .block
    | _ => none
  power
    | .plus | .dash => .additive
    | .star | .slash => .multiplicative
    | .number | .string | .identifier | .openParen => .primary
    | _ => .lowest

def setPower (rules : Rules) (kind : TokenKind) (power : BindingPower) : Rules :=
  { rules with power := fun k => if k = kind then power else rules.power k }

/-- Lets a kind of token join two operands with the given power. -/
def setOperator (rules : Rules) (kind : TokenKind) (power : BindingPower) : Rules :=
  { rules.setPower kind power with joins := fun k => k = kind || rules.joins k }

/-- Lets a kind of token begin an operand; it then binds as tightly as can be. -/
def setOperand (rules : Rules) (kind : TokenKind) (rule : OperandRule) : Rules :=
  { rules.setPower kind .primary with
    operand? := fun k => if k = kind then some rule else rules.operand? k }

/-- Lets a kind of token begin a statement; it then binds to nothing before it. -/
def setStmt (rules : Rules) (kind : TokenKind) (rule : StmtRule) : Rules :=
  { rules.setPower kind .lowest with
    stmt? := fun k => if k = kind then some rule else rules.stmt? k }

end Rules

end IntLang
