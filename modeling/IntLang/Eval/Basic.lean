import IntLang.Eval.Effects

/-!
Evaluation of expressions and execution of statements. Operands and arguments are evaluated from
left to right. A call names a declared function or the built-in `print`, which a declaration may
hide; a function that ends without returning a value gives zero. Every statement and expression
opens a nesting level; a chain of operators is one expression, whose operands are those between its
operators.

Each function here recurses on fuel, which bounds how often it goes further in; a run that ends
within its fuel ends in the same way with more.
-/
namespace IntLang

inductive Builtin where
  /-- Prints its arguments on a line, with a space between two of them. -/
  | print
deriving DecidableEq, Repr

def Builtin.ofName? (name : String) : Option Builtin :=
  if name = "print" then some .print else none

/-- How a statement ends: it completes, or a `return` inside it has given a value. -/
inductive Completion where
  | completed
  | returned (value : Int64)
deriving DecidableEq, Repr

/-- The value of a call whose body ended in the given way. -/
def Completion.value : Completion → Int64
  | completed => 0
  | returned value => value

namespace Eval

open Effects

variable {M : Type → Type} [Effects M]

def apply (operator : Operator) (a b : Int64) (position : Position) : M Int64 :=
  match operator.result? a b with
  | some value => pure value
  | none => fail .divisionByZero position

mutual

@[specialize]
def expr (config : Config) : Nat → Expr → M Int64
  | 0, _ => exhausted
  | fuel + 1, e => nested config e.position (node config fuel e)

/-- The value of an expression whose nesting level is open. -/
@[specialize]
def node (config : Config) : Nat → Expr → M Int64
  | 0, _ => exhausted
  | _ + 1, .number value _ => pure value
  | _ + 1, .string _ span => fail (.typeMismatch "integer" "string") span.position
  | _ + 1, .var name span => lookup name span.position
  | fuel + 1, .binary operator left right _ => do
    let chain := left.chainOnto [(operator, right)]
    let a ← expr config fuel chain.1
    links config fuel a chain.2
  | fuel + 1, .call callee args span => call config fuel callee args span.position

/-- The value of a chain of operators after the operand `a`, applied from left to right. -/
@[specialize]
def links (config : Config) : Nat → Int64 → List (Operator × Expr) → M Int64
  | 0, _, _ => exhausted
  | _ + 1, a, [] => pure a
  | fuel + 1, a, (operator, right) :: rest => do
    let b ← expr config fuel right
    let value ← apply operator a b right.position
    links config fuel value rest

@[specialize]
def call (config : Config) : Nat → String → List Expr → Position → M Int64
  | 0, _, _, _ => exhausted
  | fuel + 1, callee, args, position => do
    match ← function? callee with
    | some f =>
      if f.arity = args.length then do
        let values ← exprs config fuel args
        let completion ← called config position (f.parameters.zip values)
          (stmts config fuel f.body.body)
        pure completion.value
      else fail (.arityMismatch callee f.arity args.length) position
    | none =>
      match Builtin.ofName? callee with
      | some .print => do
        let parts ← printed config fuel args
        emit (String.intercalate " " parts)
        pure 0
      | none => fail (.undefinedFunction callee) position

@[specialize]
def exprs (config : Config) : Nat → List Expr → M (List Int64)
  | 0, _ => exhausted
  | _ + 1, [] => pure []
  | fuel + 1, e :: es => do
    let value ← expr config fuel e
    let values ← exprs config fuel es
    pure (value :: values)

/-- The texts that `print` shows for its arguments: a string literal as it is, and the value of any
other expression in decimal. -/
@[specialize]
def printed (config : Config) : Nat → List Expr → M (List String)
  | 0, _ => exhausted
  | _ + 1, [] => pure []
  | fuel + 1, .string text _ :: es => do
    let parts ← printed config fuel es
    pure (text :: parts)
  | fuel + 1, e :: es => do
    let value ← expr config fuel e
    let parts ← printed config fuel es
    pure (toString value.toInt :: parts)

@[specialize]
def stmt (config : Config) : Nat → Stmt → M Completion
  | 0, _ => exhausted
  | fuel + 1, s => nested config s.position (stmtNode config fuel s)

@[specialize]
def stmtNode (config : Config) : Nat → Stmt → M Completion
  | 0, _ => exhausted
  | fuel + 1, .expression value _ => do
    let _ ← expr config fuel value
    pure .completed
  | fuel + 1, .assign name value span => do
    let a ← expr config fuel value
    assign name a span.position
    pure .completed
  | fuel + 1, .block body _ => stmts config fuel body
  | fuel + 1, .ifThen test thenBranch _ => do
    let a ← expr config fuel test
    if a = 0 then pure .completed else stmt config fuel thenBranch
  | fuel + 1, .ifElse test thenBranch elseBranch _ => do
    let a ← expr config fuel test
    if a = 0 then stmt config fuel elseBranch else stmt config fuel thenBranch
  | fuel + 1, .loop test body _ => loop config fuel test body
  | fuel + 1, .ret value _ => do
    let a ← expr config fuel value
    pure (.returned a)
  | _ + 1, .function name parameters body bodySpan _ => do
    declare ⟨name, parameters, ⟨body, bodySpan⟩⟩
    pure .completed

/-- Executes statements in order, up to the first that returns a value. -/
@[specialize]
def stmts (config : Config) : Nat → List Stmt → M Completion
  | 0, _ => exhausted
  | _ + 1, [] => pure .completed
  | fuel + 1, s :: ss => do
    match ← stmt config fuel s with
    | .completed => stmts config fuel ss
    | .returned value => pure (.returned value)

/-- Executes a body as long as the condition is not zero, up to a round that returns a value. -/
@[specialize]
def loop (config : Config) : Nat → Expr → Stmt → M Completion
  | 0, _, _ => exhausted
  | fuel + 1, test, body => do
    let a ← expr config fuel test
    if a = 0 then pure .completed
    else
      match ← stmt config fuel body with
      | .completed => loop config fuel test body
      | .returned value => pure (.returned value)

end

/-- Executes the statements of a program. Its value is that of a `return` at the top, or else the
value of the last expression statement, or else the given one. An expression statement at the top
opens no level besides the one of its expression. -/
@[specialize]
def program (config : Config) (fuel : Nat) (last : Int64) : List Stmt → M Int64
  | [] => pure last
  | .expression value _ :: ss => do
    let a ← expr config fuel value
    program config fuel a ss
  | s :: ss => do
    match ← stmt config fuel s with
    | .completed => program config fuel last ss
    | .returned value => pure value

end Eval

end IntLang
