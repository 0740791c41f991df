import IntLang.Config
import IntLang.Stmt.Basic

/-!
What evaluation is made of. The evaluator is written once for every kind of computation that has
these operations. A kind that carries a machine runs programs; others watch them run.
-/
namespace IntLang

structure Function where
  name : String
  parameters : List String
  body : Block

def Function.arity (f : Function) : Nat := f.parameters.length

def Function.ofStmt? : Stmt → Option Function
  | .function name parameters body bodySpan _ => some ⟨name, parameters, ⟨body, bodySpan⟩⟩
  | _ => none

/-- Computations with the operations of the evaluator. -/
class Effects (M : Type → Type) extends Monad M where
  /-- A computation that needs more fuel than it was given. -/
  exhausted : M α
  fail (cause : Cause) (position : Position) : M α
  lookup (name : String) (position : Position) : M Int64
  assign (name : String) (value : Int64) (position : Position) : M Unit
  function? (name : String) : M (Option Function)
  declare (f : Function) : M Unit
  emit (line : String) : M Unit
  /-- Performs a computation for the statement or expression at a position, one nesting level
  further in. -/
  nested (config : Config) (position : Position) (x : M α) : M α
  /-- Performs a computation inside a call, with the given variables in a new scope. -/
  called (config : Config) (position : Position) (bindings : List (String × Int64)) (x : M α) : M α

end IntLang
