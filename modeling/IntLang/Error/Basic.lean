import IntLang.Error.Cause
import IntLang.Source.Position

/-!
An error is a cause and the place in a source where it was noticed.
-/
namespace IntLang

structure Error where
  cause : Cause
  position : Position
deriving DecidableEq, Repr

def Error.stage (e : Error) : Stage := e.cause.stage

def Error.describe (e : Error) : String :=
  e.stage.label ++ " at " ++ e.position.describe ++ ": " ++ e.cause.message

/-- Errors can be compared, whatever the results are. -/
theorem eq_error_of_map {x : Except Error α} {e : Error} (h : x.map (fun _ => ()) = .error e) :
    x = .error e := by
  cases x with
  | ok a => cases h
  | error e' => exact congrArg _ (Except.error.inj h)

end IntLang
