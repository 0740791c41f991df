import IntLang.Eval.Fuel
import IntLang.Session.Basic

/-!
The answer of a session does not depend on the fuel that it was found with: once there was enough
of it, more gives the same answer and leaves the same session.
-/
namespace IntLang

namespace Session

theorem perform_eq_of_below {x y : Eval α} (h : x.Below y) {s : Session}
    {answer : Except Error α × Session} (hx : s.perform x = some answer) :
    s.perform y = some answer := by
  unfold perform at hx ⊢
  rcases h s.machine with h | h
  · rw [h] at hx
    cases hx
  · rw [← h]
    exact hx

/-- A program that has been run to its end ends in the same way with more fuel. -/
theorem run_eq_of_le {s : Session} {n k : Nat} (h : n ≤ k) {program : Block}
    {answer : Except Error Int64 × Session} (hrun : s.run n program = some answer) :
    s.run k program = some answer :=
  perform_eq_of_below ((Eval.allBelow_of_le s.config h).program 0 program.body) hrun

end Session

end IntLang
