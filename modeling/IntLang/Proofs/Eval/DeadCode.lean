import IntLang.Proofs.Eval.Alike

/-!
Nothing after a `return` runs. Statements behind one that always returns may be replaced by any
others, in the program, in the bodies of its functions and in those that a session already knows.
-/
namespace IntLang

theorem AnswersAlike.eq {α : Type} {answer answer' : Except Error α}
    (h : AnswersAlike Leeway.deadCode.place answer answer') : answer = answer' := by
  cases h with
  | ok => rfl
  | @error e e' he =>
    obtain ⟨cause, position⟩ := e
    obtain ⟨cause', position'⟩ := e'
    obtain ⟨hcause, hposition⟩ := he
    cases hcause
    cases hposition
    rfl

/-- What stands behind a statement that always returns may be replaced. -/
theorem Stmt.allAlike_behind {s : Stmt} (h : s.alwaysReturns = true)
    (before after after' : List Stmt) :
    AllAlike .deadCode (before ++ s :: after) (before ++ s :: after') := by
  induction before with
  | nil => exact .dead trivial h (.refl (fun _ => rfl) s)
  | cons first rest ih => exact .cons (.refl (fun _ => rfl) first) ih

namespace Session

/-- Programs that differ only behind statements that always return have the same answer, in sessions
whose functions differ in the same way at most, and leave such sessions. -/
theorem run_deadCode {s t : Session} (h : s.Alike .deadCode t) {program program' : Block}
    (hprogram : Stmt.AllAlike .deadCode program.body program'.body) (fuel : Nat) :
    (∀ answer after, s.run fuel program = some (answer, after) →
      ∃ after', t.run fuel program' = some (answer, after') ∧ after.Alike .deadCode after') ∧
    ∀ answer after', t.run fuel program' = some (answer, after') →
      ∃ after, s.run fuel program = some (answer, after) ∧ after.Alike .deadCode after' := by
  have hruns := h.run fuel hprogram
  generalize s.run fuel program = first, t.run fuel program' = second at hruns
  cases hruns with
  | none => exact ⟨nofun, nofun⟩
  | @some r r' hr =>
    obtain ⟨answer, after⟩ := r
    obtain ⟨answer', after'⟩ := r'
    obtain ⟨hanswer, hafter⟩ := hr
    obtain rfl : answer = answer' := hanswer.eq
    constructor
    · intro x y hxy
      cases hxy
      exact ⟨after', rfl, hafter⟩
    · intro x y hxy
      cases hxy
      exact ⟨after, rfl, hafter⟩

/-- A function gives the same value without the line that it would print after its `return`, and so
does a program without an assignment there. -/
theorem run_deadCode_call :
    ∃ after, Session.run { new .standard with
        functions := .declare .empty
          ⟨"g", [], ⟨[.ret (.number 5 ⟨"f", 16, 17⟩) ⟨"f", 9, 18⟩], ⟨"f", 7, 20⟩⟩⟩ } 20
        ⟨[.ret (.call "g" [] ⟨"f", 28, 31⟩) ⟨"f", 21, 32⟩], ⟨"f", 0, 32⟩⟩ =
          some (.ok 5, after) ∧ after.output = #[] := by
  let number : Expr := .number 5 ⟨"f", 16, 17⟩
  let print : Stmt := .expression (.call "print" [number] ⟨"f", 19, 27⟩) ⟨"f", 19, 28⟩
  let result : Stmt := .ret (.call "g" [] ⟨"f", 28, 31⟩) ⟨"f", 21, 32⟩
  let long : Session := { new .standard with
    functions := .declare .empty ⟨"g", [], ⟨[.ret number ⟨"f", 9, 18⟩, print], ⟨"f", 7, 30⟩⟩⟩ }
  let short : Session := { new .standard with
    functions := .declare .empty ⟨"g", [], ⟨[.ret number ⟨"f", 9, 18⟩], ⟨"f", 7, 20⟩⟩⟩ }
  have hbody : Stmt.AllAlike .deadCode [.ret number ⟨"f", 9, 18⟩, print]
      [.ret number ⟨"f", 9, 18⟩] := Stmt.allAlike_behind rfl [] [print] []
  have hsessions : long.Alike .deadCode short :=
    ⟨rfl, rfl, .cons ⟨rfl, rfl, rfl, hbody, rfl⟩ .nil, rfl, rfl, rfl⟩
  let longer : Block := ⟨[result, .assign "x" number ⟨"f", 33, 39⟩], ⟨"f", 0, 39⟩⟩
  let shorter : Block := ⟨[result], ⟨"f", 0, 32⟩⟩
  have hprograms : Stmt.AllAlike .deadCode longer.body shorter.body :=
    Stmt.allAlike_behind rfl [] _ []
  obtain ⟨hforward, -⟩ := run_deadCode hsessions hprograms 20
  obtain ⟨after, hrun, hafter⟩ := hforward (.ok 5) _ rfl
  exact ⟨after, hrun, hafter.output.symm.trans rfl⟩

end Session

end IntLang
