import IntLang.Eval.Basic
import IntLang.Eval.Machine
import IntLang.Proofs.Stmt.Alike

/-!
A statement that always returns never completes: it gives a value, fails or runs out of fuel. So
control never reaches what follows it.
-/
namespace IntLang

namespace Eval

def Returns (x : Eval Completion) : Prop := ∀ m after, x m ≠ .done .completed after

theorem exists_done_of_bind {x : Eval α} {f : α → Eval β} {m after : Machine} {b : β}
    (h : (x >>= f) m = .done b after) : ∃ a mid, x m = .done a mid ∧ f a mid = .done b after := by
  cases hx : x m with
  | done a mid =>
    rw [bind_of_done hx] at h
    exact ⟨a, mid, rfl, h⟩
  | failed e mid =>
    rw [bind_of_failed hx] at h
    cases h
  | outOfFuel =>
    rw [bind_of_outOfFuel hx] at h
    cases h

namespace Returns

theorem exhausted : Returns Eval.exhausted := nofun

theorem pure (value : Int64) : Returns (Pure.pure (.returned value)) := by
  intro m after h
  cases h

/-- A computation returns if what follows its first part does, for every value that the first part
may have. -/
theorem bind {x : Eval α} {f : α → Eval Completion}
    (hf : ∀ a m mid, x m = .done a mid → Returns (f a)) : Returns (x >>= f) := by
  intro m after h
  obtain ⟨a, mid, hx, hrest⟩ := exists_done_of_bind h
  exact hf a m mid hx mid after hrest

theorem nested {x : Eval Completion} (hx : Returns x) (config : Config) (p : Position) :
    Returns (Eval.nested config p x) := by
  intro m after h
  by_cases hlimit : config.nestingLimit ≤ m.nestingDepth
  · rw [nested_of_limit hlimit] at h
    cases h
  · rw [nested_of_room hlimit] at h
    cases hrun : x m.opened with
    | done completion inside =>
      rw [hrun] at h
      cases h
      exact hx m.opened inside hrun
    | failed e inside =>
      rw [hrun] at h
      cases h
    | outOfFuel =>
      rw [hrun] at h
      cases h

end Returns

structure AllReturn (c : Config) (n : Nat) : Prop where
  stmt : ∀ s : Stmt, s.alwaysReturns = true → Returns (Eval.stmt c n s)
  stmtNode : ∀ s : Stmt, s.alwaysReturns = true → Returns (Eval.stmtNode c n s)
  stmts : ∀ ss, Stmt.anyReturns ss = true → Returns (Eval.stmts c n ss)

namespace AllReturn

variable {c : Config} {n : Nat}

theorem zero (c : Config) : AllReturn c 0 where
  stmt s _ := by rw [Eval.stmt]; exact .exhausted
  stmtNode s _ := by rw [Eval.stmtNode]; exact .exhausted
  stmts ss _ := by rw [Eval.stmts]; exact .exhausted

variable (h : AllReturn c n)
include h

theorem stmt_succ (s : Stmt) (hs : s.alwaysReturns = true) : Returns (Eval.stmt c (n + 1) s) := by
  rw [Eval.stmt]
  exact (h.stmtNode s hs).nested c s.position

theorem stmtNode_succ (s : Stmt) (hs : s.alwaysReturns = true) :
    Returns (Eval.stmtNode c (n + 1) s) := by
  cases s with
  | ret value span =>
    rw [Eval.stmtNode]
    exact .bind fun a _ _ _ => .pure a
  | block body span =>
    rw [Eval.stmtNode]
    exact h.stmts body hs
  | ifElse test thenBranch elseBranch span =>
    rw [Stmt.alwaysReturns, Bool.and_eq_true] at hs
    rw [Eval.stmtNode]
    refine .bind fun a _ _ _ => ?_
    by_cases ha : a = 0
    · rw [if_pos ha]
      exact h.stmt elseBranch hs.2
    · rw [if_neg ha]
      exact h.stmt thenBranch hs.1
  | expression | assign | ifThen | loop | function => cases hs

theorem stmts_succ (ss : List Stmt) (hss : Stmt.anyReturns ss = true) :
    Returns (Eval.stmts c (n + 1) ss) := by
  cases ss with
  | nil => cases hss
  | cons s ss =>
    rw [Eval.stmts]
    refine .bind fun completion m mid hdone => ?_
    cases completion with
    | returned value => exact .pure value
    | completed =>
      rw [Stmt.anyReturns, Bool.or_eq_true] at hss
      rcases hss with hs | hss
      · exact absurd hdone (h.stmt s hs m mid)
      · exact h.stmts ss hss

omit h in
theorem of_fuel (c : Config) (n : Nat) : AllReturn c n := by
  induction n with
  | zero => exact zero c
  | succ n ih => exact ⟨ih.stmt_succ, ih.stmtNode_succ, ih.stmts_succ⟩

end AllReturn

end Eval

end IntLang
