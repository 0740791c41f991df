import IntLang.Eval.Basic

/-!
The evaluator does the same with every kind of computation that it is given. So a relation between
the computations of two kinds that all operations respect relates every part of the evaluator in one
kind to the same part in the other. What stands inside a nesting level may be related in a weaker
way, as the level shields it; a call stands inside one, and its body is open again.
-/
namespace IntLang

open Effects

/-- A relation between the computations of two kinds, each under limits of its own, that all
operations respect. -/
structure Congruence (M N : Type → Type) [Effects M] [Effects N] (c d : Config) where
  rel : ∀ {α : Type}, M α → N α → Prop
  within : ∀ {α : Type}, M α → N α → Prop
  within_of_rel : ∀ {α : Type} {x : M α} {y : N α}, rel x y → within x y
  pure : ∀ {α : Type} (a : α), rel (pure a) (pure a)
  bind : ∀ {α β : Type} {x : M α} {y : N α} {f : α → M β} {g : α → N β},
    rel x y → (∀ a, rel (f a) (g a)) → rel (x >>= f) (y >>= g)
  within_bind : ∀ {α β : Type} {x : M α} {y : N α} {f : α → M β} {g : α → N β},
    within x y → (∀ a, within (f a) (g a)) → within (x >>= f) (y >>= g)
  exhausted : ∀ {α : Type}, rel (exhausted : M α) exhausted
  fail : ∀ {α : Type} (cause : Cause) (p : Position), rel (fail cause p : M α) (fail cause p)
  lookup : ∀ name p, rel (lookup name p) (lookup name p)
  assign : ∀ name value p, rel (assign name value p) (assign name value p)
  function? : ∀ name, rel (function? name) (function? name)
  declare : ∀ f, rel (declare f) (declare f)
  emit : ∀ line, rel (emit line) (emit line)
  nested : ∀ {α : Type} (p : Position) {x : M α} {y : N α},
    within x y → rel (nested c p x) (nested d p y)
  called : ∀ {α : Type} (p : Position) (bindings : List (String × Int64)) {x : M α} {y : N α},
    rel x y → within (called c p bindings x) (called d p bindings y)

namespace Congruence

variable {M N : Type → Type} [Effects M] [Effects N] {c d : Config}

/-- Every part of the evaluator with fuel `n` in the one kind is related to the same part with fuel
`k` in the other. -/
structure AllRelated (R : Congruence M N c d) (n k : Nat) : Prop where
  expr : ∀ e, R.rel (Eval.expr c n e) (Eval.expr d k e)
  node : ∀ e, R.within (Eval.node c n e) (Eval.node d k e)
  links : ∀ a ls, R.rel (Eval.links c n a ls) (Eval.links d k a ls)
  call : ∀ f es p, R.within (Eval.call c n f es p) (Eval.call d k f es p)
  exprs : ∀ es, R.rel (Eval.exprs c n es) (Eval.exprs d k es)
  printed : ∀ es, R.rel (Eval.printed c n es) (Eval.printed d k es)
  stmt : ∀ s, R.rel (Eval.stmt c n s) (Eval.stmt d k s)
  stmtNode : ∀ s, R.rel (Eval.stmtNode c n s) (Eval.stmtNode d k s)
  stmts : ∀ ss, R.rel (Eval.stmts c n ss) (Eval.stmts d k ss)
  loop : ∀ e s, R.rel (Eval.loop c n e s) (Eval.loop d k e s)

variable (R : Congruence M N c d) {n k : Nat}

theorem within_pure {α : Type} (a : α) : R.within (Pure.pure a) (Pure.pure a) :=
  R.within_of_rel (R.pure a)

theorem apply (operator : Operator) (a b : Int64) (p : Position) :
    R.rel (Eval.apply operator a b p) (Eval.apply operator a b p) := by
  unfold Eval.apply
  cases operator.result? a b with
  | some value => exact R.pure value
  | none => exact R.fail _ _

/-- Without fuel on the left every part is related if being out of fuel is. -/
theorem allRelated_zero (h : ∀ {α : Type} (y : N α), R.rel Effects.exhausted y) :
    R.AllRelated 0 k where
  expr e := by rw [Eval.expr]; exact h _
  node e := by rw [Eval.node]; exact R.within_of_rel (h _)
  links a ls := by rw [Eval.links]; exact h _
  call f es p := by rw [Eval.call]; exact R.within_of_rel (h _)
  exprs es := by rw [Eval.exprs]; exact h _
  printed es := by rw [Eval.printed]; exact h _
  stmt s := by rw [Eval.stmt]; exact h _
  stmtNode s := by rw [Eval.stmtNode]; exact h _
  stmts ss := by rw [Eval.stmts]; exact h _
  loop e s := by rw [Eval.loop]; exact h _

theorem allRelated_zero_zero : R.AllRelated 0 0 where
  expr e := by rw [Eval.expr, Eval.expr]; exact R.exhausted
  node e := by rw [Eval.node, Eval.node]; exact R.within_of_rel R.exhausted
  links a ls := by rw [Eval.links, Eval.links]; exact R.exhausted
  call f es p := by rw [Eval.call, Eval.call]; exact R.within_of_rel R.exhausted
  exprs es := by rw [Eval.exprs, Eval.exprs]; exact R.exhausted
  printed es := by rw [Eval.printed, Eval.printed]; exact R.exhausted
  stmt s := by rw [Eval.stmt, Eval.stmt]; exact R.exhausted
  stmtNode s := by rw [Eval.stmtNode, Eval.stmtNode]; exact R.exhausted
  stmts ss := by rw [Eval.stmts, Eval.stmts]; exact R.exhausted
  loop e s := by rw [Eval.loop, Eval.loop]; exact R.exhausted

namespace AllRelated

variable {R : Congruence M N c d} {n k : Nat} (h : R.AllRelated n k)
include h

theorem expr_succ (e : Expr) : R.rel (Eval.expr c (n + 1) e) (Eval.expr d (k + 1) e) := by
  rw [Eval.expr, Eval.expr]
  exact R.nested _ (h.node e)

theorem node_succ (e : Expr) : R.within (Eval.node c (n + 1) e) (Eval.node d (k + 1) e) := by
  cases e with
  | number value span =>
    rw [Eval.node, Eval.node]
    exact R.within_pure value
  | string text span =>
    rw [Eval.node, Eval.node]
    exact R.within_of_rel (R.fail _ _)
  | var name span =>
    rw [Eval.node, Eval.node]
    exact R.within_of_rel (R.lookup _ _)
  | binary operator left right span =>
    rw [Eval.node, Eval.node]
    exact R.within_of_rel (R.bind (h.expr _) fun a => h.links a _)
  | call callee arguments span =>
    rw [Eval.node, Eval.node]
    exact h.call _ _ _

theorem links_succ (a : Int64) (ls : List (Operator × Expr)) :
    R.rel (Eval.links c (n + 1) a ls) (Eval.links d (k + 1) a ls) := by
  cases ls with
  | nil =>
    rw [Eval.links, Eval.links]
    exact R.pure a
  | cons link rest =>
    rw [Eval.links, Eval.links]
    refine R.bind (h.expr _) fun b => ?_
    exact R.bind (R.apply _ _ _ _) fun value => h.links value rest

theorem call_succ (f : String) (es : List Expr) (p : Position) :
    R.within (Eval.call c (n + 1) f es p) (Eval.call d (k + 1) f es p) := by
  rw [Eval.call, Eval.call]
  refine R.within_bind (R.within_of_rel (R.function? f)) fun found => ?_
  cases found with
  | some g =>
    by_cases harity : g.arity = es.length
    · simp only [if_pos harity]
      refine R.within_bind (R.within_of_rel (h.exprs es)) fun values => ?_
      exact R.within_bind (R.called _ _ (h.stmts _)) fun completion => R.within_pure _
    · simp only [if_neg harity]
      exact R.within_of_rel (R.fail _ _)
  | none =>
    cases Builtin.ofName? f with
    | some builtin =>
      cases builtin with
      | print =>
        refine R.within_of_rel (R.bind (h.printed es) fun parts => ?_)
        exact R.bind (R.emit _) fun _ => R.pure 0
    | none => exact R.within_of_rel (R.fail _ _)

theorem exprs_succ (es : List Expr) :
    R.rel (Eval.exprs c (n + 1) es) (Eval.exprs d (k + 1) es) := by
  cases es with
  | nil =>
    rw [Eval.exprs, Eval.exprs]
    exact R.pure []
  | cons e es =>
    rw [Eval.exprs, Eval.exprs]
    refine R.bind (h.expr e) fun value => ?_
    exact R.bind (h.exprs es) fun values => R.pure _

theorem printed_succ (es : List Expr) :
    R.rel (Eval.printed c (n + 1) es) (Eval.printed d (k + 1) es) := by
  match es with
  | [] =>
    rw [Eval.printed, Eval.printed]
    exact R.pure []
  | .string text span :: es =>
    rw [Eval.printed, Eval.printed]
    exact R.bind (h.printed es) fun parts => R.pure _
  | .number _ _ :: es | .var _ _ :: es | .binary _ _ _ _ :: es | .call _ _ _ :: es =>
    rw [Eval.printed, Eval.printed]
    · refine R.bind (h.expr _) fun value => ?_
      exact R.bind (h.printed es) fun parts => R.pure _
    all_goals simp

theorem stmt_succ (s : Stmt) : R.rel (Eval.stmt c (n + 1) s) (Eval.stmt d (k + 1) s) := by
  rw [Eval.stmt, Eval.stmt]
  exact R.nested _ (R.within_of_rel (h.stmtNode s))

theorem stmtNode_succ (s : Stmt) :
    R.rel (Eval.stmtNode c (n + 1) s) (Eval.stmtNode d (k + 1) s) := by
  cases s with
  | expression value span =>
    rw [Eval.stmtNode, Eval.stmtNode]
    exact R.bind (h.expr value) fun a => R.pure _
  | assign name value span =>
    rw [Eval.stmtNode, Eval.stmtNode]
    refine R.bind (h.expr value) fun a => ?_
    exact R.bind (R.assign _ _ _) fun _ => R.pure _
  | block body span =>
    rw [Eval.stmtNode, Eval.stmtNode]
    exact h.stmts body
  | ifThen test thenBranch span =>
    rw [Eval.stmtNode, Eval.stmtNode]
    refine R.bind (h.expr test) fun a => ?_
    by_cases ha : a = 0
    · simp only [if_pos ha]
      exact R.pure _
    · simp only [if_neg ha]
      exact h.stmt thenBranch
  | ifElse test thenBranch elseBranch span =>
    rw [Eval.stmtNode, Eval.stmtNode]
    refine R.bind (h.expr test) fun a => ?_
    by_cases ha : a = 0
    · simp only [if_pos ha]
      exact h.stmt elseBranch
    · simp only [if_neg ha]
      exact h.stmt thenBranch
  | loop test body span =>
    rw [Eval.stmtNode, Eval.stmtNode]
    exact h.loop test body
  | ret value span =>
    rw [Eval.stmtNode, Eval.stmtNode]
    exact R.bind (h.expr value) fun a => R.pure _
  | function name parameters body bodySpan span =>
    rw [Eval.stmtNode, Eval.stmtNode]
    exact R.bind (R.declare _) fun _ => R.pure _

theorem stmts_succ (ss : List Stmt) :
    R.rel (Eval.stmts c (n + 1) ss) (Eval.stmts d (k + 1) ss) := by
  cases ss with
  | nil =>
    rw [Eval.stmts, Eval.stmts]
    exact R.pure _
  | cons s ss =>
    rw [Eval.stmts, Eval.stmts]
    refine R.bind (h.stmt s) fun completion => ?_
    cases completion with
    | completed => exact h.stmts ss
    | returned value => exact R.pure _

theorem loop_succ (test : Expr) (body : Stmt) :
    R.rel (Eval.loop c (n + 1) test body) (Eval.loop d (k + 1) test body) := by
  rw [Eval.loop, Eval.loop]
  refine R.bind (h.expr test) fun a => ?_
  by_cases ha : a = 0
  · simp only [if_pos ha]
    exact R.pure _
  · simp only [if_neg ha]
    refine R.bind (h.stmt body) fun completion => ?_
    cases completion with
    | completed => exact h.loop test body
    | returned value => exact R.pure _

theorem succ : R.AllRelated (n + 1) (k + 1) :=
  ⟨h.expr_succ, h.node_succ, h.links_succ, h.call_succ, h.exprs_succ, h.printed_succ, h.stmt_succ,
    h.stmtNode_succ, h.stmts_succ, h.loop_succ⟩

theorem program (last : Int64) (ss : List Stmt) :
    R.rel (Eval.program c n last ss) (Eval.program d k last ss) := by
  induction ss generalizing last with
  | nil => exact R.pure last
  | cons s ss ih =>
    cases s with
    | expression value span =>
      rw [Eval.program, Eval.program]
      exact R.bind (h.expr value) fun a => ih a
    | _ =>
      rw [Eval.program, Eval.program]
      · refine R.bind (h.stmt _) fun completion => ?_
        cases completion with
        | completed => exact ih last
        | returned value => exact R.pure value
      all_goals simp

end AllRelated

/-- With equal fuel every part of the evaluator is related to itself. -/
theorem allRelated (n : Nat) : R.AllRelated n n := by
  induction n with
  | zero => exact R.allRelated_zero_zero
  | succ n ih => exact ih.succ

/-- If being out of fuel is related to everything, more fuel on the right does no harm. -/
theorem allRelated_of_le (h : ∀ {α : Type} (y : N α), R.rel Effects.exhausted y) {n k : Nat}
    (hle : n ≤ k) : R.AllRelated n k := by
  induction n generalizing k with
  | zero => exact R.allRelated_zero h
  | succ n ih =>
    obtain ⟨j, rfl⟩ : ∃ j, k = j + 1 := ⟨k - 1, by omega⟩
    exact (ih (by omega)).succ

end Congruence

end IntLang
