import IntLang.Eval.Effects
import IntLang.Proofs.Grammar.Parts

/-!
The levels that evaluation opens, read off the syntax. An expression is evaluated in a level of its
own, in which its arguments open further ones, and so do all operands of its chain of operators; a
statement is executed likewise. The parser counts levels in another way: one for a group, of which
the tree keeps no trace, but none for a left operand. Still, for each level of the parser evaluation
opens no more than two.
-/
namespace IntLang

namespace Expr

mutual

/-- How many levels are open at once inside the one of an expression. -/
def depth : Expr → Nat
  | number _ _ | string _ _ | var _ _ => 0
  | binary _ left right _ =>
    -- a left operand with an operator of its own is a part of the same chain
    max (left.depth + if left.isBinary then 0 else 1) (right.depth + 1)
  | call _ arguments _ => depthList arguments

def depthList : List Expr → Nat
  | [] => 0
  | e :: es => max (e.depth + 1) (depthList es)

end

theorem depth_lt_depthList {e : Expr} {es : List Expr} (h : e ∈ es) : e.depth < depthList es := by
  induction es with
  | nil => cases h
  | cons f es ih =>
    rw [depthList]
    rcases List.mem_cons.mp h with rfl | h
    · exact Nat.lt_of_lt_of_le (Nat.lt_succ_self _) (Nat.le_max_left _ _)
    · exact Nat.lt_of_lt_of_le (ih h) (Nat.le_max_right _ _)

section Binary

variable {operator : Operator} {l r : Expr} {span : Span} {k : Nat}

theorem depth_left (h : (binary operator l r span).depth ≤ k) :
    if l.isBinary then l.depth ≤ k else l.depth < k := by
  rw [depth] at h
  have hleft := Nat.le_trans (Nat.le_max_left _ _) h
  split <;> next hbinary =>
    simp only [hbinary, Bool.false_eq_true, if_true, if_false] at hleft
    exact hleft

theorem depth_right (h : (binary operator l r span).depth ≤ k) : r.depth < k := by
  rw [depth] at h
  exact Nat.le_trans (Nat.le_max_right _ _) h

end Binary

end Expr

namespace Stmt

mutual

/-- How many levels are open at once inside the one of a statement. For a function declaration these
are the levels of its body, which are opened by its calls. -/
def depth : Stmt → Nat
  | expression value _ | assign _ value _ | ret value _ => value.depth + 1
  | block body _ | function _ _ body _ _ => depthList body
  | ifThen test thenBranch _ => max (test.depth + 1) (thenBranch.depth + 1)
  | ifElse test thenBranch elseBranch _ =>
    max (test.depth + 1) (max (thenBranch.depth + 1) (elseBranch.depth + 1))
  | loop test body _ => max (test.depth + 1) (body.depth + 1)

def depthList : List Stmt → Nat
  | [] => 0
  | s :: ss => max (s.depth + 1) (depthList ss)

end

mutual

/-- The functions declared in a statement, in their bodies too. -/
def functions : Stmt → List Function
  | expression _ _ | assign _ _ _ | ret _ _ => []
  | block body _ => functionsList body
  | ifThen _ thenBranch _ => thenBranch.functions
  | ifElse _ thenBranch elseBranch _ => thenBranch.functions ++ elseBranch.functions
  | loop _ body _ => body.functions
  | function name parameters body bodySpan _ =>
    ⟨name, parameters, ⟨body, bodySpan⟩⟩ :: functionsList body

def functionsList : List Stmt → List Function
  | [] => []
  | s :: ss => s.functions ++ functionsList ss

end

theorem depth_lt_depthList {s : Stmt} {ss : List Stmt} (h : s ∈ ss) : s.depth < depthList ss := by
  induction ss with
  | nil => cases h
  | cons t ss ih =>
    rw [depthList]
    rcases List.mem_cons.mp h with rfl | h
    · exact Nat.lt_of_lt_of_le (Nat.lt_succ_self _) (Nat.le_max_left _ _)
    · exact Nat.lt_of_lt_of_le (ih h) (Nat.le_max_right _ _)

section Parts

variable {test : Expr} {s t : Stmt} {span : Span} {k : Nat}

theorem depth_ifThen_le_iff :
    (ifThen test s span).depth ≤ k ↔ test.depth < k ∧ s.depth < k := by
  rw [depth]
  exact Nat.max_le

theorem depth_ifElse_le_iff :
    (ifElse test s t span).depth ≤ k ↔ test.depth < k ∧ s.depth < k ∧ t.depth < k := by
  rw [depth]
  exact Nat.max_le.trans (and_congr_right fun _ => Nat.max_le)

theorem depth_loop_le_iff :
    (loop test s span).depth ≤ k ↔ test.depth < k ∧ s.depth < k := by
  rw [depth]
  exact Nat.max_le

end Parts

theorem functions_subset_functionsList {s : Stmt} {ss : List Stmt} (h : s ∈ ss) :
    s.functions ⊆ functionsList ss := by
  induction ss with
  | nil => cases h
  | cons t ss ih =>
    rw [functionsList]
    rcases List.mem_cons.mp h with rfl | h
    · exact List.subset_append_left ..
    · exact List.subset_append_of_subset_right _ (ih h)

/-- A function of statements: its body is no deeper than they are, and the functions in it are
functions of them too. -/
structure Encloses (depth : Nat) (functions : List Function) (f : Function) : Prop where
  depth : depthList f.body.body ≤ depth
  functions : functionsList f.body.body ⊆ functions

theorem Encloses.mono {depth depth' : Nat} {fs fs' : List Function} {f : Function}
    (h : Encloses depth fs f) (hdepth : depth ≤ depth') (hfs : fs ⊆ fs') : Encloses depth' fs' f :=
  ⟨h.depth.trans hdepth, List.Subset.trans h.functions hfs⟩

mutual

theorem encloses_of_mem {f : Function} (s : Stmt) (h : f ∈ s.functions) :
    Encloses s.depth s.functions f := by
  match s with
  | expression _ _ | assign _ _ _ | ret _ _ =>
    rw [functions] at h
    cases h
  | block body _ =>
    rw [functions] at h
    rw [depth, functions]
    exact encloses_of_mem_list body h
  | ifThen _ thenBranch _ =>
    rw [functions] at h
    rw [depth, functions]
    exact (encloses_of_mem thenBranch h).mono (by omega) (List.Subset.refl _)
  | ifElse _ thenBranch elseBranch _ =>
    rw [functions] at h
    rw [depth, functions]
    rcases List.mem_append.mp h with h | h
    · exact (encloses_of_mem thenBranch h).mono (by omega) (List.subset_append_left ..)
    · exact (encloses_of_mem elseBranch h).mono (by omega) (List.subset_append_right ..)
  | loop _ body _ =>
    rw [functions] at h
    rw [depth, functions]
    exact (encloses_of_mem body h).mono (by omega) (List.Subset.refl _)
  | function _ _ body _ _ =>
    rw [functions] at h
    rw [depth, functions]
    rcases List.mem_cons.mp h with rfl | h
    · exact ⟨Nat.le_refl _, List.subset_cons_self ..⟩
    · exact (encloses_of_mem_list body h).mono (Nat.le_refl _) (List.subset_cons_self ..)

theorem encloses_of_mem_list {f : Function} (ss : List Stmt) (h : f ∈ functionsList ss) :
    Encloses (depthList ss) (functionsList ss) f := by
  match ss with
  | [] =>
    rw [functionsList] at h
    cases h
  | s :: ss =>
    rw [functionsList] at h
    rw [depthList, functionsList]
    rcases List.mem_append.mp h with h | h
    · exact (encloses_of_mem s h).mono (by omega) (List.subset_append_left ..)
    · exact (encloses_of_mem_list ss h).mono (by omega) (List.subset_append_right ..)

end

end Stmt

namespace Grammar

open Parse

/-- An expression that opens no more than two levels for each of the parser's. Without an operator
at the top it opens one less. -/
structure Shallow (n : Nat) (e : Expr) : Prop where
  depth : e.depth ≤ 2 * n
  operand : e.isBinary = false → e.depth ≤ 2 * n - 1

/-- A left operand goes on the chain of the operator. -/
theorem Shallow.left {n : Nat} {e : Expr} (h : Shallow (n + 1) e) :
    e.depth + (if e.isBinary then 0 else 1) ≤ 2 * (n + 1) := by
  obtain ⟨hdepth, hoperand⟩ := h
  cases hbinary : e.isBinary with
  | true => exact hdepth
  | false =>
    have hless := hoperand hbinary
    simp only [Bool.false_eq_true, if_false]
    omega

theorem Shallow.binary {n : Nat} {operator : Operator} {a b : Expr} {span : Span}
    (ha : Shallow (n + 1) a) (hb : Shallow n b) :
    Shallow (n + 1) (.binary operator a b span) := by
  have hright := hb.depth
  refine ⟨?_, nofun⟩
  rw [Expr.depth]
  exact Nat.max_le.mpr ⟨ha.left, by omega⟩

mutual

theorem Factor.shallow {n ts e} : Factor n ts e → Shallow n e
  | .number _ _ | .string _ | .var _ =>
    ⟨by rw [Expr.depth]; exact Nat.zero_le _, fun _ => by rw [Expr.depth]; exact Nat.zero_le _⟩
  | .call _ _ hargs _ => by
    have hdepth := hargs.depthList_le
    exact ⟨by rw [Expr.depth]; omega, fun _ => by rw [Expr.depth]; exact hdepth⟩
  | .group _ he _ => by
    obtain ⟨hdepth, hoperand⟩ := he.shallow
    exact ⟨by omega, fun hbinary => by have := hoperand hbinary; omega⟩

theorem Term.shallow {n ts e} : Term n ts e → Shallow n e
  | .factor he => he.shallow
  | .product ha _ hb => ha.shallow.binary hb.shallow

theorem Expression.shallow {n ts e} : Expression n ts e → Shallow n e
  | .term he => he.shallow
  | .sum ha _ hb => ha.shallow.binary hb.shallow

theorem Arguments.depthList_le {n ts es} : Arguments n ts es → Expr.depthList es ≤ 2 * n - 1
  | .none => by
    rw [Expr.depthList]
    exact Nat.zero_le _
  | .one he => by
    have hdepth := he.shallow.depth
    rw [Expr.depthList, Expr.depthList]
    omega
  | .more he _ hes => by
    have hdepth := he.shallow.depth
    have hrest := hes.depthList_le
    rw [Expr.depthList]
    omega

end

theorem Condition.depth_le {n ts e} (h : Condition n ts e) : e.depth + 1 ≤ 2 * n := by
  cases h with
  | mk _ he _ =>
    have hdepth := he.shallow.depth
    omega

mutual

/-- An expression statement that begins with an identifier has the parser's level for itself, as its
expression opens none there. -/
theorem Statement.depth_le {n ts s} : Statement n ts s → s.depth ≤ 2 * n + 1
  | .ifThen _ htest hthen => by
    have hcondition := htest.depth_le
    have hbranch := hthen.depth_le
    rw [Stmt.depth]
    omega
  | .ifElse _ htest hthen _ hrest => by
    have hcondition := htest.depth_le
    have hbranch := hthen.depth_le
    have hother := hrest.depth_le
    rw [Stmt.depth]
    omega
  | .loop _ htest hbody => by
    have hcondition := htest.depth_le
    have hround := hbody.depth_le
    rw [Stmt.depth]
    omega
  | .function _ _ _ _ _ _ hbody | .block hbody => by
    have hdepth := hbody.depthList_le
    rw [Stmt.depth]
    omega
  | .ret _ he _ | .assign _ _ he _ | .expressionNamed he _ _ | .expression he _ _ => by
    have hdepth := he.shallow.depth
    rw [Stmt.depth]
    omega

theorem Block.depthList_le {n ts body} : Block n ts body → Stmt.depthList body ≤ 2 * n
  | .mk _ hbody _ => hbody.depthList_le

theorem Statements.depthList_le {n ts ss} : Statements n ts ss → Stmt.depthList ss ≤ 2 * n
  | .nil => by
    rw [Stmt.depthList]
    exact Nat.zero_le _
  | .cons hs hss => by
    have hdepth := hs.depth_le
    have hrest := hss.depthList_le
    rw [Stmt.depthList]
    omega

end

variable {source file : String}

/-- A program that is accepted opens no more than two levels for each that the parser allows. -/
theorem depthList_le_of_parseProgram {b : IntLang.Block} (h : parseProgram source file = .ok b) :
    Stmt.depthList b.body ≤ 2 * maxDepth := by
  obtain ⟨ts, last, -, -, hprogram, -⟩ := program_of_parseProgram h
  exact hprogram.depthList_le

theorem depth_lt_of_parseExpr {e : Expr} (h : parseExpr source file = .ok e) :
    e.depth < 2 * maxDepth := by
  obtain ⟨n, ts, last, hroom, -, hexpression⟩ := expression_of_parseExpr h
  have hdepth := hexpression.shallow.depth
  omega

end Grammar

def Function.Declared (f : Function) : Prop :=
  ∃ source file b, parseProgram source file = .ok b ∧ f ∈ Stmt.functionsList b.body

namespace Function.Declared

variable {f g : Function}

theorem depthList_le (h : f.Declared) : Stmt.depthList f.body.body ≤ 2 * Parse.maxDepth := by
  obtain ⟨source, file, b, hparse, hf⟩ := h
  have henclosed := Stmt.encloses_of_mem_list b.body hf
  exact henclosed.depth.trans (Grammar.depthList_le_of_parseProgram hparse)

theorem of_mem (h : f.Declared) (hg : g ∈ Stmt.functionsList f.body.body) : g.Declared := by
  obtain ⟨source, file, b, hparse, hf⟩ := h
  have henclosed := Stmt.encloses_of_mem_list b.body hf
  exact ⟨source, file, b, hparse, henclosed.functions hg⟩

end Function.Declared

end IntLang
