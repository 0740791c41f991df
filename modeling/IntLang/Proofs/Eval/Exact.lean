import Mathlib.Algebra.Ring.Int.Defs
import Mathlib.Algebra.Ring.Nat
import IntLang.Proofs.Eval.Depth
import IntLang.Proofs.Eval.Graded
import IntLang.Proofs.Grammar.Levels
import IntLang.Proofs.Scope.History
import IntLang.Proofs.StackCode.Evaluation

/-!
Arithmetic of 64 bits against integers of any size. Addition, subtraction and multiplication respect
congruence modulo `2 ^ 64`, so it does not matter how often their results are reduced; a quotient
depends on its operands themselves, which are therefore reduced before every division. With this
agreed, an expression without calls and strings has the reduction of its exact value, and what makes
it fail is its first division by something that reduces to zero.
-/
namespace IntLang

/-- The integer from `-2 ^ 63` up to `2 ^ 63` that is congruent to a given one modulo `2 ^ 64`. -/
def reduce (i : Int) : Int := i.bmod (2 ^ 64)

theorem reduce_eq_iff {i j : Int} :
    reduce i = j ↔ -2 ^ 63 ≤ j ∧ j < 2 ^ 63 ∧ (2 ^ 64 : Int) ∣ j - i := by
  have hreduce := Int.bmod_eq_iff (a := i) (b := 2 ^ 64) (c := j) (by decide)
  simpa [reduce, and_assoc] using hreduce

/-- Integers of 64 bits are reduced already. -/
theorem reduce_toInt (a : Int64) : reduce a.toInt = a.toInt := a.toInt_bmod

namespace Operator

/-- The result of an operator on integers of any size. Only a division reduces its operands, and it
has no result if the right one becomes zero. -/
def exactResult? : Operator → Int → Int → Option Int
  | add, i, j => some (i + j)
  | subtract, i, j => some (i - j)
  | multiply, i, j => some (i * j)
  | divide, i, j => if reduce j = 0 then none else some ((reduce i).tdiv (reduce j))

/-- On reduced operands the operators of 64 bits have the reduced result, and have none exactly
where there is no exact one. -/
theorem map_toInt_result? (operator : Operator) {a b : Int64} {i j : Int} (ha : a.toInt = reduce i)
    (hb : b.toInt = reduce j) :
    (operator.result? a b).map Int64.toInt = (operator.exactResult? i j).map reduce := by
  cases operator with
  | add =>
    refine congrArg some ?_
    rw [Int64.toInt_add, ha, hb]
    exact (Int.add_bmod i j _).symm
  | subtract =>
    refine congrArg some ?_
    rw [Int64.toInt_sub, ha, hb]
    exact (Int.sub_bmod i j _).symm
  | multiply =>
    refine congrArg some ?_
    rw [Int64.toInt_mul, ha, hb]
    exact (Int.mul_bmod i j _).symm
  | divide =>
    have hzero : b = 0 ↔ reduce j = 0 := by
      rw [← hb, ← Int64.toInt_zero, Int64.toInt_inj]
    by_cases h : b = 0
    · rw [result?, if_pos h, exactResult?, if_pos (hzero.mp h)]
      rfl
    · rw [result?, if_neg h, exactResult?, if_neg (mt hzero.mpr h)]
      refine congrArg some ?_
      rw [Int64.toInt_div, ha, hb]
      rfl

/-- Only a division by something that reduces to zero has no exact result. -/
theorem exactResult?_eq_none_iff {operator : Operator} {i j : Int} :
    operator.exactResult? i j = none ↔ operator = .divide ∧ reduce j = 0 := by
  cases operator with
  | divide => simp [exactResult?]
  | add | subtract | multiply => simp [exactResult?]

/-- On reduced operands an operator of 64 bits has the reduction of the exact result, or neither of
them has a result. -/
theorem result?_cases (operator : Operator) {a b : Int64} {i j : Int} (ha : a.toInt = reduce i)
    (hb : b.toInt = reduce j) :
    (∃ k value, operator.exactResult? i j = some k ∧ value.toInt = reduce k ∧
        operator.result? a b = some value) ∨
      operator.exactResult? i j = none ∧ operator.result? a b = none := by
  have hresult := operator.map_toInt_result? ha hb
  cases hvalue : operator.result? a b with
  | some value =>
    rw [hvalue] at hresult
    obtain ⟨k, hexact, hreduce⟩ := Option.map_eq_some_iff.mp hresult.symm
    exact Or.inl ⟨k, value, hexact, hreduce.symm, rfl⟩
  | none =>
    rw [hvalue] at hresult
    exact Or.inr ⟨Option.map_eq_none_iff.mp hresult.symm, rfl⟩

/-- An operator of the evaluator either gives the reduction of the exact result or reports that it
divides by zero; there is nothing else that it could do. -/
theorem apply_exact (operator : Operator) (a b : Int64) (p : Position) (m : Machine) :
    (∃ i value, operator.exactResult? a.toInt b.toInt = some i ∧ value.toInt = reduce i ∧
        Eval.apply (M := Eval) operator a b p m = .done value m) ∨
      operator = .divide ∧ b = 0 ∧
        Eval.apply (M := Eval) operator a b p m = .failed ⟨.divisionByZero, p⟩ m := by
  unfold Eval.apply
  rcases operator.result?_cases (reduce_toInt a).symm (reduce_toInt b).symm with
    ⟨i, value, hexact, hreduce, hresult⟩ | ⟨hexact, hresult⟩ <;> rw [hresult]
  · exact Or.inl ⟨i, value, hexact, hreduce, rfl⟩
  · obtain ⟨rfl, hzero⟩ := exactResult?_eq_none_iff.mp hexact
    rw [reduce_toInt, ← Int64.toInt_zero, Int64.toInt_inj] at hzero
    exact Or.inr ⟨rfl, hzero, rfl⟩

end Operator

namespace Expr

/-- The value of an expression over integers of any size, if it has one. Strings and calls are not
integers of their own. -/
def exactValue? (value? : String → Option Int64) : Expr → Option Int
  | number value _ => some value.toInt
  | var name _ => (value? name).map Int64.toInt
  | binary operator left right _ => do
    let i ← left.exactValue? value?
    let j ← right.exactValue? value?
    operator.exactResult? i j
  | string _ _ | call _ _ _ => none

def variableNames : Expr → List String
  | var name _ => [name]
  | binary _ left right _ => left.variableNames ++ right.variableNames
  | number _ _ | string _ _ | call _ _ _ => []

/-- The operands of the divisions in an expression without calls, in the order of their evaluation:
those in the operands of an operator come before its own. -/
def divisions : Expr → List (Expr × Expr)
  | binary operator left right _ =>
    left.divisions ++ (right.divisions ++ if operator = .divide then [(left, right)] else [])
  | number _ _ | string _ _ | var _ _ | call _ _ _ => []

/-- Whether the operands of a division have values and the right one reduces to zero. -/
def dividesByZero (value? : String → Option Int64) (operands : Expr × Expr) : Bool :=
  match operands.1.exactValue? value?, operands.2.exactValue? value? with
  | some _, some j => reduce j == 0
  | _, _ => false

variable {value? : String → Option Int64} {operator : Operator} {left right : Expr} {span : Span}

theorem exactValue?_binary {i j : Int} (hleft : left.exactValue? value? = some i)
    (hright : right.exactValue? value? = some j) :
    (binary operator left right span).exactValue? value? = operator.exactResult? i j := by
  rw [exactValue?, hleft, hright]
  rfl

theorem exists_of_exactValue?_binary {k : Int}
    (h : (binary operator left right span).exactValue? value? = some k) :
    ∃ i j, left.exactValue? value? = some i ∧ right.exactValue? value? = some j ∧
      operator.exactResult? i j = some k := by
  rw [exactValue?] at h
  obtain ⟨i, hi, h⟩ := Option.bind_eq_some_iff.mp h
  obtain ⟨j, hj, h⟩ := Option.bind_eq_some_iff.mp h
  exact ⟨i, j, hi, hj, h⟩

/-- Where the operands have values, an operator divides by zero exactly if it has no result. -/
theorem find?_own_division {i j : Int} (hleft : left.exactValue? value? = some i)
    (hright : right.exactValue? value? = some j) :
    (if operator = .divide then [(left, right)] else []).find? (dividesByZero value?) =
      if operator.exactResult? i j = none then some (left, right) else none := by
  have hzero : dividesByZero value? (left, right) = (reduce j == 0) := by
    simp only [dividesByZero, hleft, hright]
  by_cases hnone : operator.exactResult? i j = none
  · obtain ⟨rfl, hj⟩ := Operator.exactResult?_eq_none_iff.mp hnone
    rw [if_pos hnone, if_pos rfl, List.find?_singleton, hzero, hj]
    rfl
  · rw [if_neg hnone]
    by_cases hdivide : operator = .divide
    · have hj : reduce j ≠ 0 := fun hj =>
        hnone (Operator.exactResult?_eq_none_iff.mpr ⟨hdivide, hj⟩)
      rw [if_pos hdivide, List.find?_singleton, hzero, if_neg (by simpa using hj)]
    · rw [if_neg hdivide, List.find?_nil]

/-- An expression with a value divides nowhere by zero. -/
theorem find?_divisions_of_exactValue? {e : Expr} {k : Int} (h : e.exactValue? value? = some k) :
    e.divisions.find? (dividesByZero value?) = none := by
  match e with
  | number .. | string .. | var .. | call .. => rfl
  | binary operator left right span =>
    obtain ⟨i, j, hleft, hright, hk⟩ := exists_of_exactValue?_binary h
    rw [divisions, List.find?_append, find?_divisions_of_exactValue? hleft, Option.none_or,
      List.find?_append, find?_divisions_of_exactValue? hright, Option.none_or,
      find?_own_division hleft hright, if_neg (by rw [hk]; exact Option.some_ne_none k)]

end Expr

namespace Evaluates

variable {room : Option Nat} {env : Environment}

/-- A result of the semantics is the reduction of the exact value. -/
theorem exact_of_ok {e : Expr} (he : e.isArithmetic = true) {w w' : World} {a : Int64}
    (h : Evaluates room env w e (.ok a) w') :
    ∃ i, e.exactValue? env.get? = some i ∧ a.toInt = reduce i := by
  match e with
  | .number value span =>
    cases h
    exact ⟨a.toInt, rfl, (reduce_toInt a).symm⟩
  | .var name span =>
    -- the result of a variable is computed, so the derivation is taken apart for any result
    generalize hr : Except.ok a = r at h
    cases h
    have hvalue := Environment.lookup_eq_ok_iff.mp hr.symm
    exact ⟨a.toInt, by rw [Expr.exactValue?, hvalue]; rfl, (reduce_toInt a).symm⟩
  | .binary operator left right span =>
    rw [Expr.isArithmetic, Bool.and_eq_true] at he
    generalize hr : Except.ok a = r at h
    cases h with
    | leftFails | rightFails => cases hr
    | binary hleft hright =>
      obtain ⟨i, hi, hx⟩ := exact_of_ok he.1 hleft
      obtain ⟨j, hj, hy⟩ := exact_of_ok he.2 hright
      rcases operator.result?_cases hx hy with ⟨k, value, hk, hreduce, hresult⟩ | ⟨-, hresult⟩ <;>
        simp only [Operator.answer, hresult] at hr <;> cases hr
      exact ⟨k, by rw [Expr.exactValue?_binary hi hj, hk], hreduce⟩

/-- If all variables have values, a failure in the semantics is the one of the first division by
zero. -/
theorem first_division_of_error {e : Expr} (he : e.isArithmetic = true)
    (hbound : ∀ name ∈ e.variableNames, env.get? name ≠ none) {w w' : World} {err : Error}
    (h : Evaluates room env w e (.error err) w') :
    ∃ d, e.divisions.find? (Expr.dividesByZero env.get?) = some d ∧
      err = ⟨.divisionByZero, d.2.position⟩ := by
  match e with
  | .number value span => cases h
  | .var name span =>
    generalize hr : Except.error err = r at h
    cases h
    obtain ⟨hnone, -⟩ := Environment.lookup_eq_error_iff.mp hr.symm
    exact absurd hnone (hbound name (List.mem_singleton_self _))
  | .binary operator left right span =>
    rw [Expr.isArithmetic, Bool.and_eq_true] at he
    obtain ⟨hboundLeft, hboundRight⟩ := List.forall_mem_append.mp hbound
    rw [Expr.divisions, List.find?_append, List.find?_append]
    generalize hr : Except.error err = r at h
    cases h with
    | leftFails hleft =>
      cases hr
      obtain ⟨d, hd, herr⟩ := first_division_of_error he.1 hboundLeft hleft
      exact ⟨d, by rw [hd]; rfl, herr⟩
    | rightFails hleft hright =>
      cases hr
      obtain ⟨i, hi, -⟩ := exact_of_ok he.1 hleft
      obtain ⟨d, hd, herr⟩ := first_division_of_error he.2 hboundRight hright
      rw [Expr.find?_divisions_of_exactValue? hi, hd]
      exact ⟨d, rfl, herr⟩
    | binary hleft hright =>
      obtain ⟨i, hi, hx⟩ := exact_of_ok he.1 hleft
      obtain ⟨j, hj, hy⟩ := exact_of_ok he.2 hright
      rcases operator.result?_cases hx hy with ⟨-, value, -, -, hresult⟩ | ⟨hexact, hresult⟩ <;>
        simp only [Operator.answer, hresult] at hr <;> cases hr
      rw [Expr.find?_divisions_of_exactValue? hi, Expr.find?_divisions_of_exactValue? hj,
        Expr.find?_own_division hi hj, if_pos hexact]
      exact ⟨(left, right), rfl, rfl⟩

end Evaluates

namespace Eval

/-- A computation that gives the counters back and, with `k` levels to spare, fails at no limit of
depth. -/
structure Fits (config : Config) (k : Nat) (x : Eval α) : Prop where
  keeps : x.Advances Machine.SameDepths
  spares : ∀ (m : Machine) e after, m.nestingDepth + k ≤ config.nestingLimit →
    x m = .failed e after → e.cause.isRecursionLimit = false

namespace Fits

variable {config : Config} {k : Nat}

theorem bind {x : Eval α} {f : α → Eval β} (hx : Fits config k x) (hf : ∀ a, Fits config k (f a)) :
    Fits config k (x >>= f) where
  keeps := advances_bind Machine.progress_sameDepths hx.keeps fun a => (hf a).keeps
  spares m e after hroom h := by
    cases hrun : x m with
    | done a mid =>
      rw [bind_of_done hrun] at h
      obtain ⟨-, hlevels⟩ := hx.keeps m mid (by rw [hrun]; rfl)
      exact (hf a).spares mid e after (by rwa [hlevels]) h
    | failed e' mid =>
      rw [bind_of_failed hrun] at h
      cases h
      exact hx.spares m e after hroom hrun
    | outOfFuel =>
      rw [bind_of_outOfFuel hrun] at h
      cases h

/-- An operation that does not fail. -/
theorem of_ne_failed {x : Eval α} (hkeeps : x.Advances Machine.SameDepths)
    (hx : ∀ m e after, x m ≠ .failed e after) : Fits config k x :=
  ⟨hkeeps, fun m e after _ h => absurd h (hx m e after)⟩

theorem function? (name : String) : Fits config k (Eval.function? name) :=
  .of_ne_failed (advances_function? Machine.progress_sameDepths.toStepwise name)
    fun _ _ _ h => by cases h

theorem fail {cause : Cause} (hcause : cause.isRecursionLimit = false) (p : Position) :
    Fits config k (Eval.fail cause p : Eval α) where
  keeps := advances_fail Machine.progress_sameDepths.toStepwise cause p
  spares m e after _ h := by
    cases h
    exact hcause

theorem lookup (name : String) (p : Position) : Fits config k (Eval.lookup name p) where
  keeps := advances_lookup Machine.progress_sameDepths.toStepwise name p
  spares m e after _ h := by
    rw [error_of_lookup h]
    rfl

/-- A level is opened for a computation that needs one less. -/
theorem nested {x : Eval α} (hx : Fits config k x) (p : Position) :
    Fits config (k + 1) (Eval.nested config p x) where
  keeps := advances_nested Machine.progress_sameDepths hx.keeps config p
  spares m e after hroom h := by
    rw [nested_of_room (by omega)] at h
    obtain ⟨inside, hinside, -⟩ := Outcome.exists_of_onMachine_eq_failed h
    refine hx.spares m.opened e inside ?_ hinside
    show m.nestingDepth + 1 + k ≤ config.nestingLimit
    omega

end Fits

def fitting (config : Config) : Grading Eval config Nat where
  keeps k x := Fits config k x
  expr k e := e.isArithmetic = true ∧ e.depth < k
  node k e := e.isArithmetic = true ∧ e.depth ≤ k
  stmt _ _ := False
  stmtNode _ _ := False
  function _ := True
  pure a :=
    .of_ne_failed (advances_pure Machine.progress_sameDepths.toStepwise a) fun _ _ _ h => by cases h
  bind hx hf := hx.bind hf
  exhausted := .of_ne_failed (fun _ _ h => by cases h) fun _ _ _ h => by cases h
  emit line :=
    .of_ne_failed (advances_emit Machine.progress_sameDepths.toStepwise line)
      fun _ _ _ h => by cases h
  function? {_ _} name {_} hf := (Fits.function? name).bind fun found => hf found fun _ _ => trivial
  expr_nested {k e} he := by
    obtain ⟨harithmetic, hdepth⟩ := he
    obtain ⟨k, rfl⟩ := Nat.exists_eq_add_one_of_ne_zero (Nat.ne_zero_of_lt hdepth)
    exact ⟨k, ⟨harithmetic, Nat.le_of_lt_succ hdepth⟩, fun x hx => hx.nested e.position⟩
  stmt_nested := False.elim
  string _ := .fail rfl _
  var _ := .lookup _ _
  left {k operator l r span} h := by
    obtain ⟨harithmetic, hdepth⟩ := h
    rw [Expr.isArithmetic, Bool.and_eq_true] at harithmetic
    have hleft := Expr.depth_left hdepth
    split <;> next hbinary =>
      simp only [hbinary, Bool.false_eq_true, if_true, if_false] at hleft
      exact ⟨harithmetic.1, hleft⟩
  right h := by
    obtain ⟨harithmetic, hdepth⟩ := h
    rw [Expr.isArithmetic, Bool.and_eq_true] at harithmetic
    exact ⟨⟨harithmetic.2, Expr.depth_right hdepth⟩, fun _ => .fail rfl _⟩
  arguments h := by cases h.1
  undefined h := by cases h.1
  arity h := by cases h.1
  called h := by cases h.1
  top := False.elim
  expression := False.elim
  assign := False.elim
  block := False.elim
  ifThen := False.elim
  ifElse := False.elim
  loop := False.elim
  ret := False.elim
  declare := False.elim

end Eval

namespace Expr

/-- What the evaluator computes is the reduction of the exact value. With all variables bound it
comes to an end, and then it fails exactly if some division divides by zero, with the error of the
first one, unless it gives up at a limit of depth; and with as many levels to spare as the
expression opens it does not give up. Each operator gives the reduction of its exact result or
reports that it divides by zero. -/
theorem eval_exact {e : Expr} (he : e.isArithmetic = true) (config : Config) (m : Machine) :
    (∀ fuel value after, Eval.expr (M := Eval) config fuel e m = .done value after →
      ∃ i, e.exactValue? m.env.get? = some i ∧ value.toInt = reduce i) ∧
    ((∀ name ∈ e.variableNames, m.env.get? name ≠ none) →
      (∃ n, ∀ fuel, n ≤ fuel → Eval.expr (M := Eval) config fuel e m ≠ .outOfFuel) ∧
      (∀ fuel value after, Eval.expr (M := Eval) config fuel e m = .done value after →
        e.divisions.find? (dividesByZero m.env.get?) = none) ∧
      ∀ fuel err after, Eval.expr (M := Eval) config fuel e m = .failed err after →
        err.cause.isRecursionLimit = false →
          ∃ d, e.divisions.find? (dividesByZero m.env.get?) = some d ∧
            err = ⟨.divisionByZero, d.2.position⟩) ∧
    (m.nestingDepth + e.depth < config.nestingLimit → ∀ fuel err after,
      Eval.expr (M := Eval) config fuel e m = .failed err after →
        err.cause.isRecursionLimit = false) ∧
    ∀ (operator : Operator) (a b : Int64) (p : Position),
      (∃ i value, operator.exactResult? a.toInt b.toInt = some i ∧ value.toInt = reduce i ∧
        Eval.apply (M := Eval) operator a b p m = .done value m) ∨
      operator = .divide ∧ b = 0 ∧
        Eval.apply (M := Eval) operator a b p m = .failed ⟨.divisionByZero, p⟩ m := by
  have hvalue : ∀ fuel value after, Eval.expr (M := Eval) config fuel e m = .done value after →
      ∃ i, e.exactValue? m.env.get? = some i ∧ value.toInt = reduce i := by
    intro fuel value after hrun
    have hsatisfies := Eval.satisfies_expr config fuel e m
    rw [hrun] at hsatisfies
    obtain ⟨w, hevaluates⟩ := hsatisfies
    exact hevaluates.exact_of_ok he
  refine ⟨hvalue, fun hbound => ⟨?_, ?_, ?_⟩, ?_, fun operator a b p =>
    operator.apply_exact a b p m⟩
  · obtain ⟨r, hevaluates, -⟩ :=
      exists_evaluates (fun _ _ => .integer 0) he (⟨m.functions, m.output⟩ : World)
    obtain ⟨n, hn⟩ := (hevaluates : Evaluates config.maxVariables m.env _ e r _).realized.expr m
    refine ⟨n, fun fuel hfuel hrun => ?_⟩
    have hends : (Eval.expr (M := Eval) config fuel e m).Ends r _ := hn fuel hfuel
    rw [hrun] at hends
    exact hends
  · intro fuel value after hrun
    obtain ⟨i, hi, -⟩ := hvalue fuel value after hrun
    exact find?_divisions_of_exactValue? hi
  · intro fuel err after hrun hdepth
    have hsatisfies := Eval.satisfies_expr config fuel e m
    rw [hrun] at hsatisfies
    rcases hsatisfies with hlimit | ⟨w, hevaluates⟩
    · rw [hdepth] at hlimit
      cases hlimit
    · exact hevaluates.first_division_of_error he hbound
  · intro hroom fuel err after hrun
    have hfits := ((Eval.fitting config).allKeep fuel).expr
      (show e.isArithmetic = true ∧ e.depth < e.depth + 1 from ⟨he, Nat.lt_succ_self _⟩)
    exact hfits.spares m err after hroom hrun

/-- The least integer divided by `1 - 2` is the least integer; divided by `1 - 1` it fails at its
right operand. -/
theorem eval_exact_least :
    let quotient (n : Int64) : Expr := .binary .divide (.var "x" ⟨"f", 0, 1⟩)
      (.binary .subtract (.number 1 ⟨"f", 5, 6⟩) (.number n ⟨"f", 9, 10⟩) ⟨"f", 5, 10⟩) ⟨"f", 0, 10⟩
    let m : Machine :=
      ⟨.ofScope ⟨.insert .empty "x" Int64.minValue, none⟩, .empty, #[], 0, 0⟩
    (∃ i, (quotient 2).exactValue? m.env.get? = some i ∧ Int64.minValue.toInt = reduce i) ∧
      ∃ d, (quotient 1).divisions.find? (dividesByZero m.env.get?) = some d ∧
        (⟨.divisionByZero, ⟨"f", 5⟩⟩ : Error) = ⟨.divisionByZero, d.2.position⟩ := by
  intro quotient m
  obtain ⟨hvalue, -⟩ := eval_exact (e := quotient 2) rfl .standard m
  obtain ⟨-, hfails, -⟩ := eval_exact (e := quotient 1) rfl .standard m
  have hbound : ∀ name ∈ (quotient 1).variableNames, m.env.get? name ≠ none := by decide
  obtain ⟨-, -, hfirst⟩ := hfails hbound
  exact ⟨hvalue 20 Int64.minValue m rfl, hfirst 20 _ m rfl rfl⟩

end Expr

end IntLang
