import IntLang.Proofs.Semantics.Complete
import IntLang.Proofs.Semantics.Unique
import IntLang.Proofs.StackCode.Height

/-!
Stack code against the evaluator. On expressions without calls and strings the machine has nothing
to guess: variables have the values that the environment gives them, and the value of the tree is
the result that the semantics derives. So the code pushes the value that the evaluator gives, or
fails with the fault that the evaluator reports.
-/
namespace IntLang

def Expr.isArithmetic : Expr → Bool
  | number _ _ | var _ _ => true
  | binary _ left right _ => left.isArithmetic && right.isArithmetic
  | string _ _ | call _ _ _ => false

def StackMeaning.ofEnvironment (env : Environment)
    (result : String → List StackValue → StackValue) : StackMeaning :=
  ⟨env.get?, result⟩

def StackFault.cause? : StackFault → Option Cause
  | undefinedVariable name => some (.undefinedVariable name)
  | divisionByZero => some .divisionByZero
  | noInteger | underflow => none

def Mirrors : Except StackFault StackValue → Except Error Int64 → Prop
  | onStack, .ok value => onStack = .ok (.integer value)
  | onStack, .error e => ∃ fault, onStack = .error fault ∧ fault.cause? = some e.cause

variable {room : Option Nat} {env : Environment} {result : String → List StackValue → StackValue}

theorem mirrors_load (name : String) (p : Position) :
    Mirrors ((StackMeaning.ofEnvironment env result).load name) (env.lookup name p) := by
  cases h : env.get? name with
  | some value =>
    simp only [StackMeaning.load, StackMeaning.ofEnvironment, Environment.lookup, h, Mirrors]
  | none =>
    simp only [StackMeaning.load, StackMeaning.ofEnvironment, Environment.lookup, h]
    exact ⟨.undefinedVariable name, rfl, rfl⟩

theorem mirrors_onStack (operator : Operator) (a b : Int64) (p : Position) :
    Mirrors (operator.onStack (.integer a) (.integer b)) (operator.answer a b p) := by
  cases h : operator.result? a b with
  | some value => simp only [Operator.onStack, Operator.answer, h, Mirrors]
  | none =>
    simp only [Operator.onStack, Operator.answer, h]
    exact ⟨.divisionByZero, rfl, rfl⟩

/-- An expression without calls and strings has a result, which is the value of its tree, and
changes nothing. -/
theorem Expr.exists_evaluates (result : String → List StackValue → StackValue) {e : Expr}
    (he : e.isArithmetic = true) (w : World) :
    ∃ r, Evaluates room env w e r w ∧ Mirrors (e.treeValue (.ofEnvironment env result)) r := by
  match e with
  | number value span => exact ⟨_, .number, rfl⟩
  | var name span => exact ⟨_, .var, mirrors_load name span.position⟩
  | binary operator left right span =>
    rw [isArithmetic, Bool.and_eq_true] at he
    obtain ⟨ra, ha, hleft⟩ := exists_evaluates result he.1 w
    obtain ⟨rb, hb, hright⟩ := exists_evaluates result he.2 w
    rw [treeValue]
    match ra, rb with
    | .error ea, _ =>
      obtain ⟨fault, hfault, hcause⟩ := hleft
      rw [hfault]
      exact ⟨_, .leftFails ha, fault, rfl, hcause⟩
    | .ok a, .error eb =>
      obtain ⟨fault, hfault, hcause⟩ := hright
      rw [show left.treeValue _ = _ from hleft, hfault]
      exact ⟨_, .rightFails ha hb, fault, rfl, hcause⟩
    | .ok a, .ok b =>
      rw [show left.treeValue _ = _ from hleft, show right.treeValue _ = _ from hright]
      exact ⟨_, .binary ha hb, mirrors_onStack operator a b right.position⟩

/-- The code of an expression mirrors on any stack the result that the semantics derives. -/
theorem Evaluates.mirrors {e : Expr} {w w' : World} {r : Except Error Int64}
    (h : Evaluates room env w e r w') (he : e.isArithmetic = true)
    (result : String → List StackValue → StackValue) :
    Mirrors (e.treeValue (.ofEnvironment env result)) r := by
  obtain ⟨r', hevaluates, hmirrors⟩ := Expr.exists_evaluates result he w
  obtain ⟨rfl, -⟩ := h.unique r' w hevaluates
  exact hmirrors

/-- What the evaluator makes of an expression obeys the semantics, unless it gives up at a limit of
depth. -/
theorem Eval.satisfies_expr (config : Config) (fuel : Nat) (e : Expr) (m : Machine) :
    (Eval.expr (M := Eval) config fuel e m).Satisfies fun r _ =>
      ∃ w, Evaluates config.maxVariables m.env ⟨m.functions, m.output⟩ e r w := by
  have hderives := (Sound.of_fuel config fuel).expr e m m.env ⟨m.functions, m.output⟩
  refine hderives.mono fun r after hafter => ?_
  obtain ⟨env, w, -, hevaluates, -⟩ := hafter
  exact ⟨w, hevaluates⟩

/-- The evaluator comes to an end on an expression that has a result in the semantics. -/
theorem Evaluates.exists_fuel {config : Config} {m : Machine} {e : Expr} {w' : World}
    {r : Except Error Int64}
    (h : Evaluates config.maxVariables m.env ⟨m.functions, m.output⟩ e r w') :
    ∃ fuel, Eval.expr (M := Eval) config fuel e m ≠ .outOfFuel := by
  obtain ⟨n, hn⟩ := h.realized.expr m
  refine ⟨n, fun hrun => ?_⟩
  have hends : (Eval.expr (M := Eval) config n e m).Ends r (m.place m.env w') :=
    hn n (Nat.le_refl n)
  rw [hrun] at hends
  exact hends

/-- The code of an expression takes from the stack only what it pushed itself and leaves the value
of the tree on it. Without calls and strings that is the value that the evaluator gives, and a
failure of the evaluator is the first failure of the code, unless the evaluator gives up at a limit
of depth; and the evaluator does come to an end. -/
theorem Expr.compile_computes (e : Expr) :
    (∀ meaning stack,
      (∀ before i after reached, e.compile = before ++ i :: after →
        exec meaning before stack = .ok reached →
          ∃ pushed, reached = pushed ++ stack ∧ i.takes ≤ pushed.length) ∧
      exec meaning e.compile stack = (e.treeValue meaning).map fun value => value :: stack) ∧
    (e.isArithmetic = true → ∀ (config : Config) (m : Machine) result stack,
      (∀ fuel value after, Eval.expr (M := Eval) config fuel e m = .done value after →
        exec (.ofEnvironment m.env result) e.compile stack = .ok (.integer value :: stack)) ∧
      (∀ fuel err after, Eval.expr (M := Eval) config fuel e m = .failed err after →
        err.cause.isRecursionLimit = false →
          ∃ fault, exec (.ofEnvironment m.env result) e.compile stack = .error fault ∧
            fault.cause? = some err.cause) ∧
      ∃ fuel, Eval.expr (M := Eval) config fuel e m ≠ .outOfFuel) := by
  refine ⟨fun meaning stack => ⟨?_, exec_compile meaning e stack⟩, ?_⟩
  · intro before i after reached hcode hbefore
    exact takes_le_of_compile hcode hbefore
  · intro he config m result stack
    refine ⟨?_, ?_, ?_⟩
    · intro fuel value after hrun
      have hsatisfies := Eval.satisfies_expr config fuel e m
      rw [hrun] at hsatisfies
      obtain ⟨w, hevaluates⟩ := hsatisfies
      rw [exec_compile, show e.treeValue _ = _ from hevaluates.mirrors he result]
      rfl
    · intro fuel err after hrun hdepth
      have hsatisfies := Eval.satisfies_expr config fuel e m
      rw [hrun] at hsatisfies
      rcases hsatisfies with hlimit | ⟨w, hevaluates⟩
      · rw [hdepth] at hlimit
        cases hlimit
      · obtain ⟨fault, hfault, hcause⟩ := hevaluates.mirrors he result
        refine ⟨fault, ?_, hcause⟩
        rw [exec_compile, hfault]
        rfl
    · obtain ⟨r, hevaluates, -⟩ :=
        exists_evaluates result he (⟨m.functions, m.output⟩ : World)
      exact hevaluates.exists_fuel

/-- The code of `10 / (x - 4)` divides where `x` is nine and fails where it is four, and its
subtraction finds both operands above the starting stack. -/
theorem Expr.compile_computes_quotient :
    exec (.ofEnvironment (.ofScope ⟨.insert .empty "x" 9, none⟩) fun _ _ => .integer 0)
        [.push 10, .load "x", .push 4, .apply .subtract, .apply .divide] [.text "below"] =
          .ok [.integer 2, .text "below"] ∧
      (∃ fault, exec (.ofEnvironment (.ofScope ⟨.insert .empty "x" 4, none⟩) fun _ _ => .integer 0)
        [.push 10, .load "x", .push 4, .apply .subtract, .apply .divide] [.text "below"] =
          .error fault ∧ fault.cause? = some .divisionByZero) ∧
      ∃ pushed : List StackValue,
        [.integer 4, .integer 9, .integer 10, .text "below"] = pushed ++ [.text "below"] ∧
          2 ≤ pushed.length := by
  let e : Expr := .binary .divide (.number 10 ⟨"f", 0, 2⟩)
    (.binary .subtract (.var "x" ⟨"f", 6, 7⟩) (.number 4 ⟨"f", 10, 11⟩) ⟨"f", 6, 11⟩) ⟨"f", 0, 11⟩
  let machine (x : Int64) : Machine := ⟨.ofScope ⟨.insert .empty "x" x, none⟩, .empty, #[], 0, 0⟩
  obtain ⟨hcode, harithmetic⟩ := compile_computes e
  obtain ⟨hvalue, -, -⟩ :=
    harithmetic rfl .standard (machine 9) (fun _ _ => .integer 0) [.text "below"]
  obtain ⟨-, hfault, -⟩ :=
    harithmetic rfl .standard (machine 4) (fun _ _ => .integer 0) [.text "below"]
  obtain ⟨hheight, -⟩ :=
    hcode (.ofEnvironment (machine 9).env fun _ _ => .integer 0) [.text "below"]
  refine ⟨hvalue 20 2 (machine 9) rfl, ?_, ?_⟩
  · exact hfault 20 ⟨.divisionByZero, ⟨"f", 6⟩⟩ (machine 4) rfl rfl
  · exact hheight [.push 10, .load "x", .push 4] (.apply .subtract) [.apply .divide] _ rfl rfl

end IntLang
