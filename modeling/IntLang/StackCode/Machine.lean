import IntLang.StackCode.Compile

/-!
What stack code does. The machine has a stack of integers and strings; what a variable holds and
what a function gives is left open. The main statement, `exec_compile`, says that the code of an
expression leaves on any stack just the value that the tree of the expression has, and fails with
just the fault that the tree meets first.
-/
namespace IntLang

inductive StackValue where
  | integer (value : Int64)
  | text (text : String)
deriving DecidableEq, Repr

inductive StackFault where
  | undefinedVariable (name : String)
  | divisionByZero
  | noInteger
  | underflow
deriving DecidableEq, Repr

/-- What names mean to the machine: the values of variables and the results of calls. -/
structure StackMeaning where
  value? : String → Option Int64
  result : String → List StackValue → StackValue

def StackMeaning.load (meaning : StackMeaning) (name : String) : Except StackFault StackValue :=
  match meaning.value? name with
  | some value => .ok (.integer value)
  | none => .error (.undefinedVariable name)

def Operator.onStack (operator : Operator) : StackValue → StackValue → Except StackFault StackValue
  | .integer a, .integer b =>
    match operator.result? a b with
    | some value => .ok (.integer value)
    | none => .error .divisionByZero
  | _, _ => .error .noInteger

/-- Performs an instruction. The head of the list is the top of the stack. -/
def Instruction.step (meaning : StackMeaning) :
    Instruction → List StackValue → Except StackFault (List StackValue)
  | .push value, stack => .ok (.integer value :: stack)
  | .pushString text, stack => .ok (.text text :: stack)
  | .load name, stack => (meaning.load name).map (· :: stack)
  | .apply operator, b :: a :: stack => (operator.onStack a b).map (· :: stack)
  | .apply _, _ => .error .underflow
  | .call name count, stack =>
    if count ≤ stack.length then
      .ok (meaning.result name (stack.take count).reverse :: stack.drop count)
    else .error .underflow

def exec (meaning : StackMeaning) :
    List Instruction → List StackValue → Except StackFault (List StackValue)
  | [], stack => .ok stack
  | i :: code, stack => (i.step meaning stack).bind (exec meaning code)

namespace Expr

mutual

/-- The value of the tree of an expression: operands and arguments first, from left to right. -/
def treeValue (meaning : StackMeaning) : Expr → Except StackFault StackValue
  | number value _ => .ok (.integer value)
  | string text _ => .ok (.text text)
  | var name _ => meaning.load name
  | binary operator left right _ =>
    (left.treeValue meaning).bind fun a =>
      (right.treeValue meaning).bind fun b => operator.onStack a b
  | call callee arguments _ =>
    (treeValues meaning arguments).map fun values => meaning.result callee values

def treeValues (meaning : StackMeaning) : List Expr → Except StackFault (List StackValue)
  | [] => .ok []
  | e :: es =>
    (e.treeValue meaning).bind fun value =>
      (treeValues meaning es).map fun values => value :: values

end

theorem length_treeValues {meaning : StackMeaning} {es : List Expr} {values : List StackValue}
    (h : treeValues meaning es = .ok values) : values.length = es.length := by
  induction es generalizing values with
  | nil =>
    rw [treeValues] at h
    cases h
    rfl
  | cons e es ih =>
    rw [treeValues] at h
    cases he : e.treeValue meaning with
    | error fault =>
      rw [he] at h
      cases h
    | ok value =>
      rw [he] at h
      cases hes : treeValues meaning es with
      | error fault =>
        simp only [Except.bind, hes] at h
        cases h
      | ok rest =>
        simp only [Except.bind, hes] at h
        cases h
        rw [List.length_cons, List.length_cons, ih hes]

mutual

/-- The code of an expression followed by further code goes on with the value of the tree on top of
the stack. -/
theorem exec_compileOnto (meaning : StackMeaning) (e : Expr) (code : List Instruction)
    (stack : List StackValue) :
    exec meaning (e.compileOnto code) stack =
      (e.treeValue meaning).bind fun value => exec meaning code (value :: stack) := by
  match e with
  | number value _ =>
    rw [compileOnto, treeValue, exec]
    rfl
  | string text _ =>
    rw [compileOnto, treeValue, exec]
    rfl
  | var name _ =>
    rw [compileOnto, treeValue, exec, Instruction.step]
    cases meaning.load name <;> rfl
  | binary operator left right _ =>
    rw [compileOnto, treeValue, exec_compileOnto meaning left]
    cases left.treeValue meaning with
    | error fault => rfl
    | ok a =>
      change exec meaning (right.compileOnto _) (a :: stack) = _
      rw [exec_compileOnto meaning right]
      change _ = Except.bind ((right.treeValue meaning).bind fun b => operator.onStack a b) _
      cases right.treeValue meaning with
      | error fault => rfl
      | ok b =>
        change exec meaning (.apply operator :: code) (b :: a :: stack) =
          (operator.onStack a b).bind _
        rw [exec, Instruction.step]
        cases operator.onStack a b <;> rfl
  | call callee arguments _ =>
    rw [compileOnto, treeValue, exec_compileListOnto meaning arguments]
    cases hvalues : treeValues meaning arguments with
    | error fault => rfl
    | ok values =>
      have hlength : arguments.length = values.reverse.length := by
        rw [List.length_reverse, length_treeValues hvalues]
      change exec meaning (.call callee arguments.length :: code) (values.reverse ++ stack) =
        exec meaning code (meaning.result callee values :: stack)
      rw [exec, Instruction.step, hlength, List.take_left, List.drop_left, List.reverse_reverse,
        if_pos (by rw [List.length_append]; exact Nat.le_add_right _ _)]
      rfl

/-- The code of expressions followed by further code goes on with their values on the stack, that
of the last one on top. -/
theorem exec_compileListOnto (meaning : StackMeaning) (es : List Expr) (code : List Instruction)
    (stack : List StackValue) :
    exec meaning (compileListOnto es code) stack =
      (treeValues meaning es).bind fun values => exec meaning code (values.reverse ++ stack) := by
  match es with
  | [] =>
    rw [compileListOnto, treeValues]
    rfl
  | e :: es =>
    rw [compileListOnto, treeValues, exec_compileOnto meaning e]
    cases e.treeValue meaning with
    | error fault => rfl
    | ok value =>
      change exec meaning (compileListOnto es code) (value :: stack) = _
      rw [exec_compileListOnto meaning es]
      change _ = Except.bind ((treeValues meaning es).map fun values => value :: values) _
      cases treeValues meaning es with
      | error fault => rfl
      | ok values =>
        change exec meaning code (values.reverse ++ value :: stack) =
          exec meaning code ((value :: values).reverse ++ stack)
        rw [List.reverse_cons, List.append_assoc, List.singleton_append]

end

/-- The code of an expression puts the value of its tree on the stack and leaves the rest of the
stack alone. -/
theorem exec_compile (meaning : StackMeaning) (e : Expr) (stack : List StackValue) :
    exec meaning e.compile stack = (e.treeValue meaning).map fun value => value :: stack := by
  rw [compile, exec_compileOnto]
  cases e.treeValue meaning <;> rfl

end Expr

end IntLang
