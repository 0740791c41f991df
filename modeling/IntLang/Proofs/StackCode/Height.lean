import IntLang.StackCode.Machine

/-!
How high the stack is while code runs. Whether an instruction finds its operands among the values
pushed since the start depends on their number alone, so the height of the stack is followed through
the code without running it. The code of an expression never reaches below the values it pushed
itself.
-/
namespace IntLang

def Instruction.takes : Instruction → Nat
  | push _ | pushString _ | load _ => 0
  | apply _ => 2
  | call _ count => count

variable {meaning : StackMeaning} {i : Instruction} {fault : StackFault}
variable {code before after : List Instruction} {pushed stack reached : List StackValue}

/-- An instruction that finds all its operands above a stack leaves that stack alone. -/
theorem Instruction.step_append (htakes : i.takes ≤ pushed.length) :
    i.step meaning (pushed ++ stack) = (i.step meaning pushed).map (· ++ stack) := by
  cases i with
  | push value => rfl
  | pushString text => rfl
  | load name =>
    simp only [step]
    cases meaning.load name <;> rfl
  | apply operator =>
    match pushed with
    | [] | [_] => simp [takes] at htakes
    | b :: a :: rest =>
      simp only [List.cons_append, step]
      cases operator.onStack a b <;> rfl
  | call name count =>
    have hcount : count ≤ pushed.length := htakes
    have hcount' : count ≤ (pushed ++ stack).length := by
      rw [List.length_append]
      omega
    simp only [step, if_pos hcount, if_pos hcount', List.take_append_of_le_length hcount,
      List.drop_append_of_le_length hcount]
    rfl

/-- An instruction replaces what it takes by one value. -/
theorem Instruction.length_of_step (h : i.step meaning stack = .ok reached) :
    reached.length + i.takes = stack.length + 1 := by
  cases i with
  | push value =>
    cases h
    rfl
  | pushString text =>
    cases h
    rfl
  | load name =>
    simp only [step] at h
    cases hvalue : meaning.load name with
    | error fault => simp [hvalue, Except.map] at h
    | ok value =>
      simp only [hvalue, Except.map, Except.ok.injEq] at h
      rw [← h]
      rfl
  | apply operator =>
    match stack with
    | [] | [_] => simp [step] at h
    | b :: a :: rest =>
      simp only [step] at h
      cases hvalue : operator.onStack a b with
      | error fault => simp [hvalue, Except.map] at h
      | ok value =>
        simp only [hvalue, Except.map, Except.ok.injEq] at h
        rw [← h]
        rfl
  | call name count =>
    simp only [step] at h
    split at h
    case isTrue hcount =>
      simp only [Except.ok.injEq] at h
      rw [← h]
      simp only [takes, List.length_cons, List.length_drop]
      omega
    case isFalse => cases h

/-- The height of the stack after code that begins at a given height, as long as every instruction
of the code finds as many values as it takes. -/
def height? : List Instruction → Nat → Option Nat
  | [], height => some height
  | i :: code, height =>
    if i.takes ≤ height then height? code (height - i.takes + 1) else none

theorem isSome_height?_cons {height : Nat} (h : (height? (i :: code) height).isSome = true) :
    i.takes ≤ height ∧ (height? code (height - i.takes + 1)).isSome = true := by
  rw [height?] at h
  split at h
  case isTrue htakes => exact ⟨htakes, h⟩
  case isFalse => cases h

namespace Expr

mutual

/-- The code of an expression needs nothing on the stack and leaves one value more. -/
theorem height?_compileOnto (e : Expr) (code : List Instruction) (height : Nat) :
    height? (e.compileOnto code) height = height? code (height + 1) := by
  match e with
  | number .. | string .. | var .. =>
    simp only [compileOnto, height?, Instruction.takes, Nat.zero_le, if_true, Nat.sub_zero]
  | binary operator left right _ =>
    rw [compileOnto, height?_compileOnto left, height?_compileOnto right, height?, if_pos]
    · rfl
    · exact Nat.le_add_left 2 height
  | call callee arguments _ =>
    rw [compileOnto, height?_compileListOnto arguments, height?, if_pos]
    · rw [Instruction.takes, Nat.add_sub_cancel]
    · exact Nat.le_add_left arguments.length height

/-- The code of expressions needs nothing on the stack and leaves one value for each. -/
theorem height?_compileListOnto (es : List Expr) (code : List Instruction) (height : Nat) :
    height? (compileListOnto es code) height = height? code (height + es.length) := by
  match es with
  | [] => rfl
  | e :: es =>
    rw [compileListOnto, height?_compileOnto e, height?_compileListOnto es, List.length_cons,
      Nat.add_assoc, Nat.add_comm 1]

end

end Expr

/-- Code whose height is known finds at every moment the values it takes among those above the
starting stack, which it leaves alone. -/
theorem takes_le_of_height? (hheight : (height? code pushed.length).isSome = true)
    (hcode : code = before ++ i :: after)
    (hbefore : exec meaning before (pushed ++ stack) = .ok reached) :
    ∃ above, reached = above ++ stack ∧ i.takes ≤ above.length := by
  induction before generalizing code pushed with
  | nil =>
    subst hcode
    cases hbefore
    exact ⟨pushed, rfl, (isSome_height?_cons hheight).1⟩
  | cons first before ih =>
    subst hcode
    obtain ⟨htakes, hrest⟩ := isSome_height?_cons hheight
    rw [exec, Instruction.step_append htakes] at hbefore
    cases hstep : first.step meaning pushed with
    | error fault => simp [hstep, Except.map, Except.bind] at hbefore
    | ok above =>
      have hlength : above.length = pushed.length - first.takes + 1 := by
        have := Instruction.length_of_step hstep
        omega
      rw [hstep] at hbefore
      rw [← hlength] at hrest
      exact ih hrest rfl hbefore

/-- The code of an expression takes from the stack only values that it pushed itself. -/
theorem Expr.takes_le_of_compile {e : Expr} (hcode : e.compile = before ++ i :: after)
    (hbefore : exec meaning before stack = .ok reached) :
    ∃ pushed, reached = pushed ++ stack ∧ i.takes ≤ pushed.length := by
  have hheight : (height? e.compile 0).isSome = true := by
    rw [compile, height?_compileOnto]
    rfl
  have hbelow : exec meaning before ([] ++ stack) = .ok reached := hbefore
  exact takes_le_of_height? hheight hcode hbelow

end IntLang
