import IntLang.Expr.Basic
import IntLang.Text.Quoted

/-!
Code for a stack machine. Each instruction takes its operands from the top of a stack and leaves
its result there. A listing shows one instruction on each line.
-/
namespace IntLang

inductive Instruction where
  | push (value : Int64)
  | pushString (text : String)
  | load (name : String)
  /-- Takes the right operand and then the left one, and pushes the result of the operator. -/
  | apply (operator : Operator)
  /-- Takes as many arguments as given, calls a function and pushes its result. -/
  | call (name : String) (count : Nat)
deriving DecidableEq, Repr

def Operator.mnemonic : Operator → String
  | .add => "ADD"
  | .subtract => "SUB"
  | .multiply => "MUL"
  | .divide => "DIV"

def Instruction.print : Instruction → String
  | .push value => "PUSH " ++ toString value.toInt
  | .pushString text => "PUSHS " ++ quote text
  | .load name => "LOAD " ++ name
  | .apply operator => operator.mnemonic
  | .call name count => "CALL " ++ name ++ " " ++ toString count

def listing (code : List Instruction) : String :=
  String.intercalate "\n" (code.map Instruction.print)

end IntLang
