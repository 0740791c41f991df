import IntLang.Text.Quoted

/-!
What can go wrong between reading a source and running it, and the words for it. A cause carries
what its message needs; the stage that raises it, its name, its message and its hint are functions
of the cause.
-/
namespace IntLang

inductive Stage where
  | lexing
  | parsing
  | running
deriving DecidableEq, Repr

def Stage.label : Stage → String
  | .lexing => "lex error"
  | .parsing => "parse error"
  | .running => "runtime error"

inductive Cause where
  | unrecognisedCharacter (text : String)
  | unterminatedString
  /-- A token that fits no rule at its place. -/
  | unexpectedToken (text : String)
  /-- A token that fits no rule at its place, and what is wrong with it. -/
  | misplacedToken (text complaint : String)
  /-- The source ends inside a statement or expression. -/
  | unexpectedEnd
  /-- A number literal beyond the largest integer. -/
  | numberOutOfRange (text : String)
  /-- More than `limit` statements and expressions inside one another. -/
  | nestingTooDeep (limit : Nat)
  | undefinedVariable (name : String)
  /-- A function that is neither defined nor built in. -/
  | undefinedFunction (name : String)
  | arityMismatch (name : String) (expected received : Nat)
  | divisionByZero
  | typeMismatch (expected received : String)
  /-- Evaluation or calls nested deeper than `limit`. -/
  | recursionLimit (limit : Nat)
  /-- A new variable in a scope that already holds `limit` of them. -/
  | capacityExceeded (limit : Nat)
  /-- No memory for the evaluation stack. -/
  | stackUnavailable (bytes : Nat)
deriving DecidableEq, Repr

namespace Cause

def stage : Cause → Stage
  | unrecognisedCharacter _ | unterminatedString => .lexing
  | unexpectedToken _ | misplacedToken _ _ | unexpectedEnd | numberOutOfRange _
  | nestingTooDeep _ => .parsing
  | undefinedVariable _ | undefinedFunction _ | arityMismatch _ _ _ | divisionByZero
  | typeMismatch _ _ | recursionLimit _ | capacityExceeded _ | stackUnavailable _ => .running

def name : Cause → String
  | unrecognisedCharacter _ => "UnrecognisedToken"
  | unterminatedString => "UnterminatedString"
  | unexpectedToken _ => "UnexpectedToken"
  | misplacedToken _ _ => "UnexpectedTokenDetailed"
  | unexpectedEnd => "UnexpectedEndOfInput"
  | numberOutOfRange _ => "NumberParseError"
  | nestingTooDeep _ => "NestingTooDeep"
  | undefinedVariable _ => "VariableNotDeclared"
  | undefinedFunction _ => "FunctionNotDeclared"
  | arityMismatch _ _ _ => "ArityMismatch"
  | divisionByZero => "DivisionByZero"
  | typeMismatch _ _ => "TypeMatchError"
  | recursionLimit _ => "RecursionLimitExceeded"
  | capacityExceeded _ => "CapacityExceeded"
  | stackUnavailable _ => "StackUnavailable"

def message : Cause → String
  | unrecognisedCharacter text => "unexpected character: " ++ quote text
  | unterminatedString => "unterminated string literal"
  | unexpectedToken text => "unexpected token: " ++ quote text
  | misplacedToken text complaint => "unexpected token (" ++ complaint ++ "): " ++ quote text
  | unexpectedEnd => "unexpected end of input"
  | numberOutOfRange text => "error parsing number: " ++ quote text
  | nestingTooDeep limit => "nesting deeper than " ++ toString limit ++ " levels"
  | undefinedVariable name => "undefined variable " ++ quote name
  | undefinedFunction name => "undefined function " ++ quote name
  | arityMismatch name expected received =>
    "arity mismatch calling " ++ quote name ++ ": expected " ++ toString expected ++
      ", received " ++ toString received
  | divisionByZero => "division by zero"
  | typeMismatch expected received =>
    "type mismatch: expected " ++ expected ++ ", received " ++ received
  | recursionLimit limit => "recursion limit of " ++ toString limit ++ " exceeded"
  | capacityExceeded limit => "capacity of " ++ toString limit ++ " variables exceeded"
  | stackUnavailable bytes =>
    "could not reserve a " ++ toString bytes ++ " byte evaluation stack"

def tip : Cause → Option String
  | unrecognisedCharacter _ => none
  | unterminatedString => some "String literal is missing its closing `\"`"
  | unexpectedToken text =>
    some ("Unexpected token: `" ++ text ++ "`, did you miss a semicolon?")
  | misplacedToken text complaint => some ("Unexpected token: `" ++ text ++ "`, " ++ complaint)
  | unexpectedEnd =>
    some "Input ended in the middle of a statement, is a `\x7d` or `)` missing?"
  | numberOutOfRange text =>
    some ("Invalid number: `" ++ text ++ "`, is it above the integer limit?")
  | nestingTooDeep limit =>
    some ("Nested more than " ++ toString limit ++ " levels deep, split it into smaller pieces")
  | undefinedVariable name => some ("Variable `" ++ name ++ "` not declared")
  | undefinedFunction name => some ("Function `" ++ name ++ "` not declared")
  | arityMismatch name expected received =>
    some ("Function `" ++ name ++ "` expects " ++ toString expected ++ " arguments, received " ++
      toString received)
  | divisionByZero => none
  | typeMismatch expected received =>
    some ("Expected type `" ++ expected ++ "`, received `" ++ received ++ "`")
  | recursionLimit limit =>
    some ("Evaluation nested deeper than " ++ toString limit ++ ", is there a missing base case?")
  | capacityExceeded limit =>
    some ("A scope may hold at most " ++ toString limit ++ " variables")
  | stackUnavailable _ => some "Lower the configured nesting depth"

end Cause

end IntLang
