import IntLang.CommandLine.Options
import IntLang.Text.Decimal

/-!
The arguments of the command line. Flags have a short form, and short forms may share a dash; the
two limits take a value, behind an equals sign or as the next argument. After `--` every argument
is taken as it stands. Exactly one argument is neither a flag nor a limit: the contents. No flag and
no limit may come twice.
-/
namespace IntLang.CommandLine

inductive Request where
  | run (options : Options)
  | help
  | version
  | refused
deriving DecidableEq, Repr

structure Given where
  inline : Bool
  emitStack : Bool
  verbose : Bool
  maxCallDepth : Option Nat
  maxNestingDepth : Option Nat
  contents : Option String

namespace Given

def nothing : Given := ⟨false, false, false, none, none, none⟩

/-- Takes a flag by its long name. A request for help or for the version ends the reading. -/
def flag (g : Given) (name : String) : Except Request Given :=
  match name with
  | "inline" => if g.inline then .error .refused else .ok { g with inline := true }
  | "emit-stack" => if g.emitStack then .error .refused else .ok { g with emitStack := true }
  | "verbose" => if g.verbose then .error .refused else .ok { g with verbose := true }
  | "help" => .error .help
  | "version" => .error .version
  | _ => .error .refused

def longName (c : Char) : String :=
  match c with
  | 'i' => "inline"
  | 'e' => "emit-stack"
  | 'v' => "verbose"
  | 'h' => "help"
  | 'V' => "version"
  | _ => ""

def flags (g : Given) : List Char → Except Request Given
  | [] => .ok g
  | c :: cs =>
    match g.flag (longName c) with
    | .ok g => g.flags cs
    | .error request => .error request

/-- A whole number in decimal, with an optional plus sign, below 2^64. -/
def wholeNumber? (text : List Char) : Option Nat :=
  let digits := if text.head? = some '+' then text.tail else text
  if digits.isEmpty || !digits.all Char.isDigit then none
  else if decimalValue digits < UInt64.size then some (decimalValue digits) else none

def limit? (ceiling : Nat) (text : List Char) : Option Nat :=
  (wholeNumber? text).filter fun n => 1 ≤ n && n ≤ ceiling

def isLimit (name : String) : Bool := name == "max-call-depth" || name == "max-nesting-depth"

def limit (g : Given) (name : String) (value : List Char) : Except Request Given :=
  if name = "max-call-depth" then
    match g.maxCallDepth, limit? Config.callDepthCeiling value with
    | none, some n => .ok { g with maxCallDepth := some n }
    | _, _ => .error .refused
  else if name = "max-nesting-depth" then
    match g.maxNestingDepth, limit? Config.nestingDepthCeiling value with
    | none, some n => .ok { g with maxNestingDepth := some n }
    | _, _ => .error .refused
  else .error .refused

def positional (g : Given) (text : String) : Except Request Given :=
  match g.contents with
  | none => .ok { g with contents := some text }
  | some _ => .error .refused

def positionals (g : Given) : List String → Except Request Given
  | [] => .ok g
  | arg :: args =>
    match g.positional arg with
    | .ok g => g.positionals args
    | .error request => .error request

def arguments (g : Given) : List String → Except Request Given
  | [] => .ok g
  | arg :: args =>
    match arg.toList with
    | ['-', '-'] => g.positionals args
    | '-' :: '-' :: long =>
      let name := String.ofList (long.takeWhile (· != '='))
      match long.dropWhile (· != '=') with
      | _ :: value =>
        match g.limit name value with
        | .ok g => g.arguments args
        | .error request => .error request
      | [] =>
        if isLimit name then
          match args with
          | [] => .error .refused
          | value :: args =>
            if value.toList.head? = some '-' then .error .refused
            else
              match g.limit name value.toList with
              | .ok g => g.arguments args
              | .error request => .error request
        else
          match g.flag name with
          | .ok g => g.arguments args
          | .error request => .error request
    | '-' :: c :: cs =>
      match g.flags (c :: cs) with
      | .ok g => g.arguments args
      | .error request => .error request
    | _ =>
      match g.positional arg with
      | .ok g => g.arguments args
      | .error request => .error request

def request (g : Given) : Request :=
  match g.contents with
  | none => .refused
  | some contents =>
    let config : Config :=
      { Config.standard with
        maxCallDepth := g.maxCallDepth.getD Config.standard.maxCallDepth
        maxNestingDepth := g.maxNestingDepth.getD Config.standard.maxNestingDepth }
    .run ⟨g.inline, g.emitStack, g.verbose, config, contents⟩

end Given

def Request.ofArguments (args : List String) : Request :=
  match Given.nothing.arguments args with
  | .ok g => g.request
  | .error request => request

end IntLang.CommandLine
