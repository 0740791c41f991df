import IntLang.CommandLine.Arguments
import IntLang.CommandLine.Run

/-!
The command line. Arguments that make sense ask for a run, for help or for the version; for any
others the exit code is 2.
-/
namespace IntLang.CommandLine

def versionText : String := "minilang 0.1.0"

def usageText : String := "Usage: minilang [OPTIONS] <CONTENTS>"

def helpText : String :=
  String.intercalate "\n"
    ["minilang runs programs written in a small imperative language of integer variables, " ++
        "functions, `if`, `while` and `print`",
      "",
      usageText,
      "",
      "Arguments:",
      "  <CONTENTS>",
      "",
      "Options:",
      "  -i, --inline",
      "          Treat `contents` as source text instead of a file path",
      "  -e, --emit-stack",
      "          Print stack code for a single expression instead of running a program",
      "  -v, --verbose",
      "          Print per-phase timings and the program's final value",
      "      --max-call-depth <MAX_CALL_DEPTH>",
      "          Maximum depth of nested function calls [default: 128]",
      "      --max-nesting-depth <MAX_NESTING_DEPTH>",
      "          Maximum nesting of statements and expressions during evaluation [default: 2048]",
      "  -h, --help",
      "          Print help",
      "  -V, --version",
      "          Print version"]

def execute {m : Type → Type} [Monad m] (console : Console m) (fuel : Nat) (args : List String) :
    m UInt32 :=
  match Request.ofArguments args with
  | .refused => do
    console.complain usageText
    pure 2
  | .help => do
    console.print helpText
    pure 0
  | .version => do
    console.print versionText
    pure 0
  | .run options => carryOut console fuel options

end IntLang.CommandLine
