import IntLang.CommandLine.Basic
import IntLang.CommandLine.Duration

/-!
The command line program: the console of the process, and the entry point.
-/
namespace IntLang.CommandLine

def Console.process : Console IO where
  readFile path := do
    try
      let text ← IO.FS.readFile path
      pure (some text)
    catch _ => pure none
  print line := IO.println line
  remark line := IO.println line
  complain line := IO.eprintln line
  now := IO.monoNanosNow
  showTime := showDuration

/-- More fuel than any run can use up, two to the power of 62. -/
def ampleFuel : Nat := 4611686018427387904

end IntLang.CommandLine

def main (args : List String) : IO UInt32 :=
  IntLang.CommandLine.execute IntLang.CommandLine.Console.process
    IntLang.CommandLine.ampleFuel args
