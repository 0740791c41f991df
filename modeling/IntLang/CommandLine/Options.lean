import IntLang.Config

/-!
What a run of the command line program is asked to do.
-/
namespace IntLang.CommandLine

structure Options where
  inline : Bool
  emitStack : Bool
  verbose : Bool
  config : Config
  contents : String
deriving DecidableEq, Repr

def Options.aloud (o : Options) : Options := { o with verbose := true }

end IntLang.CommandLine
