import IntLang.Grammar.Stmt

/-!
Reading a whole source: as a program, which is a sequence of statements, or as one expression.
-/
namespace IntLang

def Parse.onSource (step : Parse α) (source file : String) : Except Error α :=
  match TokenStream.ofCursor (.start source file) with
  | .error e => .error e
  | .ok s =>
    match step s with
    | .ok a _ => .ok a
    | .error e _ => .error e

namespace Parse

def program : Parse Block := do
  let body ← stmtsUntil (· = .endOfSource) (stmt .standard maxDepth) (← rounds)
  let last ← peek
  pure ⟨body, ⟨last.span.file, 0, last.span.start⟩⟩

def wholeExpr : Parse Expr := do
  let e ← expr .standard maxDepth .lowest
  if (← peek).kind = .endOfSource then pure e else unexpected

end Parse

def parseProgram (source file : String) : Except Error Block :=
  Parse.program.onSource source file

def parseExpr (source file : String) : Except Error Expr :=
  Parse.wholeExpr.onSource source file

end IntLang
