import IntLang.CommandLine.Console
import IntLang.CommandLine.Options
import IntLang.Error.Report
import IntLang.Session.Basic
import IntLang.StackCode.Compile

/-!
A run of the command line program on a console. It runs a program from a file or from its options,
or shows the stack code of an expression. A verbose run also remarks on how far it has come and how
long it took. The exit code is 0 on success, and 1 if the source cannot be read or fails.
-/
namespace IntLang.CommandLine

/-- The name by which a file is known in reports: the last part of its path. -/
def fileName (path : String) : String :=
  String.ofList (path.toList.reverse.takeWhile (· != '/')).reverse

section

variable {m : Type → Type} [Monad m] (console : Console m)

def reportError (source file : String) (e : Error) : m UInt32 := do
  console.complain (e.report source file)
  pure 1

def showStackCode (source file : String) : m UInt32 :=
  match parseExpr source file with
  | .error e => reportError console source file e
  | .ok e => do
    console.print (listing e.compile)
    pure 0

def remarkTime (verbose : Bool) (what : String) (start : Nat) : m Unit := do
  if verbose then
    let stop ← console.now
    console.remark (what ++ console.showTime (stop - start))

def remarkResult (verbose : Bool) (value : Int64) : m Unit := do
  if verbose then console.remark ("Result: " ++ toString value.toInt)

def runParsed (fuel : Nat) (options : Options) (source file : String) (start : Nat)
    (program : Block) : m UInt32 := do
  let runStart ← console.now
  match (Session.new options.config).run fuel program with
  | none => do
    console.complain "The run was given up."
    pure 1
  | some (result, session) => do
    session.output.toList.forM console.print
    match result with
    | .error e => reportError console source file e
    | .ok value => do
      remarkTime console options.verbose "Ran in " runStart
      remarkTime console options.verbose "Total time: " start
      remarkResult console options.verbose value
      pure 0

def runProgramText (fuel : Nat) (options : Options) (source file : String) (start : Nat) :
    m UInt32 := do
  let parseStart ← console.now
  match parseProgram source file with
  | .error e => reportError console source file e
  | .ok program => do
    remarkTime console options.verbose "Parsed in " parseStart
    runParsed console fuel options source file start program

/-- Runs a program. A verbose run first counts the tokens of the source. -/
def runText (fuel : Nat) (options : Options) (source file : String) : m UInt32 := do
  let start ← console.now
  if options.verbose then
    match tokenize source file with
    | .error e => reportError console source file e
    | .ok tokens => do
      remarkTime console true ("Tokenized " ++ toString tokens.length ++ " tokens in ") start
      runProgramText console fuel options source file start
  else runProgramText console fuel options source file start

def perform (fuel : Nat) (options : Options) (source file : String) : m UInt32 :=
  if options.emitStack then showStackCode console source file
  else runText console fuel options source file

def carryOut (fuel : Nat) (options : Options) : m UInt32 :=
  if options.inline then perform console fuel options options.contents "<inline>"
  else do
    match ← console.readFile options.contents with
    | some source => perform console fuel options source (fileName options.contents)
    | none => do
      console.complain ("Failed to read the input file '" ++ options.contents ++
        "'. Perhaps this file does not exist?")
      pure 1

end

end IntLang.CommandLine
