/-!
What a command line program needs of the world: files to read, two places to write to, and a clock.
A recorded console keeps what is written in a transcript and reads from a directory given as a
value; the time it shows is always the same word.
-/
namespace IntLang.CommandLine

structure Console (m : Type → Type) where
  readFile : String → m (Option String)
  print : String → m Unit
  /-- Writes a line about the run among the output. -/
  remark : String → m Unit
  /-- Writes a line about what went wrong. -/
  complain : String → m Unit
  /-- The clock, in nanoseconds. -/
  now : m Nat
  /-- A number of nanoseconds in words. -/
  showTime : Nat → String

inductive Channel where
  | output
  | remarks
  | complaints
deriving DecidableEq, Repr

/-- The lines written, in order. -/
abbrev Transcript := List (Channel × String)

def Transcript.text (t : Transcript) (on : Channel → Bool) : String :=
  String.join ((t.filter fun (channel, _) => on channel).map fun (_, line) => line ++ "\n")

def Transcript.standardOutput (t : Transcript) : String := t.text (· != .complaints)

def Transcript.standardError (t : Transcript) : String := t.text (· == .complaints)

/-- Files by their paths, whose parts are divided by slashes. -/
abbrev Directory := List (String × String)

namespace Directory

def parts (path : String) : List (List Char) := go path.toList
where
  go : List Char → List (List Char)
    | [] => [[]]
    | c :: cs =>
      match go cs with
      | [] => [[c]]
      | part :: rest => if c = '/' then [] :: part :: rest else (c :: part) :: rest

def hasFolder (d : Directory) (folder : List (List Char)) : Bool :=
  d.any fun (path, _) =>
    folder.isPrefixOf (parts path) && decide (folder.length < (parts path).length)

/-- The file that parts of a path lead to from a folder, through folders that exist. -/
def find? (d : Directory) (folder : List (List Char)) : List (List Char) → Option String
  | [] => none
  | part :: rest =>
    if part = [] ∨ part = ['.'] then
      d.find? folder rest
    else if part = ['.', '.'] then
      if folder.isEmpty then none else d.find? folder.dropLast rest
    else if rest.isEmpty then
      (List.find? (fun entry => parts entry.1 == folder ++ [part]) d).map Prod.snd
    else if d.hasFolder (folder ++ [part]) then d.find? (folder ++ [part]) rest
    else none

def read (d : Directory) (path : String) : Option String :=
  if path.toList.head? = some '/' then none else d.find? [] (parts path)

end Directory

def Console.recorded (files : Directory) (time : String) : Console (StateM Transcript) where
  readFile path := pure (files.read path)
  print line := modify (· ++ [(.output, line)])
  remark line := modify (· ++ [(.remarks, line)])
  complain line := modify (· ++ [(.complaints, line)])
  now := pure 0
  showTime _ := time

end IntLang.CommandLine
