import IntLang.Error.Basic
import IntLang.Source.Line
import IntLang.Text.Blank

/-!
The report of an error to the author of a source: what went wrong, the source line it points to,
and a caret below the place.

    Error: VariableNotDeclared (…)
    -> main.ml
      |
    2 | y = x + z;
      | --------^

The line is shown without its indentation and without the blanks at its end. The two bars stand in
one column, whatever the width of the line number.
-/
namespace IntLang

def isIndent (c : Char) : Bool := c == ' ' || c == '\t'

/-- A line without its leading spaces and tabs and without the blanks at its end. -/
def trimLine (cs : List Char) : List Char :=
  ((cs.dropWhile isIndent).reverse.dropWhile isBlank).reverse

/-- A bar at the end of a field as wide as the line number and the space after it. -/
def gutter (width : Nat) : String :=
  "".pushn ' ' width ++ "|"

/-- The first line of a report: the name of the cause, and the hint if there is one. -/
def Error.headline (e : Error) : String :=
  match e.cause.tip with
  | none => "Error: " ++ e.cause.name
  | some tip => "Error: " ++ e.cause.name ++ " (" ++ tip ++ ")"

def Error.report (e : Error) (source file : String) : String :=
  let line := lineAt source e.position.offset
  let number := toString line.number
  let text := line.text.toList
  let indent := (text.takeWhile isIndent).length
  let bar := gutter (number.length + 1)
  e.headline ++ "\n-> " ++ file ++ "\n" ++ bar ++ "\n" ++
    number ++ " | " ++ String.ofList (trimLine text) ++ "\n" ++
    bar ++ " " ++ "".pushn '-' (line.column - indent) ++ "^"

end IntLang
