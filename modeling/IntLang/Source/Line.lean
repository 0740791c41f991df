import IntLang.Text.Bytes

/-!
The lines of a source. Each line keeps the newline that ends it, so that the lines of a text
concatenate to the text; a text that ends in a newline has an empty last line, and so has the empty
text. A byte offset is looked up as the line that holds it and its distance from that line's start.
-/
namespace IntLang

def splitLines : List Char → List (List Char)
  | [] => [[]]
  | c :: cs =>
    if c = '\n' then [c] :: splitLines cs
    else
      match splitLines cs with
      | [] => [[c]]
      | line :: lines => (c :: line) :: lines

/-- A line of a text and a place in it: the number of the line, counted from one, its text with the
newline that ends it, and the byte distance of the place from its start. -/
structure Line where
  number : Nat
  text : String
  column : Nat
deriving DecidableEq, Repr

/-- The place `offset` bytes after the start of the first of `lines`, whose number is `number`.
Every line but the last ends before the offset just past it. -/
def locate (number offset : Nat) : List (List Char) → Line
  | [] => ⟨number, "", 0⟩
  | [line] => ⟨number, String.ofList line, offset⟩
  | line :: next :: lines =>
    if offset < byteLength line then ⟨number, String.ofList line, offset⟩
    else locate (number + 1) (offset - byteLength line) (next :: lines)

/-- The line that holds a byte offset of a text. An offset past the end counts as the end. -/
def lineAt (text : String) (offset : Nat) : Line :=
  let cs := text.toList
  locate 1 (min offset (byteLength cs)) (splitLines cs)

theorem flatten_splitLines (cs : List Char) : (splitLines cs).flatten = cs := by
  induction cs with
  | nil => rfl
  | cons c cs ih =>
    by_cases h : c = '\n'
    · simp [splitLines, h, ih]
    · cases hs : splitLines cs with
      | nil => simp_all [splitLines]
      | cons line lines => simp_all [splitLines]

end IntLang
