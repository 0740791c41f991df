import IntLang.Error.Basic
import IntLang.Text.Blank
import IntLang.Text.Bytes
import IntLang.Token.Lexeme

/-!
A cursor reads a source token by token. Between two tokens it skips blanks and comments, which run
from `//` to the end of the line. At a character that begins no token it reports the error and
stays in front of that character; at the end of the source it yields the end token again and again.
-/
namespace IntLang

/-- Skips blanks and comments, counting the bytes skipped on top of `offset`. The flag says that a
comment is open; the newline that ends it is a blank. -/
def skipTrivia (inComment : Bool) (offset : Nat) : List Char → Nat × List Char
  | [] => (offset, [])
  | c :: cs =>
    if inComment then skipTrivia (c != '\n') (offset + c.utf8Size) cs
    else if isBlank c then skipTrivia false (offset + c.utf8Size) cs
    else if c = '/' ∧ cs.head? = some '/' then skipTrivia true (offset + c.utf8Size) cs
    else (offset, c :: cs)

theorem skipTrivia_length_le (inComment : Bool) (offset : Nat) (cs : List Char) :
    (skipTrivia inComment offset cs).2.length ≤ cs.length := by
  induction cs generalizing inComment offset with
  | nil => simp [skipTrivia]
  | cons c cs ih =>
    unfold skipTrivia
    split
    · exact Nat.le_succ_of_le (ih ..)
    · split
      · exact Nat.le_succ_of_le (ih ..)
      · split
        · exact Nat.le_succ_of_le (ih ..)
        · exact Nat.le_refl _

theorem skipTrivia_split (inComment : Bool) (offset : Nat) (cs : List Char) :
    ∃ skipped, cs = skipped ++ (skipTrivia inComment offset cs).2 ∧
      (skipTrivia inComment offset cs).1 = offset + byteLength skipped := by
  induction cs generalizing inComment offset with
  | nil => exact ⟨[], rfl, rfl⟩
  | cons c cs ih =>
    have hstep (flag : Bool) :
        ∃ skipped, c :: cs = skipped ++ (skipTrivia flag (offset + c.utf8Size) cs).2 ∧
          (skipTrivia flag (offset + c.utf8Size) cs).1 = offset + byteLength skipped := by
      obtain ⟨skipped, happend, hoffset⟩ := ih flag (offset + c.utf8Size)
      refine ⟨c :: skipped, congrArg (c :: ·) happend, ?_⟩
      rw [hoffset, byteLength_cons, Nat.add_assoc]
    unfold skipTrivia
    split
    · exact hstep _
    · split
      · exact hstep _
      · split
        · exact hstep _
        · exact ⟨[], rfl, rfl⟩

/-- A place in a source: its name, the byte offset, and the characters still to read. -/
structure Cursor where
  file : String
  offset : Nat
  rest : List Char
deriving DecidableEq, Repr

namespace Cursor

def start (source file : String) : Cursor := ⟨file, 0, source.toList⟩

/-- A literal is made of its characters, so they need not be decoded from its bytes. -/
theorem start_of_toList {source : String} {cs : List Char} (h : source.toList = cs)
    (file : String) : start source file = ⟨file, 0, cs⟩ :=
  congrArg (mk file 0) h

def position (c : Cursor) : Position := ⟨c.file, c.offset⟩

def span (c : Cursor) (bytes : Nat) : Span := ⟨c.file, c.offset, c.offset + bytes⟩

/-- The character at the cursor, NUL at the end of the source. -/
def peek (c : Cursor) : Char := c.rest.headD '\x00'

def afterTrivia (c : Cursor) : Cursor :=
  let (offset, rest) := skipTrivia false c.offset c.rest
  { c with offset, rest }

def endToken (c : Cursor) : Token := ⟨.endOfSource, "EOF", c.span 0⟩

def behind (c : Cursor) (l : Lexeme) : Cursor :=
  { c with offset := c.offset + byteLength l.chars, rest := l.rest }

def tokenOf (c : Cursor) (l : Lexeme) : Token :=
  ⟨l.kind, l.text, c.span (byteLength l.chars)⟩

def readHere (c : Cursor) : Except Error Token × Cursor :=
  match c.rest with
  | [] => (.ok c.endToken, c)
  | first :: more =>
    match Lexeme.read first more with
    | .error cause => (.error ⟨cause, c.position⟩, c)
    | .ok l => (.ok (c.tokenOf l), c.behind l)

/-- Reads one token. The cursor that comes back stands behind the token, or in front of the
character that begins none. -/
def next (c : Cursor) : Except Error Token × Cursor := c.afterTrivia.readHere

theorem afterTrivia_split (c : Cursor) :
    ∃ skipped, c.rest = skipped ++ c.afterTrivia.rest ∧
      c.afterTrivia.offset = c.offset + byteLength skipped :=
  skipTrivia_split false c.offset c.rest

theorem readHere_split (c : Cursor) :
    ∃ read, c.rest = read ++ c.readHere.2.rest ∧
      c.readHere.2.offset = c.offset + byteLength read := by
  unfold readHere
  split
  · exact ⟨[], rfl, rfl⟩
  · next first more hrest =>
    split
    · exact ⟨[], rfl, rfl⟩
    · next l hread => exact ⟨l.chars, hrest.trans (Lexeme.chars_append_rest hread).symm, rfl⟩

/-- Reading moves a cursor forward over characters of the source and counts their bytes. -/
theorem next_split (c : Cursor) :
    ∃ passed, c.rest = passed ++ c.next.2.rest ∧
      c.next.2.offset = c.offset + byteLength passed := by
  obtain ⟨skipped, hskipped, hoffset⟩ := c.afterTrivia_split
  obtain ⟨read, hread, hbehind⟩ := c.afterTrivia.readHere_split
  refine ⟨skipped ++ read, ?_, ?_⟩
  · rw [hskipped, hread, List.append_assoc]
    rfl
  · rw [byteLength_append, ← Nat.add_assoc, ← hoffset]
    exact hbehind

theorem file_next (c : Cursor) : c.next.2.file = c.file := by
  unfold next readHere
  split
  · rfl
  · split <;> rfl

end Cursor

end IntLang
