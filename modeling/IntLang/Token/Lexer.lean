import IntLang.Token.Cursor

/-!
A lexer is a source with a byte offset, which reading moves from token to token and the user by any
number of bytes. It reads only where there is a cursor: an offset inside a character or past the end
of the source gives nothing to read, and the lexer can go on when it has been moved to the end of
the character. Reading never leads to such an offset: `cursor?_next` says that the lexer then stands
where the cursor does that has read the token.
-/
namespace IntLang

structure Lexer where
  file : String
  source : List Char
  offset : Nat
deriving DecidableEq, Repr

namespace Lexer

def ofSource (source file : String) : Lexer := ⟨file, source.toList, 0⟩

def position (l : Lexer) : Position := ⟨l.file, l.offset⟩

def span (l : Lexer) (bytes : Nat) : Span := ⟨l.file, l.offset, l.offset + bytes⟩

def advance (l : Lexer) (bytes : Nat) : Lexer := { l with offset := l.offset + bytes }

def atEnd (l : Lexer) : Bool := byteLength l.source ≤ l.offset

/-- The cursor where a lexer stands, if that is not inside a character or past the end. -/
def cursor? (l : Lexer) : Option Cursor :=
  (dropBytes? l.offset l.source).map fun rest => ⟨l.file, l.offset, rest⟩

def peek? (l : Lexer) : Option Char := l.cursor?.map Cursor.peek

def rest? (l : Lexer) : Option String := l.cursor?.map fun c => String.ofList c.rest

def next? (l : Lexer) : Option (Except Error Token × Lexer) :=
  l.cursor?.map fun c => (c.next.1, { l with offset := c.next.2.offset })

/-- A lexer has a cursor just where a beginning of the source ends. -/
theorem cursor?_eq_some_iff {l : Lexer} {c : Cursor} :
    l.cursor? = some c ↔
      c.file = l.file ∧ c.offset = l.offset ∧
        ∃ before, l.source = before ++ c.rest ∧ byteLength before = l.offset := by
  simp only [cursor?, Option.map_eq_some_iff, dropBytes?_eq_some_iff]
  constructor
  · rintro ⟨rest, hbefore, rfl⟩
    exact ⟨rfl, rfl, hbefore⟩
  · rintro ⟨hfile, hoffset, hbefore⟩
    refine ⟨c.rest, hbefore, ?_⟩
    rw [← hfile, ← hoffset]

/-- After reading, the lexer stands where the cursor does. -/
theorem cursor?_next {l : Lexer} {c : Cursor} (h : l.cursor? = some c) :
    ({ l with offset := c.next.2.offset } : Lexer).cursor? = some c.next.2 := by
  obtain ⟨hfile, hoffset, before, hsource, hlength⟩ := cursor?_eq_some_iff.mp h
  obtain ⟨passed, hpassed, hnext⟩ := c.next_split
  refine cursor?_eq_some_iff.mpr ⟨c.file_next.trans hfile, rfl, before ++ passed, ?_, ?_⟩
  · rw [hsource, hpassed, List.append_assoc]
  · rw [byteLength_append, hlength, hnext, hoffset]

end Lexer

end IntLang
