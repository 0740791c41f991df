/-!
Places in a source. A position is a byte offset into a named source; a span is the range between
two offsets of one source and covers what a token or a tree node was read from.
-/
namespace IntLang

/-- The name that positions carry when a source was given none. -/
def unnamedSource : String := "<source>"

/-- A byte offset into a named source. -/
structure Position where
  file : String
  offset : Nat
deriving DecidableEq, Repr

def Position.nowhere : Position := ⟨"<null>", 0⟩

def Position.describe (p : Position) : String :=
  p.file ++ ":" ++ toString p.offset

/-- The bytes from `start` up to but not including `stop` of a named source. -/
structure Span where
  file : String
  start : Nat
  stop : Nat
deriving DecidableEq, Repr

def Span.position (s : Span) : Position := ⟨s.file, s.start⟩

/-- The span from the beginning of one span to the end of another of the same source. -/
def Span.through (first last : Span) : Span :=
  { first with stop := last.stop }

end IntLang
