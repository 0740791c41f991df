import IntLang.Error.Cause
import IntLang.Token.Basic
import IntLang.Token.StringLiteral

/-!
Lexemes: the longest stretch of characters at a place of a source that makes a token. A digit
begins a number, a letter or underscore a word, a quote a string literal, and eleven signs stand
for themselves. The characters that a lexeme covers followed by the rest are the characters it was
read from, and it covers at least one.
-/
namespace IntLang

def sign? (c : Char) : Option TokenKind :=
  match c with
  | '{' => some .openCurly
  | '}' => some .closeCurly
  | '(' => some .openParen
  | ')' => some .closeParen
  | '=' => some .assign
  | ';' => some .semicolon
  | ',' => some .comma
  | '+' => some .plus
  | '-' => some .dash
  | '/' => some .slash
  | '*' => some .star
  | _ => none

def isWordStart (c : Char) : Bool := c.isAlpha || c == '_'

def isWordPart (c : Char) : Bool := isWordStart c || c.isDigit

def wordKind (text : String) : TokenKind := (keyword? text).getD .identifier

/-- The kind and text of a token, the characters it covers and those that follow. -/
structure Lexeme where
  kind : TokenKind
  text : String
  chars : List Char
  rest : List Char
deriving DecidableEq, Repr

namespace Lexeme

/-- The lexeme at the beginning of `c :: cs`, or the reason why there is none. -/
def read (c : Char) (cs : List Char) : Except Cause Lexeme :=
  if c.isDigit then
    let digits := c :: cs.takeWhile Char.isDigit
    .ok ⟨.number, String.ofList digits, digits, cs.dropWhile Char.isDigit⟩
  else if isWordStart c then
    let word := c :: cs.takeWhile isWordPart
    let text := String.ofList word
    .ok ⟨wordKind text, text, word, cs.dropWhile isWordPart⟩
  else if c = '"' then
    match splitLiteral false cs with
    | none => .error .unterminatedString
    | some (body, rest) =>
      .ok ⟨.string, String.ofList (unescape body), c :: body ++ ['"'], rest⟩
  else
    match sign? c with
    | none => .error (.unrecognisedCharacter (String.singleton c))
    | some kind => .ok ⟨kind, String.singleton c, [c], cs⟩

theorem chars_append_rest {c : Char} {cs : List Char} {l : Lexeme} (h : read c cs = .ok l) :
    l.chars ++ l.rest = c :: cs := by
  unfold read at h
  split at h
  · cases h
    simp
  · split at h
    · cases h
      simp
    · split at h
      · split at h
        · cases h
        · next hs =>
          cases h
          simp [splitLiteral_eq_append hs]
      · split at h <;> cases h
        rfl

theorem chars_ne_nil {c : Char} {cs : List Char} {l : Lexeme} (h : read c cs = .ok l) :
    l.chars ≠ [] := by
  unfold read at h
  split at h
  · cases h
    simp
  · split at h
    · cases h
      simp
    · split at h
      · split at h <;> cases h
        simp
      · split at h <;> cases h
        simp

/-- A lexeme leaves less to read than there was. -/
theorem length_rest_lt {c : Char} {cs : List Char} {l : Lexeme} (h : read c cs = .ok l) :
    l.rest.length < cs.length + 1 := by
  have happend := congrArg List.length (chars_append_rest h)
  have hpos := List.length_pos_iff.mpr (chars_ne_nil h)
  simp only [List.length_append, List.length_cons] at happend
  omega

end Lexeme

end IntLang
