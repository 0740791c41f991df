import IntLang.Source.Position

/-!
Tokens: the words of the language. A token has a kind, the text it stands for and the span it was
read from. For a string literal the text is the string meant, not its spelling.
-/
namespace IntLang

/-- The kinds of token. The end of a source counts as a token. -/
inductive TokenKind where
  | endOfSource
  | number
  | string
  | identifier
  | openCurly
  | closeCurly
  | openParen
  | closeParen
  | assign
  | semicolon
  | comma
  | plus
  | dash
  | slash
  | star
  | ifWord
  | elseWord
  | whileWord
  | returnWord
  | functionWord
deriving DecidableEq, Repr

namespace TokenKind

def all : List TokenKind :=
  [endOfSource, number, string, identifier, openCurly, closeCurly, openParen, closeParen, assign,
    semicolon, comma, plus, dash, slash, star, ifWord, elseWord, whileWord, returnWord,
    functionWord]

def name : TokenKind → String
  | endOfSource => "EOF"
  | number => "Number"
  | string => "String"
  | identifier => "Identifier"
  | openCurly => "OpenCurly"
  | closeCurly => "CloseCurly"
  | openParen => "OpenParen"
  | closeParen => "CloseParen"
  | assign => "Assignment"
  | semicolon => "Semicolon"
  | comma => "Comma"
  | plus => "Plus"
  | dash => "Dash"
  | slash => "Slash"
  | star => "Star"
  | ifWord => "If"
  | elseWord => "Else"
  | whileWord => "While"
  | returnWord => "Return"
  | functionWord => "Function"

def isKeyword : TokenKind → Bool
  | ifWord | elseWord | whileWord | returnWord | functionWord => true
  | _ => false

theorem mem_all (kind : TokenKind) : kind ∈ all := by
  cases kind <;> decide

/-- As there are finitely many kinds, what can be decided of each can be decided of all. -/
instance {p : TokenKind → Prop} [DecidablePred p] : Decidable (∀ kind, p kind) :=
  decidable_of_decidable_of_iff (p := ∀ kind ∈ all, p kind)
    ⟨fun h kind => h kind (mem_all kind), fun h kind _ => h kind⟩

end TokenKind

def keyword? (text : String) : Option TokenKind :=
  match text with
  | "if" => some .ifWord
  | "else" => some .elseWord
  | "while" => some .whileWord
  | "return" => some .returnWord
  | "function" => some .functionWord
  | _ => none

structure Token where
  kind : TokenKind
  text : String
  span : Span
deriving DecidableEq, Repr

namespace Token

def position (t : Token) : Position := t.span.position

def describe (t : Token) : String :=
  "Token \x7b\nkind: " ++ t.kind.name ++ ",\nvalue: " ++ t.text ++ "\x7d"

/-- A token as its kind, followed by its text if the kind leaves the text open. -/
def summary (t : Token) : String :=
  match t.kind with
  | .string | .identifier | .number => t.kind.name ++ " (" ++ t.text ++ ")"
  | _ => t.kind.name ++ " ()"

end Token

end IntLang
