import IntLang.Grammar.Rules
import IntLang.Token.Stream

/-!
Parsing as steps on a state from which tokens are taken. A step takes tokens one after the other and
yields a result, or fails with an error; what it took before it failed stays taken. A token is taken
only once the one behind it can be read, so a failure to read leaves it the current one. Steps are
written once for every kind of state; a whole source is read from the stream of its tokens.
-/
namespace IntLang

/-- A state from which tokens are taken one after the other: the token to be read next, the step
that takes it, and how many tokens there are behind it, the end token not counted. -/
class TokenSource (σ : Type) where
  current : σ → Token
  take : σ → EStateM.Result Error σ Token
  ahead : σ → Nat

def TokenStream.take (s : TokenStream) : EStateM.Result Error TokenStream Token :=
  match s.upcoming, s.ending with
  | t :: ts, _ => .ok s.current { s with current := t, upcoming := ts }
  | [], .ok last => .ok s.current { s with current := last }
  | [], .error e => .error e s

instance : TokenSource TokenStream := ⟨TokenStream.current, TokenStream.take, (·.upcoming.length)⟩

abbrev ParseOn (σ : Type) := EStateM Error σ

abbrev Parse := ParseOn TokenStream

def Token.unexpected (t : Token) : Error :=
  match t.kind with
  | .endOfSource => ⟨.unexpectedEnd, t.position⟩
  | _ => ⟨.unexpectedToken t.text, t.position⟩

namespace Parse

/-- The deepest that statements and expressions may stand inside one another. -/
def maxDepth : Nat := 128

variable {σ : Type} [TokenSource σ]

def peek : ParseOn σ Token := fun s => .ok (TokenSource.current s) s

def advance : ParseOn σ Token := TokenSource.take

def unexpected : ParseOn σ α := fun s => .error (TokenSource.current s).unexpected s

def tooDeep : ParseOn σ α := fun s =>
  .error ⟨.nestingTooDeep maxDepth, (TokenSource.current s).position⟩ s

/-- Takes the current token if it has the given kind. Otherwise the complaint is the error, unless
the source has ended. -/
def expectOr (kind : TokenKind) (complaint : Error) : ParseOn σ Token := do
  let t ← peek
  if t.kind = kind then advance
  else if t.kind = .endOfSource then unexpected
  else throw complaint

def expect (kind : TokenKind) : ParseOn σ Token := do
  let t ← peek
  if t.kind = kind then advance else unexpected

/-- A bound on the number of tokens that can still be taken before the stream repeats itself. Every
round of a loop takes a token, so no loop needs more rounds. -/
def rounds : ParseOn σ Nat := fun s => .ok (TokenSource.ahead s + 1) s

end Parse

end IntLang
