import IntLang.Token.Cursor

/-!
The tokens of a source. Reading goes on to the end of the source or to the first character that
begins no token, so a source gives a list of tokens and a way in which the list ends. A token
stream is such a list seen through one token of lookahead; behind its last token the end token or
the error repeats for ever.
-/
namespace IntLang

namespace Cursor

theorem afterTrivia_length_le (c : Cursor) : c.afterTrivia.rest.length ≤ c.rest.length :=
  skipTrivia_length_le false c.offset c.rest

theorem readHere_length_lt {c d : Cursor} {t : Token} (h : c.readHere = (.ok t, d))
    (hkind : t.kind ≠ .endOfSource) : d.rest.length < c.rest.length := by
  unfold readHere at h
  split at h
  · cases h
    exact absurd rfl hkind
  · next first more hrest =>
    split at h
    · cases h
    · next l hread =>
      cases h
      rw [hrest]
      exact Lexeme.length_rest_lt hread

/-- Every token but the end token takes something from the source. -/
theorem next_length_lt {c d : Cursor} {t : Token} (h : c.next = (.ok t, d))
    (hkind : t.kind ≠ .endOfSource) : d.rest.length < c.rest.length :=
  Nat.lt_of_lt_of_le (readHere_length_lt h hkind) c.afterTrivia_length_le

/-- The tokens from a cursor on, and how they end: with the end token or with an error. -/
def tokens (c : Cursor) : List Token × Except Error Token :=
  match _h : c.next with
  | (.error e, _) => ([], .error e)
  | (.ok t, d) =>
    if _hkind : t.kind = .endOfSource then ([], .ok t)
    else
      let (ts, ending) := d.tokens
      (t :: ts, ending)
termination_by c.rest.length
decreasing_by exact next_length_lt _h _hkind

end Cursor

/-- The tokens of a source, the end token last. -/
def tokenize (source : String) (file : String) : Except Error (List Token) :=
  match (Cursor.start source file).tokens with
  | (ts, .ok last) => .ok (ts ++ [last])
  | (_, .error e) => .error e

/-- The token to be read next, the tokens after it, and what comes behind them. -/
structure TokenStream where
  current : Token
  upcoming : List Token
  ending : Except Error Token
deriving Repr

namespace TokenStream

def ofCursor (c : Cursor) : Except Error TokenStream :=
  match c.tokens with
  | ([], .error e) => .error e
  | ([], .ok last) => .ok ⟨last, [], .ok last⟩
  | (t :: ts, ending) => .ok ⟨t, ts, ending⟩

def hasMore (s : TokenStream) : Bool := s.current.kind != .endOfSource

end TokenStream

end IntLang
