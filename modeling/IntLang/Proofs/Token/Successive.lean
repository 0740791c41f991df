import IntLang.Proofs.Token.Tokenize

/-!
Reading on and on. The cursor yields the tokens of a source one after the other, and where they end
it stays: at the end of the source it yields the end token again and again, and in front of a
character that begins no token the same error. So the tokens behind a cursor go on for ever, and
reading one of them leaves the others.
-/
namespace IntLang.Cursor

variable {c d : Cursor} {t : Token} {e : Error}

/-- The token with the given index from a cursor on. Behind the last token it is the end token or
the error with which the tokens end. -/
def tokenAt (c : Cursor) (i : Nat) : Except Error Token :=
  match c.tokens.1[i]? with
  | some t => .ok t
  | none => c.tokens.2

theorem tokenAt_of_tokens_nil {ending : Except Error Token} (h : c.tokens = ([], ending))
    (i : Nat) : c.tokenAt i = ending := by
  simp only [tokenAt, h, List.getElem?_nil]

theorem not_startsTrivia_afterTrivia (c : Cursor) : ¬StartsTrivia c.afterTrivia.rest := by
  obtain ⟨file, offset, rest⟩ := c
  obtain ⟨w, rest, rfl, hw, hrest⟩ := exists_trivia rest
  rwa [afterTrivia_of_trivia hw hrest]

/-- Behind blanks and comments there are none left to skip. -/
theorem afterTrivia_afterTrivia (c : Cursor) : c.afterTrivia.afterTrivia = c.afterTrivia := by
  have hrest := c.not_startsTrivia_afterTrivia
  generalize c.afterTrivia = d at hrest
  exact afterTrivia_of_trivia .nil hrest d.file d.offset

/-- A cursor that cannot read on stays in front of the same error. -/
theorem next_of_error (h : c.next = (.error e, d)) : d.next = (.error e, d) := by
  have hstays : c.afterTrivia = d := by
    unfold next readHere at h
    split at h
    · cases h
    · split at h <;> cases h
      rfl
  rw [next, hstays] at h
  rw [next, ← hstays, afterTrivia_afterTrivia, hstays, h]

/-- A cursor that has read the end token reads it again. -/
theorem next_of_end (h : c.next = (.ok t, d)) (hkind : t.kind = .endOfSource) :
    d.next = (.ok t, d) := by
  have hrest := c.not_startsTrivia_afterTrivia
  have hstays : c.afterTrivia = d := by
    unfold next readHere at h
    split at h
    · cases h
      rfl
    · next first more hcons =>
      rw [hcons] at hrest
      split at h
      · cases h
      · next l hread =>
        cases h
        exact absurd hkind (Lexeme.spells_of_read hrest hread).kind_ne_end
  rw [next, hstays] at h
  rw [next, ← hstays, afterTrivia_afterTrivia, hstays, h]

theorem tokenAt_zero (h : c.next = (.ok t, d)) : c.tokenAt 0 = .ok t := by
  by_cases hkind : t.kind = .endOfSource
  · rw [tokenAt_of_tokens_nil (tokens_of_end h hkind)]
  · simp only [tokenAt, tokens_of_token h hkind, List.getElem?_cons_zero]

/-- Reading a token leaves the others. -/
theorem tokenAt_succ (h : c.next = (.ok t, d)) (i : Nat) : c.tokenAt (i + 1) = d.tokenAt i := by
  by_cases hkind : t.kind = .endOfSource
  · rw [tokenAt_of_tokens_nil (tokens_of_end h hkind),
      tokenAt_of_tokens_nil (tokens_of_end (next_of_end h hkind) hkind)]
  · simp only [tokenAt, tokens_of_token h hkind, List.getElem?_cons_succ]

theorem tokenAt_of_error (h : c.next = (.error e, d)) (i : Nat) : c.tokenAt i = .error e :=
  tokenAt_of_tokens_nil (tokens_of_error h) i

end IntLang.Cursor
