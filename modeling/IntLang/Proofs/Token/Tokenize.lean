import IntLang.Proofs.Token.Split

/-!
The tokens of a source are those of its split. A cursor in front of pieces yields their tokens and
comes to stand behind them; in front of blanks and comments alone it yields the end token, and in
front of a character at which nothing begins the error. As every source has a split, this says when
a source has tokens, which ones, and where reading fails otherwise.
-/
namespace IntLang

theorem Spells.kind_ne_end {kind : TokenKind} {text : String} {l rest : List Char}
    (h : Spells kind text l rest) : kind ≠ .endOfSource := by
  cases h with
  | number | identifier | string => decide
  | reserved hstart hrun hkeyword =>
    rintro rfl
    cases isKeyword_of_keyword? hkeyword
  | sign hsign hslash => exact (sign?_ne hsign).1

namespace Cursor

variable {c d : Cursor} {t last : Token} {e : Error}

theorem tokens_of_token (h : c.next = (.ok t, d)) (hkind : t.kind ≠ .endOfSource) :
    c.tokens = (t :: d.tokens.1, d.tokens.2) := by
  rw [tokens]
  split
  · next hnext =>
    rw [h] at hnext
    cases hnext
  · next hnext =>
    rw [h] at hnext
    cases hnext
    rw [dif_neg hkind]

theorem tokens_of_end (h : c.next = (.ok last, d)) (hkind : last.kind = .endOfSource) :
    c.tokens = ([], .ok last) := by
  rw [tokens]
  split
  · next hnext =>
    rw [h] at hnext
    cases hnext
  · next hnext =>
    rw [h] at hnext
    cases hnext
    rw [dif_pos hkind]

theorem tokens_of_error (h : c.next = (.error e, d)) : c.tokens = ([], .error e) := by
  rw [tokens]
  split
  · next hnext =>
    rw [h] at hnext
    cases hnext
    rfl
  · next hnext =>
    rw [h] at hnext
    cases hnext

variable {w rest : List Char}

theorem afterTrivia_of_trivia (hw : Trivia w rest) (hrest : ¬StartsTrivia rest) (file : String)
    (offset : Nat) :
    afterTrivia ⟨file, offset, w ++ rest⟩ = ⟨file, offset + byteLength w, rest⟩ := by
  simp only [afterTrivia, hw.skipTrivia_eq hrest]

/-- In front of a piece the cursor yields the token of its lexeme. -/
theorem next_of_piece {kind : TokenKind} {text : String} {l : List Char}
    (hw : Trivia w (l ++ rest)) (hl : Spells kind text l rest) (file : String) (offset : Nat) :
    next ⟨file, offset, w ++ (l ++ rest)⟩ =
      (.ok ⟨kind, text, ⟨file, offset + byteLength w, offset + byteLength (w ++ l)⟩⟩,
        ⟨file, offset + byteLength (w ++ l), rest⟩) := by
  obtain ⟨a, as, rfl, hread⟩ := hl.exists_read
  rw [next, afterTrivia_of_trivia hw hl.not_startsTrivia]
  simp only [readHere, List.cons_append, hread, tokenOf, behind, span, byteLength_append,
    Nat.add_assoc]

/-- In front of blanks and comments alone the cursor yields the end token. -/
theorem tokens_of_trivia (hw : Trivia w []) (file : String) (offset : Nat) :
    tokens ⟨file, offset, w⟩ = ([], .ok ⟨.endOfSource, "EOF",
      ⟨file, offset + byteLength w, offset + byteLength w⟩⟩) := by
  refine tokens_of_end (d := ⟨file, offset + byteLength w, []⟩) ?_ rfl
  have hafter := afterTrivia_of_trivia hw id file offset
  rw [List.append_nil] at hafter
  rw [next, hafter]
  rfl

/-- The error at a character at which nothing begins. -/
theorem tokens_of_startsNothing {a : Char} {more : List Char} (hw : Trivia w (a :: more))
    (hnothing : StartsNothing a more) (file : String) (offset : Nat) :
    tokens ⟨file, offset, w ++ a :: more⟩ = ([], .error
      ⟨if a = '"' then .unterminatedString else .unrecognisedCharacter (String.singleton a),
        ⟨file, offset + byteLength w⟩⟩) := by
  refine tokens_of_error (d := ⟨file, offset + byteLength w, a :: more⟩) ?_
  rw [next, afterTrivia_of_trivia hw hnothing.trivia]
  simp only [readHere, Lexeme.read_of_startsNothing hnothing, position]

/-- In front of pieces the cursor yields their tokens and goes on behind them. -/
theorem tokens_of_split {ps : List Piece} (h : Split ps rest) (file : String) (offset : Nat) :
    tokens ⟨file, offset, sourceOf ps ++ rest⟩ =
      (tokensAt file offset ps ++ (tokens ⟨file, offset + byteLength (sourceOf ps), rest⟩).1,
        (tokens ⟨file, offset + byteLength (sourceOf ps), rest⟩).2) := by
  induction h generalizing offset with
  | nil => rfl
  | @cons p ps rest htrivia hlexeme hps ih =>
    have hnext := next_of_piece htrivia hlexeme file offset
    rw [sourceOf_cons, List.append_assoc, List.append_assoc,
      tokens_of_token hnext hlexeme.kind_ne_end, ih]
    simp only [tokensAt, Piece.source, byteLength_append, Nat.add_assoc, List.cons_append]

end Cursor

section Spans

variable {file : String} {ps : List Piece}

theorem le_of_mem_tokensAt {offset : Nat} {t : Token} (h : t ∈ tokensAt file offset ps) :
    offset ≤ t.span.start ∧ t.span.stop ≤ offset + byteLength (sourceOf ps) := by
  induction ps generalizing offset with
  | nil => cases h
  | cons p ps ih =>
    simp only [sourceOf_cons, byteLength_append]
    rcases List.mem_cons.mp h with rfl | h
    · simp only [Piece.source, byteLength_append]
      omega
    · have hrest := ih h
      simp only [Piece.source, byteLength_append] at hrest
      omega

/-- Each token ends before the next one begins. -/
theorem pairwise_tokensAt (offset : Nat) :
    (tokensAt file offset ps).Pairwise fun a b => a.span.stop ≤ b.span.start := by
  induction ps generalizing offset with
  | nil => exact .nil
  | cons p ps ih =>
    refine .cons (fun t ht => ?_) (ih _)
    exact (le_of_mem_tokensAt ht).1

/-- No token is empty. -/
theorem lt_of_mem_tokensAt {offset : Nat} {rest : List Char} {t : Token} (hps : Split ps rest)
    (h : t ∈ tokensAt file offset ps) : t.span.start < t.span.stop := by
  induction hps generalizing offset with
  | nil => cases h
  | @cons p ps rest htrivia hlexeme hps ih =>
    rcases List.mem_cons.mp h with rfl | h
    · obtain ⟨a, as, hchars, -⟩ := hlexeme.exists_read
      have hpos := a.utf8Size_pos
      simp only [Piece.source, byteLength_append, hchars, byteLength_cons]
      omega
    · exact ih h

/-- The span of a token is the place of its characters in the source. -/
theorem exists_of_mem_tokensAt {before rest : List Char} {t : Token}
    (h : t ∈ tokensAt file (byteLength before) ps) :
    ∃ pre l post, before ++ (sourceOf ps ++ rest) = pre ++ (l ++ post) ∧
      t.span = ⟨file, byteLength pre, byteLength (pre ++ l)⟩ := by
  induction ps generalizing before with
  | nil => cases h
  | cons p ps ih =>
    rcases List.mem_cons.mp h with rfl | h
    · refine ⟨before ++ p.trivia, p.chars, sourceOf ps ++ rest, ?_, ?_⟩
      · simp only [sourceOf_cons, List.append_assoc]
      · simp only [Piece.source, byteLength_append, Nat.add_assoc]
    · rw [← byteLength_append] at h
      obtain ⟨pre, l, post, happend, hspan⟩ := ih h
      refine ⟨pre, l, post, ?_, hspan⟩
      rw [← happend]
      simp only [sourceOf_cons, Piece.source, List.append_assoc]

end Spans

section Source

variable {source : String} {ps : List Piece} {w : List Char}

/-- A source that is pieces, blanks and comments has the tokens of the pieces and an end token. -/
theorem tokenize_of_split (hsource : source.toList = sourceOf ps ++ w) (hps : Split ps w)
    (hw : Trivia w []) (file : String) :
    tokenize source file = .ok (tokensAt file 0 ps ++
      [⟨.endOfSource, "EOF", ⟨file, byteLength source.toList, byteLength source.toList⟩⟩]) := by
  have htokens := Cursor.tokens_of_split hps file 0
  rw [Cursor.tokens_of_trivia hw, ← hsource, List.append_nil, Nat.add_assoc,
    ← byteLength_append, ← hsource, Nat.zero_add] at htokens
  simp only [tokenize, Cursor.start, htokens]

/-- A source whose pieces end at a character at which nothing begins cannot be read. -/
theorem tokenize_of_startsNothing {c : Char} {more : List Char}
    (hsource : source.toList = sourceOf ps ++ (w ++ c :: more)) (hps : Split ps (w ++ c :: more))
    (hw : Trivia w (c :: more)) (hnothing : StartsNothing c more) (file : String) :
    tokenize source file = .error
      ⟨if c = '"' then .unterminatedString else .unrecognisedCharacter (String.singleton c),
        ⟨file, byteLength (sourceOf ps ++ w)⟩⟩ := by
  have htokens := Cursor.tokens_of_split hps file 0
  rw [Cursor.tokens_of_startsNothing hw hnothing, ← hsource, Nat.add_assoc, ← byteLength_append,
    Nat.zero_add] at htokens
  simp only [tokenize, Cursor.start, htokens]

/-- The tokens of a source are those of its pieces. -/
theorem tokenize_eq_ok_iff_split {file : String} {ts : List Token} :
    tokenize source file = .ok ts ↔
      ∃ ps w, source.toList = sourceOf ps ++ w ∧ Split ps w ∧ Trivia w [] ∧
        ts = tokensAt file 0 ps ++
          [⟨.endOfSource, "EOF", ⟨file, byteLength source.toList, byteLength source.toList⟩⟩] := by
  constructor
  · intro hts
    obtain ⟨ps, w, rest, hsource, hps, hw, rfl | ⟨c, more, rfl, hnothing⟩⟩ :=
      exists_split source.toList
    · rw [List.append_nil] at hsource hps
      rw [tokenize_of_split hsource hps hw] at hts
      exact ⟨ps, w, hsource, hps, hw, (Except.ok.inj hts).symm⟩
    · rw [tokenize_of_startsNothing hsource hps hw hnothing] at hts
      cases hts
  · rintro ⟨ps, w, hsource, hps, hw, rfl⟩
    exact tokenize_of_split hsource hps hw file

/-- A source without tokens has pieces up to a character at which nothing begins. -/
theorem tokenize_eq_error_iff_split {file : String} {e : Error} :
    tokenize source file = .error e ↔
      ∃ ps w c more, source.toList = sourceOf ps ++ (w ++ c :: more) ∧
        Split ps (w ++ c :: more) ∧ Trivia w (c :: more) ∧ StartsNothing c more ∧
          e = ⟨if c = '"' then .unterminatedString
              else .unrecognisedCharacter (String.singleton c),
            ⟨file, byteLength (sourceOf ps ++ w)⟩⟩ := by
  constructor
  · intro he
    obtain ⟨ps, w, rest, hsource, hps, hw, rfl | ⟨c, more, rfl, hnothing⟩⟩ :=
      exists_split source.toList
    · rw [List.append_nil] at hsource hps
      rw [tokenize_of_split hsource hps hw] at he
      cases he
    · rw [tokenize_of_startsNothing hsource hps hw hnothing] at he
      exact ⟨ps, w, c, more, hsource, hps, hw, hnothing, (Except.error.inj he).symm⟩
  · rintro ⟨ps, w, c, more, hsource, hps, hw, hnothing, rfl⟩
    exact tokenize_of_startsNothing hsource hps hw hnothing file

end Source

end IntLang
