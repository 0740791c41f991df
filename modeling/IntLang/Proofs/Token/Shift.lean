import IntLang.Proofs.Token.Tokenize

/-!
Moving along a source. The tokens of a text depend on the place where it begins only in that their
spans move with it, and so does the error at which they may end. Behind a newline a text is read as
at the beginning of a source of its own, whatever blanks and comments stand in front of the newline,
and no lexeme goes on over it. So a text and what comes behind a newline are read one after the
other.
-/
namespace IntLang

def Position.shift (bytes : Nat) (p : Position) : Position := ⟨p.file, p.offset + bytes⟩

def Span.shift (bytes : Nat) (a : Span) : Span := ⟨a.file, a.start + bytes, a.stop + bytes⟩

def Token.shift (bytes : Nat) (t : Token) : Token := { t with span := t.span.shift bytes }

def Error.shift (bytes : Nat) (e : Error) : Error := { e with position := e.position.shift bytes }

theorem tokensAt_shift (file : String) (offset bytes : Nat) (ps : List Piece) :
    tokensAt file (offset + bytes) ps = (tokensAt file offset ps).map (Token.shift bytes) := by
  induction ps generalizing offset with
  | nil => rfl
  | cons p ps ih =>
    simp only [tokensAt, List.map_cons, Token.shift, Span.shift, Nat.add_right_comm _ bytes, ih]

/-- Blanks and comments one after the other. -/
theorem Trivia.append {v w rest : List Char} (hv : Trivia v (w ++ rest)) (hw : Trivia w rest) :
    Trivia (v ++ w) rest := by
  generalize hbehind : w ++ rest = behind at hv
  induction hv with
  | nil => exact hw
  | blank hblank _ ih => exact .blank hblank (ih hbehind)
  | @comment body v _ hbody hends _ ih =>
    rw [List.cons_append, List.cons_append, List.append_assoc]
    refine .comment hbody (fun c hc => hends c ?_) (ih hbehind)
    rwa [List.append_assoc, hbehind] at hc

/-- Pieces stay as they are in front of a newline. -/
theorem Split.append_newline {ps : List Piece} {w : List Char} (h : Split ps w) (rest : List Char) :
    Split ps (w ++ '\n' :: rest) := by
  refine h.of_head fun c hc => ?_
  cases w with
  | nil =>
    cases hc
    exact Or.inl rfl
  | cons d w => exact Or.inr hc

namespace Cursor

theorem tokens_congr {c d : Cursor} (h : c.afterTrivia = d.afterTrivia) : c.tokens = d.tokens := by
  have hnext : c.next = d.next := congrArg readHere h
  rcases hd : d.next with ⟨e | t, next⟩
  · rw [tokens_of_error hd, tokens_of_error (hnext.trans hd)]
  · by_cases hkind : t.kind = .endOfSource
    · rw [tokens_of_end hd hkind, tokens_of_end (hnext.trans hd) hkind]
    · rw [tokens_of_token hd hkind, tokens_of_token (hnext.trans hd) hkind]

/-- Whatever blanks and comments a line ends with, the newline ends them. -/
theorem tokens_of_newline {w : List Char} (hw : Trivia w []) (file : String) (offset : Nat)
    (cs : List Char) :
    tokens ⟨file, offset, w ++ '\n' :: cs⟩ = tokens ⟨file, offset + byteLength w + 1, cs⟩ := by
  refine tokens_congr ?_
  obtain ⟨v, rest, rfl, hv, hrest⟩ := exists_trivia cs
  have hline : Trivia ((w ++ ['\n']) ++ v) rest := (hw.append_newline _).append hv
  have hlength : byteLength ((w ++ ['\n']) ++ v) = byteLength w + 1 + byteLength v := by
    rw [byteLength_append, byteLength_append]
    rfl
  have hsame : w ++ '\n' :: (v ++ rest) = (w ++ ['\n']) ++ v ++ rest := by
    simp only [List.append_assoc, List.cons_append, List.nil_append]
  rw [hsame, afterTrivia_of_trivia hline hrest, afterTrivia_of_trivia hv hrest, hlength]
  simp only [Nat.add_assoc]

/-- Further on the same tokens come with their spans moved, and the same end. -/
theorem tokens_shift (file : String) (offset bytes : Nat) (cs : List Char) :
    tokens ⟨file, offset + bytes, cs⟩ =
      ((tokens ⟨file, offset, cs⟩).1.map (Token.shift bytes),
        match (tokens ⟨file, offset, cs⟩).2 with
        | .ok last => .ok (last.shift bytes)
        | .error e => .error (e.shift bytes)) := by
  obtain ⟨ps, w, rest, rfl, hps, hw, hend⟩ := exists_split cs
  rw [tokens_of_split hps, tokens_of_split hps, tokensAt_shift, Nat.add_right_comm offset bytes]
  rcases hend with rfl | ⟨c, more, rfl, hnothing⟩
  · rw [List.append_nil, tokens_of_trivia hw, tokens_of_trivia hw, List.append_nil, List.append_nil]
    simp only [Token.shift, Span.shift, Nat.add_right_comm _ bytes]
  · rw [tokens_of_startsNothing hw hnothing, tokens_of_startsNothing hw hnothing, List.append_nil,
      List.append_nil]
    simp only [Error.shift, Position.shift, Nat.add_right_comm _ bytes]

end Cursor

/-- A source and, on a further line, another one have the tokens of the first one without its end
token and those of the second one moved behind it. -/
theorem tokenize_append_line {source more file : String} {ts : List Token} {last : Token}
    (h : tokenize source file = .ok (ts ++ [last])) :
    tokenize (source ++ "\n" ++ more) file =
      match tokenize more file with
      | .ok us => .ok (ts ++ us.map (Token.shift (byteLength source.toList + 1)))
      | .error e => .error (e.shift (byteLength source.toList + 1)) := by
  obtain ⟨ps, w, hsource, hps, hw, htokens⟩ := tokenize_eq_ok_iff_split.mp h
  obtain ⟨rfl, -⟩ := List.append_inj' htokens rfl
  have hstart : Cursor.start (source ++ "\n" ++ more) file =
      ⟨file, 0, sourceOf ps ++ (w ++ '\n' :: more.toList)⟩ := by
    simp [Cursor.start, hsource]
  have hoffset : 0 + byteLength (sourceOf ps) + byteLength w + 1 =
      0 + (byteLength source.toList + 1) := by
    rw [hsource, byteLength_append]
    omega
  unfold tokenize
  rw [hstart, Cursor.tokens_of_split (hps.append_newline _), Cursor.tokens_of_newline hw, hoffset,
    Cursor.tokens_shift, Cursor.start]
  rcases Cursor.tokens ⟨file, 0, more.toList⟩ with ⟨us, e | last'⟩
  · rfl
  · simp only [List.map_append, List.map_singleton, List.append_assoc]

end IntLang
