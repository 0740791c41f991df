import IntLang.Proofs.Token.Lexeme
import IntLang.Token.Stream

/-!
Splitting a source. Every text is a concatenation of lexemes with blanks and comments in front of
each, up to its end or to a character at which nothing begins. The cursor takes the same way: it
yields the token of one piece after the other, and then the end token or the error. So what the
tokens of a source are can be read off a split, and one can be found for every source.
-/
namespace IntLang

/-- A lexeme with the blanks and comments in front of it. -/
structure Piece where
  trivia : List Char
  kind : TokenKind
  text : String
  chars : List Char

def Piece.source (p : Piece) : List Char := p.trivia ++ p.chars

def sourceOf (ps : List Piece) : List Char := ps.flatMap Piece.source

/-- Pieces in front of the given rest of the source, each with the longest lexeme at its place. -/
inductive Split : List Piece → List Char → Prop
  | nil {rest} : Split [] rest
  | cons {p ps rest} (htrivia : Trivia p.trivia (p.chars ++ (sourceOf ps ++ rest)))
      (hlexeme : Spells p.kind p.text p.chars (sourceOf ps ++ rest)) (hps : Split ps rest) :
      Split (p :: ps) rest

/-- The tokens of pieces, the first of which begins at a byte offset. -/
def tokensAt (file : String) : Nat → List Piece → List Token
  | _, [] => []
  | offset, p :: ps =>
    ⟨p.kind, p.text, ⟨file, offset + byteLength p.trivia, offset + byteLength p.source⟩⟩ ::
      tokensAt file (offset + byteLength p.source) ps

@[simp] theorem sourceOf_nil : sourceOf [] = [] := rfl

@[simp] theorem sourceOf_cons (p : Piece) (ps : List Piece) :
    sourceOf (p :: ps) = p.trivia ++ (p.chars ++ sourceOf ps) := by
  rw [sourceOf, List.flatMap_cons, Piece.source, List.append_assoc]
  rfl

@[simp] theorem sourceOf_append (ps qs : List Piece) :
    sourceOf (ps ++ qs) = sourceOf ps ++ sourceOf qs :=
  List.flatMap_append

theorem tokensAt_append (file : String) (offset : Nat) (ps qs : List Piece) :
    tokensAt file offset (ps ++ qs) =
      tokensAt file offset ps ++ tokensAt file (offset + byteLength (sourceOf ps)) qs := by
  induction ps generalizing offset with
  | nil => rfl
  | cons p ps ih =>
    simp only [List.cons_append, tokensAt, ih, Piece.source, sourceOf_cons, byteLength_append,
      Nat.add_assoc]

theorem Split.append {ps qs : List Piece} {rest : List Char} (hps : Split ps (sourceOf qs ++ rest))
    (hqs : Split qs rest) : Split (ps ++ qs) rest := by
  induction ps with
  | nil => exact hqs
  | cons p ps ih =>
    cases hps with
    | cons htrivia hlexeme hps =>
      rw [← List.append_assoc (sourceOf ps), ← sourceOf_append] at htrivia hlexeme
      exact .cons htrivia hlexeme (ih hps)

theorem tokensAt_take (file : String) (offset k : Nat) (ps : List Piece) :
    (tokensAt file offset ps).take k = tokensAt file offset (ps.take k) := by
  induction ps generalizing offset k with
  | nil => simp [tokensAt]
  | cons p ps ih =>
    cases k with
    | zero => rfl
    | succ k => simp only [tokensAt, List.take_succ_cons, ih]

theorem Split.of_append {ps qs : List Piece} {rest : List Char} (h : Split (ps ++ qs) rest) :
    Split ps (sourceOf qs ++ rest) := by
  induction ps with
  | nil => exact .nil
  | cons p ps ih =>
    rw [List.cons_append] at h
    cases h with
    | cons htrivia hlexeme hps =>
      rw [sourceOf_append, List.append_assoc] at htrivia hlexeme
      exact .cons htrivia hlexeme (ih hps)

/-- Pieces stay as they are if a blank or nothing comes to stand behind them, or if the next
character does not change. -/
theorem Split.of_head {ps : List Piece} {rest rest' : List Char} (h : Split ps rest)
    (hhead : ∀ c ∈ rest'.head?, isBlank c = true ∨ c ∈ rest.head?) : Split ps rest' := by
  induction h with
  | nil => exact .nil
  | @cons p ps rest htrivia hlexeme _ ih =>
    refine .cons (htrivia.of_head ?_) (hlexeme.of_head fun c hc => ?_) (ih hhead)
    · obtain ⟨c, cs, hchars, -⟩ := hlexeme.exists_read
      rw [hchars]
      rfl
    · rw [List.head?_append] at hc ⊢
      cases hfirst : (sourceOf ps).head? with
      | none =>
        rw [hfirst] at hc
        exact hhead c hc
      | some d =>
        rw [hfirst] at hc
        exact Or.inr hc

section Trivia

variable {w rest : List Char}

/-- An open comment goes on to the next newline. -/
theorem skipTrivia_comment {body : List Char} (hbody : '\n' ∉ body)
    (hends : ∀ c ∈ rest.head?, c = '\n') (offset : Nat) :
    skipTrivia true offset (body ++ rest) = skipTrivia false (offset + byteLength body) rest := by
  induction body generalizing offset with
  | nil =>
    cases rest with
    | nil => rfl
    | cons c rest =>
      obtain rfl := hends c rfl
      rfl
  | cons c body ih =>
    obtain ⟨hc, hbody⟩ := not_or.mp (mt List.mem_cons.mpr hbody)
    have hopen : (c != '\n') = true := by simpa using Ne.symm hc
    rw [List.cons_append, skipTrivia, if_pos rfl, hopen, ih hbody, byteLength_cons,
      Nat.add_assoc]

/-- Blanks and comments are skipped in front of anything else. -/
theorem Trivia.skipTrivia_eq (h : Trivia w rest) (hrest : ¬StartsTrivia rest) (offset : Nat) :
    skipTrivia false offset (w ++ rest) = (offset + byteLength w, rest) := by
  induction h generalizing offset with
  | @nil rest =>
    cases rest with
    | nil => rfl
    | cons c cs =>
      obtain ⟨hblank, hcomment⟩ := not_or.mp hrest
      rw [List.nil_append, skipTrivia, if_neg (by decide), if_neg hblank, if_neg hcomment]
      rfl
  | @blank c w rest hblank hw ih =>
    rw [List.cons_append, skipTrivia, if_neg (by decide), if_pos hblank, ih hrest,
      byteLength_cons, Nat.add_assoc]
  | @comment body w rest hbody hends hw ih =>
    have hopens : skipTrivia false offset ('/' :: '/' :: (body ++ (w ++ rest))) =
        skipTrivia true (offset + '/'.utf8Size + '/'.utf8Size) (body ++ (w ++ rest)) := rfl
    rw [List.cons_append, List.cons_append, List.append_assoc, hopens,
      skipTrivia_comment hbody hends, ih hrest]
    simp only [byteLength_cons, byteLength_append, Nat.add_assoc]

/-- Every text begins with blanks and comments, maybe none, and goes on with something else. -/
theorem exists_trivia (cs : List Char) :
    ∃ w rest, cs = w ++ rest ∧ Trivia w rest ∧ ¬StartsTrivia rest := by
  match cs with
  | [] => exact ⟨[], [], rfl, .nil, id⟩
  | c :: cs =>
    by_cases hblank : isBlank c = true
    · obtain ⟨w, rest, rfl, hw, hrest⟩ := exists_trivia cs
      exact ⟨c :: w, rest, rfl, .blank hblank hw, hrest⟩
    by_cases hcomment : c = '/' ∧ cs.head? = some '/'
    · obtain ⟨rfl, hslash⟩ := hcomment
      obtain ⟨more, rfl⟩ := List.head?_eq_some_iff.mp hslash
      -- the comment is the longest run of characters other than the newline
      have hrun := longestRun_takeWhile (· != '\n') more
      obtain ⟨w, rest, hsplit, hw, hrest⟩ := exists_trivia (more.dropWhile (· != '\n'))
      refine ⟨'/' :: '/' :: (more.takeWhile (· != '\n') ++ w), rest, ?_,
        .comment (fun hmem => absurd (hrun.all _ hmem) (by decide)) ?_ hw, hrest⟩
      · rw [List.cons_append, List.cons_append, List.append_assoc, ← hsplit,
          List.takeWhile_append_dropWhile]
      · intro c hc
        rw [← hsplit] at hc
        simpa using hrun.ends c hc
    · exact ⟨[], c :: cs, rfl, .nil, not_or.mpr ⟨hblank, hcomment⟩⟩
termination_by cs.length
decreasing_by
  · exact Nat.lt_succ_self _
  · subst_vars
    have hle := (List.dropWhile_sublist (l := more) (· != '\n')).length_le
    simp only [List.length_cons]
    omega

end Trivia

/-- Every text splits into pieces up to its end or to a character at which nothing begins. -/
theorem exists_split (cs : List Char) :
    ∃ ps w rest, cs = sourceOf ps ++ (w ++ rest) ∧ Split ps (w ++ rest) ∧ Trivia w rest ∧
      (rest = [] ∨ ∃ c more, rest = c :: more ∧ StartsNothing c more) := by
  induction hlength : cs.length using Nat.strong_induction_on generalizing cs with
  | _ n ih =>
    obtain ⟨w, rest, rfl, hw, hrest⟩ := exists_trivia cs
    cases rest with
    | nil => exact ⟨[], w, [], rfl, .nil, hw, Or.inl rfl⟩
    | cons c more =>
      cases hread : Lexeme.read c more with
      | error cause =>
        have hnothing := Lexeme.startsNothing_of_read hrest hread
        exact ⟨[], w, c :: more, rfl, .nil, hw, Or.inr ⟨c, more, rfl, hnothing⟩⟩
      | ok l =>
        have hshorter : l.rest.length < n := by
          have hrest := Lexeme.length_rest_lt hread
          rw [← hlength, List.length_append, List.length_cons]
          omega
        obtain ⟨ps, w', rest', hsplit, hps, hw', hend⟩ := ih _ hshorter l.rest rfl
        have hspells := Lexeme.spells_of_read hrest hread
        rw [← Lexeme.chars_append_rest hread, hsplit] at hw ⊢
        rw [hsplit] at hspells
        refine ⟨⟨w, l.kind, l.text, l.chars⟩ :: ps, w', rest', ?_, .cons hw hspells hps, hw', hend⟩
        rw [sourceOf_cons]
        simp only [List.append_assoc]

end IntLang
