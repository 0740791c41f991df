import IntLang.Proofs.Token.Shift

/-!
Sources with something behind them. A newline ends whatever comment a source may end with, and no
lexeme goes on over it. So a source and what comes behind a newline are read one after the other,
and where a source cannot be read, nothing that is put behind it helps, as long as it closes no
string literal and makes no comment of a sign.
-/
namespace IntLang

section Error

variable {c : Char} {cs more : List Char}

/-- A literal that is not closed stays so without a further quote. -/
theorem splitLiteral_append_eq_none {escaped : Bool} (hquote : '"' ∉ more)
    (h : splitLiteral escaped cs = none) : splitLiteral escaped (cs ++ more) = none := by
  cases hmore : splitLiteral escaped (cs ++ more) with
  | none => rfl
  | some split =>
    exfalso
    induction cs generalizing escaped split with
    | nil =>
      obtain ⟨body, rest⟩ := split
      have happend := splitLiteral_eq_append hmore
      rw [List.nil_append] at happend
      exact hquote (by rw [happend]; simp)
    | cons c cs ih =>
      cases escaped with
      | true =>
        simp only [splitLiteral, Option.map_eq_none_iff] at h
        simp only [List.cons_append, splitLiteral, Option.map_eq_some_iff] at hmore
        obtain ⟨inner, hinner, -⟩ := hmore
        exact ih h inner hinner
      | false =>
        by_cases hc : c = '"'
        · simp only [splitLiteral, hc, if_true, reduceCtorEq] at h
        · simp only [splitLiteral, hc, if_false, Option.map_eq_none_iff] at h
          simp only [List.cons_append, splitLiteral, hc, if_false, Option.map_eq_some_iff] at hmore
          obtain ⟨inner, hinner, -⟩ := hmore
          exact ih h inner hinner

theorem Lexeme.read_append_eq_error {cause : Cause} (hquote : '"' ∉ more)
    (h : read c cs = .error cause) : read c (cs ++ more) = .error cause := by
  unfold read at h ⊢
  by_cases hdigit : c.isDigit = true
  · rw [if_pos hdigit] at h
    cases h
  rw [if_neg hdigit] at h ⊢
  by_cases hword : isWordStart c = true
  · rw [if_pos hword] at h
    cases h
  rw [if_neg hword] at h ⊢
  by_cases hc : c = '"'
  · rw [if_pos hc] at h ⊢
    cases hsplit : splitLiteral false cs with
    | none =>
      simp only [hsplit] at h
      simp only [splitLiteral_append_eq_none hquote hsplit]
      exact h
    | some split => simp only [hsplit, reduceCtorEq] at h
  · rw [if_neg hc] at h ⊢
    cases hsign : sign? c with
    | none =>
      simp only [hsign] at h ⊢
      exact h
    | some kind => simp only [hsign, reduceCtorEq] at h

/-- Where nothing begins, nothing begins with more behind it. -/
theorem StartsNothing.append (h : StartsNothing c cs) (hquote : '"' ∉ more)
    (hslash : more.head? ≠ some '/') : StartsNothing c (cs ++ more) := by
  refine Lexeme.startsNothing_of_read ?_
    (Lexeme.read_append_eq_error hquote (Lexeme.read_of_startsNothing h))
  rintro (hblank | ⟨hc, hcomment⟩)
  · exact h.trivia (Or.inl hblank)
  · cases cs with
    | nil => exact hslash hcomment
    | cons d ds => exact h.trivia (Or.inr ⟨hc, hcomment⟩)

end Error

/-- A source that cannot be read cannot be read either with more behind it that holds no quote. -/
theorem exists_tokenize_append_error {source more file : String} {e : Error}
    (hquote : '"' ∉ more.toList) (hslash : more.toList.head? ≠ some '/')
    (h : tokenize source file = .error e) : ∃ e', tokenize (source ++ more) file = .error e' := by
  obtain ⟨ps, w, c, cs, hsource, hps, hw, hnothing, -⟩ := tokenize_eq_error_iff_split.mp h
  have hsource' : (source ++ more).toList = sourceOf ps ++ (w ++ c :: (cs ++ more.toList)) := by
    rw [String.toList_append, hsource]
    simp only [List.append_assoc, List.cons_append]
  have hps' : Split ps (w ++ c :: (cs ++ more.toList)) := by
    refine hps.of_head fun d hd => Or.inr ?_
    cases w <;> exact hd
  have hw' : Trivia w (c :: (cs ++ more.toList)) := hw.of_head rfl
  exact ⟨_, tokenize_of_startsNothing hsource' hps' hw' (hnothing.append hquote hslash) file⟩

/-- A source with a semicolon on a further line has its tokens and one more. -/
theorem tokenize_append_semicolon {source file : String} {ts : List Token} {last : Token}
    (h : tokenize source file = .ok (ts ++ [last])) :
    ∃ semicolon last' : Token, semicolon.kind = .semicolon ∧
      tokenize (source ++ "\n;") file = .ok (ts ++ [semicolon] ++ [last']) := by
  obtain ⟨ps, w, hsource, hps, hw, htokens⟩ := tokenize_eq_ok_iff_split.mp h
  obtain ⟨rfl, -⟩ := List.append_inj' htokens rfl
  let piece : Piece := ⟨w ++ ['\n'], .semicolon, ";", [';']⟩
  have hkind : sign? ';' = some .semicolon := rfl
  have hsign : Spells .semicolon ";" [';'] [] := .sign hkind fun _ => nofun
  have hpiece : Split [piece] [] := .cons (hw.append_newline _) hsign .nil
  have hfront : Split ps (sourceOf [piece] ++ []) := by
    have hline := hps.append_newline [';']
    simpa [piece] using hline
  have hsource' : (source ++ "\n;").toList = sourceOf (ps ++ [piece]) ++ [] := by
    rw [String.toList_append, hsource]
    simp [piece]
  have htokens' := tokenize_of_split hsource' (hfront.append hpiece) .nil file
  rw [tokensAt_append] at htokens'
  exact ⟨_, _, rfl, htokens'⟩

end IntLang
