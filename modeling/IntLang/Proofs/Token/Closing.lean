import Mathlib.Algebra.Group.Nat.Even
import Mathlib.Data.List.DropRight
import IntLang.Proofs.Token.Quoted
import IntLang.Proofs.Token.Tokenize

/-!
Where a string literal closes. A backslash escapes the character behind it unless it is escaped
itself, so a quote is escaped just if an odd number of backslashes stands right in front of it. The
scanner of literals carries one flag along, and the flag is set just behind an odd number of
backslashes. So a literal closes at the first quote behind an even number of them, and is
unterminated just if there is none. Every string has a literal: the one that puts a backslash before
each quote and each backslash.
-/
namespace IntLang

def trailingBackslashes (cs : List Char) : Nat := (cs.rtakeWhile (· == '\\')).length

/-- No quote of a text closes the literal that it belongs to, with `passed` between the opening
quote and the text. -/
def UnclosedAfter (passed cs : List Char) : Prop :=
  ∀ body rest, cs = body ++ '"' :: rest → ¬Even (trailingBackslashes (passed ++ body))

/-- No quote closes the text behind an opening quote: each stands behind an odd number of
backslashes. -/
def Unclosed (cs : List Char) : Prop :=
  ∀ body rest, cs = body ++ '"' :: rest → ¬Even (trailingBackslashes body)

/-- The text behind an opening quote is `body` up to its closing quote, which is the first one
behind an even number of backslashes, and `rest` behind it. -/
structure ClosesBehind (cs body rest : List Char) : Prop where
  split : cs = body ++ '"' :: rest
  unescaped : Even (trailingBackslashes body)
  first : Unclosed body

section Scanning

variable {cs body rest : List Char}

theorem trailingBackslashes_backslash (cs : List Char) :
    trailingBackslashes (cs ++ ['\\']) = trailingBackslashes cs + 1 := by
  rw [trailingBackslashes, List.rtakeWhile_concat, if_pos (by decide), List.length_append]
  rfl

theorem trailingBackslashes_of_ne {c : Char} (h : c ≠ '\\') (cs : List Char) :
    trailingBackslashes (cs ++ [c]) = 0 := by
  rw [trailingBackslashes, List.rtakeWhile_concat, if_neg (by simpa using h)]
  rfl

theorem unclosedAfter_nil (passed : List Char) : UnclosedAfter passed [] := by
  intro body rest hsplit
  simp at hsplit

theorem unclosedAfter_cons {passed : List Char} {c : Char} :
    UnclosedAfter passed (c :: cs) ↔
      ¬(c = '"' ∧ Even (trailingBackslashes passed)) ∧ UnclosedAfter (passed ++ [c]) cs := by
  constructor
  · intro h
    refine ⟨?_, fun body rest hsplit => ?_⟩
    · rintro ⟨rfl, heven⟩
      refine h [] cs rfl ?_
      rwa [List.append_nil]
    · have hescaped := h (c :: body) rest (congrArg (c :: ·) hsplit)
      rwa [List.append_assoc, List.singleton_append]
  · rintro ⟨hopen, h⟩ body rest hsplit
    cases body with
    | nil =>
      rw [List.append_nil]
      exact fun heven => hopen ⟨(List.cons.inj hsplit).1, heven⟩
    | cons b body =>
      obtain ⟨rfl, hcs⟩ := List.cons.inj hsplit
      have hescaped := h body rest hcs
      rwa [List.append_assoc, List.singleton_append] at hescaped

def escapes (passed : List Char) : Bool := !decide (Even (trailingBackslashes passed))

/-- A backslash escapes the next character just if it is not escaped itself. -/
theorem escapes_concat (passed : List Char) (c : Char) :
    escapes (passed ++ [c]) = (!escapes passed && c == '\\') := by
  by_cases hc : c = '\\'
  · subst hc
    simp only [escapes, trailingBackslashes_backslash, Nat.even_add_one, decide_not, Bool.not_not,
      beq_self_eq_true, Bool.and_true]
  · simp [escapes, trailingBackslashes_of_ne hc, hc]

/-- One step of the scanner, with the flag that belongs to the text passed. -/
theorem splitLiteral_cons (passed : List Char) (c : Char) (cs : List Char) :
    splitLiteral (escapes passed) (c :: cs) =
      if c = '"' ∧ Even (trailingBackslashes passed) then some ([], cs)
      else
        (splitLiteral (escapes (passed ++ [c])) cs).map fun (body, rest) => (c :: body, rest) := by
  rw [escapes_concat]
  by_cases heven : Even (trailingBackslashes passed)
  · have hescapes : escapes passed = false := by simp [escapes, heven]
    simp [hescapes, heven, splitLiteral]
  · have hescapes : escapes passed = true := by simp [escapes, heven]
    simp [hescapes, heven, splitLiteral]

theorem splitLiteral_eq_none_iff (passed : List Char) :
    splitLiteral (escapes passed) cs = none ↔ UnclosedAfter passed cs := by
  induction cs generalizing passed with
  | nil => exact ⟨fun _ => unclosedAfter_nil passed, fun _ => by rw [splitLiteral]⟩
  | cons c cs ih =>
    rw [splitLiteral_cons, unclosedAfter_cons, ← ih (passed ++ [c])]
    by_cases hclose : c = '"' ∧ Even (trailingBackslashes passed)
    · simp [hclose]
    · rw [if_neg hclose, Option.map_eq_none_iff]
      exact ⟨fun h => ⟨hclose, h⟩, fun h => h.2⟩

/-- The scanner splits a text at the first quote that is not escaped, the backslashes at the end of
the text passed included. -/
theorem splitLiteral_eq_some_iff (passed : List Char) :
    splitLiteral (escapes passed) cs = some (body, rest) ↔
      cs = body ++ '"' :: rest ∧ Even (trailingBackslashes (passed ++ body)) ∧
        UnclosedAfter passed body := by
  induction cs generalizing passed body with
  | nil => simp [splitLiteral]
  | cons c cs ih =>
    rw [splitLiteral_cons]
    by_cases hclose : c = '"' ∧ Even (trailingBackslashes passed)
    · obtain ⟨rfl, heven⟩ := hclose
      rw [if_pos ⟨rfl, heven⟩, Option.some.injEq, Prod.mk.injEq]
      constructor
      · rintro ⟨rfl, rfl⟩
        exact ⟨rfl, by rwa [List.append_nil], unclosedAfter_nil passed⟩
      · rintro ⟨hsplit, -, hopen⟩
        cases body with
        | nil => exact ⟨rfl, (List.cons.inj hsplit).2⟩
        | cons b body =>
          obtain ⟨rfl, -⟩ := List.cons.inj hsplit
          exact absurd ⟨rfl, heven⟩ (unclosedAfter_cons.mp hopen).1
    · rw [if_neg hclose]
      simp only [Option.map_eq_some_iff, Prod.exists, Prod.mk.injEq]
      constructor
      · rintro ⟨body, rest, hsplit, rfl, rfl⟩
        obtain ⟨rfl, heven, hopen⟩ := (ih (passed ++ [c])).mp hsplit
        rw [List.append_assoc, List.singleton_append] at heven
        exact ⟨rfl, heven, unclosedAfter_cons.mpr ⟨hclose, hopen⟩⟩
      · rintro ⟨hsplit, heven, hopen⟩
        cases body with
        | nil =>
          rw [List.append_nil] at heven
          exact absurd ⟨(List.cons.inj hsplit).1, heven⟩ hclose
        | cons b body =>
          obtain ⟨rfl, rfl⟩ := List.cons.inj hsplit
          refine ⟨body, rest, (ih (passed ++ [c])).mpr ⟨rfl, ?_, ?_⟩, rfl, rfl⟩
          · rwa [List.append_assoc, List.singleton_append]
          · exact (unclosedAfter_cons.mp hopen).2

theorem splitLiteral_eq_none_iff_unclosed : splitLiteral false cs = none ↔ Unclosed cs :=
  splitLiteral_eq_none_iff []

theorem splitLiteral_eq_some_iff_closesBehind :
    splitLiteral false cs = some (body, rest) ↔ ClosesBehind cs body rest := by
  refine (splitLiteral_eq_some_iff []).trans ⟨?_, ?_⟩
  · rintro ⟨hsplit, hunescaped, hfirst⟩
    exact ⟨hsplit, hunescaped, hfirst⟩
  · rintro ⟨hsplit, hunescaped, hfirst⟩
    exact ⟨hsplit, hunescaped, hfirst⟩

end Scanning

section Reading

variable {file : String} {offset : Nat} {cs : List Char}

/-- A quote begins no blank and no comment. -/
theorem not_startsTrivia_quote (cs : List Char) : ¬StartsTrivia ('"' :: cs) := by
  rintro (hblank | ⟨hslash, -⟩)
  · exact absurd hblank (by decide)
  · exact absurd hslash (by decide)

theorem Lexeme.read_quote (cs : List Char) :
    Lexeme.read '"' cs =
      match splitLiteral false cs with
      | none => .error .unterminatedString
      | some (body, rest) =>
        .ok ⟨.string, String.ofList (unescape body), '"' :: body ++ ['"'], rest⟩ := by
  unfold Lexeme.read
  exact (if_neg (by decide)).trans ((if_neg (by decide)).trans (if_pos rfl))

/-- Reading at an opening quote. -/
theorem Cursor.next_quote (file : String) (offset : Nat) (cs : List Char) :
    Cursor.next ⟨file, offset, '"' :: cs⟩ =
      match splitLiteral false cs with
      | none => (.error ⟨.unterminatedString, ⟨file, offset⟩⟩, ⟨file, offset, '"' :: cs⟩)
      | some (body, rest) =>
        (.ok ⟨.string, String.ofList (unescape body),
            ⟨file, offset, offset + byteLength ('"' :: body ++ ['"'])⟩⟩,
          ⟨file, offset + byteLength ('"' :: body ++ ['"']), rest⟩) := by
  have hafter := afterTrivia_of_trivia .nil (not_startsTrivia_quote cs) file offset
  rw [List.nil_append] at hafter
  rw [Cursor.next, hafter]
  simp only [Cursor.readHere, Lexeme.read_quote]
  cases splitLiteral false cs <;> rfl

/-- A source that begins with a quote cannot be read from there just if no quote closes it. -/
theorem tokenize_quote_eq_error_iff :
    tokenize (String.ofList ('"' :: cs)) file = .error ⟨.unterminatedString, ⟨file, 0⟩⟩ ↔
      Unclosed cs := by
  rw [← splitLiteral_eq_none_iff_unclosed]
  constructor
  · intro h
    obtain ⟨ps, w, c, more, hsource, -, -, hnothing, herror⟩ := tokenize_eq_error_iff_split.mp h
    -- nothing stands in front of the place of the error
    have hempty : sourceOf ps ++ w = [] := by
      have hoffset : 0 = byteLength (sourceOf ps ++ w) := congrArg (·.position.offset) herror
      have hle := length_le_byteLength (sourceOf ps ++ w)
      exact List.length_eq_zero_iff.mp (by omega)
    rw [String.toList_ofList, ← List.append_assoc, hempty, List.nil_append] at hsource
    obtain ⟨rfl, rfl⟩ := List.cons.inj hsource
    have hread := Lexeme.read_of_startsNothing hnothing
    rw [Lexeme.read_quote] at hread
    cases hsplit : splitLiteral false cs with
    | none => rfl
    | some split => simp only [hsplit, reduceCtorEq] at hread
  · intro h
    have hread : Lexeme.read '"' cs = .error .unterminatedString := by
      rw [Lexeme.read_quote, h]
    have hnothing := Lexeme.startsNothing_of_read (not_startsTrivia_quote cs) hread
    have hsource : (String.ofList ('"' :: cs)).toList = sourceOf [] ++ ([] ++ '"' :: cs) :=
      String.toList_ofList
    exact tokenize_of_startsNothing hsource .nil .nil hnothing file

end Reading

def shieldChar (c : Char) : List Char := if c = '"' ∨ c = '\\' then ['\\', c] else [c]

/-- The literal of a string: in quotes, with a backslash before each quote and each backslash and
nothing else changed. -/
def literalOf (text : String) : String :=
  String.ofList ('"' :: (text.toList.flatMap shieldChar ++ ['"']))

section Shielded

theorem contents_shielded (cs : List Char) : Contents (cs.flatMap shieldChar) := by
  induction cs with
  | nil => exact .nil
  | cons c cs ih =>
    rw [List.flatMap_cons]
    by_cases hc : c = '"' ∨ c = '\\'
    · rw [shieldChar, if_pos hc]
      exact .escape ih
    · rw [shieldChar, if_neg hc]
      obtain ⟨hquote, hbackslash⟩ := not_or.mp hc
      exact .plain hquote hbackslash ih

theorem unescape_shielded (cs : List Char) : unescape (cs.flatMap shieldChar) = cs := by
  induction cs with
  | nil => rfl
  | cons c cs ih =>
    rw [List.flatMap_cons]
    by_cases hc : c = '"' ∨ c = '\\'
    · have hescape : c ≠ 'x' ∧ escape? c = some c := by
        rcases hc with rfl | rfl <;> decide
      rw [shieldChar, if_pos hc, List.cons_append, List.singleton_append,
        unescape_escape hescape.1 hescape.2, ih]
    · rw [shieldChar, if_neg hc, List.singleton_append, unescape_plain (not_or.mp hc).2, ih]

theorem spells_literalOf (text : String) (rest : List Char) :
    Spells .string text (literalOf text).toList rest := by
  have hspells : Spells .string _ _ rest := .string (contents_shielded text.toList)
  rw [unescape_shielded, String.ofList_toList] at hspells
  rwa [literalOf, String.toList_ofList]

/-- The literal of a string is one token, whose text is the string. -/
theorem tokenize_literalOf (text file : String) :
    tokenize (literalOf text) file = .ok
      [⟨.string, text, ⟨file, 0, byteLength (literalOf text).toList⟩⟩,
        ⟨.endOfSource, "EOF", ⟨file, byteLength (literalOf text).toList,
          byteLength (literalOf text).toList⟩⟩] := by
  obtain ⟨chars, hchars⟩ : ∃ chars, chars = (literalOf text).toList := ⟨_, rfl⟩
  have hspells : Spells .string text chars [] := hchars ▸ spells_literalOf text []
  have hpiece : Split [⟨[], .string, text, chars⟩] [] := .cons .nil hspells .nil
  have hsource : (literalOf text).toList = sourceOf [⟨[], .string, text, chars⟩] ++ [] := by
    rw [← hchars]
    simp
  have htokens := tokenize_of_split hsource hpiece .nil file
  simpa [tokensAt, Piece.source, ← hchars] using htokens

end Shielded

/-- Every string is the text of a literal, which is read as one token. In front of a quote a literal
is read up to the first quote behind an even number of backslashes, whatever stands between and
behind; its token covers all from quote to quote. Just if there is no such quote the literal is
unterminated: reading fails at the opening quote and stays in front of it. -/
theorem literal_closes_exactly (file : String) :
    (∀ text : String, tokenize (literalOf text) file = .ok
      [⟨.string, text, ⟨file, 0, byteLength (literalOf text).toList⟩⟩,
        ⟨.endOfSource, "EOF", ⟨file, byteLength (literalOf text).toList,
          byteLength (literalOf text).toList⟩⟩]) ∧
    ∀ cs : List Char,
      (∀ offset t d, Cursor.next ⟨file, offset, '"' :: cs⟩ = (.ok t, d) ↔
        ∃ body rest, ClosesBehind cs body rest ∧
          t = ⟨.string, String.ofList (unescape body),
            ⟨file, offset, offset + byteLength ('"' :: body ++ ['"'])⟩⟩ ∧
          d = ⟨file, offset + byteLength ('"' :: body ++ ['"']), rest⟩) ∧
      (∀ offset e d, Cursor.next ⟨file, offset, '"' :: cs⟩ = (.error e, d) ↔
        Unclosed cs ∧ e = ⟨.unterminatedString, ⟨file, offset⟩⟩ ∧
          d = ⟨file, offset, '"' :: cs⟩) ∧
      (tokenize (String.ofList ('"' :: cs)) file = .error ⟨.unterminatedString, ⟨file, 0⟩⟩ ↔
        Unclosed cs) := by
  refine ⟨fun text => tokenize_literalOf text file, fun cs => ⟨fun offset t d => ?_,
    fun offset e d => ?_, tokenize_quote_eq_error_iff⟩⟩
  · simp only [← splitLiteral_eq_some_iff_closesBehind, Cursor.next_quote]
    cases splitLiteral false cs with
    | none => simp
    | some split =>
      obtain ⟨body, rest⟩ := split
      simp only [Prod.mk.injEq, Except.ok.injEq, Option.some.injEq]
      constructor
      · rintro ⟨rfl, rfl⟩
        exact ⟨body, rest, ⟨rfl, rfl⟩, rfl, rfl⟩
      · rintro ⟨_, _, ⟨rfl, rfl⟩, rfl, rfl⟩
        exact ⟨rfl, rfl⟩
  · rw [← splitLiteral_eq_none_iff_unclosed, Cursor.next_quote]
    cases splitLiteral false cs with
    | none =>
      simp only [Prod.mk.injEq, Except.error.injEq, true_and]
      exact and_congr eq_comm eq_comm
    | some split => simp

end IntLang
