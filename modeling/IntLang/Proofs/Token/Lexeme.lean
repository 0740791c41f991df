import Mathlib.Data.List.TakeWhile
import IntLang.Token.Lexeme
import IntLang.Text.Blank

/-!
Lexemes without the scanner. What may stand between two tokens and which characters make a token of
which kind is said here by relations on a stretch of characters and the rest of the source behind
it. The rest matters, because a lexeme is the longest of its class at its place, and because a
comment goes on to the end of its line. The scanner reads just the lexemes of the relation.
-/
namespace IntLang

/-- A longest run of characters of a class: they all are in it, and the next one is not. -/
structure LongestRun (p : Char → Bool) (run rest : List Char) : Prop where
  all : ∀ c ∈ run, p c = true
  ends : ∀ c ∈ rest.head?, p c = false

section LongestRun

variable {p : Char → Bool} {run rest : List Char}

theorem longestRun_takeWhile (p : Char → Bool) (cs : List Char) :
    LongestRun p (cs.takeWhile p) (cs.dropWhile p) := by
  refine ⟨fun c hc => List.mem_takeWhile_imp hc, fun c hc => ?_⟩
  have hnot := cs.head?_dropWhile_not p
  rw [Option.mem_def.mp hc] at hnot
  exact hnot

theorem LongestRun.takeWhile_eq (h : LongestRun p run rest) : (run ++ rest).takeWhile p = run := by
  rw [List.takeWhile_append_of_pos h.all]
  cases rest with
  | nil => rw [List.takeWhile_nil, List.append_nil]
  | cons c rest => rw [List.takeWhile_cons_of_neg (by rw [h.ends c rfl]; decide), List.append_nil]

theorem LongestRun.dropWhile_eq (h : LongestRun p run rest) :
    (run ++ rest).dropWhile p = rest := by
  rw [List.dropWhile_append_of_pos h.all]
  cases rest with
  | nil => rfl
  | cons c rest => rw [List.dropWhile_cons_of_neg (by rw [h.ends c rfl]; decide)]

theorem LongestRun.cons {c : Char} (hc : p c = true) (h : LongestRun p run rest) :
    LongestRun p (c :: run) rest :=
  ⟨List.forall_mem_cons.mpr ⟨hc, h.all⟩, h.ends⟩

theorem LongestRun.tail {c : Char} (h : LongestRun p (c :: run) rest) :
    p c = true ∧ LongestRun p run rest :=
  ⟨(List.forall_mem_cons.mp h.all).1, (List.forall_mem_cons.mp h.all).2, h.ends⟩

end LongestRun

/-- Blanks and comments in front of the given rest of the source. A comment ends in front of the
next newline or at the end of the source. -/
inductive Trivia : List Char → List Char → Prop
  | nil {rest} : Trivia [] rest
  | blank {c w rest} (hblank : isBlank c = true) (hw : Trivia w rest) : Trivia (c :: w) rest
  | comment {body w rest} (hbody : '\n' ∉ body) (hends : ∀ c ∈ (w ++ rest).head?, c = '\n')
      (hw : Trivia w rest) : Trivia ('/' :: '/' :: (body ++ w)) rest

def StartsTrivia : List Char → Prop
  | [] => False
  | c :: cs => isBlank c = true ∨ c = '/' ∧ cs.head? = some '/'

/-- The contents of a string literal: a quote stands in them only behind a backslash that escapes
it, and each backslash escapes the character behind it. -/
inductive Contents : List Char → Prop
  | nil : Contents []
  | plain {c cs} (hquote : c ≠ '"') (hbackslash : c ≠ '\\') (hcs : Contents cs) : Contents (c :: cs)
  | escape {c cs} (hcs : Contents cs) : Contents ('\\' :: c :: cs)

/-- The characters that make a token of a kind with a text, the longest of their class in front of
the given rest of the source. -/
inductive Spells : TokenKind → String → List Char → List Char → Prop
  | number {digits rest} (hne : digits ≠ []) (hrun : LongestRun Char.isDigit digits rest) :
      Spells .number (String.ofList digits) digits rest
  | reserved {c cs kind rest} (hstart : isWordStart c = true) (hrun : LongestRun isWordPart cs rest)
      (hkeyword : keyword? (String.ofList (c :: cs)) = some kind) :
      Spells kind (String.ofList (c :: cs)) (c :: cs) rest
  | identifier {c cs rest} (hstart : isWordStart c = true) (hrun : LongestRun isWordPart cs rest)
      (hkeyword : keyword? (String.ofList (c :: cs)) = none) :
      Spells .identifier (String.ofList (c :: cs)) (c :: cs) rest
  | string {body rest} (hbody : Contents body) :
      Spells .string (String.ofList (unescape body)) ('"' :: (body ++ ['"'])) rest
  | sign {c kind rest} (hsign : sign? c = some kind) (hslash : c = '/' → rest.head? ≠ some '/') :
      Spells kind (String.singleton c) [c] rest

/-- Nothing begins at a character: no blank, no comment and no lexeme. -/
structure StartsNothing (c : Char) (cs : List Char) : Prop where
  trivia : ¬StartsTrivia (c :: cs)
  lexeme : ∀ kind text l rest, Spells kind text l rest → l ++ rest ≠ c :: cs

section Literal

variable {cs body rest : List Char}

/-- What the scanner of literals takes as contents are contents. Behind a backslash the first
character is escaped. -/
theorem contents_of_splitLiteral {escaped : Bool}
    (h : splitLiteral escaped cs = some (body, rest)) :
    if escaped then ∃ c b, body = c :: b ∧ Contents b else Contents body := by
  induction cs generalizing escaped body with
  | nil => cases escaped <;> cases h
  | cons c cs ih =>
    cases escaped with
    | true =>
      simp only [splitLiteral, Option.map_eq_some_iff, Prod.exists, Prod.mk.injEq] at h
      obtain ⟨b, r, hsplit, rfl, rfl⟩ := h
      exact ⟨c, b, rfl, ih hsplit⟩
    | false =>
      by_cases hquote : c = '"'
      · simp only [splitLiteral, hquote, if_true, Option.some.injEq, Prod.mk.injEq] at h
        obtain ⟨rfl, -⟩ := h
        exact Contents.nil
      · simp only [splitLiteral, hquote, if_false, Option.map_eq_some_iff, Prod.exists,
          Prod.mk.injEq] at h
        obtain ⟨b, r, hsplit, rfl, rfl⟩ := h
        have hrest := ih hsplit
        by_cases hbackslash : c = '\\'
        · subst hbackslash
          obtain ⟨d, b, rfl, hb⟩ := hrest
          exact Contents.escape hb
        · rw [if_neg (by simpa using hbackslash)] at hrest
          exact Contents.plain hquote hbackslash hrest

theorem splitLiteral_plain {c : Char} (hquote : c ≠ '"') (hbackslash : c ≠ '\\') (cs : List Char) :
    splitLiteral false (c :: cs) = (splitLiteral false cs).map (Prod.map (c :: ·) id) := by
  rw [splitLiteral, if_neg hquote, beq_false_of_ne hbackslash]
  rfl

theorem splitLiteral_escape (a : Char) (cs : List Char) :
    splitLiteral false ('\\' :: a :: cs) =
      (splitLiteral false cs).map (Prod.map ('\\' :: a :: ·) id) := by
  rw [splitLiteral, if_neg (by decide)]
  change Option.map _ (splitLiteral true (a :: cs)) = _
  rw [splitLiteral, Option.map_map]
  rfl

theorem Contents.splitLiteral_eq (h : Contents body) (rest : List Char) :
    splitLiteral false (body ++ '"' :: rest) = some (body, rest) := by
  induction h with
  | nil => rfl
  | plain hquote hbackslash hcs ih =>
    rw [List.cons_append, splitLiteral_plain hquote hbackslash, ih]
    rfl
  | escape hcs ih =>
    rw [List.cons_append, List.cons_append, splitLiteral_escape, ih]
    rfl

end Literal

section Classes

variable {c : Char} {kind : TokenKind}

theorem toNat_of_isDigit (h : c.isDigit = true) : 48 ≤ c.toNat ∧ c.toNat ≤ 57 := by
  simpa [Char.isDigit, UInt32.le_iff_toNat_le] using h

theorem toNat_of_isWordStart (h : isWordStart c = true) :
    65 ≤ c.toNat ∧ c.toNat ≤ 122 := by
  have hstart : isWordStart c =
      (decide (65 ≤ c.val ∧ c.val ≤ 90) || decide (97 ≤ c.val) && decide (c.val ≤ 122) ||
        c == '_') := rfl
  have hcases : (65 ≤ c.toNat ∧ c.toNat ≤ 90 ∨ 97 ≤ c.toNat ∧ c.toNat ≤ 122) ∨ c = '_' := by
    simpa [hstart, UInt32.le_iff_toNat_le] using h
  rcases hcases with (h | h) | rfl
  · omega
  · omega
  · decide

theorem isBlank_eq_false (h : 33 ≤ c.toNat ∧ c.toNat ≤ 126) : isBlank c = false := by
  simp [isBlank]
  omega

theorem sign?_cases (h : sign? c = some kind) :
    c ∈ ['{', '}', '(', ')', '=', ';', ',', '+', '-', '/', '*'] := by
  unfold sign? at h
  split at h
  all_goals first | decide | cases h

theorem sign?_ne (h : sign? c = some kind) : kind ≠ .endOfSource ∧ kind ≠ .identifier := by
  unfold sign? at h
  split at h
  all_goals first | (cases h; decide) | cases h

theorem isKeyword_of_keyword? {text : String} (h : keyword? text = some kind) :
    kind.isKeyword = true := by
  unfold keyword? at h
  split at h
  all_goals first | (cases h; rfl) | cases h

theorem isDigit_of_isBlank (h : isBlank c = true) : c.isDigit = false := by
  by_contra hdigit
  have hrange := toNat_of_isDigit (Bool.not_eq_false _ ▸ hdigit)
  rw [isBlank_eq_false ⟨by omega, by omega⟩] at h
  cases h

theorem isWordPart_of_isBlank (h : isBlank c = true) : isWordPart c = false := by
  rw [isWordPart, isDigit_of_isBlank h, Bool.or_false]
  by_contra hword
  have hrange := toNat_of_isWordStart (Bool.not_eq_false _ ▸ hword)
  rw [isBlank_eq_false ⟨by omega, by omega⟩] at h
  cases h

theorem isDigit_of_isWordStart (h : isWordStart c = true) : c.isDigit = false := by
  have hrange := toNat_of_isWordStart h
  by_contra hdigit
  have := toNat_of_isDigit (Bool.not_eq_false _ ▸ hdigit)
  omega

end Classes

section Rest

variable {w l rest rest' : List Char} {kind : TokenKind} {text : String}

/-- Of the rest of the source only the next character bears on what stands in front of it. -/
theorem Trivia.of_head (h : Trivia w rest) (hhead : rest'.head? = rest.head?) : Trivia w rest' := by
  induction h with
  | nil => exact .nil
  | blank hblank _ ih => exact .blank hblank (ih hhead)
  | comment hbody hends _ ih =>
    refine .comment hbody (fun c hc => hends c ?_) (ih hhead)
    rwa [List.head?_append, hhead, ← List.head?_append] at hc

/-- Blanks and comments up to the end of a source are so in front of a newline, too. -/
theorem Trivia.append_newline (h : Trivia w []) (rest : List Char) : Trivia (w ++ ['\n']) rest := by
  obtain ⟨e, hend⟩ : ∃ e : List Char, e = [] := ⟨[], rfl⟩
  rw [← hend] at h
  induction h with
  | nil => exact .blank rfl .nil
  | blank hblank _ ih => exact .blank hblank (ih hend)
  | @comment body w _ hbody hends _ ih =>
    subst hend
    rw [List.cons_append, List.cons_append, List.append_assoc]
    refine .comment hbody (fun c hc => ?_) (ih rfl)
    cases w with
    | nil => exact (Option.some.inj hc).symm
    | cons d w => exact hends c hc

theorem LongestRun.of_head {p : Char → Bool} (h : LongestRun p l rest)
    (hblank : ∀ c, isBlank c = true → p c = false)
    (hhead : ∀ c ∈ rest'.head?, isBlank c = true ∨ c ∈ rest.head?) : LongestRun p l rest' := by
  refine ⟨h.all, fun c hc => ?_⟩
  rcases hhead c hc with hc | hc
  · exact hblank c hc
  · exact h.ends c hc

/-- A lexeme stays the longest of its class if a blank or nothing comes to stand behind it. -/
theorem Spells.of_head (h : Spells kind text l rest)
    (hhead : ∀ c ∈ rest'.head?, isBlank c = true ∨ c ∈ rest.head?) : Spells kind text l rest' := by
  have hdigits : ∀ c, isBlank c = true → c.isDigit = false := fun c hc => isDigit_of_isBlank hc
  have hparts : ∀ c, isBlank c = true → isWordPart c = false := fun c hc => isWordPart_of_isBlank hc
  cases h with
  | number hne hrun => exact .number hne (hrun.of_head hdigits hhead)
  | reserved hstart hrun hkeyword => exact .reserved hstart (hrun.of_head hparts hhead) hkeyword
  | identifier hstart hrun hkeyword => exact .identifier hstart (hrun.of_head hparts hhead) hkeyword
  | string hbody => exact .string hbody
  | sign hsign hslash =>
    refine .sign hsign fun hc hcomment => ?_
    rcases hhead _ hcomment with hblank | hmem
    · exact absurd hblank (by decide)
    · exact hslash hc hmem

end Rest

namespace Spells

variable {kind : TokenKind} {text : String} {l rest : List Char}

/-- A lexeme is no blank and no comment. -/
theorem not_startsTrivia (h : Spells kind text l rest) : ¬StartsTrivia (l ++ rest) := by
  have hplain : ∀ {c cs}, 33 ≤ c.toNat ∧ c.toNat ≤ 126 → c ≠ '/' → ¬StartsTrivia (c :: cs) := by
    rintro c cs hrange hslash (hblank | ⟨rfl, -⟩)
    · rw [isBlank_eq_false hrange] at hblank
      cases hblank
    · exact hslash rfl
  cases h with
  | number hne hrun =>
    obtain ⟨c, cs, rfl⟩ := List.exists_cons_of_ne_nil hne
    have hrange := toNat_of_isDigit hrun.tail.1
    exact hplain ⟨by omega, by omega⟩ (by rintro rfl; exact absurd hrun.tail.1 (by decide))
  | reserved hstart | identifier hstart =>
    have hrange := toNat_of_isWordStart hstart
    exact hplain ⟨by omega, by omega⟩ (by rintro rfl; exact absurd hstart (by decide))
  | string => exact hplain (by decide) (by decide)
  | @sign c kind rest hsign hslash =>
    by_cases hc : c = '/'
    · subst hc
      rintro (hblank | ⟨-, hcomment⟩)
      · exact absurd hblank (by decide)
      · exact hslash rfl hcomment
    · refine hplain ?_ hc
      have hmem := sign?_cases hsign
      revert hmem
      simp only [List.mem_cons, List.not_mem_nil, or_false]
      rintro (rfl | rfl | rfl | rfl | rfl | rfl | rfl | rfl | rfl | rfl | rfl) <;> decide

/-- The scanner reads a lexeme that stands in front of it. -/
theorem exists_read (h : Spells kind text l rest) :
    ∃ c cs, l = c :: cs ∧ Lexeme.read c (cs ++ rest) = .ok ⟨kind, text, l, rest⟩ := by
  cases h with
  | number hne hrun =>
    obtain ⟨c, cs, rfl⟩ := List.exists_cons_of_ne_nil hne
    obtain ⟨hc, hcs⟩ := hrun.tail
    refine ⟨c, cs, rfl, ?_⟩
    rw [Lexeme.read, if_pos hc, hcs.takeWhile_eq, hcs.dropWhile_eq]
  | @reserved c cs kind rest hstart hrun hkeyword =>
    refine ⟨c, cs, rfl, ?_⟩
    have hdigit : ¬c.isDigit = true := by rw [isDigit_of_isWordStart hstart]; decide
    simp only [Lexeme.read, if_neg hdigit, if_pos hstart, hrun.takeWhile_eq, hrun.dropWhile_eq,
      wordKind, hkeyword, Option.getD_some]
  | @identifier c cs rest hstart hrun hkeyword =>
    refine ⟨c, cs, rfl, ?_⟩
    have hdigit : ¬c.isDigit = true := by rw [isDigit_of_isWordStart hstart]; decide
    simp only [Lexeme.read, if_neg hdigit, if_pos hstart, hrun.takeWhile_eq, hrun.dropWhile_eq,
      wordKind, hkeyword, Option.getD_none]
  | @string body rest hbody =>
    refine ⟨'"', body ++ ['"'], rfl, ?_⟩
    rw [Lexeme.read, if_neg (by decide), if_neg (by decide), if_pos rfl, List.append_assoc,
      List.singleton_append, hbody.splitLiteral_eq]
    rfl
  | @sign c kind rest hsign hslash =>
    refine ⟨c, [], rfl, ?_⟩
    have hclass : c.isDigit = false ∧ isWordStart c = false ∧ c ≠ '"' := by
      have hmem := sign?_cases hsign
      revert hmem
      simp only [List.mem_cons, List.not_mem_nil, or_false]
      rintro (rfl | rfl | rfl | rfl | rfl | rfl | rfl | rfl | rfl | rfl | rfl) <;> decide
    obtain ⟨hdigit, hword, hquote⟩ := hclass
    simp only [Lexeme.read, hdigit, hword, hquote, hsign, List.nil_append, if_false,
      Bool.false_eq_true]

end Spells

namespace Lexeme

variable {c : Char} {cs : List Char}

/-- What the scanner reads is a lexeme. -/
theorem spells_of_read {l : Lexeme} (htrivia : ¬StartsTrivia (c :: cs)) (h : read c cs = .ok l) :
    Spells l.kind l.text l.chars l.rest := by
  unfold read at h
  by_cases hdigit : c.isDigit = true
  · rw [if_pos hdigit] at h
    cases h
    exact .number (List.cons_ne_nil _ _) ((longestRun_takeWhile _ cs).cons hdigit)
  rw [if_neg hdigit] at h
  by_cases hword : isWordStart c = true
  · rw [if_pos hword] at h
    cases h
    have hrun := longestRun_takeWhile isWordPart cs
    cases hkeyword : keyword? (String.ofList (c :: cs.takeWhile isWordPart)) with
    | some kind =>
      simp only [wordKind, hkeyword]
      exact .reserved hword hrun hkeyword
    | none =>
      simp only [wordKind, hkeyword]
      exact .identifier hword hrun hkeyword
  rw [if_neg hword] at h
  by_cases hquote : c = '"'
  · rw [if_pos hquote] at h
    cases hsplit : splitLiteral false cs with
    | none =>
      simp only [hsplit, reduceCtorEq] at h
    | some split =>
      obtain ⟨body, rest⟩ := split
      simp only [hsplit, Except.ok.injEq] at h
      subst h hquote
      exact .string (contents_of_splitLiteral hsplit)
  · rw [if_neg hquote] at h
    cases hsign : sign? c with
    | none => simp only [hsign, reduceCtorEq] at h
    | some kind =>
      simp only [hsign, Except.ok.injEq] at h
      subst h
      exact .sign hsign fun hslash hcomment => htrivia (Or.inr ⟨hslash, hcomment⟩)

/-- Where nothing begins the scanner fails, and the character says how. -/
theorem read_of_startsNothing (h : StartsNothing c cs) :
    read c cs = .error
      (if c = '"' then .unterminatedString else .unrecognisedCharacter (String.singleton c)) := by
  cases hread : read c cs with
  | ok l =>
    exact absurd (chars_append_rest hread)
      (h.lexeme _ _ _ _ (spells_of_read h.trivia hread))
  | error cause =>
    unfold read at hread
    by_cases hdigit : c.isDigit = true
    · rw [if_pos hdigit] at hread
      cases hread
    rw [if_neg hdigit] at hread
    by_cases hword : isWordStart c = true
    · rw [if_pos hword] at hread
      cases hread
    rw [if_neg hword] at hread
    by_cases hquote : c = '"'
    · rw [if_pos hquote] at hread ⊢
      split at hread <;> cases hread
      rfl
    · rw [if_neg hquote] at hread ⊢
      split at hread <;> cases hread
      rfl

theorem startsNothing_of_read {cause : Cause} (htrivia : ¬StartsTrivia (c :: cs))
    (h : read c cs = .error cause) : StartsNothing c cs := by
  refine ⟨htrivia, fun kind text l rest hspells happend => ?_⟩
  obtain ⟨d, ds, rfl, hread⟩ := hspells.exists_read
  rw [List.cons_append, List.cons.injEq] at happend
  rw [← happend.1, ← happend.2, hread] at h
  cases h

end Lexeme

end IntLang
