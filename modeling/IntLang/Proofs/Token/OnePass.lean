import IntLang.Proofs.Token.Closing

/-!
String literals read in one pass. The characters behind the opening quote are taken one after the
other, and a backslash takes as many of those behind it as it can make an escape of. What has been
collected when a quote is met is the string that the contents of the literal spell, so it makes no
difference whether a literal is unescaped while it is read or once it has been split off.
-/
namespace IntLang

/-- Up to `n` hexadecimal digits at the beginning of a text, and what is left of it. -/
def takeHex : Nat → List Char → List Nat × List Char
  | n + 1, c :: cs =>
    match hexValue? c with
    | some digit => Prod.map (digit :: ·) id (takeHex n cs)
    | none => ([], c :: cs)
  | _, cs => ([], cs)

/-- What a backslash in front of a text adds to the string, and what is left of the text. -/
def readEscape : List Char → List Char × List Char
  | [] => (['\\'], [])
  | c :: cs =>
    if c = 'x' then
      match takeHex 2 cs with
      | ([], rest) => (['\\', 'x'], rest)
      | (digits, rest) => ([Char.ofNat (digits.foldl (16 * · + ·) 0)], rest)
    else
      match escape? c with
      | some e => ([e], cs)
      | none => (['\\'], c :: cs)

theorem length_takeHex_le (n : Nat) (cs : List Char) : (takeHex n cs).2.length ≤ cs.length := by
  induction n generalizing cs with
  | zero => exact Nat.le_refl _
  | succ n ih =>
    cases cs with
    | nil => exact Nat.le_refl _
    | cons c cs =>
      unfold takeHex
      cases hexValue? c with
      | none => exact Nat.le_refl _
      | some digit => exact Nat.le_succ_of_le (ih cs)

theorem length_readEscape_le (cs : List Char) : (readEscape cs).2.length ≤ cs.length := by
  cases cs with
  | nil => exact Nat.le_refl _
  | cons c cs =>
    by_cases hc : c = 'x'
    · have hle := length_takeHex_le 2 cs
      rw [readEscape, if_pos hc]
      split
      · next heq =>
        rw [heq] at hle
        exact Nat.le_succ_of_le hle
      · next heq =>
        rw [heq] at hle
        exact Nat.le_succ_of_le hle
    · rw [readEscape, if_neg hc]
      cases escape? c with
      | none => exact Nat.le_refl _
      | some e => exact Nat.le_succ _

/-- The string up to the quote that closes a literal, and what follows it. -/
def readLiteral : List Char → Option (List Char × List Char)
  | [] => none
  | c :: cs =>
    if c = '"' then some ([], cs)
    else if c = '\\' then
      (readLiteral (readEscape cs).2).map (Prod.map ((readEscape cs).1 ++ ·) id)
    else (readLiteral cs).map (Prod.map (c :: ·) id)
termination_by cs => cs.length
decreasing_by
  · exact Nat.lt_succ_of_le (length_readEscape_le cs)
  · exact Nat.lt_succ_self _

def NoHexAhead (cs : List Char) : Prop := ∀ c ∈ cs.head?, hexValue? c = none

section Hex

variable {c d : Char} {m n : Nat} {cs body more : List Char}

theorem plain_of_hexValue? (h : hexValue? c = some m) : c ≠ '"' ∧ c ≠ '\\' := by
  constructor
  · rintro rfl
    cases h
  · rintro rfl
    cases h

theorem NoHexAhead.of_eq_append (h : NoHexAhead cs) (hcs : cs = body ++ '"' :: more) :
    NoHexAhead body := by
  subst hcs
  cases body with
  | nil => exact nofun
  | cons c body => exact h

theorem takeHex_of_noHexAhead (h : NoHexAhead cs) (n : Nat) : takeHex n cs = ([], cs) := by
  cases n with
  | zero => rfl
  | succ n =>
    cases cs with
    | nil => rfl
    | cons c cs => simp only [takeHex, h c rfl]

/-- A text begins with no, one or two digits that are taken. -/
theorem takeHex_two_cases (cs : List Char) : NoHexAhead cs ∨
    (∃ c m rest, cs = c :: rest ∧ hexValue? c = some m ∧ NoHexAhead rest) ∨
      ∃ c d m n rest, cs = c :: d :: rest ∧ hexValue? c = some m ∧ hexValue? d = some n := by
  match cs with
  | [] => exact Or.inl nofun
  | c :: cs =>
    cases hc : hexValue? c with
    | none => exact Or.inl fun d hd => Option.some.inj hd ▸ hc
    | some m =>
      refine Or.inr ?_
      match cs with
      | [] => exact Or.inl ⟨c, m, [], rfl, hc, nofun⟩
      | d :: cs =>
        cases hd : hexValue? d with
        | none => exact Or.inl ⟨c, m, d :: cs, rfl, hc, fun e he => Option.some.inj he ▸ hd⟩
        | some n => exact Or.inr ⟨c, d, m, n, cs, rfl, hc, hd⟩

theorem readEscape_noHex (h : NoHexAhead cs) : readEscape ('x' :: cs) = (['\\', 'x'], cs) := by
  simp only [readEscape, if_true, takeHex_of_noHexAhead h]

theorem readEscape_oneHex (hc : hexValue? c = some m) (h : NoHexAhead cs) :
    readEscape ('x' :: c :: cs) = ([Char.ofNat m], cs) := by
  simp only [readEscape, if_true, takeHex, hc, takeHex_of_noHexAhead h, Prod.map, id,
    List.foldl_cons, List.foldl_nil, Nat.mul_zero, Nat.zero_add]

theorem readEscape_twoHex (hc : hexValue? c = some m) (hd : hexValue? d = some n) :
    readEscape ('x' :: c :: d :: cs) = ([Char.ofNat (16 * m + n)], cs) := by
  simp only [readEscape, if_true, takeHex, hc, hd, Prod.map, id,
    List.foldl_cons, List.foldl_nil, Nat.mul_zero, Nat.zero_add]

theorem unescape_noHex (h : NoHexAhead cs) :
    unescape ('\\' :: 'x' :: cs) = '\\' :: 'x' :: unescape cs := by
  match cs with
  | [] => rfl
  | [c] =>
    have hc := h c rfl
    simp only [unescape, hc]
  | c :: d :: cs =>
    have hc := h c rfl
    simp only [unescape, hc]

theorem unescape_oneHex (hc : hexValue? c = some m) (h : NoHexAhead cs) :
    unescape ('\\' :: 'x' :: c :: cs) = Char.ofNat m :: unescape cs := by
  cases cs with
  | nil => simp only [unescape, hc]
  | cons d cs => simp only [unescape, hc, h d rfl]

theorem unescape_twoHex (hc : hexValue? c = some m) (hd : hexValue? d = some n) :
    unescape ('\\' :: 'x' :: c :: d :: cs) = Char.ofNat (16 * m + n) :: unescape cs := by
  simp only [unescape, hc, hd]

end Hex

section Split

variable {cs : List Char}

/-- What a backslash takes belongs to the contents of the literal, and spells what it adds. -/
theorem exists_spelled_readEscape (h : cs ≠ []) : ∃ spelled,
    splitLiteral false ('\\' :: cs) =
        (splitLiteral false (readEscape cs).2).map (Prod.map ('\\' :: spelled ++ ·) id) ∧
      ∀ body more, (readEscape cs).2 = body ++ '"' :: more →
        unescape ('\\' :: spelled ++ body) = (readEscape cs).1 ++ unescape body := by
  obtain ⟨a, cs, rfl⟩ := List.exists_cons_of_ne_nil h
  by_cases ha : a = 'x'
  · subst ha
    rcases takeHex_two_cases cs with hnone | ⟨c, m, rest, rfl, hc, hnone⟩ |
      ⟨c, d, m, n, rest, rfl, hc, hd⟩
    · rw [readEscape_noHex hnone]
      refine ⟨['x'], splitLiteral_escape 'x' cs, fun body more hrest => ?_⟩
      exact unescape_noHex (hnone.of_eq_append hrest)
    · rw [readEscape_oneHex hc hnone]
      obtain ⟨hquote, hbackslash⟩ := plain_of_hexValue? hc
      refine ⟨['x', c], ?_, fun body more hrest => ?_⟩
      · rw [splitLiteral_escape, splitLiteral_plain hquote hbackslash, Option.map_map]
        rfl
      · exact unescape_oneHex hc (hnone.of_eq_append hrest)
    · rw [readEscape_twoHex hc hd]
      obtain ⟨hquote, hbackslash⟩ := plain_of_hexValue? hc
      obtain ⟨hquote', hbackslash'⟩ := plain_of_hexValue? hd
      refine ⟨['x', c, d], ?_, fun body more hrest => unescape_twoHex hc hd⟩
      rw [splitLiteral_escape, splitLiteral_plain hquote hbackslash,
        splitLiteral_plain hquote' hbackslash', Option.map_map, Option.map_map]
      rfl
  · cases hescape : escape? a with
    | some e =>
      simp only [readEscape, if_neg ha, hescape]
      exact ⟨[a], splitLiteral_escape a cs, fun body _ _ => unescape_escape ha hescape body⟩
    | none =>
      have hquote : a ≠ '"' := by rintro rfl; cases hescape
      have hbackslash : a ≠ '\\' := by rintro rfl; cases hescape
      simp only [readEscape, if_neg ha, hescape]
      refine ⟨[], ?_, fun body more hrest => ?_⟩
      · rw [splitLiteral_escape, splitLiteral_plain hquote hbackslash, Option.map_map]
        rfl
      · cases body with
        | nil => exact absurd (List.cons.inj hrest).1 hquote
        | cons b body =>
          obtain ⟨rfl, -⟩ := List.cons.inj hrest
          rw [List.cons_append, List.nil_append, unescape, hescape]
          · rfl
          all_goals simp [ha]

end Split

/-- A literal is read in one pass as it is split off and unescaped. -/
theorem readLiteral_eq (cs : List Char) :
    readLiteral cs = (splitLiteral false cs).map (Prod.map unescape id) := by
  match cs with
  | [] => rw [readLiteral, splitLiteral, Option.map_none]
  | c :: cs =>
    rw [readLiteral]
    by_cases hquote : c = '"'
    · rw [if_pos hquote, splitLiteral, if_pos hquote]
      rfl
    · rw [if_neg hquote]
      by_cases hbackslash : c = '\\'
      · subst hbackslash
        rw [if_pos rfl]
        by_cases hnil : cs = []
        · subst hnil
          rw [readEscape, readLiteral]
          rfl
        · obtain ⟨spelled, hsplit, hunescape⟩ := exists_spelled_readEscape hnil
          have hrest := length_readEscape_le cs
          rw [readLiteral_eq (readEscape cs).2, hsplit, Option.map_map, Option.map_map]
          cases hbody : splitLiteral false (readEscape cs).2 with
          | none => rfl
          | some split =>
            obtain ⟨body, more⟩ := split
            have happend := splitLiteral_eq_append hbody
            simp only [Option.map_some, Function.comp_apply, Prod.map_apply, id,
              hunescape body more happend]
      · rw [if_neg hbackslash, readLiteral_eq cs, splitLiteral_plain hquote hbackslash,
          Option.map_map, Option.map_map]
        refine congrArg (Option.map · _) (funext fun split => ?_)
        simp only [Function.comp_apply, Prod.map, unescape_plain hbackslash]
termination_by cs.length

/-- The token at an opening quote has the string that is read in one pass, and covers everything up
to what follows the literal. -/
theorem Lexeme.read_quote_eq_ok_iff {cs : List Char} {l : Lexeme} :
    Lexeme.read '"' cs = .ok l ↔ ∃ text chars rest, readLiteral cs = some (text, rest) ∧
      chars ++ rest = '"' :: cs ∧ l = ⟨.string, String.ofList text, chars, rest⟩ := by
  rw [Lexeme.read_quote, readLiteral_eq]
  cases hsplit : splitLiteral false cs with
  | none => simp
  | some split =>
    obtain ⟨body, more⟩ := split
    have happend : ('"' :: body ++ ['"']) ++ more = '"' :: cs := by
      simp [splitLiteral_eq_append hsplit]
    constructor
    · intro h
      cases h
      exact ⟨_, _, _, rfl, happend, rfl⟩
    · rintro ⟨text, chars, rest, htext, hchars, rfl⟩
      cases htext
      rw [List.append_cancel_right (hchars.trans happend.symm)]
      rfl

theorem Lexeme.read_quote_eq_error_iff {cs : List Char} {cause : Cause} :
    Lexeme.read '"' cs = .error cause ↔ readLiteral cs = none ∧ cause = .unterminatedString := by
  rw [Lexeme.read_quote, readLiteral_eq]
  cases splitLiteral false cs with
  | none => simp [eq_comm]
  | some split => simp

end IntLang
