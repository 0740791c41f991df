/-!
String literals. A literal runs from a double quote to the next double quote that no backslash
escapes. Inside it a backslash begins an escape: `\n`, `\t`, `\r` and `\0` are control characters,
`\\` and `\"` the characters themselves, and `\x` with one or two hexadecimal digits is the
character with that code. Any other backslash stands for itself.
-/
namespace IntLang

/-- Splits the text after an opening quote at the closing one, into the spelling of the contents
and what follows the closing quote. There is no split if no quote closes the literal. The flag says
that the character before was a backslash which escapes the next one. -/
def splitLiteral : Bool → List Char → Option (List Char × List Char)
  | _, [] => none
  | true, c :: cs => (splitLiteral false cs).map fun (body, rest) => (c :: body, rest)
  | false, c :: cs =>
    if c = '"' then some ([], cs)
    else (splitLiteral (c == '\\') cs).map fun (body, rest) => (c :: body, rest)

def hexValue? (c : Char) : Option Nat :=
  if '0' ≤ c ∧ c ≤ '9' then some (c.toNat - '0'.toNat)
  else if 'a' ≤ c ∧ c ≤ 'f' then some (c.toNat - 'a'.toNat + 10)
  else if 'A' ≤ c ∧ c ≤ 'F' then some (c.toNat - 'A'.toNat + 10)
  else none

def escape? (c : Char) : Option Char :=
  if c = 'n' then some '\n'
  else if c = 't' then some '\t'
  else if c = 'r' then some '\r'
  else if c = '\\' then some '\\'
  else if c = '"' then some '"'
  else if c = '0' then some '\x00'
  else none

def unescape : List Char → List Char
  | '\\' :: 'x' :: c :: d :: cs =>
    match hexValue? c, hexValue? d with
    | some m, some n => Char.ofNat (16 * m + n) :: unescape cs
    | some m, none => Char.ofNat m :: unescape (d :: cs)
    | none, _ => '\\' :: 'x' :: unescape (c :: d :: cs)
  | ['\\', 'x', c] =>
    match hexValue? c with
    | some m => [Char.ofNat m]
    | none => ['\\', 'x', c]
  | '\\' :: c :: cs =>
    match escape? c with
    | some e => e :: unescape cs
    | none => '\\' :: unescape (c :: cs)
  | c :: cs => c :: unescape cs
  | [] => []

theorem splitLiteral_eq_append {escaped : Bool} {cs body rest : List Char}
    (h : splitLiteral escaped cs = some (body, rest)) : cs = body ++ '"' :: rest := by
  induction cs generalizing escaped body with
  | nil => cases escaped <;> simp [splitLiteral] at h
  | cons c cs ih =>
    cases escaped with
    | true =>
      simp only [splitLiteral, Option.map_eq_some_iff, Prod.mk.injEq, Prod.exists] at h
      obtain ⟨b, r, hs, rfl, rfl⟩ := h
      simp [ih hs]
    | false =>
      by_cases hc : c = '"'
      · simp only [splitLiteral, hc, if_pos, Option.some.injEq, Prod.mk.injEq] at h
        obtain ⟨rfl, rfl⟩ := h
        simp [hc]
      · simp only [splitLiteral, hc, if_false, Option.map_eq_some_iff, Prod.mk.injEq,
          Prod.exists] at h
        obtain ⟨b, r, hs, rfl, rfl⟩ := h
        simp [ih hs]

end IntLang
