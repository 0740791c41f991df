import IntLang.Expr.Printer
import IntLang.Proofs.Grammar.Parts
import IntLang.Proofs.Token.Quoted

/-!
The printed form of an expression, token by token. It splits into the lexemes that were put
together, with one blank in front of an operator, of its right operand and of an argument behind a
comma; and the tokens of these lexemes are a factor of the grammar for the expression itself. As
every operator brings its parentheses, the precedence of operators plays no part.
-/
namespace IntLang

def Operator.kind : Operator → TokenKind
  | add => .plus
  | subtract => .dash
  | multiply => .star
  | divide => .slash

def Operator.char : Operator → Char
  | add => '+'
  | subtract => '-'
  | multiply => '*'
  | divide => '/'

def Piece.ofSign (lead : List Char) (kind : TokenKind) (c : Char) : Piece :=
  ⟨lead, kind, String.singleton c, [c]⟩

namespace Expr

mutual

/-- The pieces of the printed form of an expression, with `lead` in front of the first. -/
def pieces (lead : List Char) : Expr → List Piece
  | number value _ => [⟨lead, .number, toString value.toInt, (toString value.toInt).toList⟩]
  | string text _ => [⟨lead, .string, text, (quote text).toList⟩]
  | var name _ => [⟨lead, .identifier, name, name.toList⟩]
  | binary operator left right _ =>
    .ofSign lead .openParen '(' :: (left.pieces [] ++
      .ofSign [' '] operator.kind operator.char :: (right.pieces [' '] ++
        [.ofSign [] .closeParen ')']))
  | call callee arguments _ =>
    ⟨lead, .identifier, callee, callee.toList⟩ :: .ofSign [] .openParen '(' ::
      (piecesList [] arguments ++ [.ofSign [] .closeParen ')'])

def piecesList (lead : List Char) : List Expr → List Piece
  | [] => []
  | [e] => e.pieces lead
  | e :: f :: es => e.pieces lead ++ .ofSign [] .comma ',' :: piecesList [' '] (f :: es)

end

theorem toList_sign (operator : Operator) : operator.sign.toList = [operator.char] := by
  cases operator <;> rfl

mutual

theorem sourceOf_pieces (lead : List Char) (e : Expr) :
    sourceOf (e.pieces lead) = lead ++ e.print.toList := by
  match e with
  | number value _ | string text _ | var name _ =>
    simp only [pieces, print, sourceOf_cons, sourceOf_nil, List.append_nil]
  | binary operator left right _ =>
    rw [pieces, print]
    simp only [sourceOf_cons, sourceOf_append, sourceOf_nil, sourceOf_pieces [] left,
      sourceOf_pieces [' '] right, Piece.ofSign, String.toList_append, toList_sign]
    simp
  | call callee arguments _ =>
    rw [pieces, print]
    simp only [sourceOf_cons, sourceOf_append, sourceOf_nil, Piece.ofSign, String.toList_append]
    rw [sourceOf_piecesList [] arguments fun _ => rfl]
    simp

theorem sourceOf_piecesList (lead : List Char) (es : List Expr) (hlead : es = [] → lead = []) :
    sourceOf (piecesList lead es) = lead ++ (printList es).toList := by
  match es with
  | [] =>
    rw [piecesList, printList, hlead rfl]
    rfl
  | [e] => rw [piecesList, printList, sourceOf_pieces lead e]
  | e :: f :: es =>
    rw [piecesList, printList]
    simp only [sourceOf_cons, sourceOf_append, sourceOf_pieces lead e,
      sourceOf_piecesList [' '] (f :: es) nofun, Piece.ofSign, String.toList_append]
    simp

end

/-- Whether the printed form of an expression, apart from those inside it, can be read again. -/
def Legible : Expr → Prop
  | string text _ => ∀ c ∈ text.toList, ¬WrittenByCode c
  | e => e.Writable

end Expr

/-- A number that is not negative is written in decimal digits. -/
theorem exists_digits {value : Int64} (h : 0 ≤ value.toInt) :
    ∃ n : Nat, value.toInt = n ∧ toString value.toInt = String.ofList (Nat.toDigits 10 n) := by
  obtain ⟨n, hn⟩ := Int.eq_ofNat_of_zero_le h
  refine ⟨n, hn, ?_⟩
  rw [hn, ← Nat.repr_eq_ofList_toDigits]
  rfl

section Spelling

variable {rest : List Char} (hrest : ∀ c ∈ rest.head?, isWordPart c = false)
include hrest

theorem spells_name {name : String} (h : IsName name) :
    Spells .identifier name name.toList rest := by
  obtain ⟨c, cs, rfl, hstart, hparts, hkeyword⟩ := h
  rw [String.toList_ofList]
  exact .identifier hstart ⟨hparts, hrest⟩ hkeyword

theorem spells_number {value : Int64} (h : 0 ≤ value.toInt) :
    Spells .number (toString value.toInt) (toString value.toInt).toList rest := by
  obtain ⟨n, -, htext⟩ := exists_digits h
  have hends : ∀ c ∈ rest.head?, c.isDigit = false := by
    intro c hc
    have hpart := hrest c hc
    rw [isWordPart, Bool.or_eq_false_iff] at hpart
    exact hpart.2
  rw [htext, String.toList_ofList]
  refine .number Nat.toDigits_ne_nil ⟨fun c hc => ?_, hends⟩
  exact Nat.isDigit_of_mem_toDigits (by decide) (by decide) hc

end Spelling

theorem trivia_blank (rest : List Char) : Trivia [' '] rest := .blank rfl .nil

section Sign

variable {lead rest l : List Char} {kind : TokenKind} {text : String} {c : Char} {ps : List Piece}

/-- A lexeme with blanks and comments in front of it is a split of its own. -/
theorem Split.single (hlead : ∀ tail, Trivia lead tail) (hl : Spells kind text l rest) :
    Split [⟨lead, kind, text, l⟩] rest :=
  .cons (hlead _) hl .nil

/-- A sign with blanks and comments in front of it goes before pieces. -/
theorem Split.ofSign (hlead : ∀ tail, Trivia lead tail) (hsign : sign? c = some kind)
    (hslash : c = '/' → (sourceOf ps ++ rest).head? ≠ some '/') (hps : Split ps rest) :
    Split (.ofSign lead kind c :: ps) rest :=
  .cons (hlead _) (.sign hsign hslash) hps

theorem Split.ofSign_of_ne (hlead : ∀ tail, Trivia lead tail) (hsign : sign? c = some kind)
    (hne : c ≠ '/') (hps : Split ps rest) : Split (.ofSign lead kind c :: ps) rest :=
  .ofSign hlead hsign (fun hslash => absurd hslash hne) hps

end Sign

namespace Expr

def AllLegible (es : List Expr) : Prop := ∀ x ∈ es, x.Legible

section AllLegible

variable {e : Expr} {es fs : List Expr}

@[simp] theorem allLegible_nil : AllLegible [] := nofun

@[simp] theorem allLegible_cons : AllLegible (e :: es) ↔ e.Legible ∧ AllLegible es :=
  List.forall_mem_cons

@[simp] theorem allLegible_append : AllLegible (es ++ fs) ↔ AllLegible es ∧ AllLegible fs :=
  List.forall_mem_append

end AllLegible

mutual

/-- The printed form of an expression splits into its pieces in front of anything that does not
continue a word. -/
theorem split_pieces {e : Expr} {lead rest : List Char} (h : AllLegible e.parts)
    (hlead : ∀ tail, Trivia lead tail) (hrest : ∀ c ∈ rest.head?, isWordPart c = false) :
    Split (e.pieces lead) rest := by
  match e with
  | number value _ =>
    rw [parts, allLegible_cons] at h
    rw [pieces]
    exact .single hlead (spells_number hrest h.1)
  | string text _ =>
    rw [parts, allLegible_cons] at h
    rw [pieces]
    exact .single hlead (spells_quote h.1 rest)
  | var name _ =>
    rw [parts, allLegible_cons] at h
    rw [pieces]
    exact .single hlead (spells_name hrest h.1)
  | binary operator left right _ =>
    rw [parts, allLegible_cons, allLegible_append] at h
    obtain ⟨-, hleft, hright⟩ := h
    have hclose : Split [.ofSign [] .closeParen ')'] rest :=
      .ofSign_of_ne (fun _ => .nil) rfl (by decide) .nil
    have hsecond : Split (right.pieces [' ']) (sourceOf [.ofSign [] .closeParen ')'] ++ rest) :=
      split_pieces hright trivia_blank (by rintro c ⟨⟩; rfl)
    have hsign : Split (.ofSign [' '] operator.kind operator.char ::
        (right.pieces [' '] ++ [.ofSign [] .closeParen ')'])) rest := by
      refine .ofSign trivia_blank (by cases operator <;> rfl) ?_ (hsecond.append hclose)
      -- a blank stands behind the operator, so that a slash begins no comment
      rintro - hslash
      rw [sourceOf_append, sourceOf_pieces] at hslash
      cases hslash
    have hfirst : Split (left.pieces []) (sourceOf (.ofSign [' '] operator.kind operator.char ::
        (right.pieces [' '] ++ [.ofSign [] .closeParen ')'])) ++ rest) :=
      split_pieces hleft (fun _ => .nil) (by rintro c ⟨⟩; rfl)
    rw [pieces]
    exact .ofSign_of_ne hlead rfl (by decide) (hfirst.append hsign)
  | call callee arguments _ =>
    rw [parts, allLegible_cons] at h
    obtain ⟨hname, harguments⟩ := h
    have hclose : Split [.ofSign [] .closeParen ')'] rest :=
      .ofSign_of_ne (fun _ => .nil) rfl (by decide) .nil
    have hlist : Split (piecesList [] arguments)
        (sourceOf [.ofSign [] .closeParen ')'] ++ rest) :=
      split_piecesList harguments (fun _ => .nil) (by rintro c ⟨⟩; rfl)
    have hopen : Split (.ofSign [] .openParen '(' ::
        (piecesList [] arguments ++ [.ofSign [] .closeParen ')'])) rest :=
      .ofSign_of_ne (fun _ => .nil) rfl (by decide) (hlist.append hclose)
    rw [pieces]
    exact .cons (hlead _) (spells_name (by rintro c ⟨⟩; rfl) hname) hopen

theorem split_piecesList {es : List Expr} {lead rest : List Char} (h : AllLegible (partsList es))
    (hlead : ∀ tail, Trivia lead tail) (hrest : ∀ c ∈ rest.head?, isWordPart c = false) :
    Split (piecesList lead es) rest := by
  match es with
  | [] =>
    rw [piecesList]
    exact .nil
  | [e] =>
    rw [partsList, partsList, List.append_nil] at h
    rw [piecesList]
    exact split_pieces h hlead hrest
  | e :: f :: es =>
    rw [partsList, allLegible_append] at h
    have hmore := split_piecesList h.2 trivia_blank hrest
    have hcomma : Split (.ofSign [] .comma ',' :: piecesList [' '] (f :: es)) rest :=
      .ofSign_of_ne (fun _ => .nil) rfl (by decide) hmore
    have hfirst : Split (e.pieces lead)
        (sourceOf (.ofSign [] .comma ',' :: piecesList [' '] (f :: es)) ++ rest) :=
      split_pieces h.1 hlead (by rintro c ⟨⟩; rfl)
    rw [piecesList]
    exact hfirst.append hcomma

end

end Expr

theorem decimalValue_toString {value : Int64} (h : 0 ≤ value.toInt) :
    decimalValue (toString value.toInt).toList < integerBound ∧
      Int64.ofNat (decimalValue (toString value.toInt).toList) = value := by
  obtain ⟨n, hn, htext⟩ := exists_digits h
  have hvalue : decimalValue (toString value.toInt).toList = n := by
    rw [htext, String.toList_ofList]
    exact Nat.ofDigitChars_ten_toDigits
  have hlt := value.toInt_lt
  rw [hvalue]
  constructor
  · show n < 2 ^ 63
    omega
  · rw [← Int64.ofInt_eq_ofNat, ← hn, Int64.ofInt_toInt]

end IntLang
