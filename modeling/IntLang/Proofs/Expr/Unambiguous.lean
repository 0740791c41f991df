import IntLang.Proofs.Expr.Pieces
import IntLang.Proofs.Grammar.Bare
import IntLang.Proofs.Text.Quoted

/-!
Printed expressions are told apart. The first lexeme of a printed expression shows what kind of
expression it is, and behind it the parts follow one after the other, each of which shows where it
ends. So two expressions that can be written down and print the same text are equal up to spans.
Nothing is asked of the strings in them.
-/
namespace IntLang

theorem Spells.append_inj {kind kind' : TokenKind} {text text' : String}
    {l l' rest rest' : List Char} (h : Spells kind text l rest) (h' : Spells kind' text' l' rest')
    (happend : l ++ rest = l' ++ rest') : kind = kind' ∧ l = l' ∧ rest = rest' := by
  obtain ⟨c, cs, rfl, hread⟩ := h.exists_read
  obtain ⟨c', cs', rfl, hread'⟩ := h'.exists_read
  obtain ⟨rfl, hmore⟩ := List.cons.inj happend
  change cs ++ rest = cs' ++ rest' at hmore
  rw [← hmore, hread] at hread'
  obtain ⟨hkind, -, hchars, hrest⟩ := Lexeme.mk.inj (Except.ok.inj hread')
  exact ⟨hkind, hchars, hrest⟩

/-- Any quoted text is a string literal, even if for another string than the one quoted. -/
theorem exists_spells_quote (s : String) (rest : List Char) :
    ∃ text, Spells .string text (quote s).toList rest := by
  rw [toList_quote]
  exact ⟨_, .string (contents_flatMap_quoteChar s.toList)⟩

def Stops (rest : List Char) : Prop := ∀ c ∈ rest.head?, isWordPart c = false ∧ c ≠ '('

namespace Expr

open Grammar

def leadKind : Expr → TokenKind
  | number _ _ => .number
  | string _ _ => .string
  | var _ _ | call _ _ _ => .identifier
  | binary _ _ _ _ => .openParen

/-- The first lexeme of a printed expression. -/
def lead : Expr → List Char
  | number value _ => (toString value.toInt).toList
  | string text _ => (quote text).toList
  | var name _ | call name _ _ => name.toList
  | binary _ _ _ _ => ['(']

def trail : Expr → List Char
  | number _ _ | string _ _ | var _ _ => []
  | binary operator left right _ =>
    left.print.toList ++ ' ' :: operator.char :: ' ' :: (right.print.toList ++ [')'])
  | call _ arguments _ => '(' :: ((printList arguments).toList ++ [')'])

theorem toList_print (e : Expr) : e.print.toList = e.lead ++ e.trail := by
  cases e with
  | number | string | var => simp [print, lead, trail]
  | binary operator => simp [print, lead, trail, toList_sign]
  | call => simp [print, lead, trail]

theorem exists_spells_lead {e : Expr} {rest : List Char} (he : e.Writable) (hrest : Stops rest) :
    ∃ text, Spells e.leadKind text e.lead (e.trail ++ rest) := by
  have hword : ∀ c ∈ rest.head?, isWordPart c = false := fun c hc => (hrest c hc).1
  cases e with
  | number => exact ⟨_, spells_number hword he⟩
  | string text => exact exists_spells_quote text rest
  | var => exact ⟨_, spells_name hword he⟩
  | binary => exact ⟨_, .sign rfl nofun⟩
  | call => exact ⟨_, spells_name (by rintro c ⟨⟩; rfl) he⟩

theorem number_inj {value value' : Int64} (h : 0 ≤ value.toInt) (h' : 0 ≤ value'.toInt)
    (hsame : (toString value.toInt).toList = (toString value'.toInt).toList) : value = value' := by
  rw [← (decimalValue_toString h).2, ← (decimalValue_toString h').2, hsame]

theorem stops_blank (rest : List Char) : Stops (' ' :: rest) := by
  rintro c ⟨⟩
  decide

theorem stops_close (rest : List Char) : Stops (')' :: rest) := by
  rintro c ⟨⟩
  decide

theorem stops_comma (rest : List Char) : Stops (',' :: rest) := by
  rintro c ⟨⟩
  decide

theorem not_stops_open (rest : List Char) : ¬Stops ('(' :: rest) := fun h => (h '(' rfl).2 rfl

theorem char_inj {operator operator' : Operator} (h : operator.char = operator'.char) :
    operator = operator' := by
  revert h
  cases operator <;> cases operator' <;> decide

theorem mem_parts_self (e : Expr) : e ∈ e.parts := by
  cases e <;> simp [parts]

theorem mem_partsList_head (e : Expr) (es : List Expr) : e ∈ partsList (e :: es) := by
  rw [partsList]
  exact List.mem_append_left _ e.mem_parts_self

theorem lead_of_print {e e' : Expr} {rest rest' : List Char} (he : AllWritable e.parts)
    (he' : AllWritable e'.parts) (hrest : Stops rest) (hrest' : Stops rest')
    (h : e.print.toList ++ rest = e'.print.toList ++ rest') :
    e.leadKind = e'.leadKind ∧ e.lead = e'.lead ∧ e.trail ++ rest = e'.trail ++ rest' := by
  obtain ⟨text, hlead⟩ := exists_spells_lead (he e e.mem_parts_self) hrest
  obtain ⟨text', hlead'⟩ := exists_spells_lead (he' e' e'.mem_parts_self) hrest'
  rw [toList_print, toList_print, List.append_assoc, List.append_assoc] at h
  exact hlead.append_inj hlead' h

def moreList : List Expr → List Char
  | [] => []
  | e :: es => ',' :: ' ' :: (printList (e :: es)).toList

theorem toList_printList_cons (e : Expr) (es : List Expr) :
    (printList (e :: es)).toList = e.print.toList ++ moreList es := by
  cases es <;> simp [printList, moreList]

theorem stops_moreList (es : List Expr) (rest : List Char) : Stops (moreList es ++ ')' :: rest) := by
  cases es with
  | nil => exact stops_close rest
  | cons => exact stops_comma _

/-- The arguments of a call, if there are any, do not begin with the parenthesis that closes it. -/
theorem printList_cons_ne {e : Expr} {es : List Expr} {rest rest' : List Char} (he : e.Writable) :
    (printList (e :: es)).toList ++ ')' :: rest ≠ ')' :: rest' := by
  intro h
  rw [toList_printList_cons, toList_print, List.append_assoc, List.append_assoc] at h
  obtain ⟨text, hlead⟩ := exists_spells_lead he (stops_moreList es rest)
  have hclose : Spells .closeParen (String.singleton ')') [')'] rest' := .sign rfl (by rintro ⟨⟩)
  have hkind := (hlead.append_inj hclose h).1
  cases e <;> cases hkind

mutual

/-- A printed expression shows where it ends, and what it is up to spans. -/
theorem bare_eq_of_print {e e' : Expr} {rest rest' : List Char} (he : AllWritable e.parts)
    (he' : AllWritable e'.parts) (hrest : Stops rest) (hrest' : Stops rest')
    (h : e.print.toList ++ rest = e'.print.toList ++ rest') :
    e.bare = e'.bare ∧ rest = rest' := by
  obtain ⟨hkind, hlead, htrail⟩ := lead_of_print he he' hrest hrest' h
  cases e with
  | number value _ =>
    cases e' with
    | number value' _ =>
      rw [parts, allWritable_cons] at he he'
      rw [lead, lead] at hlead
      exact ⟨by rw [bare, bare, number_inj he.1 he'.1 hlead], htrail⟩
    | string | var | binary | call => cases hkind
  | string text _ =>
    cases e' with
    | string text' _ =>
      rw [lead, lead, ← List.append_nil (quote text).toList,
        ← List.append_nil (quote text').toList] at hlead
      exact ⟨by rw [bare, bare, (quote_append_inj hlead).1], htrail⟩
    | number | var | binary | call => cases hkind
  | var name _ =>
    cases e' with
    | var name' _ => exact ⟨by rw [bare, bare, String.toList_inj.mp hlead], htrail⟩
    | call =>
      change rest = '(' :: _ at htrail
      exact absurd (htrail ▸ hrest) (not_stops_open _)
    | number | string | binary => cases hkind
  | call callee arguments _ =>
    cases e' with
    | call callee' arguments' _ =>
      rw [parts, allWritable_cons] at he he'
      simp only [trail, List.cons_append, List.append_assoc, List.nil_append, List.cons.injEq,
        true_and] at htrail
      obtain ⟨hbare, hsame⟩ := bareList_eq_of_printList he.2 he'.2 htrail
      exact ⟨by rw [bare, bare, String.toList_inj.mp hlead, hbare], hsame⟩
    | var =>
      change '(' :: _ = rest' at htrail
      exact absurd (htrail ▸ hrest') (not_stops_open _)
    | number | string | binary => cases hkind
  | binary operator left right _ =>
    cases e' with
    | binary operator' left' right' _ =>
      rw [parts, allWritable_cons, allWritable_append] at he he'
      simp only [trail, List.cons_append, List.append_assoc, List.nil_append] at htrail
      obtain ⟨hleft, hmore⟩ :=
        bare_eq_of_print he.2.1 he'.2.1 (stops_blank _) (stops_blank _) htrail
      simp only [List.cons.injEq, true_and] at hmore
      obtain ⟨hright, hclose⟩ :=
        bare_eq_of_print he.2.2 he'.2.2 (stops_close _) (stops_close _) hmore.2
      exact ⟨by rw [bare, bare, char_inj hmore.1, hleft, hright], (List.cons.inj hclose).2⟩
    | number | string | var | call => cases hkind

theorem bareList_eq_of_printList {es es' : List Expr} {rest rest' : List Char}
    (hes : AllWritable (partsList es)) (hes' : AllWritable (partsList es'))
    (h : (printList es).toList ++ ')' :: rest = (printList es').toList ++ ')' :: rest') :
    bareList es = bareList es' ∧ rest = rest' := by
  match es, es' with
  | [], [] => exact ⟨rfl, (List.cons.inj h).2⟩
  | [], e' :: es' =>
    exact absurd h.symm (printList_cons_ne (hes' e' (mem_partsList_head e' es')))
  | e :: es, [] => exact absurd h (printList_cons_ne (hes e (mem_partsList_head e es)))
  | e :: es, e' :: es' =>
    rw [partsList, allWritable_append] at hes hes'
    rw [toList_printList_cons, toList_printList_cons, List.append_assoc, List.append_assoc] at h
    obtain ⟨hfirst, hmore⟩ := bare_eq_of_print hes.1 hes'.1 (stops_moreList es rest)
      (stops_moreList es' rest') h
    obtain ⟨hbare, hrest⟩ : bareList es = bareList es' ∧ rest = rest' := by
      match es, es' with
      | [], [] => exact ⟨rfl, (List.cons.inj hmore).2⟩
      | [], _ :: _ | _ :: _, [] => exact absurd (List.cons.inj hmore).1 (by decide)
      | f :: es, f' :: es' =>
        simp only [moreList, List.cons_append, List.cons.injEq, true_and] at hmore
        exact bareList_eq_of_printList hes.2 hes'.2 hmore
    exact ⟨by rw [bareList, bareList, hfirst, hbare], hrest⟩

end

end Expr

end IntLang
