import IntLang.Proofs.Expr.Unambiguous
import IntLang.StackCode.Compile

/-!
Listings are told apart. Code is in postfix order, so from each instruction and the number of its
arguments the tree can be built again on a stack of trees. No instruction is printed on more than
one line, whatever the strings in it, and what it prints shows which one it is. So a listing, like
the printed form, belongs to one expression only, up to spans.
-/
namespace IntLang

/-- Puts the trees that code computes onto a stack of trees. -/
def rebuild : List Instruction → List Expr → List Expr
  | [], stack => stack
  | .push value :: code, stack => rebuild code (.number value .blank :: stack)
  | .pushString text :: code, stack => rebuild code (.string text .blank :: stack)
  | .load name :: code, stack => rebuild code (.var name .blank :: stack)
  | .apply operator :: code, right :: left :: stack =>
    rebuild code (.binary operator left right .blank :: stack)
  | .apply _ :: code, stack => rebuild code stack
  | .call name count :: code, stack =>
    rebuild code (.call name (stack.take count).reverse .blank :: stack.drop count)

namespace Expr

theorem length_bareList (es : List Expr) : (bareList es).length = es.length := by
  rw [bareList_eq_map, List.length_map]

mutual

/-- The code of an expression builds the expression. -/
theorem rebuild_compileOnto (e : Expr) (code : List Instruction) (stack : List Expr) :
    rebuild (e.compileOnto code) stack = rebuild code (e.bare :: stack) := by
  match e with
  | number .. | string .. | var .. => rfl
  | binary operator left right _ =>
    rw [compileOnto, rebuild_compileOnto left, rebuild_compileOnto right, rebuild, bare]
  | call callee arguments _ =>
    rw [compileOnto, rebuild_compileListOnto arguments, rebuild, bare]
    have hlength : ((bareList arguments).reverse).length = arguments.length := by
      rw [List.length_reverse, length_bareList]
    rw [List.take_left' hlength, List.drop_left' hlength, List.reverse_reverse]

theorem rebuild_compileListOnto (es : List Expr) (code : List Instruction) (stack : List Expr) :
    rebuild (compileListOnto es code) stack = rebuild code ((bareList es).reverse ++ stack) := by
  match es with
  | [] => rfl
  | e :: es =>
    rw [compileListOnto, rebuild_compileOnto e, rebuild_compileListOnto es, bareList,
      List.reverse_cons, List.append_assoc, List.singleton_append]

end

mutual

theorem compileOnto_bare (e : Expr) (code : List Instruction) :
    e.bare.compileOnto code = e.compileOnto code := by
  match e with
  | number .. | string .. | var .. => rfl
  | binary _ left right _ =>
    rw [bare, compileOnto, compileOnto, compileOnto_bare left, compileOnto_bare right]
  | call _ arguments _ =>
    rw [bare, compileOnto, compileOnto, compileListOnto_bareList arguments, length_bareList]

theorem compileListOnto_bareList (es : List Expr) (code : List Instruction) :
    compileListOnto (bareList es) code = compileListOnto es code := by
  match es with
  | [] => rfl
  | e :: es =>
    rw [bareList, compileListOnto, compileListOnto, compileOnto_bare e,
      compileListOnto_bareList es]

end

/-- Code tells the expression up to spans, and does not depend on more. -/
theorem compile_eq_iff {e e' : Expr} : e.compile = e'.compile ↔ e.bare = e'.bare := by
  constructor
  · intro h
    have hbuilt := congrArg (rebuild · []) h
    simp only [compile, rebuild_compileOnto, rebuild, List.cons.injEq, and_true] at hbuilt
    exact hbuilt
  · intro h
    rw [compile, compile, ← compileOnto_bare e, h, compileOnto_bare e']

mutual

theorem print_bare (e : Expr) : e.bare.print = e.print := by
  match e with
  | number .. | string .. | var .. => rfl
  | binary _ left right _ => rw [bare, print, print, print_bare left, print_bare right]
  | call _ arguments _ => rw [bare, print, print, printList_bareList arguments]

theorem printList_bareList (es : List Expr) : printList (bareList es) = printList es := by
  match es with
  | [] => rfl
  | [e] => rw [bareList, bareList, printList, printList, print_bare e]
  | e :: f :: es =>
    have hmore := printList_bareList (f :: es)
    rw [bareList] at hmore ⊢
    rw [bareList, printList, printList, print_bare e]
    rw [← hmore]

end

end Expr

open Grammar

namespace Instruction

/-- Whether an instruction can come from an expression that can be written down. -/
def Writable : Instruction → Prop
  | push value => 0 ≤ value.toInt
  | load name | call name _ => IsName name
  | pushString _ | apply _ => True

def word : Instruction → String
  | push _ => "PUSH"
  | pushString _ => "PUSHS"
  | load _ => "LOAD"
  | apply operator => operator.mnemonic
  | call _ _ => "CALL"

def operands : Instruction → List Char
  | push value => ' ' :: (toString value.toInt).toList
  | pushString text => ' ' :: (quote text).toList
  | load name => ' ' :: name.toList
  | apply _ => []
  | call name count => ' ' :: (name.toList ++ ' ' :: (toString count).toList)

variable {i j : Instruction}

theorem toList_print (i : Instruction) : i.print.toList = i.word.toList ++ i.operands := by
  cases i <;> simp [print, word, operands]

theorem ne_of_mem_word (i : Instruction) : ∀ c ∈ i.word.toList, c ≠ ' ' ∧ c ≠ '\n' := by
  rcases i with _ | _ | _ | (_ | _ | _ | _) | _ <;> simp [word, Operator.mnemonic]

/-- The first word ends at the blank in front of the operands. -/
theorem word_run (i : Instruction) : LongestRun (· != ' ') i.word.toList i.operands := by
  refine ⟨fun c hc => bne_iff_ne.mpr (i.ne_of_mem_word c hc).1, fun c hc => ?_⟩
  cases i with
  | push | pushString | load | call =>
    obtain rfl : ' ' = c := Option.some.inj hc
    decide
  | apply => cases hc

theorem newline_notMem_of_isName {name : String} (h : IsName name) : '\n' ∉ name.toList := by
  obtain ⟨c, cs, rfl, hstart, hparts, -⟩ := h
  rw [String.toList_ofList]
  intro hmem
  rcases List.mem_cons.mp hmem with rfl | hmem
  · exact absurd hstart (by decide)
  · exact absurd (hparts _ hmem) (by decide)

theorem newline_notMem_toDigits (n : Nat) : '\n' ∉ Nat.toDigits 10 n := fun hmem =>
  absurd (isDigit_of_mem_toString (toList_toString n ▸ hmem)) (by decide)

/-- An instruction stands on one line of a listing. -/
theorem newline_notMem_print (hi : i.Writable) : '\n' ∉ i.print.toList := by
  rw [toList_print, List.mem_append]
  refine not_or.mpr ⟨fun hmem => (i.ne_of_mem_word _ hmem).2 rfl, ?_⟩
  cases i with
  | push value =>
    obtain ⟨n, -, htext⟩ := exists_digits hi
    rw [operands, htext, String.toList_ofList]
    exact List.not_mem_cons_of_ne_of_not_mem (by decide) (newline_notMem_toDigits n)
  | pushString text =>
    exact List.not_mem_cons_of_ne_of_not_mem (by decide) (newline_notMem_quote text)
  | load name => exact List.not_mem_cons_of_ne_of_not_mem (by decide) (newline_notMem_of_isName hi)
  | apply => exact List.not_mem_nil
  | call name count =>
    simp only [operands, List.mem_cons, List.mem_append, toList_toString, not_or]
    exact ⟨by decide, newline_notMem_of_isName hi, by decide, newline_notMem_toDigits count⟩

/-- The first word shows the form of an instruction. -/
theorem ctorIdx_eq_of_word (h : i.word = j.word) : i.ctorIdx = j.ctorIdx := by
  revert h
  rcases i with _ | _ | _ | (_ | _ | _ | _) | _ <;> rcases j with _ | _ | _ | (_ | _ | _ | _) | _
  all_goals first | exact fun _ => rfl | simp [word, Operator.mnemonic]

/-- What an instruction prints shows which one it is. -/
theorem print_inj (hi : i.Writable) (hj : j.Writable) (h : i.print = j.print) : i = j := by
  have hchars := congrArg String.toList h
  rw [toList_print, toList_print] at hchars
  obtain ⟨hword, hoperands⟩ := i.word_run.append_inj j.word_run hchars
  have hform := ctorIdx_eq_of_word (String.toList_inj.mp hword)
  cases i with
  | push value =>
    cases j with
    | push value' => rw [Expr.number_inj hi hj (List.cons.inj hoperands).2]
    | pushString | load | apply | call => cases hform
  | pushString text =>
    cases j with
    | pushString text' =>
      have hquoted := (List.cons.inj hoperands).2
      rw [← List.append_nil (quote text).toList, ← List.append_nil (quote text').toList] at hquoted
      rw [(quote_append_inj hquoted).1]
    | push | load | apply | call => cases hform
  | load name =>
    cases j with
    | load name' => rw [String.toList_inj.mp (List.cons.inj hoperands).2]
    | push | pushString | apply | call => cases hform
  | apply operator =>
    cases j with
    | apply operator' =>
      revert hword
      cases operator <;> cases operator' <;> decide
    | push | pushString | load | call => cases hform
  | call name count =>
    cases j with
    | call name' count' =>
      have hblank : ∀ rest : List Char, ∀ c ∈ (' ' :: rest).head?, isWordPart c = false := by
        rintro rest c ⟨⟩
        decide
      obtain ⟨-, hname, hcount⟩ := (spells_name (hblank _) hi).append_inj
        (spells_name (hblank _) hj) (List.cons.inj hoperands).2
      have hdigits := (List.cons.inj hcount).2
      rw [toList_toString, toList_toString] at hdigits
      rw [String.toList_inj.mp hname, ← Nat.ofDigitChars_ten_toDigits (n := count), hdigits,
        Nat.ofDigitChars_ten_toDigits]
    | push | pushString | load | apply => cases hform

end Instruction

section Listing

variable {code code' : List Instruction}

theorem eq_of_map_print (hcode : ∀ i ∈ code, i.Writable) (hcode' : ∀ i ∈ code', i.Writable)
    (h : code.map Instruction.print = code'.map Instruction.print) : code = code' := by
  induction code generalizing code' with
  | nil => exact (List.map_eq_nil_iff.mp h.symm).symm
  | cons i code ih =>
    cases code' with
    | nil => cases h
    | cons j code' =>
      obtain ⟨hi, hcode⟩ := List.forall_mem_cons.mp hcode
      obtain ⟨hj, hcode'⟩ := List.forall_mem_cons.mp hcode'
      obtain ⟨hfirst, hmore⟩ := List.cons.inj h
      rw [Instruction.print_inj hi hj hfirst, ih hcode hcode' hmore]

/-- The lines of a listing are its instructions. -/
theorem splitOn_listing (hcode : ∀ i ∈ code, i.Writable) (hne : code ≠ []) :
    (listing code).toList.splitOn '\n' = (code.map Instruction.print).map String.toList := by
  rw [listing, String.toList_intercalate]
  refine List.splitOn_intercalate '\n' (fun l hl => ?_) (by simpa using hne)
  simp only [List.map_map, List.mem_map, Function.comp_apply] at hl
  obtain ⟨i, hi, rfl⟩ := hl
  exact Instruction.newline_notMem_print (hcode i hi)

/-- A listing shows the code. -/
theorem listing_inj (hcode : ∀ i ∈ code, i.Writable) (hcode' : ∀ i ∈ code', i.Writable)
    (hne : code ≠ []) (hne' : code' ≠ []) (h : listing code = listing code') : code = code' := by
  have hlines := splitOn_listing hcode hne
  rw [h, splitOn_listing hcode' hne', List.map_inj_right fun _ _ => String.toList_inj.mp] at hlines
  exact eq_of_map_print hcode hcode' hlines.symm

end Listing

namespace Expr

mutual

theorem writable_compileOnto {e : Expr} {code : List Instruction} (he : AllWritable e.parts)
    (hcode : ∀ i ∈ code, i.Writable) : ∀ i ∈ e.compileOnto code, i.Writable := by
  match e with
  | number .. | var .. =>
    rw [parts, allWritable_cons] at he
    exact List.forall_mem_cons.mpr ⟨he.1, hcode⟩
  | string .. => exact List.forall_mem_cons.mpr ⟨trivial, hcode⟩
  | binary _ left right _ =>
    rw [parts, allWritable_cons, allWritable_append] at he
    rw [compileOnto]
    exact writable_compileOnto he.2.1
      (writable_compileOnto he.2.2 (List.forall_mem_cons.mpr ⟨trivial, hcode⟩))
  | call _ arguments _ =>
    rw [parts, allWritable_cons] at he
    rw [compileOnto]
    exact writable_compileListOnto he.2 (List.forall_mem_cons.mpr ⟨he.1, hcode⟩)

theorem writable_compileListOnto {es : List Expr} {code : List Instruction}
    (hes : AllWritable (partsList es)) (hcode : ∀ i ∈ code, i.Writable) :
    ∀ i ∈ compileListOnto es code, i.Writable := by
  match es with
  | [] => exact hcode
  | e :: es =>
    rw [partsList, allWritable_append] at hes
    rw [compileListOnto]
    exact writable_compileOnto hes.1 (writable_compileListOnto hes.2 hcode)

end

theorem compile_ne_nil (e : Expr) : e.compile ≠ [] := by
  intro h
  have hbuilt := rebuild_compileOnto e [] []
  rw [show e.compileOnto [] = [] from h] at hbuilt
  cases hbuilt

/-- Expressions that can be written down have the same listing just if they are equal up to spans. -/
theorem listing_eq_iff {e e' : Expr} (he : AllWritable e.parts) (he' : AllWritable e'.parts) :
    listing e.compile = listing e'.compile ↔ e.bare = e'.bare := by
  rw [← compile_eq_iff]
  refine ⟨fun h => ?_, congrArg listing⟩
  exact listing_inj (writable_compileOnto he nofun) (writable_compileOnto he' nofun)
    e.compile_ne_nil e'.compile_ne_nil h

/-- They print the same text just then, too. -/
theorem print_eq_iff {e e' : Expr} (he : AllWritable e.parts) (he' : AllWritable e'.parts) :
    e.print = e'.print ↔ e.bare = e'.bare := by
  refine ⟨fun h => ?_, fun h => by rw [← print_bare e, h, print_bare e']⟩
  have hends : Stops [] := nofun
  exact (bare_eq_of_print he he' hends hends (by rw [h])).1

/-- The listing and the printed form of an expression that was read both tell which one it is: two
of them have the same listing just if they are equal up to spans, and the same printed form just if
they are equal up to spans. So no two different trees share a listing. -/
theorem told_by_text (source file source' file' : String) (e e' : Expr)
    (h : parseExpr source file = .ok e) (h' : parseExpr source' file' = .ok e') :
    (listing e.compile = listing e'.compile ↔ e.bare = e'.bare) ∧
      (e.print = e'.print ↔ e.bare = e'.bare) ∧
        (listing e.compile = listing e'.compile ↔ e.print = e'.print) := by
  have hlisting := listing_eq_iff (writable_of_parseExpr h) (writable_of_parseExpr h')
  have hprint := print_eq_iff (writable_of_parseExpr h) (writable_of_parseExpr h')
  exact ⟨hlisting, hprint, hlisting.trans hprint.symm⟩

/-- One string that imitates two arguments, and on further lines their instructions, is told from
the two arguments. -/
theorem told_by_text_imitation :
    ∃ e e', parseExpr "f(\"1\", \"2\")" "f" = .ok e ∧
      parseExpr "f(\"1\\\", \\\"2\\nPUSHS\")" "g" = .ok e' ∧
        e.bare ≠ e'.bare ∧ listing e.compile ≠ listing e'.compile := by
  have hread : (parseExpr "f(\"1\", \"2\")" "f").map print = .ok "f(\"1\", \"2\")" := by
    decide +kernel
  have hread' : (parseExpr "f(\"1\\\", \\\"2\\nPUSHS\")" "g").map print =
      .ok "f(\"1\\\", \\\"2\\nPUSHS\")" := by decide +kernel
  rcases h : parseExpr "f(\"1\", \"2\")" "f" with error | e
  · rw [h] at hread
    cases hread
  rcases h' : parseExpr "f(\"1\\\", \\\"2\\nPUSHS\")" "g" with error | e'
  · rw [h'] at hread'
    cases hread'
  rw [h] at hread
  rw [h'] at hread'
  have hprint : e.print ≠ e'.print := by
    rw [Except.ok.inj hread, Except.ok.inj hread']
    decide
  obtain ⟨-, hbare, hlisting⟩ := told_by_text _ _ _ _ e e' h h'
  exact ⟨e, e', rfl, rfl, mt hbare.mpr hprint, mt hlisting.mp hprint⟩

end Expr

end IntLang
