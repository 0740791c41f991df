import IntLang.Error.Report
import IntLang.Proofs.Grammar.Starts
import IntLang.Proofs.Source.Line
import IntLang.Text.Decimal

/-!
The last two lines of a report. The upper one quotes the line of the source that an error points to,
without its indentation and the blanks at its end, and the lower one puts a caret below. The bars of
both stand behind a line number and a space, or as many spaces. In front of the caret there are as
many dashes as bytes between the indentation and the error.
-/
namespace IntLang

section Text

variable {as bs : List Char}

theorem toList_pushn (s : String) (c : Char) (n : Nat) :
    (s.pushn c n).toList = s.toList ++ List.replicate n c := by
  induction n with
  | zero => simp [String.pushn, Nat.repeat]
  | succ n ih =>
    have hstep : s.pushn c (n + 1) = (s.pushn c n).push c := rfl
    rw [hstep, String.toList_push, ih, List.replicate_succ', List.append_assoc]

/-- What is dropped in front of a border stays in front of it if it does not go on behind. -/
theorem dropWhile_append_of_head? {p : Char → Bool}
    (h : (∀ a ∈ as, p a = true) → ∀ b ∈ bs.head?, p b = false) :
    (as ++ bs).dropWhile p = as.dropWhile p ++ bs := by
  induction as with
  | nil =>
    cases bs with
    | nil => rfl
    | cons b bs =>
      have hb : p b = false := h nofun b rfl
      exact List.dropWhile_cons_of_neg (by rw [hb]; decide)
  | cons a as ih =>
    rw [List.cons_append]
    by_cases ha : p a = true
    · rw [List.dropWhile_cons_of_pos ha, List.dropWhile_cons_of_pos ha]
      exact ih fun has => h (List.forall_mem_cons.mpr ⟨ha, has⟩)
    · rw [List.dropWhile_cons_of_neg ha, List.dropWhile_cons_of_neg ha, List.cons_append]

theorem eq_of_isIndent {c : Char} (h : isIndent c = true) : c = ' ' ∨ c = '\t' := by
  simpa only [isIndent, Bool.or_eq_true, beq_iff_eq] using h

theorem isBlank_of_isIndent {c : Char} (h : isIndent c = true) : isBlank c = true := by
  rcases eq_of_isIndent h with rfl | rfl <;> rfl

theorem byteLength_takeWhile_isIndent (cs : List Char) :
    byteLength (cs.takeWhile isIndent) = (cs.takeWhile isIndent).length := by
  induction cs with
  | nil => rfl
  | cons c cs ih =>
    by_cases hc : isIndent c = true
    · have hsize : c.utf8Size = 1 := by
        rcases eq_of_isIndent hc with rfl | rfl <;> rfl
      rw [List.takeWhile_cons_of_pos hc, byteLength_cons, ih, hsize, List.length_cons, Nat.add_comm]
    · rw [List.takeWhile_cons_of_neg hc]
      rfl

end Text

/-- What a line holds between its indentation and the border behind the characters `before`. -/
def leadIn (before : List Char) : List Char := (openLine before).dropWhile isIndent

def quoteLine (number shown : List Char) : List Char := number ++ ' ' :: '|' :: ' ' :: shown

def caretLine (width dashes : Nat) : List Char :=
  List.replicate (width + 1) ' ' ++ '|' :: ' ' :: (List.replicate dashes '-' ++ ['^'])

structure Error.EndsReport (e : Error) (source file : String) (upper lower : List Char) : Prop where
  report_eq : ∃ front, (e.report source file).toList = front ++ '\n' :: (upper ++ '\n' :: lower)
  upper_notMem : '\n' ∉ upper
  lower_notMem : '\n' ∉ lower

/-- The position of an error is the border between two parts of a source, which is not inside the
indentation of its line. -/
structure Error.Marks (e : Error) (source : String) (before after : List Char) : Prop where
  source_eq : source.toList = before ++ after
  offset_eq : byteLength before = e.position.offset
  indent : (∀ c ∈ openLine before, isIndent c = true) → ∀ c ∈ after.head?, isIndent c = false

section Report

variable {e : Error} {source file : String} {before after number shown cs : List Char}

theorem trimLine_append_rtakeWhile (cs : List Char) :
    trimLine cs ++ (cs.dropWhile isIndent).rtakeWhile isBlank = cs.dropWhile isIndent :=
  List.rdropWhile_append_rtakeWhile

theorem toList_report (e : Error) (source file : String) :
    ∃ front, (e.report source file).toList =
      front ++ '\n' :: (quoteLine (toString (lineAt source e.position.offset).number).toList
        (trimLine (lineAt source e.position.offset).text.toList) ++
          '\n' :: caretLine (toString (lineAt source e.position.offset).number).toList.length
            ((lineAt source e.position.offset).column -
              ((lineAt source e.position.offset).text.toList.takeWhile isIndent).length)) := by
  generalize hline : lineAt source e.position.offset = line
  refine ⟨(e.headline ++ "\n-> " ++ file ++ "\n" ++
    gutter ((toString line.number).length + 1)).toList, ?_⟩
  unfold Error.report
  rw [hline]
  simp only [String.toList_append, gutter, toList_pushn, quoteLine, caretLine, String.toList_ofList,
    String.length_toList, List.append_assoc]
  rfl

theorem mem_of_mem_trimLine {c : Char} (h : c ∈ trimLine cs) : c ∈ cs := by
  have hkept : c ∈ cs.dropWhile isIndent := by
    rw [← trimLine_append_rtakeWhile]
    exact List.mem_append_left _ h
  exact (List.dropWhile_sublist isIndent).subset hkept

/-- The newline at the end of a line is not quoted. -/
theorem trimLine_append_newline (cs : List Char) : trimLine (cs ++ ['\n']) = trimLine cs := by
  have hdrop : (cs ++ ['\n']).dropWhile isIndent = cs.dropWhile isIndent ++ ['\n'] := by
    refine dropWhile_append_of_head? fun _ c hc => ?_
    cases hc
    rfl
  change ((cs ++ ['\n']).dropWhile isIndent).rdropWhile isBlank = _
  rw [hdrop]
  exact List.rdropWhile_concat_pos _ _ _ rfl

theorem newline_notMem_trimLine (before after : List Char) :
    '\n' ∉ trimLine (openLine before ++ firstLine after) := by
  obtain ⟨body, hbody, hline⟩ := exists_of_firstLine after
  have hquoted : trimLine (openLine before ++ firstLine after) =
      trimLine (openLine before ++ body) := by
    rcases hline with hline | hline
    · rw [hline]
    · rw [hline, ← List.append_assoc, trimLine_append_newline]
  rw [hquoted]
  exact fun h => not_or.mpr ⟨newline_notMem_openLine before, hbody⟩
    (List.mem_append.mp (mem_of_mem_trimLine h))

theorem idxOf_bar_quoteLine (h : ∀ c ∈ number, c.isDigit = true) (shown : List Char) :
    (quoteLine number shown).idxOf '|' = number.length + 1 := by
  rw [quoteLine, List.idxOf_append_of_notMem fun hmem => absurd (h _ hmem) (by decide)]
  rfl

/-- The quoted text stands behind the number, the bar and the spaces around it. -/
theorem getElem?_quoteLine (number shown : List Char) (i : Nat) :
    (quoteLine number shown)[number.length + 3 + i]? = shown[i]? := by
  have hsplit : quoteLine number shown = (number ++ [' ', '|', ' ']) ++ shown := by simp [quoteLine]
  have hlength : (number ++ [' ', '|', ' ']).length = number.length + 3 := List.length_append
  rw [hsplit, ← hlength, List.getElem?_append_right (Nat.le_add_right _ _), Nat.add_sub_cancel_left]

theorem newline_notMem_caretLine (width dashes : Nat) : '\n' ∉ caretLine width dashes := by
  simp [caretLine]

theorem idxOf_bar_caretLine (width dashes : Nat) :
    (caretLine width dashes).idxOf '|' = width + 1 := by
  have hspaces : '|' ∉ List.replicate (width + 1) ' ' := fun hmem =>
    absurd (List.eq_of_mem_replicate hmem) (by decide)
  rw [caretLine, List.idxOf_append_of_notMem hspaces, List.length_replicate]
  rfl

theorem idxOf_caret_caretLine (width dashes : Nat) :
    (caretLine width dashes).idxOf '^' = width + 3 + dashes := by
  have hspaces : '^' ∉ List.replicate (width + 1) ' ' := fun hmem =>
    absurd (List.eq_of_mem_replicate hmem) (by decide)
  have hdashes : '^' ∉ List.replicate dashes '-' := fun hmem =>
    absurd (List.eq_of_mem_replicate hmem) (by decide)
  have hafter : ('|' :: ' ' :: (List.replicate dashes '-' ++ ['^'])).idxOf '^' = 2 + dashes := by
    rw [List.idxOf_cons_ne _ (by decide), List.idxOf_cons_ne _ (by decide),
      List.idxOf_append_of_notMem hdashes, List.length_replicate, List.idxOf_cons_self]
    omega
  rw [caretLine, List.idxOf_append_of_notMem hspaces, List.length_replicate, hafter]
  omega

namespace Error.Marks

/-- The indentation ends in front of the error. -/
theorem dropWhile_isIndent (h : e.Marks source before after) :
    (openLine before ++ firstLine after).dropWhile isIndent = leadIn before ++ firstLine after := by
  refine dropWhile_append_of_head? fun hall => ?_
  rw [head?_firstLine]
  exact h.indent hall

/-- What is left of the column behind the indentation are the bytes of the characters between. -/
theorem column_sub_indent (h : e.Marks source before after) :
    byteLength (openLine before) -
      ((openLine before ++ firstLine after).takeWhile isIndent).length =
        byteLength (leadIn before) := by
  have hwhole := List.takeWhile_append_dropWhile (p := isIndent)
    (l := openLine before ++ firstLine after)
  rw [h.dropWhile_isIndent, ← List.append_assoc] at hwhole
  have hbytes := congrArg byteLength (List.append_cancel_right hwhole)
  rw [byteLength_append, byteLength_takeWhile_isIndent] at hbytes
  omega

/-- The report ends with the quoted line and the caret behind as many dashes as there are bytes
between the indentation and the error. -/
theorem endsReport (h : e.Marks source before after) (file : String) :
    e.EndsReport source file
      (quoteLine (toString (1 + before.count '\n')).toList
        (trimLine (openLine before ++ firstLine after)))
      (caretLine (toString (1 + before.count '\n')).toList.length
        (byteLength (leadIn before))) := by
  have hnumber : '\n' ∉ (toString (1 + before.count '\n')).toList := fun hmem =>
    absurd (isDigit_of_mem_toString hmem) (by decide)
  refine ⟨?_, fun hmem => ?_, newline_notMem_caretLine _ _⟩
  · obtain ⟨front, hreport⟩ := toList_report e source file
    rw [← h.offset_eq, lineAt_byteLength h.source_eq] at hreport
    simp only [String.toList_ofList, h.column_sub_indent] at hreport
    exact ⟨front, hreport⟩
  · rcases List.mem_append.mp hmem with hmem | hmem
    · exact hnumber hmem
    · simp only [List.mem_cons, newline_notMem_trimLine, or_false] at hmem
      revert hmem
      decide

/-- A failing character that is not blank is quoted behind the characters between the indentation
and the error. -/
theorem getElem?_trimLine (h : e.Marks source before after) {c : Char} (hc : c ∈ after.head?)
    (hblank : isBlank c = false) :
    (trimLine (openLine before ++ firstLine after))[(leadIn before).length]? = some c := by
  have hall := trimLine_append_rtakeWhile (openLine before ++ firstLine after)
  rw [h.dropWhile_isIndent] at hall
  have hhere := congrArg (·[(leadIn before).length]?) hall
  simp only [List.getElem?_append_right (Nat.le_refl _), Nat.sub_self, ← List.head?_eq_getElem?,
    head?_firstLine, Option.mem_def.mp hc] at hhere
  by_cases hin : (leadIn before).length < (trimLine (openLine before ++ firstLine after)).length
  · rwa [List.getElem?_append_left hin] at hhere
  · -- otherwise the character would be among the blanks that are trimmed
    rw [List.getElem?_append_right (Nat.le_of_not_lt hin)] at hhere
    have htrimmed := List.mem_rtakeWhile_imp (List.mem_of_getElem? hhere)
    rw [hblank] at htrimmed
    cases htrimmed

end Error.Marks

theorem Error.exists_marks (h : e.position.StandsOutOf source) :
    ∃ before after, e.Marks source before after := by
  obtain ⟨before, after, hsource, hoffset, hblank⟩ := h
  refine ⟨before, after, hsource, hoffset, fun _ c hc => ?_⟩
  have hc := hblank c hc
  rw [Bool.eq_false_iff] at hc ⊢
  exact mt isBlank_of_isIndent hc

end Report

end IntLang
