import IntLang.Source.Line
import Mathlib.Data.List.DropRight

/-!
Looking up a line. The characters that begin before a byte offset are some complete lines, each
ended by its newline, and the beginning of the line that holds the offset; that line goes on to the
next newline. So the number of the line counts the newlines before the offset, and the column is
what is left of the offset behind the complete lines. This holds at every offset: on a newline,
inside a character, at the end of a text with or without a final newline, and past the end.
-/
namespace IntLang

/-- The characters of a text that begin before a byte offset. -/
def charsBefore : Nat → List Char → List Char
  | 0, _ => []
  | _ + 1, [] => []
  | bytes + 1, c :: cs => c :: charsBefore (bytes + 1 - c.utf8Size) cs

/-- The lines of a text that a newline ends. -/
def completeLines (cs : List Char) : List Char := cs.rdropWhile (· != '\n')

/-- What a text has behind its last newline. -/
def openLine (cs : List Char) : List Char := cs.rtakeWhile (· != '\n')

/-- A text up to and with its first newline. -/
def firstLine : List Char → List Char
  | [] => []
  | c :: cs => if c = '\n' then [c] else c :: firstLine cs

section Characters

variable {as bs cs : List Char} {offset : Nat}

theorem isPrefix_charsBefore (offset : Nat) (cs : List Char) : charsBefore offset cs <+: cs := by
  induction cs generalizing offset with
  | nil => cases offset <;> exact List.prefix_rfl
  | cons c cs ih =>
    cases offset with
    | zero => exact List.nil_prefix
    | succ bytes => exact List.cons_prefix_cons.mpr ⟨rfl, ih _⟩

/-- What a text is behind the characters that begin before an offset. -/
theorem charsBefore_append_drop (offset : Nat) (cs : List Char) :
    charsBefore offset cs ++ cs.drop (charsBefore offset cs).length = cs :=
  List.prefix_iff_eq_append.mp (isPrefix_charsBefore offset cs)

theorem charsBefore_append_of_le (h : offset ≤ byteLength as) (bs : List Char) :
    charsBefore offset (as ++ bs) = charsBefore offset as := by
  induction as generalizing offset with
  | nil =>
    obtain rfl : offset = 0 := Nat.le_zero.mp h
    cases bs <;> rfl
  | cons a as ih =>
    cases offset with
    | zero => rfl
    | succ bytes =>
      rw [byteLength_cons] at h
      have hrest : bytes + 1 - a.utf8Size ≤ byteLength as := by omega
      simp only [List.cons_append, charsBefore, ih hrest]

theorem charsBefore_append_of_ge (h : byteLength as ≤ offset) (bs : List Char) :
    charsBefore offset (as ++ bs) = as ++ charsBefore (offset - byteLength as) bs := by
  induction as generalizing offset with
  | nil => rfl
  | cons a as ih =>
    have hpos := a.utf8Size_pos
    rw [byteLength_cons] at h
    obtain ⟨bytes, rfl⟩ : ∃ bytes, offset = bytes + 1 := ⟨offset - 1, by omega⟩
    have hrest : byteLength as ≤ bytes + 1 - a.utf8Size := by omega
    simp only [List.cons_append, charsBefore, ih hrest, byteLength_cons, Nat.sub_sub]

/-- At the border between two characters just the ones in front begin before. -/
theorem charsBefore_byteLength (as bs : List Char) :
    charsBefore (byteLength as) (as ++ bs) = as := by
  rw [charsBefore_append_of_ge (Nat.le_refl _), Nat.sub_self]
  cases bs <;> exact List.append_nil as

theorem completeLines_append_openLine (cs : List Char) : completeLines cs ++ openLine cs = cs :=
  List.rdropWhile_append_rtakeWhile

theorem completeLines_of_notMem (h : '\n' ∉ cs) : completeLines cs = [] :=
  List.rdropWhile_eq_nil_iff.mpr fun c hc => by simpa using ne_of_mem_of_not_mem hc h

theorem openLine_of_notMem (h : '\n' ∉ cs) : openLine cs = cs :=
  List.rtakeWhile_eq_self_iff.mpr fun c hc => by simpa using ne_of_mem_of_not_mem hc h

theorem newline_notMem_openLine (cs : List Char) : '\n' ∉ openLine cs := fun h =>
  absurd (List.mem_rtakeWhile_imp h) (by decide)

/-- Behind a newline the text in front of it has no part in the open line. -/
theorem openLine_append_newline (as bs : List Char) :
    openLine (as ++ '\n' :: bs) = openLine bs := by
  induction bs using List.reverseRecOn with
  | nil => exact List.rtakeWhile_concat_neg _ _ _ (by decide)
  | append_singleton bs b ih =>
    have hlast : as ++ '\n' :: (bs ++ [b]) = (as ++ '\n' :: bs) ++ [b] := by simp
    unfold openLine at ih ⊢
    rw [hlast, List.rtakeWhile_concat, List.rtakeWhile_concat, ih]

theorem completeLines_append_newline (as bs : List Char) :
    completeLines (as ++ '\n' :: bs) = as ++ '\n' :: completeLines bs := by
  have hall := completeLines_append_openLine (as ++ '\n' :: bs)
  rw [openLine_append_newline] at hall
  refine List.append_cancel_right (hall.trans ?_)
  rw [List.append_assoc, List.cons_append, completeLines_append_openLine]

theorem firstLine_of_notMem (h : '\n' ∉ cs) : firstLine cs = cs := by
  induction cs with
  | nil => rfl
  | cons c cs ih =>
    obtain ⟨hc, hcs⟩ := not_or.mp (mt List.mem_cons.mpr h)
    rw [firstLine, if_neg (Ne.symm hc), ih hcs]

theorem firstLine_append_newline (h : '\n' ∉ as) (bs : List Char) :
    firstLine (as ++ '\n' :: bs) = as ++ ['\n'] := by
  induction as with
  | nil => rfl
  | cons a as ih =>
    obtain ⟨ha, has⟩ := not_or.mp (mt List.mem_cons.mpr h)
    rw [List.cons_append, firstLine, if_neg (Ne.symm ha), ih has, List.cons_append]

theorem head?_firstLine (cs : List Char) : (firstLine cs).head? = cs.head? := by
  cases cs with
  | nil => rfl
  | cons c cs =>
    rw [firstLine]
    split <;> rfl

/-- Nothing but the end of a first line is a newline. -/
theorem exists_of_firstLine (cs : List Char) :
    ∃ body, '\n' ∉ body ∧ (firstLine cs = body ∨ firstLine cs = body ++ ['\n']) := by
  by_cases h : '\n' ∈ cs
  · obtain ⟨body, rest, rfl, hbody⟩ := List.eq_append_cons_of_mem h
    exact ⟨body, hbody, Or.inr (firstLine_append_newline hbody rest)⟩
  · exact ⟨cs, h, Or.inl (firstLine_of_notMem h)⟩

end Characters

section Lines

variable {body rest : List Char}

theorem splitLines_of_notMem (h : '\n' ∉ body) : splitLines body = [body] := by
  induction body with
  | nil => rfl
  | cons c body ih =>
    obtain ⟨hc, hbody⟩ := not_or.mp (mt List.mem_cons.mpr h)
    simp only [splitLines, if_neg (Ne.symm hc), ih hbody]

theorem splitLines_append_newline (h : '\n' ∉ body) (rest : List Char) :
    splitLines (body ++ '\n' :: rest) = (body ++ ['\n']) :: splitLines rest := by
  induction body with
  | nil => rfl
  | cons c body ih =>
    obtain ⟨hc, hbody⟩ := not_or.mp (mt List.mem_cons.mpr h)
    simp only [List.cons_append, splitLines, if_neg (Ne.symm hc), ih hbody]

theorem splitLines_ne_nil (cs : List Char) : splitLines cs ≠ [] := by
  by_cases h : '\n' ∈ cs
  · obtain ⟨body, rest, rfl, hbody⟩ := List.eq_append_cons_of_mem h
    rw [splitLines_append_newline hbody]
    exact List.cons_ne_nil _ _
  · rw [splitLines_of_notMem h]
    exact List.cons_ne_nil _ _

/-- An offset in the first line is found there, and one behind it among the other lines. -/
theorem locate_splitLines_append_newline (h : '\n' ∉ body) (number offset : Nat) :
    locate number offset (splitLines (body ++ '\n' :: rest)) =
      if offset ≤ byteLength body then ⟨number, String.ofList (body ++ ['\n']), offset⟩
      else locate (number + 1) (offset - (byteLength body + 1)) (splitLines rest) := by
  obtain ⟨next, lines, hlines⟩ := List.exists_cons_of_ne_nil (splitLines_ne_nil rest)
  have hlength : byteLength (body ++ ['\n']) = byteLength body + 1 := byteLength_append ..
  rw [splitLines_append_newline h, hlines, locate, hlength]
  simp only [Nat.lt_succ_iff]

end Lines

/-- The line that goes on with `after` behind the characters `before`, which begin in front of an
offset, with the place of the offset in it. -/
def lineBehind (number offset : Nat) (before after : List Char) : Line :=
  ⟨number + before.count '\n', String.ofList (openLine before ++ firstLine after),
    offset - byteLength (completeLines before)⟩

section Behind

variable {before body : List Char}

theorem lineBehind_of_notMem (h : '\n' ∉ before) (number offset : Nat) (after : List Char) :
    lineBehind number offset before after =
      ⟨number, String.ofList (before ++ firstLine after), offset⟩ := by
  rw [lineBehind, openLine_of_notMem h, completeLines_of_notMem h, List.count_eq_zero.mpr h]
  rfl

/-- A line in front counts as one and takes its bytes from the offset. -/
theorem lineBehind_append_newline (h : '\n' ∉ body) (number offset : Nat)
    (before after : List Char) :
    lineBehind number offset (body ++ '\n' :: before) after =
      lineBehind (number + 1) (offset - (byteLength body + 1)) before after := by
  have hcount : (body ++ '\n' :: before).count '\n' = 1 + before.count '\n' := by
    rw [List.count_append, List.count_eq_zero.mpr h, List.count_cons_self]
    omega
  have hlength : byteLength (body ++ '\n' :: completeLines before) =
      byteLength body + 1 + byteLength (completeLines before) := by
    rw [byteLength_append, byteLength_cons, ← Nat.add_assoc]
    rfl
  simp only [lineBehind, openLine_append_newline, completeLines_append_newline, hcount, hlength,
    Nat.sub_sub, Nat.add_assoc]

end Behind

/-- A place among the lines of a text is in the line behind the characters that begin before it. -/
theorem locate_splitLines (number offset : Nat) (cs : List Char) (h : offset ≤ byteLength cs) :
    locate number offset (splitLines cs) =
      lineBehind number offset (charsBefore offset cs)
        (cs.drop (charsBefore offset cs).length) := by
  by_cases hnewline : '\n' ∈ cs
  · obtain ⟨body, rest, rfl, hbody⟩ := List.eq_append_cons_of_mem hnewline
    rw [locate_splitLines_append_newline hbody]
    by_cases hfirst : offset ≤ byteLength body
    · -- the offset splits the first line, in which nothing but its end is a newline
      obtain ⟨after, hafter⟩ := isPrefix_charsBefore offset body
      rw [if_pos hfirst, charsBefore_append_of_le hfirst]
      generalize charsBefore offset body = before at hafter ⊢
      subst hafter
      obtain ⟨hbefore, hafter⟩ := not_or.mp (mt List.mem_append.mpr hbody)
      rw [lineBehind_of_notMem hbefore, List.append_assoc before after ('\n' :: rest),
        List.drop_left, firstLine_append_newline hafter, List.append_assoc]
    · have hsplit : body ++ '\n' :: rest = (body ++ ['\n']) ++ rest := by simp
      have hlength : byteLength (body ++ ['\n']) = byteLength body + 1 := byteLength_append ..
      have hbehind : byteLength (body ++ ['\n']) ≤ offset := by omega
      have hrest : offset - (byteLength body + 1) ≤ byteLength rest := by
        rw [hsplit, byteLength_append] at h
        omega
      have ih := locate_splitLines (number + 1) (offset - (byteLength body + 1)) rest hrest
      rw [if_neg hfirst, ih, hsplit, charsBefore_append_of_ge hbehind, hlength,
        List.length_append, ← List.drop_drop, List.drop_left, List.append_assoc,
        List.singleton_append, lineBehind_append_newline hbody]
  · obtain ⟨after, hafter⟩ := isPrefix_charsBefore offset cs
    rw [splitLines_of_notMem hnewline]
    generalize charsBefore offset cs = before at hafter ⊢
    subst hafter
    obtain ⟨hbefore, hafter⟩ := not_or.mp (mt List.mem_append.mpr hnewline)
    rw [lineBehind_of_notMem hbefore, List.drop_left, firstLine_of_notMem hafter]
    rfl
termination_by cs.length
decreasing_by
  subst_vars
  simp only [List.length_append, List.length_cons]
  omega

/-- The border between two parts of a text is found in the line that goes on with the second one. -/
theorem lineAt_byteLength {source : String} {before after : List Char}
    (h : source.toList = before ++ after) :
    lineAt source (byteLength before) =
      ⟨1 + before.count '\n', String.ofList (openLine before ++ firstLine after),
        byteLength (openLine before)⟩ := by
  have hle : byteLength before ≤ byteLength (before ++ after) := by
    rw [byteLength_append]
    exact Nat.le_add_right _ _
  have hcolumn : byteLength before - byteLength (completeLines before) =
      byteLength (openLine before) := by
    have hall := congrArg byteLength (completeLines_append_openLine before)
    rw [byteLength_append] at hall
    omega
  rw [lineAt, h, Nat.min_eq_left hle, locate_splitLines _ _ _ hle, charsBefore_byteLength,
    List.drop_left, lineBehind, hcolumn]

/-- Looking up a line is exact at every offset. Its number is one more than the newlines before the
offset, its text goes from behind the last of them up to and with the next one or to the end, and
the column is the offset less the bytes in front of that text. -/
theorem lineAt_exact (text : String) (offset : Nat) :
    let pos := min offset (byteLength text.toList)
    let before := charsBefore pos text.toList
    let after := text.toList.drop before.length
    before ++ after = text.toList ∧ completeLines before ++ openLine before = before ∧
      lineAt text offset =
        ⟨1 + before.count '\n', String.ofList (openLine before ++ firstLine after),
          pos - byteLength (completeLines before)⟩ :=
  ⟨charsBefore_append_drop _ _, completeLines_append_openLine _,
    locate_splitLines 1 _ _ (Nat.min_le_right _ _)⟩

/-- An offset inside the character `é`, and the end of a text behind its last newline. -/
example : lineAt "a\né;\n" 3 = ⟨2, "é;\n", 1⟩ ∧ lineAt "a\né;\n" 9 = ⟨3, "", 0⟩ := by decide

end IntLang
