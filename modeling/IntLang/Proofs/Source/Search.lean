import IntLang.Proofs.Source.Line

/-!
Looking up a line by going through them. A search that keeps count of the bytes it has passed stops
at the line with the offset in it. No line holds the end of a text, and there the search falls back:
behind a final newline to an empty line, and otherwise to the end of the line it has passed last.
-/
namespace IntLang

/-- The lines of a text, each with its newline, but without an empty one at the end. -/
def inclusiveLines : List Char → List (List Char)
  | [] => []
  | c :: cs =>
    if c = '\n' then [c] :: inclusiveLines cs
    else
      match inclusiveLines cs with
      | [] => [[c]]
      | line :: lines => (c :: line) :: lines

/-- Goes through lines, of which the first has a number and begins at a byte. Without any it falls
back to the line with the next number if a newline is at the end, and else to the last one. -/
def searchLines (pos : Nat) (newlineLast : Bool) (start number : Nat) (last : Line) :
    List (List Char) → Line
  | [] => if newlineLast then ⟨number, "", 0⟩ else last
  | line :: lines =>
    if start ≤ pos ∧ pos < start + byteLength line then
      ⟨number, String.ofList line, pos - start⟩
    else
      searchLines pos newlineLast (start + byteLength line) (number + 1)
        ⟨number, String.ofList line, byteLength (line.rdropWhile (· = '\n'))⟩ lines

section Search

variable {body : List Char}

theorem inclusiveLines_of_notMem (h : '\n' ∉ body) (hne : body ≠ []) :
    inclusiveLines body = [body] := by
  induction body with
  | nil => exact absurd rfl hne
  | cons c body ih =>
    obtain ⟨hc, hbody⟩ := not_or.mp (mt List.mem_cons.mpr h)
    cases body with
    | nil => rw [inclusiveLines, if_neg (Ne.symm hc), inclusiveLines]
    | cons d body =>
      rw [inclusiveLines, if_neg (Ne.symm hc), ih hbody (List.cons_ne_nil _ _)]

theorem inclusiveLines_append_newline (h : '\n' ∉ body) (rest : List Char) :
    inclusiveLines (body ++ '\n' :: rest) = (body ++ ['\n']) :: inclusiveLines rest := by
  induction body with
  | nil => rfl
  | cons c body ih =>
    obtain ⟨hc, hbody⟩ := not_or.mp (mt List.mem_cons.mpr h)
    rw [List.cons_append, inclusiveLines, if_neg (Ne.symm hc), ih hbody]
    rfl

/-- A line is found in the rest of a text as it is among all the lines of the rest. -/
theorem searchLines_inclusiveLines {cs : List Char} {pos start : Nat} (hne : cs ≠ [])
    (hstart : start ≤ pos) (hend : pos ≤ start + byteLength cs) (number : Nat) (last : Line) :
    searchLines pos (cs.getLast? = some '\n') start number last (inclusiveLines cs) =
      locate number (pos - start) (splitLines cs) := by
  by_cases hnewline : '\n' ∈ cs
  · obtain ⟨body, rest, rfl, hbody⟩ := List.eq_append_cons_of_mem hnewline
    have hlength : byteLength (body ++ ['\n']) = byteLength body + 1 := byteLength_append ..
    have htotal : byteLength (body ++ '\n' :: rest) = byteLength body + (1 + byteLength rest) :=
      byteLength_append ..
    rw [inclusiveLines_append_newline hbody, locate_splitLines_append_newline hbody,
      searchLines, hlength]
    by_cases hfirst : pos - start ≤ byteLength body
    · rw [if_pos ⟨hstart, by omega⟩, if_pos hfirst]
    · rw [if_neg (by omega), if_neg hfirst]
      cases rest with
      | nil =>
        -- behind the final newline there is nothing but the end
        have hoffset : pos - start - (byteLength body + 1) = 0 := by
          rw [byteLength_nil] at htotal
          omega
        simp only [List.getLast?_concat, hoffset, inclusiveLines, searchLines, splitLines, locate,
          decide_true, if_true, String.ofList_nil]
      | cons c rest =>
        have hlast : (body ++ '\n' :: c :: rest).getLast? = (c :: rest).getLast? := by
          rw [List.getLast?_append_cons, List.getLast?_cons_cons]
        have hoffset : pos - start - (byteLength body + 1) =
            pos - (start + (byteLength body + 1)) := by omega
        rw [hlast, hoffset]
        exact searchLines_inclusiveLines (List.cons_ne_nil c rest) (by omega) (by omega) _ _
  · have hlast : cs.getLast? ≠ some '\n' := fun h => hnewline (List.mem_of_getLast? h)
    have htrim : cs.rdropWhile (· = '\n') = cs := by
      refine List.rdropWhile_eq_self_iff.mpr fun hne h => hlast ?_
      rw [List.getLast?_eq_some_getLast hne]
      simpa using h
    rw [inclusiveLines_of_notMem hnewline hne, splitLines_of_notMem hnewline, searchLines,
      searchLines, htrim, locate]
    by_cases hinside : pos < start + byteLength cs
    · rw [if_pos ⟨hstart, hinside⟩]
    · have hcolumn : byteLength cs = pos - start := by omega
      rw [if_neg fun h => hinside h.2, hcolumn]
      simp only [hlast, decide_false, Bool.false_eq_true, if_false]
termination_by cs.length
decreasing_by
  subst_vars
  simp only [List.length_append, List.length_cons]
  omega

end Search

/-- The line that holds a byte offset of a text is the one that a search from the first line
finds. -/
theorem lineAt_eq_searchLines (text : String) (offset : Nat) :
    lineAt text offset =
      searchLines (min offset (byteLength text.toList)) (text.toList.getLast? = some '\n') 0 1
        ⟨1, "", 0⟩ (inclusiveLines text.toList) := by
  unfold lineAt
  generalize text.toList = cs
  cases cs with
  | nil =>
    simp only [byteLength_nil, Nat.min_zero]
    rfl
  | cons c cs =>
    have hend : min offset (byteLength (c :: cs)) ≤ 0 + byteLength (c :: cs) := by omega
    exact (searchLines_inclusiveLines (List.cons_ne_nil c cs) (Nat.zero_le _) hend 1 _).symm

end IntLang
