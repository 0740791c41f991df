import IntLang.Proofs.Error.Report
import IntLang.Proofs.Session.Failures

/-!
Reports on a source by a session whose functions were declared in it. The errors of such a session
stand at nodes of the source or at what keeps it from being read, so they mark a place in it, and
the two lines at the end of a report line up at their bars. The caret stands right below the failing
character just if each of the characters between it and the indentation takes a single byte, and too
far to the right otherwise.
-/
namespace IntLang

namespace Session

variable {s after : Session} {source file : String} {fuel : Nat} {e : Error}

def SpelledBy (source : String) (n : Node) : Prop :=
  ∃ file b, parseProgram source file = .ok b ∧ (Node.block b).Contains n

def DeclaredIn (s : Session) (source : String) : Prop :=
  s.functions.BodiesOccur (SpelledBy source)

theorem declaredIn_new (config : Config) (source : String) : (new config).DeclaredIn source := nofun

theorem SpelledBy.child {m n : Node} (h : SpelledBy source m) (hn : n ∈ m.children) :
    SpelledBy source n := by
  obtain ⟨file, b, hparse, hm⟩ := h
  exact ⟨file, b, hparse, hm.tail hn⟩

/-- A source adds no functions but its own. -/
theorem DeclaredIn.runSource (h : s.DeclaredIn source) {answer : Except Error Int64}
    (hrun : s.runSource fuel source file = some (answer, after)) : after.DeclaredIn source := by
  rcases cases_of_runSource hrun with ⟨b, hparse, hrun⟩ | ⟨e, -, -, rfl⟩
  · exact bodiesOccur_of_perform
      (blames_program SpelledBy.child s.config fuel ⟨file, b, hparse, .refl⟩) h hrun
  · exact h

theorem DeclaredIn.bodiesBegin (h : s.DeclaredIn source) :
    s.functions.BodiesOccur (Node.Begins (·.StandsOutOf source)) := by
  intro name f hf
  obtain ⟨file, b, hparse, hbody⟩ := h name f hf
  exact (begins_of_parseProgram hparse).of_contains hbody

/-- An error at a node of a source stands out of it. -/
theorem standsOut_of_standsAtNode
    (h : e.StandsAtNode s.config (Node.Begins (·.StandsOutOf source))) :
    e.position.StandsOutOf source := by
  obtain ⟨n, hbegins, hposition, hfits⟩ := h
  rw [hposition]
  exact hbegins n .refl hfits.ne_block

theorem DeclaredIn.standsOut_of_runSource (h : s.DeclaredIn source)
    (hrun : s.runSource fuel source file = some (.error e, after)) :
    e.position.StandsOutOf source := by
  rcases cases_of_runSource hrun with ⟨b, hparse, hrun⟩ | ⟨e', hparse, heq, -⟩
  · exact standsOut_of_standsAtNode (standsAtNode_of_run (fun hm hn => hm.of_contains (.single hn))
      h.bodiesBegin (begins_of_parseProgram hparse) hrun)
  · cases heq
    exact standsOut_of_parseProgram_error hparse

theorem DeclaredIn.standsOut_of_evalSource (h : s.DeclaredIn source)
    (heval : s.evalSource fuel source = some (.error e, after)) :
    e.position.StandsOutOf source := by
  rcases cases_of_evalSource heval with ⟨x, hparse, heval⟩ | ⟨e', hparse, heq, -⟩
  · exact standsOut_of_standsAtNode (standsAtNode_of_eval (fun hm hn => hm.of_contains (.single hn))
      h.bodiesBegin (begins_of_parseExpr hparse) heval)
  · cases heq
    exact standsOut_of_parseExpr_error hparse

end Session

/-- The last two lines of a report have their bars in one column, and between the bar and the caret
there are as many dashes as the line has bytes between its indentation and the error. So the caret
stands right below the failing character, or just behind the line at its end, if and only if each
of the characters between takes a single byte. This holds wherever the position is one between two
characters and not inside the indentation, as the positions of all errors are that parsing a source
reports, or running it. -/
theorem report_caret_exact (source file : String) :
    (∀ (e : Error) before after, e.Marks source before after →
      ∃ upper lower shown trimmed, e.EndsReport source file upper lower ∧
        upper = quoteLine (toString (1 + before.count '\n')).toList shown ∧
        shown ++ trimmed = leadIn before ++ firstLine after ∧
        (∀ c ∈ trimmed, isBlank c = true) ∧
        lower = caretLine (toString (1 + before.count '\n')).toList.length
          (byteLength (leadIn before)) ∧
        upper.idxOf '|' = lower.idxOf '|' ∧
        (∀ c ∈ after.head?, isBlank c = false →
          upper[upper.idxOf '|' + 2 + (leadIn before).length]? = some c) ∧
        lower.idxOf '^' = lower.idxOf '|' + 2 + byteLength (leadIn before) ∧
        (lower.idxOf '^' = upper.idxOf '|' + 2 + (leadIn before).length ↔
          ∀ c ∈ leadIn before, c.utf8Size = 1)) ∧
    (∀ e, parseProgram source file = .error e ∨ parseExpr source file = .error e →
      ∃ before after, e.Marks source before after) ∧
    (∀ config, (Session.new config).DeclaredIn source) ∧
    ∀ s : Session, s.DeclaredIn source → ∀ fuel,
      (∀ answer after, s.runSource fuel source file = some (answer, after) →
        after.DeclaredIn source ∧
          ∀ e, answer = .error e → ∃ before after, e.Marks source before after) ∧
      ∀ e after, s.evalSource fuel source = some (.error e, after) →
        ∃ before after, e.Marks source before after := by
  refine ⟨fun e before after h => ?_, ?_, (Session.declaredIn_new · source), ?_⟩
  · have hdigits : ∀ c ∈ (toString (1 + before.count '\n')).toList, c.isDigit = true :=
      fun c => isDigit_of_mem_toString
    have hshown := trimLine_append_rtakeWhile (openLine before ++ firstLine after)
    rw [h.dropWhile_isIndent] at hshown
    refine ⟨_, _, _, _, h.endsReport file, rfl, hshown, fun c => List.mem_rtakeWhile_imp, rfl, ?_⟩
    rw [idxOf_bar_quoteLine hdigits, idxOf_bar_caretLine, idxOf_caret_caretLine,
      ← byteLength_eq_length_iff]
    refine ⟨rfl, fun c hc hblank => ?_, by omega, by omega⟩
    exact (getElem?_quoteLine _ _ _).trans (h.getElem?_trimLine hc hblank)
  · rintro e (h | h)
    · exact Error.exists_marks (standsOut_of_parseProgram_error h)
    · exact Error.exists_marks (standsOut_of_parseExpr_error h)
  · intro s h fuel
    refine ⟨fun answer after hrun => ⟨h.runSource hrun, ?_⟩, fun e after heval => ?_⟩
    · rintro e rfl
      exact Error.exists_marks (h.standsOut_of_runSource hrun)
    · exact Error.exists_marks (h.standsOut_of_evalSource heval)

/-- Behind an indented line without accents the caret stands below the operand that does not fit. -/
theorem report_caret_exact_indented :
    ∃ e before after upper lower, parseExpr "1 +\n\t y x" "f" = .error e ∧
      e.Marks "1 +\n\t y x" before after ∧ e.EndsReport "1 +\n\t y x" "f" upper lower ∧
        upper[lower.idxOf '^']? = some 'x' := by
  have hparse : parseExpr "1 +\n\t y x" "f" = .error ⟨.unexpectedToken "x", ⟨"f", 8⟩⟩ :=
    eq_error_of_map (by decide +kernel)
  have hoperand : 'y' ∈ openLine "1 +\n\t y ".toList := by decide
  have hmarks : Error.Marks ⟨.unexpectedToken "x", ⟨"f", 8⟩⟩ "1 +\n\t y x" "1 +\n\t y ".toList
      ['x'] := ⟨rfl, rfl, fun h => absurd (h 'y' hoperand) (by decide)⟩
  have hbetween : leadIn "1 +\n\t y ".toList = ['y', ' '] := rfl
  obtain ⟨hcaret, -⟩ := report_caret_exact "1 +\n\t y x" "f"
  obtain ⟨upper, lower, _, _, hends, -, -, -, -, -, hfailing, -, hsame⟩ := hcaret _ _ _ hmarks
  refine ⟨_, _, _, upper, lower, hparse, hmarks, hends, ?_⟩
  rw [hbetween] at hsame
  rw [hsame.mpr (List.forall_mem_cons.mpr ⟨rfl, List.forall_mem_singleton.mpr rfl⟩)]
  exact hfailing 'x' rfl (by decide)

/-- An accent in front of the missing variable takes two bytes, and the caret stands one column
behind the variable. -/
theorem report_caret_accent :
    ∃ e after before rest upper lower,
      (Session.new .standard).runSource 20 "print(\"é\", q);" unnamedSource =
        some (.error e, after) ∧
      e.Marks "print(\"é\", q);" before rest ∧ rest.head? = some 'q' ∧
      e.EndsReport "print(\"é\", q);" unnamedSource upper lower ∧
      upper.idxOf '|' = lower.idxOf '|' ∧ upper[15]? = some 'q' ∧ lower.idxOf '^' = 16 ∧
      (leadIn before).length = 11 ∧ lower.count '-' = 12 := by
  have hends : ((Session.new .standard).runSource 20 "print(\"é\", q);" unnamedSource).map
      (fun run => run.1.map fun _ => ()) =
        some (.error ⟨.undefinedVariable "q", ⟨unnamedSource, 12⟩⟩) := by
    decide +kernel
  obtain ⟨⟨answer, after⟩, hrun, hanswer⟩ := Option.map_eq_some_iff.mp hends
  cases eq_error_of_map hanswer
  have hcall : 'p' ∈ openLine "print(\"é\", ".toList := by decide
  have hmarks : Error.Marks ⟨.undefinedVariable "q", ⟨unnamedSource, 12⟩⟩ "print(\"é\", q);"
      "print(\"é\", ".toList "q);".toList :=
    ⟨rfl, rfl, fun h => absurd (h 'p' hcall) (by decide)⟩
  refine ⟨_, _, _, _, _, _, hrun, hmarks, rfl, hmarks.endsReport unnamedSource, ?_⟩
  decide

end IntLang
