import IntLang.CommandLine.Run
import IntLang.Proofs.Grammar.CorrectPrefix

/-!
Verbose runs. A verbose run makes remarks and does otherwise what the plain run does, as long as it
gets to parse the source: it reads all of the source first, so where the parser would have stopped
at an earlier error it reports what is wrong further on.
-/
namespace IntLang.CommandLine

namespace Transcript

def withoutRemarks (t : Transcript) : Transcript :=
  t.filter fun (channel, _) => channel != .remarks

theorem withoutRemarks_append (t t' : Transcript) :
    (t ++ t').withoutRemarks = t.withoutRemarks ++ t'.withoutRemarks :=
  List.filter_append ..

/-- Remarks are no complaints. -/
theorem standardError_withoutRemarks (t : Transcript) :
    t.withoutRemarks.standardError = t.standardError := by
  unfold standardError text withoutRemarks
  rw [List.filter_filter]
  congr 3
  funext ⟨channel, line⟩
  cases channel <;> rfl

end Transcript

/-- The second computation does what the first does, and at most makes remarks besides. -/
def OnlyRemarks (x y : StateM Transcript α) : Prop :=
  ∀ t, x t.withoutRemarks = ((y t).1, (y t).2.withoutRemarks)

namespace OnlyRemarks

variable {x y : StateM Transcript α}

protected theorem pure (a : α) : OnlyRemarks (pure a) (pure a) := fun _ => rfl

protected theorem bind {f g : α → StateM Transcript β} (h : OnlyRemarks x y)
    (hrest : ∀ a, OnlyRemarks (f a) (g a)) : OnlyRemarks (x >>= f) (y >>= g) := by
  intro t
  have hfirst : x t.withoutRemarks = ((y t).1, (y t).2.withoutRemarks) := h t
  calc (x >>= f) t.withoutRemarks
      = f (x t.withoutRemarks).1 (x t.withoutRemarks).2 := rfl
    _ = f (y t).1 (y t).2.withoutRemarks := by rw [hfirst]
    _ = _ := hrest _ _

end OnlyRemarks

section Recorded

variable (files : Directory) (time : String)

theorem onlyRemarks_print (line : String) :
    OnlyRemarks ((Console.recorded files time).print line)
      ((Console.recorded files time).print line) :=
  fun t => Prod.ext rfl (t.withoutRemarks_append [(.output, line)]).symm

theorem onlyRemarks_complain (line : String) :
    OnlyRemarks ((Console.recorded files time).complain line)
      ((Console.recorded files time).complain line) :=
  fun t => Prod.ext rfl (t.withoutRemarks_append [(.complaints, line)]).symm

theorem onlyRemarks_remark (line : String) :
    OnlyRemarks (pure ()) ((Console.recorded files time).remark line) := by
  intro t
  have hline : Transcript.withoutRemarks (t ++ [(Channel.remarks, line)]) =
      t.withoutRemarks ++ [] :=
    t.withoutRemarks_append [(.remarks, line)]
  rw [List.append_nil] at hline
  exact Prod.ext rfl hline.symm

theorem onlyRemarks_forM_print (lines : List String) :
    OnlyRemarks (lines.forM (Console.recorded files time).print)
      (lines.forM (Console.recorded files time).print) := by
  induction lines with
  | nil => exact .pure _
  | cons line lines ih => exact (onlyRemarks_print files time line).bind fun _ => ih

theorem onlyRemarks_reportError (source file : String) (e : Error) :
    OnlyRemarks (reportError (Console.recorded files time) source file e)
      (reportError (Console.recorded files time) source file e) :=
  (onlyRemarks_complain files time _).bind fun _ => .pure _

theorem onlyRemarks_remarkTime (what : String) (start : Nat) :
    OnlyRemarks (remarkTime (Console.recorded files time) false what start)
      (remarkTime (Console.recorded files time) true what start) :=
  onlyRemarks_remark files time _

theorem onlyRemarks_remarkResult (value : Int64) :
    OnlyRemarks (remarkResult (Console.recorded files time) false value)
      (remarkResult (Console.recorded files time) true value) :=
  onlyRemarks_remark files time _

variable (fuel : Nat) {options : Options} (source file : String) (start : Nat)

theorem onlyRemarks_runParsed (hquiet : options.verbose = false) (program : Block) :
    OnlyRemarks (runParsed (Console.recorded files time) fuel options source file start program)
      (runParsed (Console.recorded files time) fuel options.aloud source file start program) := by
  unfold runParsed
  refine (OnlyRemarks.pure 0).bind fun runStart => ?_
  rw [hquiet]
  have hconfig : options.aloud.config = options.config := rfl
  rw [hconfig]
  cases (Session.new options.config).run fuel program with
  | none => exact (onlyRemarks_complain files time _).bind fun _ => .pure _
  | some answer =>
    obtain ⟨result, session⟩ := answer
    refine (onlyRemarks_forM_print files time _).bind fun _ => ?_
    cases result with
    | error e => exact onlyRemarks_reportError files time source file e
    | ok value =>
      exact (onlyRemarks_remarkTime files time _ _).bind fun _ =>
        (onlyRemarks_remarkTime files time _ _).bind fun _ =>
          (onlyRemarks_remarkResult files time value).bind fun _ => .pure _

theorem onlyRemarks_runProgramText (hquiet : options.verbose = false) :
    OnlyRemarks (runProgramText (Console.recorded files time) fuel options source file start)
      (runProgramText (Console.recorded files time) fuel options.aloud source file start) := by
  unfold runProgramText
  refine (OnlyRemarks.pure 0).bind fun parseStart => ?_
  cases parseProgram source file with
  | error e => exact onlyRemarks_reportError files time source file e
  | ok program =>
    rw [hquiet]
    exact (onlyRemarks_remarkTime files time _ _).bind fun _ =>
      onlyRemarks_runParsed files time fuel source file start hquiet program

end Recorded

/-- Whether a source cannot be read to its end and the parser stops before it finds out. -/
def StopsEarly (source file : String) : Prop :=
  ∃ e e', tokenize source file = .error e ∧ parseProgram source file = .error e' ∧ e' ≠ e

theorem stage_of_stopsEarly {source file : String} {e e' : Error}
    (hread : tokenize source file = .error e) (hparse : parseProgram source file = .error e')
    (hne : e' ≠ e) : e'.stage = .parsing := by
  rcases cases_of_parseProgram_error hparse with hread' | hdeep | ⟨_, _, _, _, -, -, hblames, -⟩
  · rw [hread] at hread'
    exact absurd (Except.error.inj hread').symm hne
  · rw [Error.stage, hdeep]
    rfl
  · rw [Error.stage, stage_of_misfit hblames.misfit]

/-- The name of an error in reading and that of an error of the parser differ before either ends. -/
theorem not_prefix_name {c c' : Cause} (h : c.stage = .lexing) (h' : c'.stage = .parsing) :
    ¬c.name.toList <+: c'.name.toList ∧ ¬c'.name.toList <+: c.name.toList := by
  cases c <;> cases h <;> cases c' <;> cases h' <;> simp only [Cause.name] <;> decide

/-- A report begins with the name of the cause. -/
theorem exists_report_eq (e : Error) (source file : String) :
    ∃ rest, e.report source file = "Error: " ++ (e.cause.name ++ rest) := by
  unfold Error.report Error.headline
  dsimp only
  cases e.cause.tip with
  | none => exact ⟨_, by simp only [String.append_assoc]; rfl⟩
  | some tip => exact ⟨_, by simp only [String.append_assoc]; rfl⟩

/-- The report of an error in reading a source is not that of an error of the parser. -/
theorem report_ne {e e' : Error} (h : e.stage = .lexing) (h' : e'.stage = .parsing)
    (source file : String) : e'.report source file ≠ e.report source file := by
  obtain ⟨rest, hrest⟩ := exists_report_eq e source file
  obtain ⟨rest', hrest'⟩ := exists_report_eq e' source file
  intro heq
  rw [hrest, hrest', String.append_right_inj] at heq
  have hchars := congrArg String.toList heq
  rw [String.toList_append, String.toList_append] at hchars
  obtain ⟨hnot, hnot'⟩ := not_prefix_name h h'
  -- both names begin the same text, so one of them begins the other
  rcases List.prefix_or_prefix_of_prefix (List.prefix_append ..)
    (hchars ▸ List.prefix_append e'.cause.name.toList rest'.toList) with hbegins | hbegins
  · exact hnot hbegins
  · exact hnot' hbegins

section Runs

variable (files : Directory) (time : String) (fuel : Nat) {options : Options}
  {source file : String}

theorem runText_of_quiet (hquiet : options.verbose = false) :
    runText (.recorded files time) fuel options source file =
      runProgramText (.recorded files time) fuel options source file 0 := by
  unfold runText
  rw [hquiet]
  rfl

/-- If a source cannot be read to its end, a plain run reports the error of the parser and a verbose
run the one that reading ends with. -/
theorem runText_of_tokenize_error (hquiet : options.verbose = false) {e e' : Error}
    (hread : tokenize source file = .error e) (hparse : parseProgram source file = .error e') :
    runText (.recorded files time) fuel options source file =
        reportError (.recorded files time) source file e' ∧
      runText (.recorded files time) fuel options.aloud source file =
        reportError (.recorded files time) source file e := by
  constructor
  · rw [runText_of_quiet files time fuel hquiet]
    unfold runProgramText
    rw [hparse]
    rfl
  · unfold runText
    rw [hread]
    rfl

theorem onlyRemarks_runText (hquiet : options.verbose = false) (h : ¬StopsEarly source file) :
    OnlyRemarks (runText (.recorded files time) fuel options source file)
      (runText (.recorded files time) fuel options.aloud source file) := by
  cases hread : tokenize source file with
  | ok tokens =>
    have hloud : runText (.recorded files time) fuel options.aloud source file = (do
        (Console.recorded files time).remark
          ("Tokenized " ++ toString tokens.length ++ " tokens in " ++ time)
        runProgramText (.recorded files time) fuel options.aloud source file 0) := by
      unfold runText
      rw [hread]
      rfl
    rw [runText_of_quiet files time fuel hquiet, hloud]
    exact (onlyRemarks_remark files time _).bind fun _ =>
      onlyRemarks_runProgramText files time fuel source file 0 hquiet
  | error e =>
    obtain ⟨e', hparse⟩ := exists_parseProgram_error hread
    obtain rfl : e' = e := by
      by_contra hne
      exact h ⟨e, e', hread, hparse, hne⟩
    obtain ⟨hplain, hloud⟩ := runText_of_tokenize_error files time fuel hquiet hread hparse
    rw [hplain, hloud]
    exact onlyRemarks_reportError files time source file e'

end Runs

def Options.input (o : Options) (files : Directory) : Option (String × String) :=
  if o.inline then some (o.contents, "<inline>")
  else (files.read o.contents).map fun source => (source, fileName o.contents)

def recordedRun (files : Directory) (time : String) (fuel : Nat) (options : Options) :
    UInt32 × Transcript :=
  carryOut (.recorded files time) fuel options []

section Executions

variable {options : Options} (files : Directory) (time : String) (fuel : Nat)

theorem recordedRun_eq (hprogram : options.emitStack = false) :
    recordedRun files time fuel options =
      match options.input files with
      | some (source, file) => runText (.recorded files time) fuel options source file []
      | none => (1, [(.complaints, "Failed to read the input file '" ++ options.contents ++
          "'. Perhaps this file does not exist?")]) := by
  have hperform (source file : String) :
      perform (Console.recorded files time) fuel options source file =
        runText (.recorded files time) fuel options source file := by
    unfold perform
    rw [hprogram]
    rfl
  have hread (f : Option String → StateM Transcript UInt32) :
      (Console.recorded files time).readFile options.contents >>= f =
        f (files.read options.contents) := rfl
  unfold recordedRun carryOut Options.input
  split
  · rw [hperform]
  · rw [hread]
    cases files.read options.contents with
    | none => rfl
    | some source => exact congrFun (hperform ..) []

theorem standardError_complaint (line : String) :
    Transcript.standardError [(.complaints, line)] = line ++ "\n" := by
  simp [Transcript.standardError, Transcript.text]

/-- On a source that cannot be read to its end a plain run writes the report of the parser's error,
and a verbose run that of the error that reading ends with. -/
theorem recordedRun_of_tokenize_error (hquiet : options.verbose = false)
    (hprogram : options.emitStack = false) {source file : String}
    (hsource : options.input files = some (source, file)) {e e' : Error}
    (hread : tokenize source file = .error e) (hparse : parseProgram source file = .error e') :
    recordedRun files time fuel options = (1, [(.complaints, e'.report source file)]) ∧
      recordedRun files time fuel options.aloud = (1, [(.complaints, e.report source file)]) := by
  have hloud : options.aloud.emitStack = false := hprogram
  have hinput : options.aloud.input files = some (source, file) := hsource
  obtain ⟨hplain, hverbose⟩ := runText_of_tokenize_error files time fuel hquiet hread hparse
  rw [recordedRun_eq files time fuel hprogram, recordedRun_eq files time fuel hloud, hsource,
    hinput]
  exact ⟨congrFun hplain [], congrFun hverbose []⟩

/-- What a plain and a verbose run on one source write differs in remarks, or each writes the report
of an error of its own. -/
theorem recordedRun_cases (hquiet : options.verbose = false)
    (hprogram : options.emitStack = false) :
    ((∀ source file, options.input files = some (source, file) → ¬StopsEarly source file) ∧
      recordedRun files time fuel options =
        ((recordedRun files time fuel options.aloud).1,
          (recordedRun files time fuel options.aloud).2.withoutRemarks)) ∨
      ∃ source file line line', options.input files = some (source, file) ∧ StopsEarly source file ∧
        line ≠ line' ∧ recordedRun files time fuel options = (1, [(.complaints, line)]) ∧
        recordedRun files time fuel options.aloud = (1, [(.complaints, line')]) := by
  have hloud : options.aloud.emitStack = false := hprogram
  have hinput : options.aloud.input files = options.input files := rfl
  cases hsource : options.input files with
  | none =>
    rw [recordedRun_eq files time fuel hprogram, recordedRun_eq files time fuel hloud, hinput,
      hsource]
    exact Or.inl ⟨nofun, rfl⟩
  | some named =>
    obtain ⟨source, file⟩ := named
    by_cases hstops : StopsEarly source file
    · obtain ⟨e, e', hread, hparse, hne⟩ := hstops
      obtain ⟨hplain, hverbose⟩ :=
        recordedRun_of_tokenize_error files time fuel hquiet hprogram hsource hread hparse
      refine Or.inr ⟨source, file, e'.report source file, e.report source file, rfl,
        ⟨e, e', hread, hparse, hne⟩, ?_, hplain, hverbose⟩
      exact report_ne (stage_of_tokenize_error hread) (stage_of_stopsEarly hread hparse hne) _ _
    · rw [recordedRun_eq files time fuel hprogram, recordedRun_eq files time fuel hloud, hinput,
        hsource]
      refine Or.inl ⟨?_, onlyRemarks_runText files time fuel hquiet hstops []⟩
      rintro _ _ ⟨⟩
      exact hstops

/-- A verbose run observes: it ends with the exit code of the plain run, and its output is, but for
its remarks, that of the plain run. What the two report differs only where the parser stops early in
a source that cannot be read to its end: the plain run then reports the error of the parser and the
verbose run the one that reading ends with. -/
theorem recordedRun_verbose (hquiet : options.verbose = false)
    (hprogram : options.emitStack = false) :
    (recordedRun files time fuel options).1 = (recordedRun files time fuel options.aloud).1 ∧
      (recordedRun files time fuel options).2.standardOutput =
        (recordedRun files time fuel options.aloud).2.withoutRemarks.standardOutput ∧
      ((recordedRun files time fuel options).2.standardError =
          (recordedRun files time fuel options.aloud).2.standardError ↔
        ∀ source file, options.input files = some (source, file) → ¬StopsEarly source file) ∧
      ∀ source file e e', options.input files = some (source, file) →
        tokenize source file = .error e → parseProgram source file = .error e' →
          (recordedRun files time fuel options).2.standardError = e'.report source file ++ "\n" ∧
          (recordedRun files time fuel options.aloud).2.standardError =
            e.report source file ++ "\n" := by
  have hreports : ∀ source file e e', options.input files = some (source, file) →
      tokenize source file = .error e → parseProgram source file = .error e' →
        (recordedRun files time fuel options).2.standardError = e'.report source file ++ "\n" ∧
        (recordedRun files time fuel options.aloud).2.standardError =
          e.report source file ++ "\n" := by
    intro source file e e' hsource hread hparse
    obtain ⟨hplain, hverbose⟩ :=
      recordedRun_of_tokenize_error files time fuel hquiet hprogram hsource hread hparse
    rw [hplain, hverbose]
    exact ⟨standardError_complaint _, standardError_complaint _⟩
  rcases recordedRun_cases files time fuel hquiet hprogram with
    ⟨hstops, hruns⟩ | ⟨source, file, line, line', hsource, hstops, hne, hplain, hverbose⟩
  · refine ⟨by rw [hruns], by rw [hruns], ⟨fun _ => hstops, fun _ => ?_⟩, hreports⟩
    rw [hruns, Transcript.standardError_withoutRemarks]
  · refine ⟨by rw [hplain, hverbose], by rw [hplain, hverbose]; rfl, ⟨fun heq => ?_, fun h => ?_⟩,
      hreports⟩
    · rw [hplain, hverbose, standardError_complaint, standardError_complaint,
        String.append_left_inj] at heq
      exact absurd heq hne
    · exact absurd hstops (h source file hsource)

/-- A program in a file that prints and then fails. -/
theorem recordedRun_verbose_failing :
    (recordedRun [("p.ml", "print(2); x;")] "" 40 ⟨false, false, true, .standard, "p.ml"⟩).1 = 1 ∧
      (recordedRun [("p.ml", "print(2); x;")] "" 40
        ⟨false, false, true, .standard, "p.ml"⟩).2.withoutRemarks.standardOutput = "2\n" ∧
      (recordedRun [("p.ml", "print(2); x;")] "" 40
          ⟨false, false, false, .standard, "p.ml"⟩).2.standardError =
        (recordedRun [("p.ml", "print(2); x;")] "" 40
          ⟨false, false, true, .standard, "p.ml"⟩).2.standardError := by
  have hplain : (recordedRun [("p.ml", "print(2); x;")] "" 40
        ⟨false, false, false, .standard, "p.ml"⟩).1 = 1 ∧
      (recordedRun [("p.ml", "print(2); x;")] "" 40
        ⟨false, false, false, .standard, "p.ml"⟩).2.standardOutput = "2\n" := by
    decide +kernel
  have hinput : Options.input ⟨false, false, false, .standard, "p.ml"⟩ [("p.ml", "print(2); x;")] =
      some ("print(2); x;", "p.ml") := by decide +kernel
  have hread : (tokenize "print(2); x;" "p.ml").isOk = true := by decide +kernel
  have hquiet : Options.verbose ⟨false, false, false, .standard, "p.ml"⟩ = false := rfl
  obtain ⟨hcode, houtput, hreports, -⟩ :=
    recordedRun_verbose [("p.ml", "print(2); x;")] "" 40 hquiet rfl
  refine ⟨hcode ▸ hplain.1, houtput ▸ hplain.2, hreports.mpr ?_⟩
  rintro source file hsource ⟨e, _, herror, -⟩
  rw [hinput] at hsource
  cases hsource
  rw [herror] at hread
  cases hread

/-- Behind two operands in a row a character at which no token begins: the plain run reports the
second operand, the verbose run the character. -/
theorem recordedRun_verbose_twoOperands :
    (recordedRun [] "" 40 ⟨true, false, false, .standard, "1 2 $"⟩).2.standardError =
        "Error: UnexpectedToken (Unexpected token: `2`, did you miss a semicolon?)\n" ++
          "-> <inline>\n  |\n1 | 1 2 $\n  | --^\n" ∧
      (recordedRun [] "" 40 ⟨true, false, true, .standard, "1 2 $"⟩).2.standardError =
        "Error: UnrecognisedToken\n-> <inline>\n  |\n1 | 1 2 $\n  | ----^\n" ∧
      (recordedRun [] "" 40 ⟨true, false, false, .standard, "1 2 $"⟩).2.standardError ≠
        (recordedRun [] "" 40 ⟨true, false, true, .standard, "1 2 $"⟩).2.standardError := by
  have hparse : parseProgram "1 2 $" "<inline>" = .error ⟨.unexpectedToken "2", ⟨"<inline>", 2⟩⟩ :=
    eq_error_of_map (by decide +kernel)
  have hread : tokenize "1 2 $" "<inline>" =
      .error ⟨.unrecognisedCharacter "$", ⟨"<inline>", 4⟩⟩ := by
    decide +kernel
  have hquiet : Options.verbose ⟨true, false, false, .standard, "1 2 $"⟩ = false := rfl
  obtain ⟨hplain, hverbose⟩ :=
    recordedRun_of_tokenize_error [] "" 40 hquiet rfl rfl hread hparse
  have hsecond : (recordedRun [] "" 40 ⟨true, false, false, .standard, "1 2 $"⟩).2.standardError =
      "Error: UnexpectedToken (Unexpected token: `2`, did you miss a semicolon?)\n" ++
        "-> <inline>\n  |\n1 | 1 2 $\n  | --^\n" := by
    rw [hplain, standardError_complaint]
    rfl
  have hcharacter : (recordedRun [] "" 40 ⟨true, false, true, .standard, "1 2 $"⟩).2.standardError =
      "Error: UnrecognisedToken\n-> <inline>\n  |\n1 | 1 2 $\n  | ----^\n" := by
    have hlines : (recordedRun [] "" 40 ⟨true, false, true, .standard, "1 2 $"⟩).2 = [_] :=
      congrArg Prod.snd hverbose
    rw [hlines, standardError_complaint]
    rfl
  refine ⟨hsecond, hcharacter, ?_⟩
  rw [hsecond, hcharacter]
  decide

end Executions

end IntLang.CommandLine
