import IntLang.Proofs.Eval.Alike
import IntLang.Proofs.Eval.Depth
import IntLang.Proofs.Semantics.BigStep

/-!
Programs one after the other. A program is its beginning followed by the rest: unless the beginning
fails or returns, the rest goes on from the variables, functions and lines that it left. A run of
the rest of its own begins just there, because a run gives its counters back and stays in the
outermost scope.
-/
namespace IntLang

namespace Machine

def SameOuter (m after : Machine) : Prop := after.env.outer = m.env.outer

/-- Variables are bound in the innermost scope, and a call gives the scopes of its caller back. -/
theorem progress_sameOuter : Progress SameOuter where
  refl _ := rfl
  trans h₁ h₂ := h₂.trans h₁
  assign h := by
    obtain ⟨scope, -, rfl⟩ := Environment.exists_of_assign_eq_ok h
    rfl
  declare _ _ := rfl
  emit _ _ := rfl
  nested h := h
  called _ := rfl

end Machine

namespace Eval

/-- A computation in three steps does not depend on which two are taken together. -/
theorem bind_assoc (x : Eval α) (f : α → Eval β) (g : β → Eval γ) :
    x >>= f >>= g = x >>= fun a => f a >>= g := by
  change andThen (andThen x f) g = andThen x fun a => andThen (f a) g
  funext m
  cases hx : x m with
  | done a mid => simp only [andThen, hx]
  | failed e mid => simp only [andThen, hx]
  | outOfFuel => simp only [andThen, hx]

theorem bind_pure (x : Eval α) : (x >>= fun a => Pure.pure a) = x := by
  change andThen x ret = x
  funext m
  cases hx : x m <;> simp only [andThen, hx, ret]

/-- Executes statements at the top of a program and tells how they end and the value of the program
that they are: that of a `return`, or else of the last expression statement, or else the given
one. -/
def top (config : Config) (fuel : Nat) (last : Int64) : List Stmt → Eval (Completion × Int64)
  | [] => Pure.pure (.completed, last)
  | .expression value _ :: ss => expr config fuel value >>= fun a => top config fuel a ss
  | s :: ss => stmt config fuel s >>= fun completion =>
    match completion with
    | .completed => top config fuel last ss
    | .returned value => Pure.pure (.returned value, value)

/-- Goes on with further statements at the top, unless the ones before have returned. -/
def goOn (config : Config) (fuel : Nat) (ss : List Stmt) : Completion × Int64 → Eval Int64
  | (.completed, last) => program config fuel last ss
  | (.returned _, value) => Pure.pure value

/-- The value of a program that ends in the given way with the given value, if another value is
given for the case that there is none. -/
def valueAfter (last : Int64) (ss : List Stmt) (r : Completion × Int64) : Int64 :=
  if ss.any Stmt.isExpression ∨ r.1 ≠ .completed then r.2 else last

theorem valueAfter_returned (last value : Int64) (ss : List Stmt) :
    valueAfter last ss (.returned value, value) = value :=
  if_pos (Or.inr nofun)

variable {c : Config} {n : Nat}

/-- A statement at the top that is no expression is executed before the ones behind it. -/
theorem top_cons {s : Stmt} (hs : ∀ e span, s ≠ .expression e span) (last : Int64)
    (ss : List Stmt) :
    top c n last (s :: ss) = stmt c n s >>= fun completion =>
      match completion with
      | .completed => top c n last ss
      | .returned value => Pure.pure (.returned value, value) := by
  cases s with
  | expression e span => exact absurd rfl (hs e span)
  | _ => rfl

/-- A program goes through its beginning and then goes on with the rest. -/
theorem program_append (last : Int64) (ss rest : List Stmt) :
    program c n last (ss ++ rest) = top c n last ss >>= goOn c n rest := by
  induction ss generalizing last with
  | nil => rfl
  | cons s ss ih =>
    rw [List.cons_append]
    by_cases hexpression : ∃ e span, s = .expression e span
    · obtain ⟨e, span, rfl⟩ := hexpression
      rw [program, top, bind_assoc]
      congr 1
      funext a
      exact ih a
    · have hs : ∀ e span, s ≠ .expression e span := fun e span heq => hexpression ⟨e, span, heq⟩
      rw [program_cons hs, top_cons hs, bind_assoc]
      congr 1
      funext completion
      cases completion with
      | completed => exact ih last
      | returned value => rfl

/-- Only the value of statements at the top depends on the value given to them. -/
theorem top_eq (last : Int64) (ss : List Stmt) :
    top c n last ss =
      top c n 0 ss >>= fun r => Pure.pure (r.1, valueAfter last ss r) := by
  induction ss generalizing last with
  | nil => rfl
  | cons s ss ih =>
    by_cases hexpression : ∃ e span, s = .expression e span
    · obtain ⟨e, span, rfl⟩ := hexpression
      have hvalue : ∀ r, valueAfter last (.expression e span :: ss) r = r.2 :=
        fun r => if_pos (Or.inl rfl)
      simp only [hvalue]
      exact (bind_pure _).symm
    · have hs : ∀ e span, s ≠ .expression e span := fun e span heq => hexpression ⟨e, span, heq⟩
      have hvalue : ∀ r, valueAfter last (s :: ss) r = valueAfter last ss r := by
        intro r
        cases s with
        | expression e span => exact absurd rfl (hs e span)
        | _ => rfl
      simp only [hvalue]
      rw [top_cons hs, top_cons hs, bind_assoc]
      congr 1
      funext completion
      cases completion with
      | completed => exact ih last
      | returned value =>
        change Pure.pure _ = Pure.pure (_, valueAfter last ss _)
        rw [valueAfter_returned]

/-- A program is its statements at the top, of which the value is kept. -/
theorem program_eq_top (last : Int64) (ss : List Stmt) :
    (program c n last ss : Eval Int64) =
      top c n 0 ss >>= fun r => Pure.pure (valueAfter last ss r) := by
  rw [← List.append_nil ss, program_append, List.append_nil, top_eq, bind_assoc]
  congr 1
  funext r
  obtain ⟨completion, value⟩ := r
  cases completion <;> rfl

end Eval

namespace Session

def returnsAtTop (s : Session) (fuel : Nat) (ss : List Stmt) : Bool :=
  match Eval.top s.config fuel 0 ss s.machine with
  | .done (.returned _, _) _ => true
  | _ => false

section Run

variable {s : Session} {fuel : Nat} {ss : List Stmt} {m : Machine}

theorem run_of_done {completion : Completion} {value : Int64}
    (h : Eval.top s.config fuel 0 ss s.machine = .done (completion, value) m) (span : Span) :
    s.run fuel ⟨ss, span⟩ = some (.ok value, s.after m) := by
  refine perform_of_done ?_
  rw [← List.append_nil ss, Eval.program_append, Eval.bind_of_done h]
  cases completion <;> rfl

theorem run_of_failed {e : Error} (h : Eval.top s.config fuel 0 ss s.machine = .failed e m)
    (span : Span) : s.run fuel ⟨ss, span⟩ = some (.error e, s.after m) := by
  refine perform_of_failed ?_
  rw [Eval.program_eq_top, Eval.bind_of_failed h]

theorem run_of_outOfFuel (h : Eval.top s.config fuel 0 ss s.machine = .outOfFuel) (span : Span) :
    s.run fuel ⟨ss, span⟩ = none := by
  unfold run perform
  simp only [Eval.program_eq_top, Eval.bind_of_outOfFuel h]

/-- A run that follows another one begins on the machine that the other one has left. -/
theorem machine_after {r : Completion × Int64}
    (h : Eval.top s.config fuel 0 ss s.machine = .done r m) : (s.after m).machine = m := by
  have hprogram : ((Eval.program s.config fuel 0 ss : Eval Int64) s.machine).machine? = some m := by
    rw [Eval.program_eq_top, Eval.bind_of_done h]
    rfl
  have hdepths := (Eval.allKeepDepths s.config fuel).program 0 ss s.machine m hprogram
  have houter := ((Eval.advancing Machine.progress_sameOuter s.config).allRelated fuel).program 0
    ss s.machine m hprogram
  obtain ⟨⟨scope, outer⟩, functions, output, callDepth, nestingDepth⟩ := m
  obtain ⟨hcalls, hlevels⟩ := hdepths
  cases hcalls
  cases hlevels
  cases houter
  rfl

/-- Behind statements that have run to their end the rest goes on as a run of its own, but the last
value stays if the rest has none. -/
theorem run_append_of_completed {value : Int64}
    (h : Eval.top s.config fuel 0 ss s.machine = .done (.completed, value) m) (rest : List Stmt)
    (whole second : Span) :
    s.run fuel ⟨ss ++ rest, whole⟩ =
      ((s.after m).run fuel ⟨rest, second⟩).map fun (answer, final) =>
        (answer.map fun value' =>
          if rest.any Stmt.isExpression || (s.after m).returnsAtTop fuel rest then value' else value,
          final) := by
  have hwhole : (Eval.program s.config fuel 0 (ss ++ rest) : Eval Int64) s.machine =
      (Eval.top s.config fuel 0 rest >>= fun r => pure (Eval.valueAfter value rest r)) m := by
    rw [Eval.program_append, Eval.bind_of_done h, ← Eval.program_eq_top]
    rfl
  -- the second run begins where the first one has stopped
  have htop : Eval.top (s.after m).config fuel 0 rest (s.after m).machine =
      Eval.top s.config fuel 0 rest m := congrArg _ (machine_after h)
  cases hrest : Eval.top s.config fuel 0 rest m with
  | failed e m' =>
    rw [run_of_failed (htop.trans hrest)]
    exact perform_of_failed (hwhole.trans (Eval.bind_of_failed hrest _))
  | outOfFuel =>
    rw [run_of_outOfFuel (htop.trans hrest), run, perform]
    simp only [hwhole, Eval.bind_of_outOfFuel hrest, Option.map_none]
  | done r m' =>
    obtain ⟨completion, value'⟩ := r
    rw [run_of_done (htop.trans hrest)]
    refine (perform_of_done (hwhole.trans (Eval.bind_of_done hrest _))).trans ?_
    have hreturns : (s.after m).returnsAtTop fuel rest = decide (completion ≠ .completed) := by
      simp only [returnsAtTop, htop, hrest]
      cases completion <;> rfl
    simp only [Eval.valueAfter, hreturns, Option.map_some, Bool.or_eq_true, decide_eq_true_eq]
    rfl

end Run

/-- Running a program in pieces is running it whole. What comes behind a piece that fails or returns
is not run. Otherwise the second piece goes on where the first one has stopped, and the value is the
second one's unless it neither returns nor has an expression statement at the top. -/
theorem run_append (s : Session) (fuel : Nat) (ss rest : List Stmt) (whole first second : Span) :
    s.run fuel ⟨ss ++ rest, whole⟩ =
      match s.run fuel ⟨ss, first⟩ with
      | some (.ok value, after) =>
        if s.returnsAtTop fuel ss then some (.ok value, after)
        else
          (after.run fuel ⟨rest, second⟩).map fun (answer, final) =>
            (answer.map fun value' =>
              if rest.any Stmt.isExpression || after.returnsAtTop fuel rest then value' else value,
              final)
      | other => other := by
  cases hss : Eval.top s.config fuel 0 ss s.machine with
  | failed e m =>
    rw [run_of_failed hss]
    refine perform_of_failed ?_
    rw [Eval.program_append, Eval.bind_of_failed hss]
  | outOfFuel =>
    rw [run_of_outOfFuel hss, run, perform]
    simp only [Eval.program_append, Eval.bind_of_outOfFuel hss]
  | done r m =>
    obtain ⟨completion, value⟩ := r
    cases completion with
    | returned _ =>
      have hreturns : s.returnsAtTop fuel ss = true := by simp only [returnsAtTop, hss]
      simp only [run_of_done hss, hreturns, if_true]
      refine perform_of_done ?_
      rw [Eval.program_append, Eval.bind_of_done hss]
      rfl
    | completed =>
      have hreturns : s.returnsAtTop fuel ss = false := by simp only [returnsAtTop, hss]
      simp only [run_of_done hss, hreturns, Bool.false_eq_true, if_false]
      exact run_append_of_completed hss rest whole second

end Session

end IntLang
