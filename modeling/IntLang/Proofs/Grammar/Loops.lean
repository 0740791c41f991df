import IntLang.Grammar.Stmt
import IntLang.Proofs.Grammar.Steps
import IntLang.Proofs.Loop.Basic

/-!
The loops of the readers. An expression goes on operator by operator and a block statement by
statement, as long as the current token lets it; arguments and parameters go on as long as a comma
stands behind the last one. The readers are given a number of rounds beforehand. The loops here
have no such number; a reader does what its loop does within that many rounds.
-/
namespace IntLang.Parse

section Behind

variable {σ α : Type}

def behind (read : List α) : EStateM.Result Error σ (List α) → EStateM.Result Error σ (List α)
  | .ok more u => .ok (read ++ more) u
  | .error e u => .error e u

theorem behind_nil (r : EStateM.Result Error σ (List α)) : behind [] r = r := by
  cases r <;> rfl

theorem behind_pure_nil (read : List α) (s : σ) :
    behind read ((pure [] : ParseOn σ (List α)) s) = .ok read s :=
  congrArg (EStateM.Result.ok · s) (List.append_nil read)

theorem behind_cons (read : List α) (a : α) (x : ParseOn σ (List α)) (s : σ) :
    behind read ((x >>= fun more => pure (a :: more)) s) = behind (read ++ [a]) (x s) := by
  cases h : x s with
  | error e u =>
    rw [bind_of_error h]
    rfl
  | ok more u =>
    rw [bind_of_ok h, behind, List.append_assoc, List.singleton_append]
    rfl

end Behind

variable {σ : Type} [TokenSource σ] {β : Type}

theorem peek_bind_current (f : Token → ParseOn σ β) (s : σ) :
    (peek >>= f) s = f (TokenSource.current s) s := rfl

theorem rounds_bind_current (f : Nat → ParseOn σ β) (s : σ) :
    (rounds >>= f) s = f (TokenSource.ahead s + 1) s := rfl

def comma : ParseOn σ Bool := do
  if (← peek).kind = .comma then
    let _ ← advance
    pure true
  else pure false

theorem comma_eq_ok_iff {s u : σ} {more : Bool} :
    comma s = .ok more u ↔
      (TokenSource.current s).kind = .comma ∧ more = true ∧ (∃ t, advance s = .ok t u) ∨
        (TokenSource.current s).kind ≠ .comma ∧ more = false ∧ u = s := by
  unfold comma
  rw [peek_bind_current]
  by_cases hcomma : (TokenSource.current s).kind = .comma
  · simp only [hcomma, if_true, bind_eq_ok_iff, pure_eq_ok_iff, ne_eq, not_true_eq_false,
      false_and, or_false, true_and]
    constructor
    · rintro ⟨t, v, hadvance, rfl, rfl⟩
      exact ⟨rfl, t, hadvance⟩
    · rintro ⟨rfl, t, hadvance⟩
      exact ⟨t, u, hadvance, rfl, rfl⟩
  · simp only [hcomma, if_false, pure_eq_ok_iff, ne_eq, not_false_eq_true, false_and, false_or,
      true_and]
    constructor
    · rintro ⟨rfl, rfl⟩
      exact ⟨rfl, rfl⟩
    · rintro ⟨rfl, rfl⟩
      exact ⟨rfl, rfl⟩

/-- What goes on behind a comma and what comes to an end without one. -/
theorem comma_bind (more last : ParseOn σ β) (s : σ) :
    (peek >>= fun t => if t.kind = .comma then advance >>= fun _ => more else last) s =
      (comma >>= fun follows => if follows then more else last) s := by
  rw [peek_bind_current]
  by_cases hcomma : (TokenSource.current s).kind = .comma
  · rw [if_pos hcomma]
    cases hadvance : advance s with
    | error e u =>
      have hfollows : comma s = .error e u := by
        unfold comma
        rw [peek_bind_current, if_pos hcomma, bind_of_error hadvance]
      rw [bind_of_error hadvance, bind_of_error hfollows]
    | ok t u =>
      have hfollows : comma s = .ok true u := comma_eq_ok_iff.mpr (.inl ⟨hcomma, rfl, t, hadvance⟩)
      rw [bind_of_ok hadvance, bind_of_ok hfollows, if_pos rfl]
  · have hfollows : comma s = .ok false s := comma_eq_ok_iff.mpr (.inr ⟨hcomma, rfl, rfl⟩)
    rw [if_neg hcomma, bind_of_ok hfollows, if_neg Bool.false_ne_true]

def operatorLoop (rules : Rules) (sub : BindingPower → ParseOn σ Expr) (power : BindingPower) :
    Loop σ Expr Expr where
  goesOn _ s := (rules.power (TokenSource.current s).kind).tighter power
  round left := do
    let kind := (← peek).kind
    if rules.joins kind then binary sub left (rules.power kind) else unexpected
  value := id

def stmtLoop (ends : TokenKind → Bool) (inner : ParseOn σ Stmt) :
    Loop σ (List Stmt) (List Stmt) where
  goesOn _ s := !ends (TokenSource.current s).kind
  round read := do
    let next ← inner
    pure (read ++ [next])
  value := id

/-- The loop over arguments. It has gathered whether another one follows and those read so far. -/
def argumentLoop (sub : BindingPower → ParseOn σ Expr) :
    Loop σ (Bool × List Expr) (List Expr) where
  goesOn gathered _ := gathered.1
  round gathered := do
    let next ← sub .lowest
    let follows ← comma
    pure (follows, gathered.2 ++ [next])
  value := Prod.snd

def parameterLoop : Loop σ (Bool × List String) (List String) where
  goesOn gathered _ := gathered.1
  round gathered := do
    let name ← expect .identifier
    if gathered.2.contains name.text then
      throw ⟨.misplacedToken name.text "duplicate parameter name", name.position⟩
    else
      let follows ← comma
      pure (follows, gathered.2 ++ [name.text])
  value := Prod.snd

variable {sub : BindingPower → ParseOn σ Expr} {inner : ParseOn σ Stmt} {s : σ}

section Operators

variable {rules : Rules} {power : BindingPower} {left : Expr}

theorem round_operatorLoop_of_joins (h : rules.joins (TokenSource.current s).kind = true) :
    (operatorLoop rules sub power).round left s =
      binary sub left (rules.power (TokenSource.current s).kind) s :=
  congrFun (if_pos h) s

theorem round_operatorLoop_of_stray (h : ¬rules.joins (TokenSource.current s).kind = true) :
    (operatorLoop rules sub power).round left s = .error (TokenSource.current s).unexpected s :=
  congrFun (if_neg h) s

/-- Operators are read by their loop. -/
theorem operatorRounds_eq_bounded (n : Nat) (left : Expr) (s : σ) :
    operatorRounds rules sub power n left s =
      (operatorLoop rules sub power).bounded n left s := by
  induction n generalizing left s with
  | zero => rfl
  | succ n ih =>
    rw [operatorRounds, peek_bind_current]
    by_cases hgoes : (rules.power (TokenSource.current s).kind).tighter power = true
    · rw [if_pos hgoes]
      by_cases hjoins : rules.joins (TokenSource.current s).kind = true
      · rw [if_pos hjoins]
        cases hbinary : binary sub left (rules.power (TokenSource.current s).kind) s with
        | error e u =>
          have hround : (operatorLoop rules sub power).round left s = .error e u :=
            (round_operatorLoop_of_joins hjoins).trans hbinary
          rw [bind_of_error hbinary, Loop.bounded_of_error hgoes hround]
        | ok joined u =>
          have hround : (operatorLoop rules sub power).round left s = .ok joined u :=
            (round_operatorLoop_of_joins hjoins).trans hbinary
          rw [bind_of_ok hbinary, Loop.bounded_of_ok hgoes hround, ih]
      · rw [if_neg hjoins, Loop.bounded_of_error hgoes (round_operatorLoop_of_stray hjoins)]
        rfl
    · rw [if_neg hgoes, Loop.bounded_of_stopped (Bool.eq_false_iff.mpr hgoes)]
      rfl

end Operators

section Statements

variable {ends : TokenKind → Bool}

theorem behind_stmtsUntil (read : List Stmt) (n : Nat) (s : σ) :
    behind read (stmtsUntil ends inner n s) = (stmtLoop ends inner).bounded n read s := by
  induction n generalizing read s with
  | zero => exact behind_pure_nil read s
  | succ n ih =>
    rw [stmtsUntil, peek_bind_current]
    by_cases hend : ends (TokenSource.current s).kind = true
    · have hstopped : (stmtLoop ends inner).goesOn read s = false := by
        simp only [stmtLoop, hend, Bool.not_true]
      rw [if_pos hend, Loop.bounded_of_stopped hstopped, behind_pure_nil]
      rfl
    · have hgoes : (stmtLoop ends inner).goesOn read s = true := by
        simp only [stmtLoop, hend, Bool.not_false]
      rw [if_neg hend]
      cases hnext : inner s with
      | error e u =>
        have hround : (stmtLoop ends inner).round read s = .error e u := bind_of_error hnext _
        rw [bind_of_error hnext, Loop.bounded_of_error hgoes hround]
        rfl
      | ok next u =>
        have hround : (stmtLoop ends inner).round read s = .ok (read ++ [next]) u :=
          bind_of_ok hnext _
        rw [bind_of_ok hnext, Loop.bounded_of_ok hgoes hround, behind_cons, ih]

/-- Statements are read by their loop. -/
theorem stmtsUntil_eq_bounded (n : Nat) (s : σ) :
    stmtsUntil ends inner n s = (stmtLoop ends inner).bounded n [] s :=
  (behind_nil _).symm.trans (behind_stmtsUntil [] n s)

end Statements

section Lists

theorem behind_argumentRounds (read : List Expr) (n : Nat) (s : σ) :
    behind read (argumentRounds sub n s) = (argumentLoop sub).bounded n (true, read) s := by
  induction n generalizing read s with
  | zero => exact behind_pure_nil read s
  | succ n ih =>
    rw [argumentRounds]
    cases hnext : sub .lowest s with
    | error e u =>
      have hround : (argumentLoop sub).round (true, read) s = .error e u := bind_of_error hnext _
      rw [bind_of_error hnext, Loop.bounded_of_error rfl hround]
      rfl
    | ok next u =>
      have hround : (argumentLoop sub).round (true, read) s =
          (comma >>= fun follows => pure (follows, read ++ [next])) u := bind_of_ok hnext _
      rw [bind_of_ok hnext, comma_bind]
      cases hcomma : comma u with
      | error e v =>
        rw [bind_of_error hcomma] at hround ⊢
        rw [Loop.bounded_of_error rfl hround]
        rfl
      | ok follows v =>
        rw [bind_of_ok hcomma] at hround ⊢
        rw [Loop.bounded_of_ok rfl hround]
        cases follows with
        | true => rw [if_pos rfl, behind_cons, ih]
        | false =>
          rw [if_neg Bool.false_ne_true, Loop.bounded_of_stopped rfl]
          rfl

/-- Arguments are read by their loop. -/
theorem argumentRounds_eq_bounded (n : Nat) (s : σ) :
    argumentRounds sub n s = (argumentLoop sub).bounded n (true, []) s :=
  (behind_nil _).symm.trans (behind_argumentRounds [] n s)

/-- The names of parameters are read by their loop. -/
theorem parameterRounds_eq_bounded (n : Nat) (names : List String) (s : σ) :
    parameterRounds n names s = parameterLoop.bounded n (true, names) s := by
  induction n generalizing names s with
  | zero => rfl
  | succ n ih =>
    rw [parameterRounds]
    cases hname : expect .identifier s with
    | error e u =>
      have hround : parameterLoop.round (true, names) s = .error e u := bind_of_error hname _
      rw [bind_of_error hname, Loop.bounded_of_error rfl hround]
    | ok name u =>
      have hround := bind_of_ok hname fun name => if names.contains name.text then
          throw ⟨.misplacedToken name.text "duplicate parameter name", name.position⟩
        else comma >>= fun follows => pure (follows, names ++ [name.text])
      change parameterLoop.round (true, names) s = _ at hround
      rw [bind_of_ok hname]
      by_cases hmem : names.contains name.text = true
      · rw [if_pos hmem] at hround ⊢
        rw [Loop.bounded_of_error rfl hround]
        rfl
      · rw [if_neg hmem] at hround ⊢
        rw [comma_bind]
        cases hcomma : comma u with
        | error e v =>
          rw [bind_of_error hcomma] at hround ⊢
          rw [Loop.bounded_of_error rfl hround]
        | ok follows v =>
          rw [bind_of_ok hcomma] at hround ⊢
          rw [Loop.bounded_of_ok rfl hround]
          cases follows with
          | true => rw [if_pos rfl, ih]
          | false =>
            rw [if_neg Bool.false_ne_true, Loop.bounded_of_stopped rfl]
            rfl

end Lists

end IntLang.Parse
