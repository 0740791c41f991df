import IntLang.Proofs.Grammar.Parts
import IntLang.Proofs.Grammar.Room
import IntLang.Proofs.Session.Consecutive
import IntLang.Proofs.Token.Appended

/-!
An expression on its own and as a program. With a semicolon on a further line a source that is an
expression becomes a program of one statement, and the two are the same for the parser and for a
session. Only, as a statement an expression stands one level further in, unless it begins with an
identifier; so at the limit it is accepted on its own and too deep as a program.
-/
namespace IntLang

namespace Grammar

open Parse TokenStream

variable {last : Token} {ts : List Token} {source file : String} {e : Expr}

/-- A statement that takes up all tokens is the program. -/
theorem program_front_of_ok {s : Stmt} (hfirst : (front last ts).current.kind ≠ .endOfSource)
    (hlast : last.kind = .endOfSource)
    (h : stmt .standard maxDepth (front last ts) = .ok s (front last [])) :
    Parse.program (front last ts) =
      .ok ⟨[s], ⟨last.span.file, 0, last.span.start⟩⟩ (front last []) := by
  have hgo : ¬decide ((front last ts).current.kind = .endOfSource) = true := by simpa using hfirst
  have hend : decide ((front last []).current.kind = .endOfSource) = true := decide_eq_true hlast
  have hbody : ∀ n, stmtsUntil (· = .endOfSource) (stmt .standard maxDepth) (n + 1)
      (front last ts) = .ok [s] (front last []) := by
    intro n
    rw [stmtsUntil, peek_bind, if_neg hgo, bind_of_ok h, bind_of_ok (stmtsUntil_of_ends hend _ n)]
    rfl
  rw [Parse.program, rounds_bind, bind_of_ok (hbody _)]
  rfl

theorem program_front_of_error {error : Error} {u : TokenStream}
    (hfirst : (front last ts).current.kind ≠ .endOfSource)
    (h : stmt .standard maxDepth (front last ts) = .error error u) :
    Parse.program (front last ts) = .error error u := by
  have hgo : ¬decide ((front last ts).current.kind = .endOfSource) = true := by simpa using hfirst
  have hbody : ∀ n, stmtsUntil (· = .endOfSource) (stmt .standard maxDepth) (n + 1)
      (front last ts) = .error error u := by
    intro n
    rw [stmtsUntil, peek_bind, if_neg hgo, bind_of_error h]
  rw [Parse.program, rounds_bind, bind_of_error (hbody _)]

/-- An expression is read on its own and as a statement, with the same tree, unless a statement of
it is too deep. -/
theorem Expression.exists_reads_stmt {n : Nat} {e₀ : Expr} (he : Expression n ts e₀) :
    ∃ e, Reads (expr .standard (n + 1) .lowest) .lowest ts e ∧
      ∀ c, c.kind = .semicolon → ∀ last rest,
        stmt .standard (n + 1) (front last (ts ++ c :: rest)) =
            .ok (.expression e (e.span.through c.span)) (front last rest) ∨
          ¬BeginsWithIdentifier ts ∧ ∃ p u, stmt .standard (n + 1) (front last (ts ++ c :: rest)) =
            .error ⟨.nestingTooDeep maxDepth, p⟩ u := by
  by_cases hnamed : BeginsWithIdentifier ts
  · obtain ⟨e, -, hread, hstmt⟩ := he.reads_named hnamed
    exact ⟨e, hread, fun c hclose last rest => Or.inl (hstmt c hclose last rest)⟩
  · obtain ⟨e, -, hread⟩ := he.readsTo
    refine ⟨e, hread, fun c hclose last rest => ?_⟩
    have hexpr := hread last (c :: rest) (not_atTighter_of_kind hclose rfl last rest _)
    obtain ⟨t, us, rfl, ht⟩ := he.exists_head
    have hkind : t.kind ≠ .identifier := fun hkind => hnamed ⟨t, us, rfl, hkind⟩
    rw [List.cons_append] at hexpr ⊢
    rw [stmt_front_operand ht hkind]
    -- as a statement the expression has a level less
    rcases narrower_expr .standard (Nat.le_succ n) .lowest (front last (t :: (us ++ c :: rest)))
      with ⟨p, u, hdeep⟩ | hsame
    · exact Or.inr ⟨hnamed, p, u, bind_of_error hdeep _⟩
    · rw [hexpr] at hsame
      rw [bind_of_ok hsame, endExpression_front hclose]
      exact Or.inl rfl

theorem parseExpr_of_reads (htokens : tokenize source file = .ok (ts ++ [last]))
    (hread : Reads (expr .standard maxDepth .lowest) .lowest ts e) :
    parseExpr source file = .ok e := by
  have hcursor := tokenize_eq_ok_iff.mp htokens
  have hstream := ofCursor_eq_front hcursor
  have hlast : (front last []).current.kind = .endOfSource :=
    (Cursor.start source file).kind_tokens.2 last (by rw [hcursor])
  have hexpr := hread last [] (not_atTighter_of_end hlast _)
  rw [List.append_nil] at hexpr
  have hwhole : wholeExpr (front last ts) = .ok e (front last []) := by
    rw [wholeExpr, bind_of_ok hexpr, peek_bind, if_pos hlast]
    rfl
  simp only [parseExpr, onSource, hstream, hwhole]

/-- A source that is an expression is with a semicolon a program of that expression, unless it is
too deep for that, and then it does not begin with an identifier. -/
theorem parseProgram_of_parseExpr (h : parseExpr source file = .ok e) :
    (∃ span whole,
      parseProgram (source ++ "\n;") file = .ok ⟨[.expression e span], whole⟩) ∨
      (∃ p, parseProgram (source ++ "\n;") file = .error ⟨.nestingTooDeep maxDepth, p⟩) ∧
        ∃ ts last, tokenize source file = .ok (ts ++ [last]) ∧ ¬BeginsWithIdentifier ts := by
  obtain ⟨n, ts, last, hroom, hcursor, hexpression⟩ := expression_of_parseExpr h
  have htokens := tokenize_eq_ok_iff.mpr hcursor
  obtain ⟨e', hread, hstmt⟩ := hexpression.exists_reads_stmt
  rw [← hroom] at hread hstmt
  obtain rfl : e' = e := Except.ok.inj ((parseExpr_of_reads htokens hread).symm.trans h)
  obtain ⟨c, last', hclose, htokens'⟩ := tokenize_append_semicolon htokens
  have hcursor' := tokenize_eq_ok_iff.mp htokens'
  have hstream := ofCursor_eq_front hcursor'
  obtain ⟨hkinds, hend⟩ := (Cursor.start (source ++ "\n;") file).kind_tokens
  rw [hcursor'] at hkinds hend
  have hlast : last'.kind = .endOfSource := hend last' rfl
  have hfirst : (front last' (ts ++ [c])).current.kind ≠ .endOfSource := by
    obtain ⟨t, us, rfl, -⟩ := hexpression.exists_head
    exact hkinds t (by simp)
  rcases hstmt c hclose last' [] with hok | ⟨hnamed, p, u, hdeep⟩
  · exact Or.inl ⟨_, _, parseProgram_of_front htokens' (program_front_of_ok hfirst hlast hok)⟩
  · have hprogram := program_front_of_error hfirst hdeep
    refine Or.inr ⟨⟨p, ?_⟩, ts, last, htokens, hnamed⟩
    simp only [parseProgram, onSource, hstream, hprogram]

/-- The tokens of a program of one expression statement are those of the expression and a
semicolon. -/
theorem expression_of_program {n : Nat} {c : Token} {span : Span}
    (h : Program (n + 1) (ts ++ [c]) [.expression e span]) : Expression n ts e := by
  generalize hall : ts ++ [c] = all at h
  cases h with
  | cons hs hss =>
    cases hss
    rw [List.append_nil] at hall
    cases hs with
    | expressionNamed he hnamed hclose =>
      obtain ⟨rfl, -⟩ := List.append_inj' hall rfl
      exact he
    | expression he hnamed hclose =>
      obtain ⟨rfl, -⟩ := List.append_inj' hall rfl
      exact he.mono (Nat.le_succ _)

theorem parseExpr_of_parseProgram {span whole : Span}
    (h : parseProgram (source ++ "\n;") file = .ok ⟨[.expression e span], whole⟩) :
    parseExpr source file = .ok e := by
  obtain ⟨us, last', htokens', -, hprogram, -⟩ := program_of_parseProgram h
  cases htokens : tokenize source file with
  | error error =>
    obtain ⟨error', herror⟩ : ∃ error', tokenize (source ++ "\n;") file = .error error' :=
      exists_tokenize_append_error (by decide) (by decide) htokens
    rw [herror] at htokens'
    cases htokens'
  | ok all =>
    obtain ⟨ts, last, rfl⟩ : ∃ ts last, all = ts ++ [last] := by
      obtain ⟨-, -, -, -, -, rfl⟩ := tokenize_eq_ok_iff_split.mp htokens
      exact ⟨_, _, rfl⟩
    obtain ⟨c, last'', -, happended⟩ := tokenize_append_semicolon htokens
    rw [happended] at htokens'
    obtain ⟨rfl, -⟩ := List.append_inj' (Except.ok.inj htokens') rfl
    obtain ⟨e', hread, -⟩ := (expression_of_program hprogram).exists_reads_stmt
    have hparse : parseExpr source file = .ok e' := parseExpr_of_reads htokens hread
    -- the program is one of the tree that is read
    rcases parseProgram_of_parseExpr hparse with ⟨span', whole', hprogram'⟩ | ⟨⟨p, hdeep⟩, -⟩
    · rw [h] at hprogram'
      cases hprogram'
      exact hparse
    · rw [h] at hdeep
      cases hdeep

end Grammar

/-- A program of one expression statement is evaluated as the expression. -/
theorem Session.run_expression (s : Session) (fuel : Nat) (e : Expr) (span whole : Span) :
    s.run fuel ⟨[.expression e span], whole⟩ = s.perform (Eval.expr s.config fuel e) := by
  rw [run, Eval.program]
  exact congrArg s.perform (Eval.bind_pure _)

open Grammar

/-- An expression on its own and as a program with a semicolon on a further line are the same. One
is accepted if the other is, with the same tree, but for a program that is too deep; and if both
are, running the program is evaluating the expression: the answer is the same and so is the session
that is left. -/
theorem expression_as_program (source : String) :
    (∀ e span whole,
      parseProgram (source ++ "\n;") unnamedSource = .ok ⟨[.expression e span], whole⟩ →
        parseExpr source unnamedSource = .ok e) ∧
      (∀ e, parseExpr source unnamedSource = .ok e →
        (∃ span whole,
          parseProgram (source ++ "\n;") unnamedSource = .ok ⟨[.expression e span], whole⟩) ∨
          (∃ p, parseProgram (source ++ "\n;") unnamedSource =
            .error ⟨.nestingTooDeep Parse.maxDepth, p⟩) ∧
            ∃ ts last, tokenize source unnamedSource = .ok (ts ++ [last]) ∧
              ¬BeginsWithIdentifier ts) ∧
      ∀ e b, parseExpr source unnamedSource = .ok e →
        parseProgram (source ++ "\n;") unnamedSource = .ok b → ∀ (s : Session) (fuel : Nat),
          s.runSource fuel (source ++ "\n;") unnamedSource = s.evalSource fuel source := by
  refine ⟨fun e span whole h => parseExpr_of_parseProgram h,
    fun e h => parseProgram_of_parseExpr h, fun e b he hb s fuel => ?_⟩
  rcases parseProgram_of_parseExpr he with ⟨span, whole, hprogram⟩ | ⟨⟨p, hdeep⟩, -⟩
  · simp only [Session.runSource, Session.evalSource, he, hprogram, Session.run_expression]
  · rw [hb] at hdeep
    cases hdeep

/-- A quotient with a comment behind it is evaluated as the program that it is, in every session. -/
theorem expression_as_program_quotient :
    ∃ e span whole, parseExpr "x / (2 - y) // half" unnamedSource = .ok e ∧
      parseProgram ("x / (2 - y) // half" ++ "\n;") unnamedSource =
        .ok ⟨[.expression e span], whole⟩ ∧
      ∀ (s : Session) (fuel : Nat),
        s.runSource fuel ("x / (2 - y) // half" ++ "\n;") unnamedSource =
          s.evalSource fuel "x / (2 - y) // half" := by
  obtain ⟨hexpr, hprogram, hruns⟩ := expression_as_program "x / (2 - y) // half"
  have hparses : (parseExpr "x / (2 - y) // half" unnamedSource).toBool = true := by decide +kernel
  have haccepts : (parseProgram ("x / (2 - y) // half" ++ "\n;") unnamedSource).toBool = true := by
    decide +kernel
  cases he : parseExpr "x / (2 - y) // half" unnamedSource with
  | error error =>
    rw [he] at hparses
    cases hparses
  | ok e =>
    rcases hprogram e he with ⟨span, whole, hb⟩ | ⟨⟨p, hdeep⟩, -⟩
    · have hsame := hexpr e span whole hb
      exact ⟨e, span, whole, he.symm.trans hsame, hb, fun s fuel => hruns e _ hsame hb s fuel⟩
    · rw [hdeep] at haccepts
      cases haccepts

end IntLang
