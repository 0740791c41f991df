import IntLang.Proofs.Grammar.Powers
import IntLang.Proofs.Grammar.Rounds
import IntLang.Proofs.Token.Passes
import IntLang.Token.Lexer

/-!
Reading makes progress. A token that is read takes a byte or more, and an expression, a statement or
an operator with its operand takes a token or more. So every loop ends, whatever the source is: the
loops over the source end within as many rounds as it has bytes, and the loops of the parser within
as many as there are tokens in front of it, whether they succeed or fail.
-/
namespace IntLang

open Parse Grammar

/-- A token that a lexer reads takes a byte or more. -/
theorem Lexer.offset_lt_of_next? {l l' : Lexer} {t : Token} (h : l.next? = some (.ok t, l'))
    (hkind : t.kind ≠ .endOfSource) : l.offset < l'.offset := by
  unfold next? at h
  obtain ⟨c, hcursor, hread⟩ := Option.map_eq_some_iff.mp h
  obtain ⟨-, hoffset, -⟩ := cursor?_eq_some_iff.mp hcursor
  obtain ⟨hnext, rfl⟩ := Prod.mk.inj hread
  have hsplit : c.next = (.ok t, c.next.2) := Prod.ext hnext rfl
  obtain ⟨passed, -, hbytes, hpos⟩ := Cursor.exists_of_next hsplit hkind
  change l.offset < c.next.2.offset
  omega

namespace Cursor

/-- The tokens of a source are read in as many rounds as there are of them. -/
theorem ends_tokenLoop_start (source file : String) :
    ∃ n ≤ byteLength source.toList + 1,
      (∃ c, tokenLoop.Ends n (true, []) (.start source file)
        (Loop.leaving c (tokenize source file))) ∧
      ∀ ts, tokenize source file = .ok ts → ts.length = n := by
  have hbytes := length_tokens_le (.start source file)
  obtain ⟨c, hends⟩ := ends_tokenLoop (.start source file) []
  refine ⟨_, Nat.succ_le_succ hbytes, ⟨c, ?_⟩, fun ts hts => ?_⟩
  · have hread : tokenize source file = (Cursor.start source file).tokens.2.map fun last =>
        [] ++ (Cursor.start source file).tokens.1 ++ [last] := by
      unfold tokenize
      rcases (Cursor.start source file).tokens with ⟨us, err | last⟩ <;> rfl
    rwa [hread]
  · unfold tokenize at hts
    rcases htokens : (Cursor.start source file).tokens with ⟨us, err | last⟩ <;> rw [htokens] at hts
    · cases hts
    · cases hts
      exact List.length_append

end Cursor

theorem Likeness.Tokens.eq {t t' : Token} (h : Likeness.same.Tokens t t') : t = t' := by
  obtain ⟨kind, text, span⟩ := t
  obtain ⟨kind', text', span'⟩ := t'
  obtain ⟨rfl, rfl, rfl⟩ := h
  rfl

namespace Parser

def unread (p : Parser) : Nat := p.stream.pending.length

variable {α : Type} {p q : Parser}

/-- A step leaves fewer tokens if its counterpart takes some from the stream. -/
theorem unread_lt_of_onStream {x : ParseOn Parser α} {y : Parse α} {a : α}
    (hrel : (onStream p.depth).Rel Eq x y)
    (htakes : ∀ s, y p.stream = .ok a s → pendingCount.Shorter p.stream s)
    (h : x p = .ok a q) : q.unread < p.unread :=
  (htakes _ (ok_onStream hrel h)).2

def unreadCount : TokenCount Parser where
  proper _ := True
  unread := unread
  unread_pos _ hkind := List.length_pos_iff.mpr (mt TokenStream.pending_eq_nil_iff.mp hkind)
  unread_le {p} _ := p.stream.length_pending_le
  advance := by
    intro p t q _ hkind h
    refine ⟨trivial, unread_lt_of_onStream (.mono .advance fun _ _ ht => ht.eq) (fun s hs => ?_) h⟩
    exact pendingCount.advance (proper_stream hkind) hkind hs

theorem reads_expr (levels : Nat) (power : BindingPower) :
    unreadCount.Reads (countedExpr .standard levels power) := by
  intro p e q _ h
  refine ⟨trivial, unread_lt_of_onStream (countedExpr_onStream_min levels p.depth power)
    (fun s hs => ?_) h⟩
  exact (readsExpr_expr _).reads power _ e _ (proper_stream (kind_ne_end_of_expr hs)) hs

theorem readsBeforeEnd_stmt (levels : Nat) :
    unreadCount.ReadsBeforeEnd (countedStmt .standard levels) := by
  intro p st q _ hkind h
  have hproper := proper_stream hkind
  refine ⟨trivial, unread_lt_of_onStream (countedStmt_onStream_min levels p.depth)
    (fun s hs => ?_) h⟩
  exact (readsStmt_stmt _).readsBeforeEnd _ _ _ hproper hkind hs

theorem unread_le_rounds (p : Parser) : p.unread ≤ TokenSource.ahead p + 1 :=
  unreadCount.unread_le trivial

/-- The loops of a parser whose parts may open a number of levels end with what the readers yield,
within as many rounds as there are tokens in front of the parser. The loops over the members of a
list come to one token at least, be it the end token. -/
structure LoopsEnd (p : Parser) (levels : Nat) : Prop where
  program : ∃ n ≤ p.unread,
    (stmtLoop (· = .endOfSource) (countedStmt .standard levels)).Ends n [] p
      ((rounds >>= stmtsUntil (· = .endOfSource) (countedStmt .standard levels)) p)
  block : ∃ n ≤ p.unread, (stmtLoop endsBlock (countedStmt .standard levels)).Ends n [] p
    ((rounds >>= stmtsUntil endsBlock (countedStmt .standard levels)) p)
  operators : ∀ power left, ∃ n ≤ p.unread,
    (operatorLoop .standard (countedExpr .standard levels) power).Ends n left p
      (Parse.operators .standard (countedExpr .standard levels) power left p)
  arguments : ∃ n ≤ max 1 p.unread,
    (argumentLoop (countedExpr .standard levels)).Ends n (p.current.kind != .closeParen, []) p
      (Parse.arguments (countedExpr .standard levels) p)
  parameters : ∃ n ≤ max 1 p.unread,
    parameterLoop.Ends n (p.current.kind != .closeParen, []) p (Parse.parameters p)

theorem loopsEnd (p : Parser) (levels : Nat) : p.LoopsEnd levels where
  program := unreadCount.ends_stmtsUntil (by decide) (readsBeforeEnd_stmt levels) trivial
    p.unread_le_rounds
  block := unreadCount.ends_stmtsUntil (by decide) (readsBeforeEnd_stmt levels) trivial
    p.unread_le_rounds
  operators _ _ := unreadCount.ends_operatorRounds (reads_expr levels) trivial p.unread_le_rounds
  arguments := unreadCount.ends_arguments (reads_expr levels) trivial
  parameters := unreadCount.ends_parameters trivial

section Source

variable {source file : String}

/-- A new parser has no more tokens in front of it than its source has bytes. -/
theorem unread_le_of_ofSource (h : ofSource source file = .ok p) :
    p.rules = .standard ∧ p.unread ≤ byteLength source.toList := by
  unfold ofSource at h
  rcases hnext : (Cursor.start source file).next with ⟨err | first, c⟩ <;> rw [hnext] at h
  · cases h
  · cases h
    obtain ⟨-, htokens⟩ :=
      TokenStream.proper_of_ofCursor (ofCursor_eq_stream hnext .standard 0)
    have hle := (Cursor.start source file).length_tokens_le
    rw [htokens] at hle
    exact ⟨rfl, hle⟩

/-- A program is what the statements up to the end of its source are. -/
theorem map_body_parseProgram (h : ofSource source file = .ok p) :
    (parseProgram source file).map Block.body =
      (p.run (rounds >>= stmtsUntil (· = .endOfSource) p.stmtStep)).1 := by
  have hrules := (unread_le_of_ofSource h).1
  rw [parseProgram_eq, h, Except.bind, stmtStep, hrules, run, run, rounds_bind_current,
    rounds_bind_current]
  cases hread : stmtsUntil (· = .endOfSource) (countedStmt .standard (maxDepth + 1))
      (TokenSource.ahead p + 1) p with
  | error err q =>
    rw [bind_of_error hread]
    rfl
  | ok body q =>
    rw [bind_of_ok hread]
    rfl

end Source

end Parser

/-- Reading makes progress. A token that is read takes a byte or more, so a source has no more
tokens than bytes, and the end token. From every parser with the standard rules that has not come to
the end token, a statement, an expression or an operator with its operand that is read leaves fewer
tokens. So every loop ends, whether it succeeds or fails, and no loop goes through more rounds than
there are bytes or tokens in front of it. The end token is one of them where it is read or where the
member of a list should stand; behind the passes that skip something comes one that finds
nothing. -/
theorem reading_progresses (source file : String) :
    (∀ (l l' : Lexer) t, l.next? = some (.ok t, l') → t.kind ≠ .endOfSource →
      l.offset < l'.offset) ∧
    (∀ c : Cursor, ∃ n, Cursor.triviaLoop.Ends (n + 1) true c (.ok () c.afterTrivia) ∧
      n + byteLength c.afterTrivia.rest ≤ byteLength c.rest) ∧
    (∃ n ≤ byteLength source.toList + 1,
      (∃ c, Cursor.tokenLoop.Ends n (true, []) (.start source file)
        (Loop.leaving c (tokenize source file))) ∧
      ∀ ts, tokenize source file = .ok ts → ts.length = n) ∧
    (∀ p : Parser, p.rules = .standard → p.current.kind ≠ .endOfSource →
      (∀ s q, p.stmt .any = (.ok s, q) → q.unread < p.unread) ∧
      (∀ power e q, p.expr power = (.ok e, q) → q.unread < p.unread) ∧
      ∀ left power e q, p.binary left power = (.ok e, q) → q.unread < p.unread) ∧
    (∀ (p : Parser) levels, p.LoopsEnd levels) ∧
    ∀ p, Parser.ofSource source file = .ok p →
      p.rules = .standard ∧ p.unread ≤ byteLength source.toList ∧
      (parseProgram source file).map Block.body =
        (p.run (rounds >>= stmtsUntil (· = .endOfSource) p.stmtStep)).1 := by
  refine ⟨fun l l' t => Lexer.offset_lt_of_next?, Cursor.ends_triviaLoop,
    Cursor.ends_tokenLoop_start source file, fun p hp hkind => ?_, Parser.loopsEnd, fun p h => ?_⟩
  · refine ⟨fun s q h => ?_, fun power e q h => ?_, fun left power e q h => ?_⟩
    · have hstmt : p.stmtStep p = .ok s q := Parser.run_eq_ok_iff.mp h
      rw [Parser.stmtStep, hp] at hstmt
      exact (Parser.readsBeforeEnd_stmt _ p s q trivial hkind hstmt).2
    · have hexpr := Parser.run_eq_ok_iff.mp h
      rw [Parser.exprStep, hp] at hexpr
      exact (Parser.reads_expr _ power p e q trivial hexpr).2
    · have hbinary := Parser.run_eq_ok_iff.mp h
      rw [Parser.exprStep, hp] at hbinary
      have hsub := Parser.reads_expr (maxDepth + 1)
      exact (Parser.unreadCount.readsBeforeEnd_binary hsub left power p e q trivial hkind hbinary).2
  · obtain ⟨hrules, hbytes⟩ := Parser.unread_le_of_ofSource h
    exact ⟨hrules, hbytes, Parser.map_body_parseProgram h⟩

/-- The assignment of a sum is read token by token, and its sum behind the first operand. -/
theorem reading_progresses_sum :
    let p : Parser := ⟨.standard, ⟨"f", 1, " = 1 + 2;".toList⟩, ⟨.identifier, "x", ⟨"f", 0, 1⟩⟩, 0⟩
    let q : Parser := ⟨.standard, ⟨"f", 7, " 2;".toList⟩, ⟨.plus, "+", ⟨"f", 6, 7⟩⟩, 0⟩
    (∃ t l, (Lexer.ofSource "x = 1 + 2;" "f").next? = some (.ok t, l) ∧ 0 < l.offset) ∧
    (∃ ts, tokenize "x = 1 + 2;" "f" = .ok ts ∧ ts.length ≤ 11) ∧
    (∃ s r, p.stmt .any = (.ok s, r) ∧ r.unread < p.unread) ∧
    (∃ e r, p.expr .lowest = (.ok e, r) ∧ r.unread < p.unread) ∧
    (∃ e r, q.binary (.number 1 ⟨"f", 4, 5⟩) .additive = (.ok e, r) ∧ r.unread < q.unread) ∧
    Parser.ofSource "x = 1 + 2;" "f" = .ok p ∧ p.unread ≤ 10 := by
  intro p q
  obtain ⟨hlexer, -, ⟨n, hn, -, htokens⟩, hsteps, -, hsource⟩ := reading_progresses "x = 1 + 2;" "f"
  obtain ⟨hstmt, hexpr, -⟩ := hsteps p rfl (by decide)
  obtain ⟨-, -, hbinary⟩ := hsteps q rfl (by decide)
  have hnext : (Cursor.start "x = 1 + 2;" "f").next = (.ok p.current, p.cursor) := by
    decide +kernel
  have hp : Parser.ofSource "x = 1 + 2;" "f" = .ok p := by
    simp only [Parser.ofSource, hnext]
    rfl
  refine ⟨?_, ?_, ?_, ?_, ?_, hp, (hsource p hp).2.1⟩
  · have hread : (Lexer.ofSource "x = 1 + 2;" "f").next? =
        some (.ok p.current, ⟨"f", "x = 1 + 2;".toList, 1⟩) := by
      decide +kernel
    exact ⟨_, _, hread, hlexer _ _ _ hread (by decide)⟩
  · have hread : (tokenize "x = 1 + 2;" "f").toBool = true := by decide +kernel
    cases h : tokenize "x = 1 + 2;" "f" with
    | error e =>
      rw [h] at hread
      cases hread
    | ok ts =>
      refine ⟨ts, rfl, ?_⟩
      rw [htokens ts h]
      exact hn
  · have hread : (p.stmt .any).1.toBool = true := by decide +kernel
    rcases h : p.stmt .any with ⟨err | s, r⟩ <;> rw [h] at hread
    · cases hread
    · exact ⟨s, r, rfl, hstmt s r h⟩
  · have hread : (p.expr .lowest).1.toBool = true := by decide +kernel
    rcases h : p.expr .lowest with ⟨err | e, r⟩ <;> rw [h] at hread
    · cases hread
    · exact ⟨e, r, rfl, hexpr .lowest e r h⟩
  · have hread : (q.binary (.number 1 ⟨"f", 4, 5⟩) .additive).1.toBool = true := by decide +kernel
    rcases h : q.binary (.number 1 ⟨"f", 4, 5⟩) .additive with ⟨err | e, r⟩ <;> rw [h] at hread
    · cases hread
    · exact ⟨e, r, rfl, hbinary _ _ e r h⟩

end IntLang
