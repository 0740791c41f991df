import IntLang.Grammar.Program
import IntLang.Proofs.Grammar.StmtComplete
import IntLang.Proofs.Grammar.StmtSound

/-!
Whole sources. The stream of a source is in front of all its tokens, so what the parser accepts is
what the grammar derives from them, with every `else` at the nearest `if` and no more levels open
than there may be. The tree is the only one of that kind up to spans.
-/
namespace IntLang

namespace Cursor

/-- The end token comes last and nowhere else. -/
theorem kind_tokens (c : Cursor) :
    (∀ t ∈ c.tokens.1, t.kind ≠ .endOfSource) ∧
      ∀ t, c.tokens.2 = .ok t → t.kind = .endOfSource := by
  fun_induction tokens c with
  | case1 c e d hnext =>
    refine ⟨fun t ht => absurd ht List.not_mem_nil, fun t ht => ?_⟩
    cases ht
  | case2 c t d hnext hkind =>
    refine ⟨fun t ht => absurd ht List.not_mem_nil, fun t ht => ?_⟩
    cases ht
    exact hkind
  | case3 c t d hnext hkind ts ending htokens ih =>
    rw [htokens] at ih
    refine ⟨fun s hs => ?_, ih.2⟩
    rcases List.mem_cons.mp hs with rfl | hs
    · exact hkind
    · exact ih.1 s hs

end Cursor

theorem tokenize_eq_ok_iff {source file : String} {ts : List Token} {last : Token} :
    tokenize source file = .ok (ts ++ [last]) ↔
      (Cursor.start source file).tokens = (ts, .ok last) := by
  unfold tokenize
  generalize (Cursor.start source file).tokens = read
  obtain ⟨us, ending⟩ := read
  cases ending with
  | error e => simp only [Prod.mk.injEq, reduceCtorEq, and_false]
  | ok l =>
    constructor
    · intro h
      obtain ⟨rfl, hlast⟩ := List.append_inj' (Except.ok.inj h) rfl
      cases hlast
      rfl
    · intro h
      cases h
      rfl

namespace TokenStream

theorem ofCursor_eq_front {c : Cursor} {ts : List Token} {last : Token}
    (h : c.tokens = (ts, .ok last)) : ofCursor c = .ok (front last ts) := by
  unfold ofCursor
  rw [h]
  cases ts with
  | nil => rfl
  | cons t ts => rfl

/-- The stream of a source is in front of all its tokens. -/
theorem proper_of_ofCursor {c : Cursor} {s : TokenStream} (h : ofCursor c = .ok s) :
    s.Proper ∧ c.tokens = (s.pending, s.ending) := by
  obtain ⟨hkinds, hending⟩ := c.kind_tokens
  unfold ofCursor at h
  generalize c.tokens = read at h hkinds hending ⊢
  obtain ⟨ts, ending⟩ := read
  cases ts with
  | cons t ts =>
    cases h
    have hkind : t.kind ≠ .endOfSource := hkinds t (List.mem_cons_self ..)
    refine ⟨⟨fun u hu => hkinds u (List.mem_cons_of_mem _ hu), hending,
      fun hend => absurd hend hkind⟩, ?_⟩
    rw [pending_of_ne hkind]
  | nil =>
    cases ending with
    | error e => cases h
    | ok last =>
      cases h
      have hlast : last.kind = .endOfSource := hending last rfl
      refine ⟨⟨fun u hu => absurd hu List.not_mem_nil, hending, fun _ => ⟨rfl, rfl⟩⟩, ?_⟩
      rw [pending_eq_nil_iff.mpr hlast]

end TokenStream

namespace Grammar

open Parse TokenStream

variable {source file : String} {ts : List Token} {last : Token}

theorem parseProgram_of_front {b : IntLang.Block} {u : TokenStream}
    (htokens : tokenize source file = .ok (ts ++ [last]))
    (h : Parse.program (front last ts) = .ok b u) : parseProgram source file = .ok b := by
  have hstream := ofCursor_eq_front (tokenize_eq_ok_iff.mp htokens)
  simp only [parseProgram, onSource, hstream, h]

/-- The statements up to the end of a source are its program. -/
theorem parseProgram_of_body {body : List Stmt} {u : TokenStream}
    (htokens : tokenize source file = .ok (ts ++ [last]))
    (h : stmtsUntil (· = .endOfSource) (stmt .standard maxDepth)
      ((front last ts).upcoming.length + 1) (front last ts) = .ok body u) :
    parseProgram source file = .ok ⟨body, ⟨u.current.span.file, 0, u.current.span.start⟩⟩ := by
  refine parseProgram_of_front htokens (u := u) ?_
  rw [Parse.program, rounds_bind, bind_of_ok h]
  rfl

/-- A stream that has come to its end token has passed all tokens of its source. -/
theorem tokenize_of_behind {s u : TokenStream} (hstream : ofCursor (.start source file) = .ok s)
    (hts : s.Behind ts u) (hend : u.current.kind = .endOfSource) :
    tokenize source file = .ok (ts ++ [u.current]) := by
  have hpending : s.pending = ts := by
    rw [hts.pending, pending_eq_nil_iff.mpr hend, List.append_nil]
  have hending : s.ending = .ok u.current := by
    rw [← hts.ending, (hts.proper.current hend).2]
  rw [tokenize_eq_ok_iff, (proper_of_ofCursor hstream).2, hpending, hending]

/-- A program that is accepted has been read from the stream of its source. -/
theorem exists_read_of_parseProgram {b : IntLang.Block} (h : parseProgram source file = .ok b) :
    ∃ s u, ofCursor (.start source file) = .ok s ∧
      stmtsUntil (· = .endOfSource) (stmt .standard maxDepth) (s.upcoming.length + 1) s =
        .ok b.body u ∧
      b.span = ⟨u.current.span.file, 0, u.current.span.start⟩ := by
  unfold parseProgram onSource at h
  cases hstream : ofCursor (.start source file) with
  | error e =>
    simp only [hstream, reduceCtorEq] at h
  | ok s =>
    cases hresult : Parse.program s with
    | error e u => simp only [hstream, hresult, reduceCtorEq] at h
    | ok b' u =>
      simp only [hstream, hresult, Except.ok.injEq] at h
      subst h
      rw [Parse.program, rounds_bind] at hresult
      obtain ⟨body, v, hbody, hresult⟩ := bind_eq_ok_iff.mp hresult
      rw [peek_bind] at hresult
      obtain ⟨rfl, rfl⟩ := pure_eq_ok_iff.mp hresult
      exact ⟨s, v, rfl, hbody, rfl⟩

/-- A program that is accepted is one of the grammar. -/
theorem program_of_parseProgram {b : IntLang.Block} (h : parseProgram source file = .ok b) :
    ∃ ts last, tokenize source file = .ok (ts ++ [last]) ∧ last.kind = .endOfSource ∧
      Program maxDepth ts b.body ∧ ElsesNearest b.body := by
  obtain ⟨s, u, hstream, hbody, -⟩ := exists_read_of_parseProgram h
  obtain ⟨ts, hts, hderives, hnears, hstop⟩ :=
    statements_of_stmtsUntil (readsStmt_stmt maxDepth) (by decide)
      (proper_of_ofCursor hstream).1 s.length_pending_le hbody
  have hend : u.current.kind = .endOfSource := of_decide_eq_true hstop
  exact ⟨ts, u.current, tokenize_of_behind hstream hts hend, hend, hderives, hnears⟩

/-- The statements of a program are read with as many rounds as there are tokens, or more. -/
theorem Program.reads_front {n m : Nat} {body : List Stmt} (h : Program n ts body)
    (hnear : ElsesNearest body) (hlast : last.kind = .endOfSource) (hm : ts.length ≤ m) :
    ∃ body', Stmt.bareList body' = Stmt.bareList body ∧
      stmtsUntil (· = .endOfSource) (stmt .standard n) m (front last ts) =
        .ok body' (front last []) := by
  have hfront : (front last []).current.kind = .endOfSource := hlast
  have helse : (front last []).current.kind ≠ .elseWord := by
    rw [hfront]
    decide
  obtain ⟨body', hbare, hreads⟩ := Statements.readsTo h hnear
  refine ⟨body', hbare, ?_⟩
  have hread := hreads last [] helse (· = .endOfSource) (by decide)
    (decide_eq_true hfront) m
  rw [List.append_nil] at hread
  exact hread hm

/-- A program of the grammar is accepted. -/
theorem Program.exists_parseProgram {body : List Stmt}
    (htokens : tokenize source file = .ok (ts ++ [last])) (hbody : Program maxDepth ts body)
    (hnear : ElsesNearest body) : ∃ b, parseProgram source file = .ok b := by
  have hlast : last.kind = .endOfSource :=
    (Cursor.start source file).kind_tokens.2 last (by rw [tokenize_eq_ok_iff.mp htokens])
  obtain ⟨body', -, hread⟩ :=
    hbody.reads_front hnear hlast (length_le_rounds_front last ts)
  exact ⟨_, parseProgram_of_body htokens hread⟩

/-- Two programs of the same tokens with every `else` at the nearest `if` are equal up to spans. -/
theorem Program.bareList_eq {n m : Nat} {body body' : List Stmt} (h : Program n ts body)
    (h' : Program m ts body') (hnear : ElsesNearest body) (hnear' : ElsesNearest body') :
    Stmt.bareList body = Stmt.bareList body' := by
  let last : Token := ⟨.endOfSource, "", .blank⟩
  have hlast : last.kind = .endOfSource := rfl
  have hwide : Program (max n m) ts body := Statements.mono (Nat.le_max_left n m) h
  have hwide' : Program (max n m) ts body' := Statements.mono (Nat.le_max_right n m) h'
  obtain ⟨ss, hbare, hread⟩ := hwide.reads_front hnear hlast (Nat.le_refl _)
  obtain ⟨ss', hbare', hread'⟩ := hwide'.reads_front hnear' hlast (Nat.le_refl _)
  -- one loop reads both
  rw [hread] at hread'
  cases hread'
  rw [← hbare, ← hbare']

/-- The parser accepts the programs of the grammar and yields their trees. -/
theorem parseProgram_exact (source file : String) :
    ((∃ b, parseProgram source file = .ok b) ↔
        ∃ ts last body, tokenize source file = .ok (ts ++ [last]) ∧ last.kind = .endOfSource ∧
          Program maxDepth ts body ∧ ElsesNearest body) ∧
      (∀ b ts last, parseProgram source file = .ok b →
        tokenize source file = .ok (ts ++ [last]) →
          Program maxDepth ts b.body ∧ ElsesNearest b.body ∧
            ∀ n body, Program n ts body → ElsesNearest body →
              Stmt.bareList body = Stmt.bareList b.body) ∧
      ∀ n ts body, Program n ts body → ∃ m body', Program m ts body' ∧ ElsesNearest body' := by
  refine ⟨⟨?_, ?_⟩, ?_, fun n ts body h => Statements.exists_elsesNearest h⟩
  · rintro ⟨b, h⟩
    obtain ⟨ts, last, htokens, hlast, hprogram, hnear⟩ := program_of_parseProgram h
    exact ⟨ts, last, b.body, htokens, hlast, hprogram, hnear⟩
  · rintro ⟨ts, last, body, htokens, -, hprogram, hnear⟩
    exact hprogram.exists_parseProgram htokens hnear
  · intro b ts last h htokens
    obtain ⟨us, end', htokens', -, hprogram, hnear⟩ := program_of_parseProgram h
    rw [htokens] at htokens'
    obtain ⟨rfl, -⟩ := List.append_inj' (Except.ok.inj htokens') rfl
    exact ⟨hprogram, hnear, fun n body hbody hnear' => hbody.bareList_eq hprogram hnear' hnear⟩

/-- An `else` behind two conditionals belongs to the second one. -/
theorem parseProgram_exact_twoConditionals :
    ∃ b ts last, parseProgram "if (a) if (b) x = 1; else y = 2 + 3 * 4;" "f" = .ok b ∧
      tokenize "if (a) if (b) x = 1; else y = 2 + 3 * 4;" "f" = .ok (ts ++ [last]) ∧
        Program maxDepth ts b.body ∧ ElsesNearest b.body := by
  obtain ⟨haccepts, htree, -⟩ := parseProgram_exact "if (a) if (b) x = 1; else y = 2 + 3 * 4;" "f"
  have hread : (parseProgram "if (a) if (b) x = 1; else y = 2 + 3 * 4;" "f").toBool = true := by
    decide +kernel
  cases h : parseProgram "if (a) if (b) x = 1; else y = 2 + 3 * 4;" "f" with
  | error e =>
    rw [h] at hread
    cases hread
  | ok b =>
    obtain ⟨ts, last, -, htokens, -⟩ := haccepts.mp ⟨b, h⟩
    obtain ⟨hprogram, hnear, -⟩ := htree b ts last h htokens
    exact ⟨b, ts, last, rfl, htokens, hprogram, hnear⟩

end Grammar

end IntLang
