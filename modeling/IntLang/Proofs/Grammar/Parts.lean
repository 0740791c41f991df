import IntLang.Grammar.Program
import IntLang.Proofs.Grammar.Program
import IntLang.Proofs.Token.Tokenize

/-!
The expressions that occur in a tree, and what the parser makes them of. A number that was read is
not negative, and the names of variables and functions are words that are not reserved. This holds
of every tree that the grammar derives from the tokens of a source.
-/
namespace IntLang

namespace Expr

mutual

def parts : Expr → List Expr
  | number value span => [number value span]
  | string text span => [string text span]
  | var name span => [var name span]
  | binary operator left right span =>
    binary operator left right span :: (left.parts ++ right.parts)
  | call callee arguments span => call callee arguments span :: partsList arguments

def partsList : List Expr → List Expr
  | [] => []
  | e :: es => e.parts ++ partsList es

end

/-- A list that holds, with each expression, all expressions inside it. -/
def Closed (es : List Expr) : Prop := ∀ x ∈ es, x.parts ⊆ es

theorem closed_nil : Closed [] := nofun

theorem Closed.append {es fs : List Expr} (hes : Closed es) (hfs : Closed fs) :
    Closed (es ++ fs) := by
  intro x hx
  rcases List.mem_append.mp hx with hx | hx
  · exact List.subset_append_of_subset_left _ (hes x hx)
  · exact List.subset_append_of_subset_right _ (hfs x hx)

theorem Closed.parts {e : Expr} {es : List Expr} (he : e.parts = e :: es) (hes : Closed es) :
    Closed e.parts := by
  intro x hx
  rw [he] at hx
  rcases List.mem_cons.mp hx with rfl | hx
  · exact List.Subset.refl _
  · rw [he]
    exact List.subset_cons_of_subset _ (hes x hx)

mutual

theorem closed_parts (e : Expr) : Closed e.parts := by
  match e with
  | number _ _ | string _ _ | var _ _ => exact closed_nil.parts (by rw [parts])
  | binary _ left right _ =>
    have hoperands := (closed_parts left).append (closed_parts right)
    exact hoperands.parts (by rw [parts])
  | call _ arguments _ =>
    have harguments := closed_partsList arguments
    exact harguments.parts (by rw [parts])

theorem closed_partsList (es : List Expr) : Closed (partsList es) := by
  match es with
  | [] =>
    rw [partsList]
    exact closed_nil
  | e :: es =>
    rw [partsList]
    exact (closed_parts e).append (closed_partsList es)

end

end Expr

namespace Stmt

mutual

def exprs : Stmt → List Expr
  | expression value _ => value.parts
  | assign _ value _ => value.parts
  | block body _ => exprsList body
  | ifThen test thenBranch _ => test.parts ++ thenBranch.exprs
  | ifElse test thenBranch elseBranch _ =>
    test.parts ++ (thenBranch.exprs ++ elseBranch.exprs)
  | loop test body _ => test.parts ++ body.exprs
  | ret value _ => value.parts
  | function _ _ body _ _ => exprsList body

def exprsList : List Stmt → List Expr
  | [] => []
  | s :: ss => s.exprs ++ exprsList ss

end

mutual

theorem closed_exprs (s : Stmt) : Expr.Closed s.exprs := by
  match s with
  | expression value _ | assign _ value _ | ret value _ =>
    rw [exprs]
    exact value.closed_parts
  | block body _ | function _ _ body _ _ =>
    rw [exprs]
    exact closed_exprsList body
  | ifThen test thenBranch _ =>
    rw [exprs]
    exact test.closed_parts.append (closed_exprs thenBranch)
  | ifElse test thenBranch elseBranch _ =>
    rw [exprs]
    exact test.closed_parts.append ((closed_exprs thenBranch).append (closed_exprs elseBranch))
  | loop test body _ =>
    rw [exprs]
    exact test.closed_parts.append (closed_exprs body)

theorem closed_exprsList (ss : List Stmt) : Expr.Closed (exprsList ss) := by
  match ss with
  | [] =>
    rw [exprsList]
    exact Expr.closed_nil
  | s :: ss =>
    rw [exprsList]
    exact (closed_exprs s).append (closed_exprsList ss)

end

end Stmt

def IsName (text : String) : Prop :=
  ∃ c cs, text = String.ofList (c :: cs) ∧ isWordStart c = true ∧
    (∀ d ∈ cs, isWordPart d = true) ∧ keyword? text = none

/-- Whether an expression, apart from those inside it, can be written down. -/
def Expr.Writable : Expr → Prop
  | number value _ => 0 ≤ value.toInt
  | var name _ => IsName name
  | call callee _ _ => IsName callee
  | string _ _ | binary _ _ _ _ => True

theorem isName_of_spells {text : String} {l rest : List Char}
    (h : Spells .identifier text l rest) : IsName text := by
  cases h with
  | reserved hstart hrun hkeyword => cases isKeyword_of_keyword? hkeyword
  | identifier hstart hrun hkeyword => exact ⟨_, _, rfl, hstart, hrun.all, hkeyword⟩
  | sign hsign => exact absurd rfl (sign?_ne hsign).2

theorem exists_spells_of_mem_tokensAt {file : String} {offset : Nat} {ps : List Piece}
    {rest : List Char} (hps : Split ps rest) {t : Token} (ht : t ∈ tokensAt file offset ps) :
    ∃ l after, Spells t.kind t.text l after := by
  induction hps generalizing offset with
  | nil => cases ht
  | cons htrivia hlexeme hps ih =>
    rcases List.mem_cons.mp ht with rfl | ht
    · exact ⟨_, _, hlexeme⟩
    · exact ih ht

namespace Grammar

def Named (ts : List Token) : Prop := ∀ t ∈ ts, t.kind = .identifier → IsName t.text

section Named

variable {t : Token} {ts us : List Token}

@[simp] theorem named_cons : Named (t :: ts) ↔ (t.kind = .identifier → IsName t.text) ∧ Named ts :=
  List.forall_mem_cons

@[simp] theorem named_append : Named (ts ++ us) ↔ Named ts ∧ Named us :=
  List.forall_mem_append

/-- The identifiers of a source are names. -/
theorem named_tokens (source file : String) : Named (Cursor.start source file).tokens.1 := by
  obtain ⟨ps, w, rest, hsource, hps, hw, hend⟩ := exists_split source.toList
  have htokens : (Cursor.start source file).tokens.1 = tokensAt file 0 ps := by
    have hsplit := Cursor.tokens_of_split hps file 0
    rw [← hsource] at hsplit
    rw [Cursor.start, hsplit]
    rcases hend with rfl | ⟨c, more, rfl, hnothing⟩
    · rw [List.append_nil, Cursor.tokens_of_trivia hw, List.append_nil]
    · rw [Cursor.tokens_of_startsNothing hw hnothing, List.append_nil]
  intro t ht hkind
  rw [htokens] at ht
  obtain ⟨l, after, hspells⟩ := exists_spells_of_mem_tokensAt hps ht
  rw [hkind] at hspells
  exact isName_of_spells hspells

end Named

def AllWritable (es : List Expr) : Prop := ∀ x ∈ es, x.Writable

section AllWritable

variable {e : Expr} {es fs : List Expr}

@[simp] theorem allWritable_nil : AllWritable [] := nofun

@[simp] theorem allWritable_cons : AllWritable (e :: es) ↔ e.Writable ∧ AllWritable es :=
  List.forall_mem_cons

@[simp] theorem allWritable_append : AllWritable (es ++ fs) ↔ AllWritable es ∧ AllWritable fs :=
  List.forall_mem_append

end AllWritable

theorem toInt_ofNat_nonneg {n : Nat} (h : n < integerBound) : 0 ≤ (Int64.ofNat n).toInt := by
  rw [Int64.toInt_ofNat_of_lt h]
  exact Int.natCast_nonneg n

mutual

theorem Factor.allWritable {n ts e} : Factor n ts e → Named ts → AllWritable e.parts
  | .number _ hvalue, _ => by
    rw [Expr.parts]
    exact allWritable_cons.mpr ⟨toInt_ofNat_nonneg hvalue, allWritable_nil⟩
  | .string _, _ => by
    rw [Expr.parts]
    exact allWritable_cons.mpr ⟨trivial, allWritable_nil⟩
  | .var hkind, hnamed => by
    rw [Expr.parts]
    exact allWritable_cons.mpr ⟨(named_cons.mp hnamed).1 hkind, allWritable_nil⟩
  | .call hkind _ hargs _, hnamed => by
    simp only [named_cons, named_append] at hnamed
    rw [Expr.parts]
    exact allWritable_cons.mpr ⟨hnamed.1 hkind, hargs.allWritable hnamed.2.2.1⟩
  | .group _ he _, hnamed => by
    simp only [named_cons, named_append] at hnamed
    exact he.allWritable hnamed.2.1

theorem Term.allWritable {n ts e} : Term n ts e → Named ts → AllWritable e.parts
  | .factor he, hnamed => he.allWritable hnamed
  | .product ha _ hb, hnamed => by
    simp only [named_cons, named_append] at hnamed
    rw [Expr.parts, allWritable_cons, allWritable_append]
    exact ⟨trivial, ha.allWritable hnamed.1, hb.allWritable hnamed.2.2⟩

theorem Expression.allWritable {n ts e} : Expression n ts e → Named ts → AllWritable e.parts
  | .term he, hnamed => he.allWritable hnamed
  | .sum ha _ hb, hnamed => by
    simp only [named_cons, named_append] at hnamed
    rw [Expr.parts, allWritable_cons, allWritable_append]
    exact ⟨trivial, ha.allWritable hnamed.1, hb.allWritable hnamed.2.2⟩

theorem Arguments.allWritable {n ts es} :
    Arguments n ts es → Named ts → AllWritable (Expr.partsList es)
  | .none, _ => by
    rw [Expr.partsList]
    exact allWritable_nil
  | .one he, hnamed => by
    rw [Expr.partsList, Expr.partsList, List.append_nil]
    exact he.allWritable hnamed
  | .more he _ hes, hnamed => by
    simp only [named_cons, named_append] at hnamed
    rw [Expr.partsList, allWritable_append]
    exact ⟨he.allWritable hnamed.1, hes.allWritable hnamed.2.2⟩

end

theorem Condition.allWritable {n ts e} (h : Condition n ts e) (hnamed : Named ts) :
    AllWritable e.parts := by
  cases h with
  | mk _ he _ =>
    simp only [named_cons, named_append] at hnamed
    exact he.allWritable hnamed.2.1

mutual

theorem Statement.allWritable {n ts s} : Statement n ts s → Named ts → AllWritable s.exprs
  | .ifThen _ htest hthen, hnamed => by
    simp only [named_cons, named_append] at hnamed
    rw [Stmt.exprs, allWritable_append]
    exact ⟨htest.allWritable hnamed.2.1, hthen.allWritable hnamed.2.2⟩
  | .ifElse _ htest hthen _ hrest, hnamed => by
    simp only [named_cons, named_append] at hnamed
    rw [Stmt.exprs, allWritable_append, allWritable_append]
    exact ⟨htest.allWritable hnamed.2.1, hthen.allWritable hnamed.2.2.1,
      hrest.allWritable hnamed.2.2.2.2⟩
  | .loop _ htest hbody, hnamed => by
    simp only [named_cons, named_append] at hnamed
    rw [Stmt.exprs, allWritable_append]
    exact ⟨htest.allWritable hnamed.2.1, hbody.allWritable hnamed.2.2⟩
  | .ret _ he _, hnamed => by
    simp only [named_cons, named_append] at hnamed
    rw [Stmt.exprs]
    exact he.allWritable hnamed.2.1
  | .function _ _ _ _ _ _ hbody, hnamed => by
    simp only [named_cons, named_append] at hnamed
    rw [Stmt.exprs]
    exact hbody.allWritable hnamed.2.2.2.2.2
  | .block hbody, hnamed => by
    rw [Stmt.exprs]
    exact hbody.allWritable hnamed
  | .assign _ _ he _, hnamed => by
    simp only [named_cons, named_append] at hnamed
    rw [Stmt.exprs]
    exact he.allWritable hnamed.2.2.1
  | .expressionNamed he _ _, hnamed | .expression he _ _, hnamed => by
    rw [Stmt.exprs]
    exact he.allWritable (named_append.mp hnamed).1

theorem Block.allWritable {n ts body} :
    Block n ts body → Named ts → AllWritable (Stmt.exprsList body)
  | .mk _ hbody _, hnamed => by
    simp only [named_cons, named_append] at hnamed
    exact hbody.allWritable hnamed.2.1

theorem Statements.allWritable {n ts ss} :
    Statements n ts ss → Named ts → AllWritable (Stmt.exprsList ss)
  | .nil, _ => by
    rw [Stmt.exprsList]
    exact allWritable_nil
  | .cons hs hss, hnamed => by
    rw [named_append] at hnamed
    rw [Stmt.exprsList, allWritable_append]
    exact ⟨hs.allWritable hnamed.1, hss.allWritable hnamed.2⟩

end

section Source

open TokenStream Parse

variable {source file : String}

/-- An expression that is accepted has been read from the stream of its source. -/
theorem exists_read_of_parseExpr {e : Expr} (h : parseExpr source file = .ok e) :
    ∃ s u, ofCursor (.start source file) = .ok s ∧
      expr .standard maxDepth .lowest s = .ok e u ∧ u.current.kind = .endOfSource := by
  unfold parseExpr onSource at h
  cases hstream : ofCursor (.start source file) with
  | error e => simp only [hstream, reduceCtorEq] at h
  | ok s =>
    cases hresult : wholeExpr s with
    | error e u => simp only [hstream, hresult, reduceCtorEq] at h
    | ok e' u =>
      simp only [hstream, hresult, Except.ok.injEq] at h
      subst h
      obtain ⟨e, v, hread, hresult⟩ := bind_eq_ok_iff.mp hresult
      rw [peek_bind] at hresult
      by_cases hend : v.current.kind = .endOfSource
      · rw [if_pos hend] at hresult
        obtain ⟨rfl, rfl⟩ := pure_eq_ok_iff.mp hresult
        exact ⟨s, v, rfl, hread, hend⟩
      · rw [if_neg hend] at hresult
        exact absurd hresult (unexpected_ne_ok _ _ _)

/-- An expression that is accepted is one of the grammar. -/
theorem expression_of_parseExpr {e : Expr} (h : parseExpr source file = .ok e) :
    ∃ n ts last, maxDepth = n + 1 ∧ (Cursor.start source file).tokens = (ts, .ok last) ∧
      Expression n ts e := by
  obtain ⟨s, u, hstream, hread, hend⟩ := exists_read_of_parseExpr h
  obtain ⟨n, ts, hroom, hts, hderives, -⟩ :=
    readsExpr_expr maxDepth _ _ _ _ (proper_of_ofCursor hstream).1 hread
  exact ⟨n, ts, u.current, hroom, tokenize_eq_ok_iff.mp (tokenize_of_behind hstream hts hend),
    hderives⟩

/-- What the parser makes of a source can be written down, expression by expression. -/
theorem writable_of_parseExpr {e : Expr} (h : parseExpr source file = .ok e) :
    AllWritable e.parts := by
  obtain ⟨n, ts, last, -, htokens, hexpression⟩ := expression_of_parseExpr h
  have hnamed := named_tokens source file
  rw [htokens] at hnamed
  exact hexpression.allWritable hnamed

theorem writable_of_parseProgram {b : IntLang.Block} (h : parseProgram source file = .ok b) :
    AllWritable (Stmt.exprsList b.body) := by
  obtain ⟨ts, last, htokens, -, hprogram, -⟩ := program_of_parseProgram h
  have hnamed := named_tokens source file
  rw [tokenize_eq_ok_iff.mp htokens] at hnamed
  exact Statements.allWritable hprogram hnamed

end Source

end Grammar

end IntLang
