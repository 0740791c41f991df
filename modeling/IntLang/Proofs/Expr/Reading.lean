import IntLang.Proofs.Expr.Pieces
import IntLang.Proofs.Grammar.Room

/-!
Printed expressions are read back. The tokens of a printed expression derive it, with as many
nesting levels as its parentheses need. A reader with that many levels therefore reads the
expression up to spans, and the parser, which may have fewer, does the same or lacks a level.
-/
namespace IntLang

namespace Grammar

/-- An operator in parentheses between two factors is a factor. -/
theorem factor_of_binary {n : Nat} {o s c : Token} {ts us : List Token} {operator : Operator}
    {a b : Expr} {span : Span} (hopen : o.kind = .openParen) (ha : Factor n ts a)
    (hsign : s.kind = operator.kind) (hb : Factor n us b) (hclose : c.kind = .closeParen) :
    Factor (n + 2) (o :: (ts ++ s :: (us ++ [c]))) (.binary operator a b span) := by
  have hleft : Term (n + 1) ts a := .factor (ha.mono (Nat.le_succ n))
  have hsum : ∀ {k}, SumSign s.kind k → Expression (n + 1) (ts ++ s :: us) (.binary k a b span) :=
    fun hk => .sum (.term hleft) hk (.factor hb)
  have hproduct : ∀ {k}, ProductSign s.kind k →
      Expression (n + 1) (ts ++ s :: us) (.binary k a b span) :=
    fun hk => .term (.product hleft hk hb)
  have hexpression : Expression (n + 1) (ts ++ s :: us) (.binary operator a b span) := by
    cases operator with
    | add => exact hsum (by rw [hsign]; exact .plus)
    | subtract => exact hsum (by rw [hsign]; exact .dash)
    | multiply => exact hproduct (by rw [hsign]; exact .star)
    | divide => exact hproduct (by rw [hsign]; exact .slash)
  have hgroup := Factor.group hopen hexpression hclose
  rwa [List.append_assoc, List.cons_append] at hgroup

theorem factor_of_number {n : Nat} {t : Token} {value : Int64} {span : Span}
    (hkind : t.kind = .number) (hbound : decimalValue t.text.toList < integerBound)
    (hvalue : Int64.ofNat (decimalValue t.text.toList) = value) :
    Factor n [t] (.number value span) := by
  rw [← hvalue]
  exact .number hkind hbound

mutual

/-- With enough levels the tokens of a printed expression are a factor for it. -/
theorem exists_factor_pieces {e : Expr} (h : Expr.AllLegible e.parts) (lead : List Char) :
    ∃ n, ∀ file offset, Factor n (tokensAt file offset (e.pieces lead)) e := by
  match e with
  | .number value span =>
    rw [Expr.parts, Expr.allLegible_cons] at h
    obtain ⟨hbound, hvalue⟩ := decimalValue_toString h.1
    refine ⟨0, fun file offset => ?_⟩
    rw [Expr.pieces]
    exact factor_of_number rfl hbound hvalue
  | .string text span =>
    refine ⟨0, fun file offset => ?_⟩
    rw [Expr.pieces]
    exact Factor.string rfl
  | .var name span =>
    refine ⟨0, fun file offset => ?_⟩
    rw [Expr.pieces]
    exact Factor.var rfl
  | .binary operator left right span =>
    rw [Expr.parts, Expr.allLegible_cons, Expr.allLegible_append] at h
    obtain ⟨n, hleft⟩ := exists_factor_pieces h.2.1 []
    obtain ⟨m, hright⟩ := exists_factor_pieces h.2.2 [' ']
    refine ⟨max n m + 2, fun file offset => ?_⟩
    rw [Expr.pieces]
    simp only [tokensAt, tokensAt_append]
    exact factor_of_binary rfl ((hleft file _).mono (Nat.le_max_left n m)) rfl
      ((hright file _).mono (Nat.le_max_right n m)) rfl
  | .call callee arguments span =>
    rw [Expr.parts, Expr.allLegible_cons] at h
    obtain ⟨n, harguments⟩ := exists_arguments_pieces h.2 []
    refine ⟨n, fun file offset => ?_⟩
    rw [Expr.pieces]
    simp only [tokensAt, tokensAt_append]
    exact Factor.call rfl rfl (harguments file _) rfl

theorem exists_arguments_pieces {es : List Expr} (h : Expr.AllLegible (Expr.partsList es))
    (lead : List Char) :
    ∃ n, ∀ file offset, Arguments n (tokensAt file offset (Expr.piecesList lead es)) es := by
  match es with
  | [] =>
    refine ⟨0, fun file offset => ?_⟩
    rw [Expr.piecesList]
    exact .none
  | [e] =>
    rw [Expr.partsList, Expr.partsList, List.append_nil] at h
    obtain ⟨n, he⟩ := exists_factor_pieces h lead
    refine ⟨n + 1, fun file offset => ?_⟩
    rw [Expr.piecesList]
    exact .one (.term (.factor (he file _)))
  | e :: f :: es =>
    rw [Expr.partsList, Expr.allLegible_append] at h
    obtain ⟨n, he⟩ := exists_factor_pieces h.1 lead
    obtain ⟨m, hes⟩ := exists_arguments_pieces h.2 [' ']
    refine ⟨max n m + 1, fun file offset => ?_⟩
    rw [Expr.piecesList]
    simp only [tokensAt, tokensAt_append]
    exact .more (.term (.factor ((he file _).mono (Nat.le_max_left n m)))) rfl
      ((hes file _).mono (by omega))

end

open Parse TokenStream

variable {e : Expr}

/-- The tokens of a printed expression are those of its pieces. -/
theorem tokenize_print (h : Expr.AllLegible e.parts) (file : String) :
    tokenize e.print file = .ok (tokensAt file 0 (e.pieces []) ++ [⟨.endOfSource, "EOF",
      ⟨file, byteLength e.print.toList, byteLength e.print.toList⟩⟩]) := by
  have hsplit : Split (e.pieces []) [] := Expr.split_pieces h (fun _ => .nil) nofun
  refine tokenize_of_split ?_ hsplit .nil file
  rw [Expr.sourceOf_pieces, List.append_nil, List.nil_append]

/-- The parser reads an expression of the grammar that takes up a whole source, unless there are not
enough levels for it. -/
theorem parseExpr_of_expression {source file : String} {n : Nat} {ts : List Token} {last : Token}
    (htokens : tokenize source file = .ok (ts ++ [last])) (he : Expression n ts e) :
    (∃ e', parseExpr source file = .ok e' ∧ e'.bare = e.bare) ∨
      ∃ p, parseExpr source file = .error ⟨.nestingTooDeep maxDepth, p⟩ := by
  have hcursor := tokenize_eq_ok_iff.mp htokens
  have hstream := ofCursor_eq_front hcursor
  have hlast : (front last []).current.kind = .endOfSource :=
    (Cursor.start source file).kind_tokens.2 last (by rw [hcursor])
  have hlevels := he.mono (Nat.le_max_left n maxDepth)
  obtain ⟨e', hbare, hreads⟩ := hlevels.readsTo
  have hread := hreads last [] (not_atTighter_of_end hlast _)
  rw [List.append_nil] at hread
  have hle : maxDepth ≤ max n maxDepth + 1 := by omega
  rcases narrower_expr .standard hle .lowest (front last ts) with ⟨p, u, hdeep⟩ | hsame
  · refine Or.inr ⟨p, ?_⟩
    have hwhole : wholeExpr (front last ts) = .error ⟨.nestingTooDeep maxDepth, p⟩ u := by
      change EStateM.bind _ _ _ = _
      unfold EStateM.bind
      rw [hdeep]
    simp only [parseExpr, onSource, hstream, hwhole]
  · refine Or.inl ⟨e', ?_, hbare⟩
    rw [hread] at hsame
    have hwhole : wholeExpr (front last ts) = .ok e' (front last []) := by
      unfold wholeExpr
      rw [bind_of_ok hsame, peek_bind, if_pos hlast]
      rfl
    simp only [parseExpr, onSource, hstream, hwhole]

/-- The expressions that come out of the parser, from sources of one expression and from programs.
Those that occur inside such an expression or such a program are included. -/
def Parsed (e : Expr) : Prop :=
  (∃ source file whole, parseExpr source file = .ok whole ∧ e ∈ whole.parts) ∨
    ∃ source file b, parseProgram source file = .ok b ∧ e ∈ Stmt.exprsList b.body

/-- The parser makes only expressions that can be written down. -/
theorem Parsed.writable (h : Parsed e) : AllWritable e.parts := by
  rcases h with ⟨source, file, whole, hparse, hmem⟩ | ⟨source, file, b, hparse, hmem⟩
  · have hsubset := whole.closed_parts e hmem
    exact fun x hx => writable_of_parseExpr hparse x (hsubset hx)
  · have hsubset := Stmt.closed_exprsList b.body e hmem
    exact fun x hx => writable_of_parseProgram hparse x (hsubset hx)

/-- A parsed expression whose strings are shown without code points is read back from its printed
form, equal up to spans, or the parser lacks levels for the printed parentheses. -/
theorem parseExpr_print (h : Parsed e)
    (hshown : ∀ text span, .string text span ∈ e.parts → ∀ c ∈ text.toList, ¬WrittenByCode c)
    (file : String) :
    (∃ e', parseExpr e.print file = .ok e' ∧ e'.bare = e.bare) ∨
      ∃ p, parseExpr e.print file = .error ⟨.nestingTooDeep maxDepth, p⟩ := by
  have hlegible : Expr.AllLegible e.parts := by
    intro x hx
    cases x with
    | string text span => exact hshown text span hx
    | number | var | binary | call => exact h.writable _ hx
  obtain ⟨n, hfactor⟩ := exists_factor_pieces hlegible []
  exact parseExpr_of_expression (tokenize_print hlegible file)
    (.term (.factor (hfactor file 0)))

/-- A difference with a call is read back from its printed form, where it stands in parentheses. -/
theorem parseExpr_print_difference :
    ∃ e', parseExpr "(a - f(1, \"\\t\"))" "g" = .ok e' ∧
      e'.bare = .binary .subtract (.var "a" .blank)
        (.call "f" [.number 1 .blank, .string "\t" .blank] .blank) .blank := by
  let e : Expr := .binary .subtract (.var "a" ⟨"f", 0, 1⟩)
    (.call "f" [.number 1 ⟨"f", 6, 7⟩, .string "\t" ⟨"f", 9, 13⟩] ⟨"f", 4, 14⟩) ⟨"f", 0, 14⟩
  have htokens : tokenize "a - f(1, \"\\t\")" "f" = .ok ([⟨.identifier, "a", ⟨"f", 0, 1⟩⟩,
      ⟨.dash, "-", ⟨"f", 2, 3⟩⟩, ⟨.identifier, "f", ⟨"f", 4, 5⟩⟩, ⟨.openParen, "(", ⟨"f", 5, 6⟩⟩,
      ⟨.number, "1", ⟨"f", 6, 7⟩⟩, ⟨.comma, ",", ⟨"f", 7, 8⟩⟩, ⟨.string, "\t", ⟨"f", 9, 13⟩⟩,
      ⟨.closeParen, ")", ⟨"f", 13, 14⟩⟩] ++ [⟨.endOfSource, "EOF", ⟨"f", 14, 14⟩⟩]) := by
    decide +kernel
  have hparse : parseExpr "a - f(1, \"\\t\")" "f" = .ok e := by
    simp only [parseExpr, onSource, ofCursor_eq_front (tokenize_eq_ok_iff.mp htokens)]
    rfl
  have hparsed : Parsed e := Or.inl ⟨_, _, e, hparse, List.mem_cons_self ..⟩
  have hshown : ∀ text span, .string text span ∈ e.parts → ∀ c ∈ text.toList, ¬WrittenByCode c := by
    intro text span hmem
    simp only [e, Expr.parts, Expr.partsList, List.mem_cons, List.mem_append, List.not_mem_nil,
      reduceCtorEq, Expr.string.injEq, or_false, false_or] at hmem
    obtain ⟨rfl, -⟩ := hmem
    intro c hc hcode
    obtain rfl : c = '\t' := List.mem_singleton.mp hc
    have hprefix : ['\\', 'u', '{'] <+: ['\\', 't'] := hcode
    simp at hprefix
  rcases parseExpr_print hparsed hshown "g" with ⟨e', hread, hbare⟩ | ⟨p, hdeep⟩
  · exact ⟨e', hread, hbare⟩
  · have hread : (parseExpr e.print "g").toBool = true := by decide +kernel
    rw [hdeep] at hread
    cases hread

end Grammar

end IntLang
