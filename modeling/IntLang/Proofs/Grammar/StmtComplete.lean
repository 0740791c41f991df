import IntLang.Proofs.Grammar.ExprComplete
import IntLang.Proofs.Grammar.StmtSound

/-!
What the grammar derives with every `else` at the nearest `if`, the readers of statements accept.
Behind a statement that could still take an `else` there must be none; between two statements there
never is, because no statement begins with one.
-/
namespace IntLang.Grammar

open Parse TokenStream

def beginsStatement (kind : TokenKind) : Bool :=
  (Rules.standard.stmt? kind).isSome || (Rules.standard.operand? kind).isSome

theorem Block.exists_head {n ts body} (h : Block n ts body) :
    ∃ t us, ts = t :: us ∧ t.kind = .openCurly := by
  cases h with
  | mk hopen => exact ⟨_, _, rfl, hopen⟩

theorem Statement.exists_head {n ts s} (h : Statement n ts s) :
    ∃ t us, ts = t :: us ∧ beginsStatement t.kind = true := by
  have hkind {t : Token} {kind : TokenKind} (ht : t.kind = kind)
      (hbegins : beginsStatement kind = true) : beginsStatement t.kind = true := by
    rwa [ht]
  cases h with
  | ifThen hword | ifElse hword | loop hword | ret hword | function hword =>
    exact ⟨_, _, rfl, hkind hword rfl⟩
  | assign hname => exact ⟨_, _, rfl, hkind hname rfl⟩
  | block hbody =>
    obtain ⟨t, us, rfl, hopen⟩ := hbody.exists_head
    exact ⟨t, us, rfl, hkind hopen rfl⟩
  | expressionNamed he | expression he =>
    obtain ⟨t, us, rfl, ht⟩ := he.exists_head
    refine ⟨t, _, rfl, ?_⟩
    unfold beginsStatement
    rw [ht, Bool.or_true]

/-- No statement begins with an `else`. -/
theorem Statements.front_ne_else {n ts ss rest} {last : Token} (h : Statements n ts ss)
    (hrest : (front last rest).current.kind ≠ .elseWord) :
    (front last (ts ++ rest)).current.kind ≠ .elseWord := by
  cases h with
  | nil => exact hrest
  | cons hs =>
    obtain ⟨t, us, rfl, ht⟩ := hs.exists_head
    intro hkind
    rw [List.cons_append, List.cons_append, current_front_cons] at hkind
    rw [hkind] at ht
    exact absurd ht (by decide)

mutual

theorem Factor.ne_assign {n ts e} : Factor n ts e → ∀ t ∈ ts, t.kind ≠ .assign
  | .number hkind _ | .string hkind | .var hkind => by
    intro t ht
    rw [List.mem_singleton] at ht
    rw [ht, hkind]
    decide
  | .call hkind hopen hargs hclose => by
    intro t ht
    have hnone := hargs.ne_assign
    simp only [List.mem_cons, List.mem_append, List.not_mem_nil, or_false] at ht
    rcases ht with rfl | rfl | ht | rfl
    · rw [hkind]; decide
    · rw [hopen]; decide
    · exact hnone t ht
    · rw [hclose]; decide
  | .group hopen he hclose => by
    intro t ht
    have hnone := he.ne_assign
    simp only [List.mem_cons, List.mem_append, List.not_mem_nil, or_false] at ht
    rcases ht with rfl | ht | rfl
    · rw [hopen]; decide
    · exact hnone t ht
    · rw [hclose]; decide

theorem Term.ne_assign {n ts e} : Term n ts e → ∀ t ∈ ts, t.kind ≠ .assign
  | .factor he => he.ne_assign
  | .product ha hsign hb => by
    intro t ht
    have hleft := ha.ne_assign
    have hright := hb.ne_assign
    simp only [List.mem_append, List.mem_cons] at ht
    rcases ht with ht | rfl | ht
    · exact hleft t ht
    · intro hassign
      rw [hassign] at hsign
      cases hsign
    · exact hright t ht

/-- No expression contains an assignment sign. -/
theorem Expression.ne_assign {n ts e} : Expression n ts e → ∀ t ∈ ts, t.kind ≠ .assign
  | .term he => he.ne_assign
  | .sum ha hsign hb => by
    intro t ht
    have hleft := ha.ne_assign
    have hright := hb.ne_assign
    simp only [List.mem_append, List.mem_cons] at ht
    rcases ht with ht | rfl | ht
    · exact hleft t ht
    · intro hassign
      rw [hassign] at hsign
      cases hsign
    · exact hright t ht

theorem Arguments.ne_assign {n ts es} : Arguments n ts es → ∀ t ∈ ts, t.kind ≠ .assign
  | .none => nofun
  | .one he => he.ne_assign
  | .more he hcomma hes => by
    intro t ht
    have hfirst := he.ne_assign
    have hmore := hes.ne_assign
    simp only [List.mem_append, List.mem_cons] at ht
    rcases ht with ht | rfl | ht
    · exact hfirst t ht
    · rw [hcomma]; decide
    · exact hmore t ht

end

section Readers

variable {last : Token}

/-- A reader of statements reads the tokens of a statement and stops behind them, in front of
whatever is no `else` that the statement takes. The spans do not depend on what that is. -/
def ReadsStatement (x : Parse Stmt) (ts : List Token) (s : Stmt) : Prop :=
  ∃ s', Stmt.bare s' = s.bare ∧ ∀ last rest,
    (s.takesElse = true → (front last rest).current.kind ≠ .elseWord) →
      x (front last (ts ++ rest)) = .ok s' (front last rest)

theorem not_atTighter_of_kind {t : Token} {kind : TokenKind} (hkind : t.kind = kind)
    (hlowest : Rules.standard.power kind = .lowest) (last : Token) (rest : List Token)
    (p : BindingPower) : ¬AtTighter (front last (t :: rest)) p :=
  not_atTighter_of_lowest (by rwa [hkind]) p

theorem Condition.readsTo {n ts e} (h : Condition n ts e) :
    ∃ e', Expr.bare e' = e.bare ∧ ∀ last rest,
      condition (expr .standard n) (front last (ts ++ rest)) = .ok e' (front last rest) := by
  cases h with
  | @mk n o ts c e hopen he hclose =>
    obtain ⟨e', hbare, hread⟩ := he.readsTo
    refine ⟨e', hbare, fun last rest => ?_⟩
    have hexpr := hread last (c :: rest) (not_atTighter_of_kind hclose rfl last rest _)
    unfold condition
    simp only [List.cons_append, List.append_assoc, List.nil_append]
    rw [expect_bind_front hopen, bind_of_ok hexpr, expect_bind_front hclose]
    rfl

theorem stmt_front {t : Token} {rule : StmtRule}
    (hrule : Rules.standard.stmt? t.kind = some rule) (room : Nat) (ts : List Token) :
    stmt .standard (room + 1) (front last (t :: ts)) =
      stmtBy .standard (expr .standard room) (stmt .standard room) rule (front last (t :: ts)) := by
  rw [stmt, stmtHere, peek_bind, current_front_cons]
  simp only [hrule]

theorem stmt_front_identifier {t : Token} (hkind : t.kind = .identifier) (room : Nat)
    (ts : List Token) :
    stmt .standard (room + 1) (front last (t :: ts)) =
      identifierStmt .standard (expr .standard room) (front last (t :: ts)) := by
  have hrule : Rules.standard.stmt? t.kind = none := by rw [hkind]; rfl
  rw [stmt, stmtHere, peek_bind, current_front_cons]
  simp only [hrule]
  rw [if_pos hkind]

theorem stmt_front_operand {t : Token} (ht : BeginsOperand t) (hkind : t.kind ≠ .identifier)
    (room : Nat) (ts : List Token) :
    stmt .standard (room + 1) (front last (t :: ts)) =
      (expr .standard room .lowest >>= endExpression) (front last (t :: ts)) := by
  have hrule : Rules.standard.stmt? t.kind = none := by
    revert ht
    unfold BeginsOperand
    generalize t.kind = kind
    cases kind <;> decide
  rw [stmt, stmtHere, peek_bind, current_front_cons]
  simp only [hrule]
  rw [if_neg hkind]

theorem endExpression_front {c : Token} (hclose : c.kind = .semicolon) (e : Expr)
    (rest : List Token) :
    endExpression e (front last (c :: rest)) =
      .ok (.expression e (e.span.through c.span)) (front last rest) := by
  unfold endExpression
  rw [expect_bind_front hclose]
  rfl

theorem not_contains_of_nodup {known names : List String} {name : String}
    (h : (known ++ name :: names).Nodup) : ¬known.contains name = true := by
  intro hmem
  have hdisjoint := (List.nodup_append.mp h).2.2
  exact hdisjoint name (List.contains_iff_mem.mp hmem) name (List.mem_cons_self ..) rfl

/-- The loop over parameters reads names that are new and do not repeat. -/
theorem Names.readsTo {ts new} (h : Names ts new) {rest : List Token}
    (hclose : (front last rest).current.kind = .closeParen) {n : Nat} {known : List String}
    (hn : (ts ++ rest).length ≤ n) (hnodup : (known ++ new).Nodup) :
    parameterRounds n known (front last (ts ++ rest)) = .ok (known ++ new) (front last rest) := by
  induction h generalizing n known with
  | @one t hkind =>
    simp only [List.cons_append, List.nil_append, List.length_cons] at hn ⊢
    obtain ⟨k, rfl⟩ : ∃ k, n = k + 1 := ⟨n - 1, by omega⟩
    have hcomma : (front last rest).current.kind ≠ .comma := by
      rw [hclose]
      decide
    rw [parameterRounds, expect_bind_front hkind, if_neg (not_contains_of_nodup hnodup), peek_bind,
      if_neg hcomma]
    rfl
  | @more t s ts names hkind hcomma hnames ih =>
    simp only [List.cons_append, List.length_cons] at hn ⊢
    obtain ⟨k, rfl⟩ : ∃ k, n = k + 1 := ⟨n - 1, by omega⟩
    have hnodup' : ((known ++ [t.text]) ++ names).Nodup := by
      rwa [List.append_assoc, List.singleton_append]
    have hlength : (ts ++ rest).length ≤ k := by omega
    have hread := ih hlength hnodup'
    rw [parameterRounds, expect_bind_front hkind, if_neg (not_contains_of_nodup hnodup), peek_bind,
      current_front_cons, if_pos hcomma, advance_bind_front, hread, List.append_assoc,
      List.singleton_append]

theorem Parameters.readsTo {ts names} (h : Parameters ts names) (hnodup : names.Nodup)
    {rest : List Token} (hclose : (front last rest).current.kind = .closeParen) :
    parameters (front last (ts ++ rest)) = .ok names (front last rest) := by
  unfold parameters
  cases h with
  | none =>
    rw [List.nil_append, peek_bind, if_pos hclose]
    rfl
  | some hnames =>
    have hkind : (front last (ts ++ rest)).current.kind ≠ .closeParen := by
      cases hnames with
      | one hkind | more hkind =>
        rw [List.cons_append, current_front_cons, hkind]
        decide
    rw [peek_bind, if_neg hkind, rounds_bind]
    exact hnames.readsTo hclose (length_le_rounds_front last _) hnodup

/-- An expression that begins with an identifier is read as a statement in the same way as on its
own, although its first name is taken before it is known to begin an expression. -/
theorem Expression.reads_named {n ts e} (he : Expression n ts e)
    (hnamed : BeginsWithIdentifier ts) :
    ∃ e', Expr.bare e' = e.bare ∧ Reads (expr .standard (n + 1) .lowest) .lowest ts e' ∧
      ∀ c, c.kind = .semicolon → ∀ last rest,
        stmt .standard (n + 1) (front last (ts ++ c :: rest)) =
          .ok (.expression e' (e'.span.through c.span)) (front last rest) := by
  obtain ⟨t, us, rfl, hkind⟩ := hnamed
  -- both ways the operators are read behind the same first operand
  obtain ⟨first, mid, e', hbare, hreads⟩ := he.loopsTo.exists_first (by decide)
  refine ⟨e', hbare, fun last rest hstop => ?_, fun c hclose last rest => ?_⟩
  · obtain ⟨hoperand, hoperators⟩ := hreads last rest hstop
    unfold expr
    rw [bind_of_ok hoperand, hoperators]
  · obtain ⟨hoperand, hoperators⟩ :=
      hreads last (c :: rest) (not_atTighter_of_kind hclose rfl last rest _)
    rw [List.cons_append, operand_front_identifier hkind] at hoperand
    have hassign : (front last (us ++ c :: rest)).current.kind ≠ .assign := by
      cases us with
      | nil =>
        rw [List.nil_append, current_front_cons, hclose]
        decide
      | cons u us => exact he.ne_assign u (by simp)
    rw [List.cons_append, stmt_front_identifier hkind, identifierStmt, expect_bind_front hkind,
      peek_bind, if_neg hassign, bind_of_ok hoperand, bind_of_ok hoperators,
      endExpression_front hclose]

mutual

/-- A reader of statements with a level left reads any statement of the grammar. -/
theorem Statement.readsTo {n ts s} :
    Statement n ts s → ElseNearest s → ReadsStatement (stmt .standard (n + 1)) ts s
  | @Statement.ifThen _ w _ ts _ _ _ hword htest hthen, hnear => by
    simp only [ElseNearest] at hnear
    obtain ⟨e', hebare, hcondition⟩ := htest.readsTo
    obtain ⟨s', hsbare, hread⟩ := hthen.readsTo hnear
    refine ⟨.ifThen e' s' (w.span.through s'.span), ?_, fun last rest hstop => ?_⟩
    · rw [Stmt.bare, Stmt.bare, hebare, hsbare]
    · have helse : (front last rest).current.kind ≠ .elseWord := hstop rfl
      have hrule : Rules.standard.stmt? w.kind = some .branch := by rw [hword]; rfl
      simp only [List.cons_append, List.append_assoc]
      rw [stmt_front hrule]
      change branch _ _ (front last (w :: _)) = _
      rw [branch, advance_bind_front, bind_of_ok (hcondition last (ts ++ rest)),
        bind_of_ok (hread last rest fun _ => helse), peek_bind, if_neg helse]
      rfl
  | @Statement.ifElse _ w _ ts x us _ _ _ _ hword htest hthen helse hrest, hnear => by
    simp only [ElseNearest] at hnear
    obtain ⟨htakes, hnear₁, hnear₂⟩ := hnear
    obtain ⟨e', hebare, hcondition⟩ := htest.readsTo
    obtain ⟨s', hbare₁, hread₁⟩ := hthen.readsTo hnear₁
    obtain ⟨r', hbare₂, hread₂⟩ := hrest.readsTo hnear₂
    refine ⟨.ifElse e' s' r' (w.span.through r'.span), ?_, fun last rest hstop => ?_⟩
    · rw [Stmt.bare, Stmt.bare, hebare, hbare₁, hbare₂]
    · have hrule : Rules.standard.stmt? w.kind = some .branch := by rw [hword]; rfl
      have hthen' := hread₁ last (x :: (us ++ rest)) (by rw [htakes]; nofun)
      have helse' := hread₂ last rest (by simpa only [Stmt.takesElse] using hstop)
      simp only [List.cons_append, List.append_assoc]
      rw [stmt_front hrule]
      change branch _ _ (front last (w :: _)) = _
      rw [branch, advance_bind_front, bind_of_ok (hcondition last (ts ++ x :: (us ++ rest))),
        bind_of_ok hthen', peek_bind, current_front_cons, if_pos helse, advance_bind_front,
        bind_of_ok helse']
      rfl
  | @Statement.loop _ w _ ts _ _ _ hword htest hbody, hnear => by
    simp only [ElseNearest] at hnear
    obtain ⟨e', hebare, hcondition⟩ := htest.readsTo
    obtain ⟨s', hsbare, hread⟩ := hbody.readsTo hnear
    refine ⟨.loop e' s' (w.span.through s'.span), ?_, fun last rest hstop => ?_⟩
    · rw [Stmt.bare, Stmt.bare, hebare, hsbare]
    · have hrule : Rules.standard.stmt? w.kind = some .loop := by rw [hword]; rfl
      have hbody' := hread last rest (by simpa only [Stmt.takesElse] using hstop)
      simp only [List.cons_append, List.append_assoc]
      rw [stmt_front hrule]
      change loop _ _ (front last (w :: _)) = _
      rw [loop, advance_bind_front, bind_of_ok (hcondition last (ts ++ rest)), bind_of_ok hbody']
      rfl
  | .ret (w := w) (c := c) hword he hclose, _ => by
    obtain ⟨e', hbare, hread⟩ := he.readsTo
    refine ⟨.ret e' (w.span.through c.span), by rw [Stmt.bare, Stmt.bare, hbare],
      fun last rest _ => ?_⟩
    have hrule : Rules.standard.stmt? w.kind = some .ret := by rw [hword]; rfl
    have hexpr := hread last (c :: rest) (not_atTighter_of_kind hclose rfl last rest _)
    simp only [List.cons_append, List.append_assoc, List.nil_append]
    rw [stmt_front hrule]
    change ret _ (front last (w :: _)) = _
    rw [ret, advance_bind_front, bind_of_ok hexpr, expect_bind_front hclose]
    rfl
  | @Statement.function _ w t _ _ c bs names _ _ _ hword hname hopen hnames hnodup hclose hbody,
      hnear => by
    simp only [ElseNearest] at hnear
    obtain ⟨b, hbare, hread⟩ := hbody.readsTo hnear
    refine ⟨.function t.text names b.body b.span (w.span.through b.span),
      by rw [Stmt.bare, Stmt.bare, hbare], fun last rest _ => ?_⟩
    have hfront : (front last (c :: (bs ++ rest))).current.kind = .closeParen := hclose
    have hparameters := hnames.readsTo hnodup hfront
    have hrule : Rules.standard.stmt? w.kind = some .function := by rw [hword]; rfl
    simp only [List.cons_append, List.append_assoc]
    rw [stmt_front hrule]
    change Parse.function _ (front last (w :: _)) = _
    rw [Parse.function, advance_bind_front, peek_bind, expectOr_bind_front hname,
      expect_bind_front hopen, bind_of_ok hparameters, expect_bind_front hclose,
      bind_of_ok (hread last rest)]
    rfl
  | .block hbody, hnear => by
    simp only [ElseNearest] at hnear
    obtain ⟨t, us, hts, hkind⟩ := hbody.exists_head
    obtain ⟨b, hbare, hread⟩ := hbody.readsTo hnear
    refine ⟨.block b.body b.span, by rw [Stmt.bare, Stmt.bare, hbare], fun last rest _ => ?_⟩
    have hrule : Rules.standard.stmt? t.kind = some .block := by rw [hkind]; rfl
    have hblock := hread last rest
    rw [hts, List.cons_append] at hblock ⊢
    rw [stmt_front hrule, stmtBy, bind_of_ok hblock]
    rfl
  | .assign (t := t) (c := c) hname hassign he hclose, _ => by
    obtain ⟨e', hbare, hread⟩ := he.readsTo
    refine ⟨.assign t.text e' (t.span.through c.span), by rw [Stmt.bare, Stmt.bare, hbare],
      fun last rest _ => ?_⟩
    have hexpr := hread last (c :: rest) (not_atTighter_of_kind hclose rfl last rest _)
    simp only [List.cons_append, List.append_assoc, List.nil_append]
    rw [stmt_front_identifier hname, identifierStmt, expect_bind_front hname, peek_bind,
      current_front_cons, if_pos hassign, advance_bind_front, bind_of_ok hexpr,
      expect_bind_front hclose]
    rfl
  | .expressionNamed (c := c) he hnamed hclose, _ => by
    obtain ⟨e', hbare, -, hread⟩ := he.reads_named hnamed
    refine ⟨.expression e' (e'.span.through c.span), by rw [Stmt.bare, Stmt.bare, hbare],
      fun last rest _ => ?_⟩
    rw [List.append_assoc]
    exact hread c hclose last rest
  | .expression (c := c) he hnamed hclose, _ => by
    obtain ⟨e', hbare, hread⟩ := he.readsTo
    refine ⟨.expression e' (e'.span.through c.span), by rw [Stmt.bare, Stmt.bare, hbare],
      fun last rest _ => ?_⟩
    have hexpr := hread last (c :: rest) (not_atTighter_of_kind hclose rfl last rest _)
    obtain ⟨t, us, rfl, ht⟩ := he.exists_head
    have hkind : t.kind ≠ .identifier := fun hkind => hnamed ⟨t, us, rfl, hkind⟩
    simp only [List.cons_append, List.append_assoc, List.nil_append] at hexpr ⊢
    rw [stmt_front_operand ht hkind, bind_of_ok hexpr, endExpression_front hclose]

theorem Block.readsTo {n ts body} : Block n ts body → ElsesNearest body →
    ∃ b, Stmt.bareList b.body = Stmt.bareList body ∧ ∀ last rest,
      block (stmt .standard n) (front last (ts ++ rest)) = .ok b (front last rest)
  | .mk (o := o) (c := c) hopen hbody hclose, hnear => by
    obtain ⟨body', hbare, hread⟩ := hbody.readsOn hnear
    refine ⟨⟨body', o.span.through c.span⟩, hbare, fun last rest => ?_⟩
    have hkind : (front last (c :: rest)).current.kind = .closeCurly := hclose
    simp only [List.cons_append, List.append_assoc, List.nil_append]
    obtain ⟨k, -, hrounds⟩ := hread last (c :: rest) (by rw [hkind]; decide) endsBlock
      (by decide) _ (length_le_rounds_front last _)
    rw [bind_of_ok (stmtsUntil_of_ends (by rw [hkind]; rfl) _ k), List.append_nil] at hrounds
    rw [block, expect_bind_front hopen, rounds_bind, bind_of_ok hrounds, expect_bind_front hclose]
    rfl

/-- A loop over statements reads as many as there are and goes on behind them. -/
theorem Statements.readsOn {n ts ss} : Statements n ts ss → ElsesNearest ss →
    ∃ ss', Stmt.bareList ss' = Stmt.bareList ss ∧ ∀ last rest,
      (front last rest).current.kind ≠ .elseWord →
        ∀ ends : TokenKind → Bool, (∀ kind, ends kind = true → beginsStatement kind = false) →
          ∀ m, (ts ++ rest).length ≤ m → ∃ k, rest.length ≤ k ∧
            stmtsUntil ends (stmt .standard n) m (front last (ts ++ rest)) =
              (stmtsUntil ends (stmt .standard n) k >>= fun more => pure (ss' ++ more))
                (front last rest)
  | .nil, _ => ⟨[], rfl, fun _ _ _ _ _ m hm => ⟨m, hm, by simp⟩⟩
  | @Statements.cons _ _ us _ _ hs hss, hnear => by
    simp only [ElsesNearest] at hnear
    obtain ⟨s', hbare, hread⟩ := hs.readsTo hnear.1
    obtain ⟨ss', hbares, hreads⟩ := hss.readsOn hnear.2
    refine ⟨s' :: ss', by simp only [Stmt.bareList, hbare, hbares], ?_⟩
    intro last rest helse ends hends m hm
    obtain ⟨t, vs, rfl, ht⟩ := hs.exists_head
    have helse' := hss.front_ne_else helse
    simp only [List.cons_append, List.append_assoc, List.length_cons, List.length_append] at hm
    obtain ⟨j, rfl⟩ : ∃ j, m = j + 1 := ⟨m - 1, by omega⟩
    have hlength : (us ++ rest).length ≤ j := by
      rw [List.length_append]
      omega
    have hgo : ¬ends t.kind = true := by
      intro hend
      rw [hends _ hend] at ht
      cases ht
    obtain ⟨k, hk, hmore⟩ := hreads last rest helse ends hends j hlength
    refine ⟨k, hk, ?_⟩
    rw [List.append_assoc, stmtsUntil, peek_bind, List.cons_append, current_front_cons,
      if_neg hgo, ← List.cons_append, bind_of_ok (hread last (us ++ rest) fun _ => helse')]
    rw [bind_congr_first hmore, bind_assoc]
    simp only [pure_bind, List.cons_append]

end

/-- A loop over statements stops behind them at a token that ends them. -/
theorem Statements.readsTo {n ts ss} (h : Statements n ts ss) (hnear : ElsesNearest ss) :
    ∃ ss', Stmt.bareList ss' = Stmt.bareList ss ∧ ∀ last rest,
      (front last rest).current.kind ≠ .elseWord →
        ∀ ends : TokenKind → Bool, (∀ kind, ends kind = true → beginsStatement kind = false) →
          ends (front last rest).current.kind = true → ∀ m, (ts ++ rest).length ≤ m →
            stmtsUntil ends (stmt .standard n) m (front last (ts ++ rest)) =
              .ok ss' (front last rest) := by
  obtain ⟨ss', hbare, hreads⟩ := h.readsOn hnear
  refine ⟨ss', hbare, fun last rest helse ends hends hend m hm => ?_⟩
  obtain ⟨k, -, hread⟩ := hreads last rest helse ends hends m hm
  rw [hread, bind_of_ok (stmtsUntil_of_ends hend _ k), List.append_nil]
  rfl

end Readers

end IntLang.Grammar
