import IntLang.Proofs.Grammar.ExprPrefix

/-!
The readers of statements look one token ahead, and where a token does not fit, the tokens in front
of it can be completed, like those of expressions. A statement that lacks a part gets an empty block
for it, and a parameter a fresh name.
-/
namespace IntLang.Grammar

open Parse TokenStream

/-- Readers of statements of which the first looks one token ahead and fails only behind tokens that
can be completed to a statement. -/
def AheadStmt (inner inner' : Parse Stmt) : Prop :=
  ∀ n s, s.Proper → s.pending.length < n →
    OneAhead (Completable (Phrase Statement)) n inner inner' s

def NewNames (known : List String) (ts : List Token) : Prop :=
  ∃ new, Names ts new ∧ (known ++ new).Nodup

def DistinctParameters (ts : List Token) : Prop := ∃ names, Parameters ts names ∧ names.Nodup

theorem expression_zero : Phrase Expression [zero] := Phrase.factor_zero.derives (p := .lowest)

theorem completable_statement_nil : Completable (Phrase Statement) [] :=
  .of_append [zero, semicolon] (by simp) (Phrase.expression expression_zero rfl)

section Readers

variable {room more : Nat} {sub sub' : BindingPower → Parse Expr}
variable {inner inner' : Parse Stmt} {s : TokenStream} {n : Nat}

theorem ahead_endExpression {us : List Token} {e : Expr} (hs : s.Proper)
    (he : Phrase Expression us) :
    OneAhead (fun ts => Completable (Phrase Statement) (us ++ ts)) n (endExpression e)
      (endExpression e) s := by
  unfold endExpression
  refine .expect_bind hs (by decide) ?_ fun c v _ hv => .pure hv.proper _
  rw [List.append_nil]
  exact .of_append [semicolon] (by simp) (.expression he rfl)

section Expressions

variable (hsub : ReadsExpr room sub) (hsub' : ReadsExpr more sub') (hahead : AheadExpr sub sub')
include hsub hahead

theorem ahead_condition (hs : s.Proper) (hn : s.pending.length < n) :
    OneAhead (Completable (Phrase Condition)) n (condition sub) (condition sub') s := by
  unfold condition
  refine .expect_bind hs (by decide) ?_ fun o v ho hv => ?_
  · exact .of_append [openParen, zero, closeParen] (by simp) (.condition rfl expression_zero rfl)
  refine (hahead _ n v hv.proper (hv.length_lt hn)).bind (fun ts h => ?_) fun e w he => ?_
  · exact h.within [o] [closeParen] (by simp) fun us hus => .condition ho hus rfl
  · obtain ⟨k, ts, -, hts, hderives, -⟩ := hsub _ _ _ _ hv.proper he
    refine ⟨ts, hts, .expect_bind hts.proper (by decide) ?_ fun c x _ hx => .pure hx.proper _⟩
    rw [List.append_nil]
    exact .of_append [closeParen] (by simp) (.condition ho ⟨_, _, hderives⟩ rfl)

theorem ahead_ret (hkind : s.current.kind = .returnWord) (hs : s.Proper)
    (hn : s.pending.length < n) :
    OneAhead (Completable (Phrase Statement)) n (ret sub) (ret sub') s := by
  unfold ret
  refine .advance_bind hs (by rw [hkind]; decide) fun v hv => ?_
  refine (hahead _ n v hv.proper (hv.length_lt hn)).bind (fun ts h => ?_) fun e w he => ?_
  · exact h.within [s.current] [semicolon] (by simp) fun us hus => .ret hkind hus rfl
  · obtain ⟨k, ts, -, hts, hderives, -⟩ := hsub _ _ _ _ hv.proper he
    refine ⟨ts, hts, .expect_bind hts.proper (by decide) ?_ fun c x _ hx => .pure hx.proper _⟩
    rw [List.append_nil]
    exact .of_append [semicolon] (by simp) (.ret hkind ⟨_, _, hderives⟩ rfl)

include hsub'

theorem ahead_identifierStmt (hs : s.Proper) (hn : s.pending.length < n) :
    OneAhead (Completable (Phrase Statement)) n (identifierStmt .standard sub)
      (identifierStmt .standard sub') s := by
  unfold identifierStmt
  refine .expect_bind hs (by decide) completable_statement_nil fun name v hname hv => ?_
  refine .peek_bind hv.proper ?_
  have hnv := hv.length_lt hn
  by_cases hassign : v.current.kind = .assign
  · rw [if_pos hassign, if_pos hassign]
    refine .advance_bind hv.proper (by rw [hassign]; decide) fun w hw => ?_
    refine (hahead _ n w hw.proper (hw.length_lt hnv)).bind (fun ts h => ?_) fun e x he => ?_
    · exact h.within [name, v.current] [semicolon] (by simp)
        fun us hus => .assign hname hassign hus rfl
    · obtain ⟨k, ts, -, hts, hderives, -⟩ := hsub _ _ _ _ hw.proper he
      refine ⟨ts, hts, .expect_bind hts.proper (by decide) ?_ fun c y _ hy => .pure hy.proper _⟩
      rw [List.append_nil]
      exact .of_append [semicolon] (by simp) (.assign hname hassign ⟨_, _, hderives⟩ rfl)
  · rw [if_neg hassign, if_neg hassign]
    refine (ahead_symbolTail hsub hsub' hahead hname hv.proper hnv).bind (fun ts h => ?_) ?_
    · exact h.within [] [semicolon] (by simp)
        fun us hus => .expression (hus.derives (p := .lowest)) rfl
    intro left w htail
    obtain ⟨us, hus, hfactor⟩ := factor_of_symbolTail hsub hname hv.proper htail
    refine ⟨us, hus, ?_⟩
    refine (ahead_operators hsub hsub' hahead hus.proper (hus.length_lt hnv)
      ⟨room, left, hfactor⟩).bind (fun ts h => ?_) fun e x hoperators => ?_
    · exact h.within [] [semicolon] (by simp) fun us hus => .expression hus rfl
    · obtain ⟨ts, hts, hderives, -⟩ := derives_of_operators hsub hus.proper hfactor hoperators
      refine ⟨ts, hts, (ahead_endExpression hts.proper ⟨room, e, hderives⟩).mono fun vs h => ?_⟩
      rwa [List.append_assoc] at h

end Expressions

section Parameters

theorem completable_newNames_nil {known : List String} (hknown : known.Nodup) :
    Completable (NewNames known) [] := by
  refine .of_append [freshName known] (by simp) ⟨_, .one rfl, ?_⟩
  refine nodup_concat_of_not_contains hknown fun hmem => ?_
  exact freshName_not_mem known (List.contains_iff_mem.mp hmem)

theorem ahead_parameterRounds {known : List String} (hs : s.Proper) (hn : s.pending.length < n)
    (hknown : known.Nodup) :
    OneAhead (Completable (NewNames known)) n (parameterRounds n known) (parameterRounds n known)
      s := by
  induction n generalizing s known with
  | zero => exact absurd hn (Nat.not_lt_zero _)
  | succ n ih =>
    unfold parameterRounds
    have hnil := completable_newNames_nil hknown
    refine .expect_bind_of_advance hs hnil fun hkind => ?_
    have hne : s.current.kind ≠ .endOfSource := by rw [hkind]; decide
    by_cases hmem : known.contains s.current.text = true
    · let e : Error := ⟨.misplacedToken s.current.text "duplicate parameter name",
        s.current.position⟩
      have hcause : e.cause ≠ .unexpectedEnd := Cause.noConfusion
      exact .advance_fail e e hs (.of_ne rfl hcause hne) hnil (if_pos hmem) (if_pos hmem) hne
    have hnew := nodup_concat_of_not_contains hknown hmem
    refine .bind_of_le (.advance hs hne) (fun _ => id) fun t v hadvance => ?_
    obtain ⟨rfl, hv⟩ := behind_of_advance hs hne hadvance
    refine ⟨[s.current], n, hv, by rw [List.length_singleton]; omega, ?_⟩
    rw [if_neg hmem]
    refine .peek_bind hv.proper ?_
    by_cases hcomma : v.current.kind = .comma
    · rw [if_pos hcomma]
      refine .advance_bind hv.proper (by rw [hcomma]; decide) fun w hw => ?_
      have hlength : w.pending.length < n := by
        have h₁ := hv.length
        have h₂ := hw.length
        rw [List.length_singleton] at h₁ h₂
        omega
      refine (ih hw.proper hlength hnew).mono fun ts h => h.behind [s.current, v.current] ?_
      rintro us ⟨new, hnames, hnodup⟩
      refine ⟨s.current.text :: new, .more hkind hcomma hnames, ?_⟩
      rwa [List.append_assoc, List.singleton_append] at hnodup
    · rw [if_neg hcomma]
      exact .pure hv.proper _

theorem ahead_parameters (hs : s.Proper) (hn : s.pending.length < n) :
    OneAhead (Completable DistinctParameters) n parameters parameters s := by
  unfold parameters
  refine .peek_bind hs ?_
  by_cases hnone : s.current.kind = .closeParen
  · rw [if_pos hnone]
    exact .pure hs _
  · rw [if_neg hnone]
    refine .rounds_bind hs hn (settled_parameterRounds []) (settled_parameterRounds []) ?_
    refine (ahead_parameterRounds hs hn List.nodup_nil).mono fun ts h => h.imp ?_
    rintro us ⟨new, hnames, hnodup⟩
    exact ⟨new, .some hnames, hnodup⟩

end Parameters

variable (hinner : ReadsStmt room inner) (hinner' : ReadsStmt more inner')
variable (hnested : AheadStmt inner inner')

section Blocks

include hinner hnested

theorem ahead_stmtsUntil {ends : TokenKind → Bool} (hends : ends .endOfSource = true)
    (hs : s.Proper) (hn : s.pending.length < n) :
    OneAhead (Completable (Phrase Statements)) n (stmtsUntil ends inner n)
      (stmtsUntil ends inner' n) s := by
  induction n generalizing s with
  | zero => exact absurd hn (Nat.not_lt_zero _)
  | succ n ih =>
    unfold stmtsUntil
    refine .peek_bind hs ?_
    by_cases hend : ends s.current.kind = true
    · rw [if_pos hend, if_pos hend]
      exact .pure hs _
    · rw [if_neg hend, if_neg hend]
      refine (hnested (n + 1) s hs hn).bind_of_le (fun ts h => h.imp fun us hus => ?_) ?_
      · rw [← List.append_nil us]
        exact hus.cons .nil
      intro first v hfirst
      obtain ⟨k, ts, -, hts, hstatement, -⟩ := hinner _ _ _ hs hfirst
      have hpos := List.length_pos_iff.mpr hstatement.ne_nil
      have hlength : v.pending.length < n := by
        have hlength := hts.length
        omega
      refine ⟨ts, n, hts, by omega, (ih hts.proper hlength).bind (fun us h => ?_) ?_⟩
      · exact h.behind ts fun vs hvs => .cons ⟨_, _, hstatement⟩ hvs
      · intro rest w hrest
        obtain ⟨us, hus, -⟩ := statements_of_stmtsUntil hinner hends hts.proper
          (Nat.le_of_lt hlength) hrest
        exact ⟨us, hus, .pure hus.proper _⟩

include hinner'

theorem ahead_block (hs : s.Proper) (hn : s.pending.length < n) :
    OneAhead (Completable (Phrase Block)) n (block inner) (block inner') s := by
  unfold Parse.block
  refine .expect_bind hs (by decide) ?_ fun o v ho hv => ?_
  · exact .of_append [openCurly, closeCurly] (by simp) Phrase.block_empty
  have hnv := hv.length_lt hn
  have hends : endsBlock .endOfSource = true := rfl
  refine .rounds_bind hv.proper hnv ((settled_stmtsUntil hinner hends).bind _)
    ((settled_stmtsUntil hinner' hends).bind _) ?_
  refine (ahead_stmtsUntil hinner hnested hends hv.proper hnv).bind (fun ts h => ?_) ?_
  · exact h.within [o] [closeCurly] (by simp) fun us hus => .block ho hus rfl
  · intro body w hbody
    obtain ⟨ts, hts, hstatements, -⟩ :=
      statements_of_stmtsUntil hinner hends hv.proper (Nat.le_of_lt hnv) hbody
    refine ⟨ts, hts, .expect_bind hts.proper (by decide) ?_ fun c x _ hx => .pure hx.proper _⟩
    rw [List.append_nil]
    exact .of_append [closeCurly] (by simp) (.block ho ⟨_, _, hstatements⟩ rfl)

theorem ahead_function (hkind : s.current.kind = .functionWord) (hs : s.Proper)
    (hn : s.pending.length < n) :
    OneAhead (Completable (Phrase Statement)) n (function inner) (function inner') s := by
  unfold function
  refine .advance_bind hs (by rw [hkind]; decide) fun v hv => .peek_bind hv.proper ?_
  have hnv := hv.length_lt hn
  refine .expectOr_bind hv.proper (by decide) (fun hne => .of_ne rfl nofun hne) ?_ ?_
  · exact .of_append [freshName [], openParen, closeParen, openCurly, closeCurly] (by simp)
      (.function hkind rfl rfl .none List.nodup_nil rfl .block_empty)
  intro name w hname hw
  have hnw := hw.length_lt hnv
  refine .expect_bind hw.proper (by decide) ?_ fun o x ho hx => ?_
  · exact .of_append [openParen, closeParen, openCurly, closeCurly] (by simp)
      (.function hkind hname rfl .none List.nodup_nil rfl .block_empty)
  have hnx := hx.length_lt hnw
  refine (ahead_parameters hx.proper hnx).bind (fun ts h => ?_) fun names y hnames => ?_
  · refine h.within [s.current, name, o] [closeParen, openCurly, closeCurly] (by simp) ?_
    rintro us ⟨names, hparameters, hnodup⟩
    exact .function hkind hname ho hparameters hnodup rfl .block_empty
  obtain ⟨ps, hps, hnodup, hparameters⟩ := parameters_of_parameters hx.proper hnames
  refine ⟨ps, hps, .expect_bind hps.proper (by decide) ?_ fun c z hc hz => ?_⟩
  · rw [List.append_nil]
    exact .of_append [closeParen, openCurly, closeCurly] (by simp)
      (.function hkind hname ho hparameters hnodup rfl .block_empty)
  have hnz := hz.length_lt (hps.length_lt hnx)
  refine (ahead_block hinner hinner' hnested hz.proper hnz).bind (fun ts h => ?_) fun b z' hb => ?_
  · have hbody := h.behind (s.current :: name :: o :: (ps ++ [c])) fun us hus => by
      simp only [List.cons_append, List.append_assoc, List.nil_append]
      exact Phrase.function hkind hname ho hparameters hnodup hc hus
    simpa only [List.cons_append, List.append_assoc, List.nil_append] using hbody
  · obtain ⟨bs, hbs, -⟩ := block_of_block hinner hz.proper hb
    exact ⟨bs, hbs, .pure hbs.proper _⟩

end Blocks

variable (hsub : ReadsExpr room sub) (hsub' : ReadsExpr more sub') (hahead : AheadExpr sub sub')

section Branches

include hsub hahead hinner hnested

theorem ahead_branch (hkind : s.current.kind = .ifWord) (hs : s.Proper)
    (hn : s.pending.length < n) :
    OneAhead (Completable (Phrase Statement)) n (branch sub inner) (branch sub' inner') s := by
  unfold branch
  refine .advance_bind hs (by rw [hkind]; decide) fun v hv => ?_
  have hnv := hv.length_lt hn
  refine (ahead_condition hsub hahead hv.proper hnv).bind (fun ts h => ?_) fun test x htest => ?_
  · refine h.within [s.current] [openCurly, closeCurly] (by simp) fun us hus => ?_
    rw [List.singleton_append]
    exact .ifThen hkind hus Phrase.block_empty.blockStatement
  obtain ⟨cs, hcs, hcondition⟩ := condition_of_condition hsub hv.proper htest
  have hnx := hcs.length_lt hnv
  refine ⟨cs, hcs, (hnested n x hcs.proper hnx).bind (fun ts h => ?_) fun first y hfirst => ?_⟩
  · exact h.behind (s.current :: cs) fun us hus => .ifThen hkind ⟨_, _, hcondition⟩ hus
  obtain ⟨k, ts, -, hts, hstatement, -⟩ := hinner _ _ _ hcs.proper hfirst
  have hny := hts.length_lt hnx
  refine ⟨ts, hts, .peek_bind hts.proper ?_⟩
  by_cases helse : y.current.kind = .elseWord
  · rw [if_pos helse, if_pos helse]
    refine .advance_bind hts.proper (by rw [helse]; decide) fun z hz => ?_
    refine (hnested n z hz.proper (hz.length_lt hny)).bind (fun us h => ?_) fun second z' hz' => ?_
    · have hrest := h.behind (s.current :: (cs ++ (ts ++ [y.current]))) fun us hus => by
        simp only [List.cons_append, List.append_assoc, List.nil_append]
        exact Phrase.ifElse hkind ⟨_, _, hcondition⟩ ⟨_, _, hstatement⟩ helse hus
      simpa only [List.cons_append, List.append_assoc, List.nil_append] using hrest
    · obtain ⟨k, us, -, hus, -⟩ := hinner _ _ _ hz.proper hz'
      exact ⟨us, hus, .pure hus.proper _⟩
  · rw [if_neg helse, if_neg helse]
    exact .pure hts.proper _

theorem ahead_loop (hkind : s.current.kind = .whileWord) (hs : s.Proper)
    (hn : s.pending.length < n) :
    OneAhead (Completable (Phrase Statement)) n (loop sub inner) (loop sub' inner') s := by
  unfold loop
  refine .advance_bind hs (by rw [hkind]; decide) fun v hv => ?_
  have hnv := hv.length_lt hn
  refine (ahead_condition hsub hahead hv.proper hnv).bind (fun ts h => ?_) fun test x htest => ?_
  · refine h.within [s.current] [openCurly, closeCurly] (by simp) fun us hus => ?_
    rw [List.singleton_append]
    exact .loop hkind hus Phrase.block_empty.blockStatement
  obtain ⟨cs, hcs, hcondition⟩ := condition_of_condition hsub hv.proper htest
  refine ⟨cs, hcs, (hnested n x hcs.proper (hcs.length_lt hnv)).bind (fun ts h => ?_) ?_⟩
  · exact h.behind (s.current :: cs) fun us hus => .loop hkind ⟨_, _, hcondition⟩ hus
  · intro body y hbody
    obtain ⟨k, ts, -, hts, -⟩ := hinner _ _ _ hcs.proper hbody
    exact ⟨ts, hts, .pure hts.proper _⟩

end Branches

include hsub hahead hinner hinner' hnested

theorem ahead_stmtBy {rule : StmtRule} (hrule : Rules.standard.stmt? s.current.kind = some rule)
    (hs : s.Proper) (hn : s.pending.length < n) :
    OneAhead (Completable (Phrase Statement)) n (stmtBy .standard sub inner rule)
      (stmtBy .standard sub' inner' rule) s := by
  rcases stmt?_cases hrule with
    ⟨rfl, hkind⟩ | ⟨rfl, hkind⟩ | ⟨rfl, hkind⟩ | ⟨rfl, hkind⟩ | rfl
  · exact ahead_branch hinner hnested hsub hahead hkind hs hn
  · exact ahead_loop hinner hnested hsub hahead hkind hs hn
  · exact ahead_ret hsub hahead hkind hs hn
  · exact ahead_function hinner hinner' hnested hkind hs hn
  · refine (ahead_block hinner hinner' hnested hs hn).bind (fun ts h => ?_) fun b v hb => ?_
    · exact h.imp fun us hus => hus.blockStatement
    · obtain ⟨ts, hts, -⟩ := block_of_block hinner hs hb
      exact ⟨ts, hts, .pure hts.proper _⟩

include hsub'

theorem ahead_stmtHere (hs : s.Proper) (hn : s.pending.length < n) :
    OneAhead (Completable (Phrase Statement)) n (stmtHere .standard sub inner)
      (stmtHere .standard sub' inner') s := by
  unfold stmtHere
  refine .peek_bind hs ?_
  dsimp only
  cases hrule : Rules.standard.stmt? s.current.kind with
  | some rule => exact ahead_stmtBy hinner hinner' hnested hsub hahead hrule hs hn
  | none =>
    dsimp only
    by_cases hkind : s.current.kind = .identifier
    · rw [if_pos hkind, if_pos hkind]
      exact ahead_identifierStmt hsub hsub' hahead hs hn
    · rw [if_neg hkind, if_neg hkind]
      refine (hahead _ n s hs hn).bind (fun ts h => ?_) fun e v he => ?_
      · exact h.within [] [semicolon] (by simp) fun us hus => .expression hus rfl
      · obtain ⟨k, ts, -, hts, hderives, -⟩ := hsub _ _ _ _ hs he
        exact ⟨ts, hts, ahead_endExpression hts.proper ⟨k, e, hderives⟩⟩

end Readers

/-- The reader of statements looks one token ahead, and if a token does not fit, the tokens in front
of it can be completed. -/
theorem ahead_stmt {room more : Nat} (hle : room ≤ more) :
    AheadStmt (stmt .standard room) (stmt .standard more) := by
  induction room generalizing more with
  | zero => exact fun n s _ _ => .tooDeep _
  | succ room ih =>
    obtain ⟨more, rfl⟩ : ∃ k, more = k + 1 := ⟨more - 1, by omega⟩
    have hle : room ≤ more := by omega
    intro n s hs hn
    exact ahead_stmtHere (readsStmt_stmt room) (readsStmt_stmt more) (ih hle)
      (readsExpr_expr room) (readsExpr_expr more) (ahead_expr hle) hs hn

end IntLang.Grammar
