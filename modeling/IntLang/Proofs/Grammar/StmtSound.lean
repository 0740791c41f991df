import IntLang.Grammar.Stmt
import IntLang.Proofs.Grammar.Else
import IntLang.Proofs.Grammar.ExprSound

/-!
What the readers of statements accept is derived by the grammar, with every `else` at the nearest
`if`. A reader takes an `else` as soon as it stands at one, so behind a statement that could still
take an `else` there is none.
-/
namespace IntLang.Grammar

open Parse TokenStream

theorem Statement.ne_nil {n ts s} (h : Statement n ts s) : ts ≠ [] := by
  cases h with
  | block hbody =>
    cases hbody
    simp
  | _ => simp

/-- A reader that takes statements of the grammar, one of the given number of levels being their
own, and every `else` that it can take. -/
def ReadsStmt (room : Nat) (inner : Parse Stmt) : Prop :=
  ∀ s st u, s.Proper → inner s = .ok st u →
    ∃ n ts, room = n + 1 ∧ s.Behind ts u ∧ Statement n ts st ∧ ElseNearest st ∧
      (st.takesElse = true → u.current.kind ≠ .elseWord)

theorem nodup_concat_of_not_contains {names : List String} {name : String} (h : names.Nodup)
    (hnew : ¬names.contains name = true) : (names ++ [name]).Nodup := by
  have hnot : name ∉ names := fun hin => hnew (List.contains_iff_mem.mpr hin)
  refine List.nodup_append.mpr ⟨h, by simp, fun a ha b hb => ?_⟩
  rw [List.mem_singleton] at hb
  rintro rfl
  exact hnot (hb ▸ ha)

/-- The kinds of token that begin a statement of a special form. -/
theorem stmt?_cases {kind : TokenKind} {rule : StmtRule}
    (h : Rules.standard.stmt? kind = some rule) :
    rule = .branch ∧ kind = .ifWord ∨ rule = .loop ∧ kind = .whileWord ∨
      rule = .ret ∧ kind = .returnWord ∨ rule = .function ∧ kind = .functionWord ∨
        rule = .block := by
  revert h
  cases kind <;> cases rule <;> decide

def StatementRead (room : Nat) (s u : TokenStream) (st : Stmt) : Prop :=
  ∃ ts, s.Behind ts u ∧ Statement room ts st ∧ ElseNearest st ∧
    (st.takesElse = true → u.current.kind ≠ .elseWord)

section Readers

variable {room : Nat} {sub : BindingPower → Parse Expr} (hsub : ReadsExpr room sub)
variable {inner : Parse Stmt} (hinner : ReadsStmt room inner)
variable {s u : TokenStream} {st : Stmt}

/-- The semicolon behind an expression statement that opens no level for its expression. -/
theorem statementRead_of_endExpression {v : TokenStream} {us : List Token} {e : Expr}
    (hus : s.Behind us v) (he : Expression room us e) (hnamed : BeginsWithIdentifier us)
    (h : endExpression e v = .ok st u) : StatementRead room s u st := by
  unfold endExpression at h
  obtain ⟨c, w, hclose, h⟩ := bind_eq_ok_iff.mp h
  obtain ⟨rfl, rfl⟩ := pure_eq_ok_iff.mp h
  obtain ⟨hckind, hc⟩ := behind_of_expect hus.proper (by decide) hclose
  exact ⟨us ++ [c], hus.trans hc, .expressionNamed he hnamed hckind,
    by simp only [ElseNearest], nofun⟩

include hsub

theorem statementRead_of_identifierStmt (hs : s.Proper)
    (h : identifierStmt .standard sub s = .ok st u) : StatementRead room s u st := by
  unfold identifierStmt at h
  obtain ⟨name, v, hname, h⟩ := bind_eq_ok_iff.mp h
  obtain ⟨hkind, hv⟩ := behind_of_expect hs (by decide) hname
  rw [peek_bind] at h
  by_cases hassign : v.current.kind = .assign
  · rw [if_pos hassign] at h
    obtain ⟨sign, w, hadvance, h⟩ := bind_eq_ok_iff.mp h
    obtain ⟨rfl, hw⟩ := behind_of_advance hv.proper (by rw [hassign]; decide) hadvance
    obtain ⟨value, x, hvalue, h⟩ := bind_eq_ok_iff.mp h
    obtain ⟨n, ts, rfl, hts, hderives, -⟩ := hsub _ _ _ _ hw.proper hvalue
    obtain ⟨c, y, hclose, h⟩ := bind_eq_ok_iff.mp h
    obtain ⟨hckind, hc⟩ := behind_of_expect hts.proper (by decide) hclose
    obtain ⟨rfl, rfl⟩ := pure_eq_ok_iff.mp h
    exact ⟨[name] ++ ([v.current] ++ (ts ++ [c])), hv.trans (hw.trans (hts.trans hc)),
      .assign hkind hassign hderives hckind, by simp only [ElseNearest], nofun⟩
  · rw [if_neg hassign] at h
    obtain ⟨left, w, htail, h⟩ := bind_eq_ok_iff.mp h
    obtain ⟨us, hus, hfactor⟩ := factor_of_symbolTail hsub hkind hv.proper htail
    obtain ⟨e, x, hoperators, h⟩ := bind_eq_ok_iff.mp h
    obtain ⟨ts, hts, hderives, -⟩ := derives_of_operators hsub hus.proper hfactor hoperators
    have hbehind : s.Behind (name :: us ++ ts) x := hv.trans (hus.trans hts)
    exact statementRead_of_endExpression hbehind hderives ⟨name, us ++ ts, rfl, hkind⟩ h

theorem condition_of_condition {e : Expr} (hs : s.Proper) (h : condition sub s = .ok e u) :
    ∃ ts, s.Behind ts u ∧ Condition room ts e := by
  unfold condition at h
  obtain ⟨o, v, hopen, h⟩ := bind_eq_ok_iff.mp h
  obtain ⟨hokind, ho⟩ := behind_of_expect hs (by decide) hopen
  obtain ⟨e, w, he, h⟩ := bind_eq_ok_iff.mp h
  obtain ⟨n, ts, rfl, hts, hderives, -⟩ := hsub _ _ _ _ ho.proper he
  obtain ⟨c, x, hclose, h⟩ := bind_eq_ok_iff.mp h
  obtain ⟨hckind, hc⟩ := behind_of_expect hts.proper (by decide) hclose
  obtain ⟨rfl, rfl⟩ := pure_eq_ok_iff.mp h
  exact ⟨[o] ++ (ts ++ [c]), ho.trans (hts.trans hc), .mk hokind hderives hckind⟩

theorem statementRead_of_ret (hkind : s.current.kind = .returnWord) (hs : s.Proper)
    (h : ret sub s = .ok st u) : StatementRead room s u st := by
  unfold ret at h
  obtain ⟨w, v, hword, h⟩ := bind_eq_ok_iff.mp h
  obtain ⟨rfl, hw⟩ := behind_of_advance hs (by rw [hkind]; decide) hword
  obtain ⟨e, x, he, h⟩ := bind_eq_ok_iff.mp h
  obtain ⟨n, ts, rfl, hts, hderives, -⟩ := hsub _ _ _ _ hw.proper he
  obtain ⟨c, y, hclose, h⟩ := bind_eq_ok_iff.mp h
  obtain ⟨hckind, hc⟩ := behind_of_expect hts.proper (by decide) hclose
  obtain ⟨rfl, rfl⟩ := pure_eq_ok_iff.mp h
  exact ⟨[s.current] ++ (ts ++ [c]), hw.trans (hts.trans hc), .ret hkind hderives hckind,
    by simp only [ElseNearest], nofun⟩

include hinner

theorem statementRead_of_branch (hkind : s.current.kind = .ifWord) (hs : s.Proper)
    (h : branch sub inner s = .ok st u) : StatementRead room s u st := by
  unfold branch at h
  obtain ⟨w, v, hword, h⟩ := bind_eq_ok_iff.mp h
  obtain ⟨rfl, hw⟩ := behind_of_advance hs (by rw [hkind]; decide) hword
  obtain ⟨test, x, htest, h⟩ := bind_eq_ok_iff.mp h
  obtain ⟨cs, hcs, hcondition⟩ := condition_of_condition hsub hw.proper htest
  obtain ⟨first, y, hfirst, h⟩ := bind_eq_ok_iff.mp h
  obtain ⟨n, ts, rfl, hts, hstatement, hnear, hstop⟩ := hinner _ _ _ hcs.proper hfirst
  rw [peek_bind] at h
  by_cases helse : y.current.kind = .elseWord
  · rw [if_pos helse] at h
    obtain ⟨word, z, hadvance, h⟩ := bind_eq_ok_iff.mp h
    obtain ⟨rfl, hz⟩ := behind_of_advance hts.proper (by rw [helse]; decide) hadvance
    obtain ⟨second, x', hsecond, h⟩ := bind_eq_ok_iff.mp h
    obtain ⟨k, us, hk, hus, hstatement', hnear', hstop'⟩ := hinner _ _ _ hz.proper hsecond
    obtain rfl : n = k := by omega
    obtain ⟨rfl, rfl⟩ := pure_eq_ok_iff.mp h
    have htakes : first.takesElse = false := by
      cases htakes : first.takesElse with
      | false => rfl
      | true => exact absurd helse (hstop htakes)
    refine ⟨[s.current] ++ (cs ++ (ts ++ ([y.current] ++ us))),
      hw.trans (hcs.trans (hts.trans (hz.trans hus))),
      .ifElse hkind hcondition hstatement helse hstatement', ?_, ?_⟩
    · simpa only [ElseNearest] using And.intro htakes ⟨hnear, hnear'⟩
    · simpa only [Stmt.takesElse] using hstop'
  · rw [if_neg helse] at h
    obtain ⟨rfl, rfl⟩ := pure_eq_ok_iff.mp h
    exact ⟨s.current :: (cs ++ ts), hw.trans (hcs.trans hts),
      .ifThen hkind hcondition hstatement, by simpa only [ElseNearest] using hnear,
      fun _ => helse⟩

theorem statementRead_of_loop (hkind : s.current.kind = .whileWord) (hs : s.Proper)
    (h : loop sub inner s = .ok st u) : StatementRead room s u st := by
  unfold loop at h
  obtain ⟨w, v, hword, h⟩ := bind_eq_ok_iff.mp h
  obtain ⟨rfl, hw⟩ := behind_of_advance hs (by rw [hkind]; decide) hword
  obtain ⟨test, x, htest, h⟩ := bind_eq_ok_iff.mp h
  obtain ⟨cs, hcs, hcondition⟩ := condition_of_condition hsub hw.proper htest
  obtain ⟨body, y, hbody, h⟩ := bind_eq_ok_iff.mp h
  obtain ⟨n, ts, rfl, hts, hstatement, hnear, hstop⟩ := hinner _ _ _ hcs.proper hbody
  obtain ⟨rfl, rfl⟩ := pure_eq_ok_iff.mp h
  refine ⟨s.current :: (cs ++ ts), hw.trans (hcs.trans hts), .loop hkind hcondition hstatement,
    by simpa only [ElseNearest] using hnear, ?_⟩
  simpa only [Stmt.takesElse] using hstop

omit hsub hinner

theorem stmtsUntil_of_ends {ends : TokenKind → Bool} (h : ends s.current.kind = true)
    (inner : Parse Stmt) (n : Nat) : stmtsUntil ends inner n s = .ok [] s := by
  cases n with
  | zero => rfl
  | succ n =>
    rw [stmtsUntil, peek_bind, if_pos h]
    rfl

include hinner

/-- A loop over statements stops at a token that ends them. -/
theorem statements_of_stmtsUntil {ends : TokenKind → Bool} (hends : ends .endOfSource = true)
    {n : Nat} {ss : List Stmt} (hs : s.Proper) (hn : s.pending.length ≤ n)
    (h : stmtsUntil ends inner n s = .ok ss u) :
    ∃ ts, s.Behind ts u ∧ Statements room ts ss ∧ ElsesNearest ss ∧
      ends u.current.kind = true := by
  induction n generalizing s ss with
  | zero =>
    obtain ⟨rfl, rfl⟩ := pure_eq_ok_iff.mp h
    have hnil : s.pending = [] := List.length_eq_zero_iff.mp (by omega)
    refine ⟨[], .refl hs, .nil, by simp only [ElsesNearest], ?_⟩
    rw [pending_eq_nil_iff.mp hnil, hends]
  | succ n ih =>
    unfold stmtsUntil at h
    rw [peek_bind] at h
    by_cases hend : ends s.current.kind = true
    · rw [if_pos hend] at h
      obtain ⟨rfl, rfl⟩ := pure_eq_ok_iff.mp h
      exact ⟨[], .refl hs, .nil, by simp only [ElsesNearest], hend⟩
    · rw [if_neg hend] at h
      obtain ⟨first, v, hfirst, h⟩ := bind_eq_ok_iff.mp h
      obtain ⟨k, ts, rfl, hts, hstatement, hnear, -⟩ := hinner _ _ _ hs hfirst
      obtain ⟨more, w, hmore, h⟩ := bind_eq_ok_iff.mp h
      obtain ⟨rfl, rfl⟩ := pure_eq_ok_iff.mp h
      have hlength : v.pending.length ≤ n := by
        have h₁ := hts.length
        have h₂ := List.length_pos_iff.mpr hstatement.ne_nil
        omega
      obtain ⟨us, hus, hstatements, hnears, hstop⟩ := ih hts.proper hlength hmore
      exact ⟨ts ++ us, hts.trans hus, .cons hstatement hstatements,
        by simpa only [ElsesNearest] using And.intro hnear hnears, hstop⟩

theorem block_of_block {b : IntLang.Block} (hs : s.Proper) (h : block inner s = .ok b u) :
    ∃ ts, s.Behind ts u ∧ Block room ts b.body ∧ ElsesNearest b.body := by
  unfold block at h
  obtain ⟨o, v, hopen, h⟩ := bind_eq_ok_iff.mp h
  obtain ⟨hokind, ho⟩ := behind_of_expect hs (by decide) hopen
  rw [rounds_bind] at h
  obtain ⟨body, w, hbody, h⟩ := bind_eq_ok_iff.mp h
  obtain ⟨ts, hts, hstatements, hnears, -⟩ :=
    statements_of_stmtsUntil hinner (by decide) ho.proper v.length_pending_le hbody
  obtain ⟨c, x, hclose, h⟩ := bind_eq_ok_iff.mp h
  obtain ⟨hckind, hc⟩ := behind_of_expect hts.proper (by decide) hclose
  obtain ⟨rfl, rfl⟩ := pure_eq_ok_iff.mp h
  exact ⟨[o] ++ (ts ++ [c]), ho.trans (hts.trans hc), .mk hokind hstatements hckind, hnears⟩

omit hinner

/-- Names are read behind those that are known, and none comes twice. -/
theorem names_of_parameterRounds {n : Nat} {known names : List String} (hs : s.Proper)
    (hn : s.pending.length ≤ n) (hpos : 0 < n) (hknown : known.Nodup)
    (h : parameterRounds n known s = .ok names u) :
    ∃ ts new, s.Behind ts u ∧ names = known ++ new ∧ names.Nodup ∧ Names ts new := by
  induction n generalizing s known with
  | zero => exact absurd hpos (Nat.lt_irrefl 0)
  | succ n ih =>
    unfold parameterRounds at h
    obtain ⟨name, v, hname, h⟩ := bind_eq_ok_iff.mp h
    obtain ⟨hkind, hv⟩ := behind_of_expect hs (by decide) hname
    by_cases hmem : known.contains name.text = true
    · rw [if_pos hmem] at h
      exact absurd h (throw_ne_ok _ _ _ _)
    · rw [if_neg hmem, peek_bind] at h
      have hnew := nodup_concat_of_not_contains hknown hmem
      by_cases hcomma : v.current.kind = .comma
      · rw [if_pos hcomma] at h
        obtain ⟨comma, w, hadvance, h⟩ := bind_eq_ok_iff.mp h
        obtain ⟨rfl, hw⟩ := behind_of_advance hv.proper (by rw [hcomma]; decide) hadvance
        have hlength : w.pending.length + 2 ≤ n + 1 := by
          have h₁ := hv.length
          have h₂ := hw.length
          rw [List.length_singleton] at h₁ h₂
          omega
        obtain ⟨ts, new, hts, rfl, hnodup, hnames⟩ := ih hw.proper (by omega) (by omega) hnew h
        refine ⟨[name] ++ ([v.current] ++ ts), name.text :: new, hv.trans (hw.trans hts), ?_,
          hnodup, .more hkind hcomma hnames⟩
        rw [List.append_assoc, List.singleton_append]
      · rw [if_neg hcomma] at h
        obtain ⟨rfl, rfl⟩ := pure_eq_ok_iff.mp h
        exact ⟨[name], [name.text], hv, rfl, hnew, .one hkind⟩

theorem parameters_of_parameters {names : List String} (hs : s.Proper)
    (h : parameters s = .ok names u) :
    ∃ ts, s.Behind ts u ∧ names.Nodup ∧ Parameters ts names := by
  unfold parameters at h
  rw [peek_bind] at h
  by_cases hnone : s.current.kind = .closeParen
  · rw [if_pos hnone] at h
    obtain ⟨rfl, rfl⟩ := pure_eq_ok_iff.mp h
    exact ⟨[], .refl hs, List.nodup_nil, .none⟩
  · rw [if_neg hnone, rounds_bind] at h
    obtain ⟨ts, new, hts, rfl, hnodup, hnames⟩ :=
      names_of_parameterRounds hs s.length_pending_le (Nat.succ_pos _) List.nodup_nil h
    exact ⟨ts, hts, hnodup, .some hnames⟩

include hinner

theorem statementRead_of_function (hkind : s.current.kind = .functionWord) (hs : s.Proper)
    (h : function inner s = .ok st u) : StatementRead room s u st := by
  unfold function at h
  obtain ⟨w, v, hword, h⟩ := bind_eq_ok_iff.mp h
  obtain ⟨rfl, hw⟩ := behind_of_advance hs (by rw [hkind]; decide) hword
  rw [peek_bind] at h
  obtain ⟨name, x, hname, h⟩ := bind_eq_ok_iff.mp h
  obtain ⟨hnkind, hx⟩ := behind_of_expectOr hw.proper (by decide) hname
  obtain ⟨o, y, hopen, h⟩ := bind_eq_ok_iff.mp h
  obtain ⟨hokind, ho⟩ := behind_of_expect hx.proper (by decide) hopen
  obtain ⟨names, z, hnames, h⟩ := bind_eq_ok_iff.mp h
  obtain ⟨ps, hps, hnodup, hparameters⟩ := parameters_of_parameters ho.proper hnames
  obtain ⟨c, x', hclose, h⟩ := bind_eq_ok_iff.mp h
  obtain ⟨hckind, hc⟩ := behind_of_expect hps.proper (by decide) hclose
  obtain ⟨b, y', hbody, h⟩ := bind_eq_ok_iff.mp h
  obtain ⟨bs, hbs, hblock, hnears⟩ := block_of_block hinner hc.proper hbody
  obtain ⟨rfl, rfl⟩ := pure_eq_ok_iff.mp h
  have hbehind : s.Behind ([s.current] ++ ([name] ++ ([o] ++ (ps ++ ([c] ++ bs))))) y' :=
    hw.trans (hx.trans (ho.trans (hps.trans (hc.trans hbs))))
  exact ⟨_, hbehind, .function hkind hnkind hokind hparameters hnodup hckind hblock,
    by simpa only [ElseNearest] using hnears, nofun⟩

include hsub

theorem statementRead_of_stmtBy {rule : StmtRule}
    (hrule : Rules.standard.stmt? s.current.kind = some rule) (hs : s.Proper)
    (h : stmtBy .standard sub inner rule s = .ok st u) : StatementRead room s u st := by
  rcases stmt?_cases hrule with ⟨rfl, hkind⟩ | ⟨rfl, hkind⟩ | ⟨rfl, hkind⟩ | ⟨rfl, hkind⟩ | rfl
  · exact statementRead_of_branch hsub hinner hkind hs h
  · exact statementRead_of_loop hsub hinner hkind hs h
  · exact statementRead_of_ret hsub hkind hs h
  · exact statementRead_of_function hinner hkind hs h
  · unfold stmtBy at h
    obtain ⟨b, v, hblock, h⟩ := bind_eq_ok_iff.mp h
    obtain ⟨ts, hts, hderives, hnears⟩ := block_of_block hinner hs hblock
    obtain ⟨rfl, rfl⟩ := pure_eq_ok_iff.mp h
    exact ⟨ts, hts, .block hderives, by simpa only [ElseNearest] using hnears, nofun⟩

theorem statementRead_of_stmtHere (hs : s.Proper)
    (h : stmtHere .standard sub inner s = .ok st u) : StatementRead room s u st := by
  unfold stmtHere at h
  rw [peek_bind] at h
  cases hrule : Rules.standard.stmt? s.current.kind with
  | some rule =>
    simp only [hrule] at h
    exact statementRead_of_stmtBy hsub hinner hrule hs h
  | none =>
    simp only [hrule] at h
    by_cases hkind : s.current.kind = .identifier
    · rw [if_pos hkind] at h
      exact statementRead_of_identifierStmt hsub hs h
    · rw [if_neg hkind] at h
      obtain ⟨e, v, he, h⟩ := bind_eq_ok_iff.mp h
      obtain ⟨n, ts, rfl, hts, hderives, -⟩ := hsub _ _ _ _ hs he
      unfold endExpression at h
      obtain ⟨c, w, hclose, h⟩ := bind_eq_ok_iff.mp h
      obtain ⟨hckind, hc⟩ := behind_of_expect hts.proper (by decide) hclose
      obtain ⟨rfl, rfl⟩ := pure_eq_ok_iff.mp h
      refine ⟨ts ++ [c], hts.trans hc, .expression hderives ?_ hckind,
        by simp only [ElseNearest], nofun⟩
      rintro ⟨t, us, rfl, ht⟩
      have hpending := hts.pending
      have hend : s.current.kind ≠ .endOfSource := by
        intro hend
        rw [pending_eq_nil_iff.mpr hend] at hpending
        cases hpending
      rw [pending_of_ne hend, List.cons_append] at hpending
      obtain ⟨rfl, -⟩ := List.cons.inj hpending
      exact hkind ht

end Readers

/-- The reader of statements takes statements of the grammar. -/
theorem readsStmt_stmt (room : Nat) : ReadsStmt room (stmt .standard room) := by
  induction room with
  | zero =>
    intro s st u _ h
    exact absurd h (tooDeep_ne_ok _ _ _)
  | succ room ih =>
    intro s st u hs h
    obtain ⟨ts, hread⟩ := statementRead_of_stmtHere (readsExpr_expr room) ih hs h
    exact ⟨room, ts, rfl, hread⟩

end IntLang.Grammar
