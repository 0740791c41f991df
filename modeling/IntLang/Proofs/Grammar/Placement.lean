import IntLang.Proofs.Grammar.Nodes
import IntLang.Proofs.Grammar.StmtSound

/-!
Where the readers put the nodes of a tree. What a reader takes from its stream are the tokens that
its node lies on, and tokens around it. A span is put together in one of four ways: from one token
to another, from a token to the end of the last part, from the beginning of the first part to a
token, and from one part to another; the parts lie along the tokens that were taken for them. An
operator joins what has been read before it, so the loop over operators carries the tokens of the
left operand.
-/
namespace IntLang.Grammar

open Parse TokenStream

/-- A reader whose expressions lie on the tokens that it takes. -/
def PlacesExpr (sub : BindingPower → Parse Expr) : Prop :=
  ∀ p s e u, s.Proper → sub p s = .ok e u → ∃ ts, s.Behind ts u ∧ Along ts [.expr e]

def PlacesStmt (inner : Parse Stmt) : Prop :=
  ∀ s st u, s.Proper → inner s = .ok st u → ∃ ts, s.Behind ts u ∧ Along ts [.stmt st]

section Exprs

variable {sub : BindingPower → Parse Expr} (hsub : PlacesExpr sub)
variable {s u : TokenStream} {e : Expr}

theorem along_of_literal (hs : s.Proper) (h : literal s = .ok e u) :
    ∃ ts, s.Behind ts u ∧ Along ts [.expr e] := by
  unfold literal at h
  rw [peek_bind] at h
  cases hkind : s.current.kind with
  | number =>
    simp only [hkind] at h
    obtain ⟨t, v, hadvance, h⟩ := bind_eq_ok_iff.mp h
    obtain ⟨rfl, hbehind⟩ := behind_of_advance hs (by rw [hkind]; decide) hadvance
    cases hvalue : integer? s.current.text.toList with
    | none =>
      simp only [hvalue] at h
      exact absurd h (throw_ne_ok _ _ _ _)
    | some value =>
      simp only [hvalue] at h
      obtain ⟨rfl, rfl⟩ := pure_eq_ok_iff.mp h
      exact ⟨_, hbehind, .of_leaf (.number hkind hvalue)⟩
  | string =>
    simp only [hkind] at h
    obtain ⟨t, v, hadvance, h⟩ := bind_eq_ok_iff.mp h
    obtain ⟨rfl, hbehind⟩ := behind_of_advance hs (by rw [hkind]; decide) hadvance
    obtain ⟨rfl, rfl⟩ := pure_eq_ok_iff.mp h
    exact ⟨_, hbehind, .of_leaf (.string hkind)⟩
  | _ =>
    simp only [hkind] at h
    exact absurd h (unexpected_ne_ok _ _ _)

include hsub

theorem along_of_argumentRounds {n : Nat} {es : List Expr} (hs : s.Proper)
    (h : argumentRounds sub n s = .ok es u) :
    ∃ ts, s.Behind ts u ∧ Along ts (es.map .expr) := by
  induction n generalizing s es with
  | zero =>
    obtain ⟨rfl, rfl⟩ := pure_eq_ok_iff.mp h
    exact ⟨[], .refl hs, .nil⟩
  | succ n ih =>
    unfold argumentRounds at h
    obtain ⟨first, v, hfirst, h⟩ := bind_eq_ok_iff.mp h
    obtain ⟨ts, hts, halong⟩ := hsub _ _ _ _ hs hfirst
    rw [peek_bind] at h
    by_cases hcomma : v.current.kind = .comma
    · rw [if_pos hcomma] at h
      obtain ⟨comma, w, hadvance, h⟩ := bind_eq_ok_iff.mp h
      obtain ⟨rfl, hw⟩ := behind_of_advance hts.proper (by rw [hcomma]; decide) hadvance
      obtain ⟨more, x, hmore, h⟩ := bind_eq_ok_iff.mp h
      obtain ⟨rfl, rfl⟩ := pure_eq_ok_iff.mp h
      obtain ⟨us, hus, halong'⟩ := ih hw.proper hmore
      exact ⟨ts ++ ([v.current] ++ us), hts.trans (hw.trans hus),
        halong.append (halong'.prepend [v.current])⟩
    · rw [if_neg hcomma] at h
      obtain ⟨rfl, rfl⟩ := pure_eq_ok_iff.mp h
      exact ⟨ts, hts, halong⟩

theorem along_of_arguments {es : List Expr} (hs : s.Proper) (h : arguments sub s = .ok es u) :
    ∃ ts, s.Behind ts u ∧ Along ts (es.map .expr) := by
  unfold arguments at h
  rw [peek_bind] at h
  by_cases hnone : s.current.kind = .closeParen
  · rw [if_pos hnone] at h
    obtain ⟨rfl, rfl⟩ := pure_eq_ok_iff.mp h
    exact ⟨[], .refl hs, .nil⟩
  · rw [if_neg hnone, rounds_bind] at h
    exact along_of_argumentRounds hsub hs h

/-- A call goes from its name, which has been taken before, to the closing parenthesis. -/
theorem along_of_call {name : Token} (hs : s.Proper) (h : call sub name s = .ok e u) :
    ∃ ts, s.Behind ts u ∧ Along (name :: ts) [.expr e] := by
  unfold call at h
  obtain ⟨o, v, hopen, h⟩ := bind_eq_ok_iff.mp h
  obtain ⟨-, ho⟩ := behind_of_expect hs (by decide) hopen
  obtain ⟨args, w, hargs, h⟩ := bind_eq_ok_iff.mp h
  obtain ⟨ts, hts, halong⟩ := along_of_arguments hsub ho.proper hargs
  obtain ⟨c, x, hclose, h⟩ := bind_eq_ok_iff.mp h
  obtain ⟨-, hc⟩ := behind_of_expect hts.proper (by decide) hclose
  obtain ⟨rfl, rfl⟩ := pure_eq_ok_iff.mp h
  refine ⟨[o] ++ ts ++ [c], (ho.trans hts).trans hc, ?_⟩
  exact (halong.prepend [o]).between rfl rfl

theorem along_of_symbolTail {name : Token} (hname : name.kind = .identifier) (hs : s.Proper)
    (h : symbolTail sub name s = .ok e u) :
    ∃ ts, s.Behind ts u ∧ Along (name :: ts) [.expr e] := by
  unfold symbolTail at h
  rw [peek_bind] at h
  by_cases hopen : s.current.kind = .openParen
  · rw [if_pos hopen] at h
    exact along_of_call hsub hs h
  · rw [if_neg hopen] at h
    obtain ⟨rfl, rfl⟩ := pure_eq_ok_iff.mp h
    exact ⟨[], .refl hs, .of_leaf (.var hname)⟩

theorem along_of_symbol (hs : s.Proper) (h : symbol sub s = .ok e u) :
    ∃ ts, s.Behind ts u ∧ Along ts [.expr e] := by
  unfold symbol at h
  obtain ⟨name, v, hexpect, h⟩ := bind_eq_ok_iff.mp h
  obtain ⟨hname, hv⟩ := behind_of_expect hs (by decide) hexpect
  obtain ⟨ts, hts, halong⟩ := along_of_symbolTail hsub hname hv.proper h
  exact ⟨[name] ++ ts, hv.trans hts, halong⟩

/-- The parentheses stand around the expression. -/
theorem along_of_condition (hs : s.Proper) (h : condition sub s = .ok e u) :
    ∃ ts, s.Behind ts u ∧ Along ts [.expr e] := by
  unfold condition at h
  obtain ⟨o, v, hopen, h⟩ := bind_eq_ok_iff.mp h
  obtain ⟨-, ho⟩ := behind_of_expect hs (by decide) hopen
  obtain ⟨e, w, he, h⟩ := bind_eq_ok_iff.mp h
  obtain ⟨ts, hts, halong⟩ := hsub _ _ _ _ ho.proper he
  obtain ⟨c, x, hclose, h⟩ := bind_eq_ok_iff.mp h
  obtain ⟨-, hc⟩ := behind_of_expect hts.proper (by decide) hclose
  obtain ⟨rfl, rfl⟩ := pure_eq_ok_iff.mp h
  exact ⟨[o] ++ (ts ++ [c]), ho.trans (hts.trans hc), (halong.extend [c]).prepend [o]⟩

/-- An expression in parentheses is read as a condition is. -/
theorem along_of_group (hkind : s.current.kind = .openParen) (hs : s.Proper)
    (h : group sub s = .ok e u) : ∃ ts, s.Behind ts u ∧ Along ts [.expr e] := by
  have hsame : condition sub s = group sub s := expect_bind_of_eq hkind _
  exact along_of_condition hsub hs (hsame.trans h)

theorem along_of_operand (hs : s.Proper) (h : operand .standard sub s = .ok e u) :
    ∃ ts, s.Behind ts u ∧ Along ts [.expr e] := by
  unfold operand at h
  rw [peek_bind] at h
  cases hrule : Rules.standard.operand? s.current.kind with
  | none =>
    simp only [hrule] at h
    exact absurd h (unexpected_ne_ok _ _ _)
  | some rule =>
    simp only [hrule] at h
    cases rule with
    | literal => exact along_of_literal hs h
    | symbol => exact along_of_symbol hsub hs h
    | group =>
      have hkind : s.current.kind = .openParen := by
        have hgroup : ∀ kind, Rules.standard.operand? kind = some .group → kind = .openParen := by
          decide
        exact hgroup _ hrule
      exact along_of_group hsub hkind hs h

/-- An operation goes from its left operand, which has been read before, to its right one. -/
theorem along_of_binary {left : Expr} {power : BindingPower} {ls : List Token}
    (hleft : Along ls [.expr left]) (hjoins : Rules.standard.joins s.current.kind = true)
    (hs : s.Proper) (h : binary sub left power s = .ok e u) :
    ∃ ts, s.Behind ts u ∧ Along (ls ++ ts) [.expr e] := by
  obtain ⟨operator, hoperator, -⟩ := sign_cases hjoins
  have hne : s.current.kind ≠ .endOfSource := by
    intro hend
    rw [hend] at hjoins
    exact absurd hjoins (by decide)
  unfold binary at h
  obtain ⟨sign, v, hadvance, h⟩ := bind_eq_ok_iff.mp h
  obtain ⟨rfl, hv⟩ := behind_of_advance hs hne hadvance
  simp only [hoperator] at h
  obtain ⟨right, w, hright, h⟩ := bind_eq_ok_iff.mp h
  obtain ⟨rs, hrs, halong⟩ := hsub _ _ _ _ hv.proper hright
  obtain ⟨rfl, rfl⟩ := pure_eq_ok_iff.mp h
  exact ⟨s.current :: rs, hv.trans hrs, hleft.operands rfl rfl rfl halong⟩

theorem along_of_operatorRounds {p : BindingPower} {n : Nat} {left : Expr} {ls : List Token}
    (hleft : Along ls [.expr left]) (hs : s.Proper)
    (h : operatorRounds .standard sub p n left s = .ok e u) :
    ∃ ts, s.Behind ts u ∧ Along (ls ++ ts) [.expr e] := by
  induction n generalizing s left ls with
  | zero =>
    obtain ⟨rfl, rfl⟩ := pure_eq_ok_iff.mp h
    exact ⟨[], .refl hs, by rwa [List.append_nil]⟩
  | succ n ih =>
    unfold operatorRounds at h
    rw [peek_bind] at h
    by_cases htight : (Rules.standard.power s.current.kind).tighter p = true
    · rw [if_pos htight] at h
      by_cases hjoins : Rules.standard.joins s.current.kind = true
      · rw [if_pos hjoins] at h
        obtain ⟨joined, w, hbinary, h⟩ := bind_eq_ok_iff.mp h
        obtain ⟨ts, hts, hjoined⟩ := along_of_binary hsub hleft hjoins hs hbinary
        obtain ⟨us, hus, halong⟩ := ih hjoined hts.proper h
        rw [List.append_assoc] at halong
        exact ⟨ts ++ us, hts.trans hus, halong⟩
      · rw [if_neg hjoins] at h
        exact absurd h (unexpected_ne_ok _ _ _)
    · rw [if_neg htight] at h
      obtain ⟨rfl, rfl⟩ := pure_eq_ok_iff.mp h
      exact ⟨[], .refl hs, by rwa [List.append_nil]⟩

theorem along_of_operators {p : BindingPower} {left : Expr} {ls : List Token}
    (hleft : Along ls [.expr left]) (hs : s.Proper)
    (h : operators .standard sub p left s = .ok e u) :
    ∃ ts, s.Behind ts u ∧ Along (ls ++ ts) [.expr e] := by
  unfold operators at h
  rw [rounds_bind] at h
  exact along_of_operatorRounds hsub hleft hs h

end Exprs

/-- Every expression lies on the tokens that were read for it. -/
theorem placesExpr_expr (room : Nat) : PlacesExpr (expr .standard room) := by
  induction room with
  | zero => exact fun p s e u hs h => absurd h (tooDeep_ne_ok _ _ _)
  | succ room ih =>
    intro p s e u hs h
    unfold expr at h
    obtain ⟨left, v, hleft, h⟩ := bind_eq_ok_iff.mp h
    obtain ⟨ls, hls, halong⟩ := along_of_operand ih hs hleft
    obtain ⟨ts, hts, halong'⟩ := along_of_operators ih halong hls.proper h
    exact ⟨ls ++ ts, hls.trans hts, halong'⟩

section Stmts

variable {sub : BindingPower → Parse Expr} (hsub : PlacesExpr sub)
variable {inner : Parse Stmt} (hinner : PlacesStmt inner)
variable {s u : TokenStream} {st : Stmt}

/-- An expression statement begins with its expression, which has been read before, and not with
a parenthesis around it. -/
theorem along_of_endExpression {e : Expr} {ts : List Token} (he : Along ts [.expr e])
    (hs : s.Proper) (h : endExpression e s = .ok st u) :
    ∃ us, s.Behind us u ∧ Along (ts ++ us) [.stmt st] := by
  unfold endExpression at h
  obtain ⟨c, w, hclose, h⟩ := bind_eq_ok_iff.mp h
  obtain ⟨-, hc⟩ := behind_of_expect hs (by decide) hclose
  obtain ⟨rfl, rfl⟩ := pure_eq_ok_iff.mp h
  exact ⟨[c], hc, he.upto_token rfl rfl rfl⟩

include hsub

theorem along_of_identifierStmt (hs : s.Proper)
    (h : identifierStmt .standard sub s = .ok st u) :
    ∃ ts, s.Behind ts u ∧ Along ts [.stmt st] := by
  unfold identifierStmt at h
  obtain ⟨name, v, hname, h⟩ := bind_eq_ok_iff.mp h
  obtain ⟨hkind, hv⟩ := behind_of_expect hs (by decide) hname
  rw [peek_bind] at h
  by_cases hassign : v.current.kind = .assign
  · rw [if_pos hassign] at h
    obtain ⟨sign, w, hadvance, h⟩ := bind_eq_ok_iff.mp h
    obtain ⟨rfl, hw⟩ := behind_of_advance hv.proper (by rw [hassign]; decide) hadvance
    obtain ⟨value, x, hvalue, h⟩ := bind_eq_ok_iff.mp h
    obtain ⟨ts, hts, halong⟩ := hsub _ _ _ _ hw.proper hvalue
    obtain ⟨c, y, hclose, h⟩ := bind_eq_ok_iff.mp h
    obtain ⟨-, hc⟩ := behind_of_expect hts.proper (by decide) hclose
    obtain ⟨rfl, rfl⟩ := pure_eq_ok_iff.mp h
    exact ⟨[name] ++ ([v.current] ++ ts ++ [c]), hv.trans ((hw.trans hts).trans hc),
      (halong.prepend [v.current]).between rfl rfl⟩
  · rw [if_neg hassign] at h
    obtain ⟨left, w, htail, h⟩ := bind_eq_ok_iff.mp h
    obtain ⟨ls, hls, hleft⟩ := along_of_symbolTail hsub hkind hv.proper htail
    obtain ⟨e, x, hoperators, h⟩ := bind_eq_ok_iff.mp h
    obtain ⟨ts, hts, he⟩ := along_of_operators hsub hleft hls.proper hoperators
    obtain ⟨us, hus, halong⟩ := along_of_endExpression he hts.proper h
    have hbehind : s.Behind (name :: ls ++ ts ++ us) u :=
      ((hv.trans hls).trans hts).trans hus
    exact ⟨_, hbehind, halong⟩

theorem along_of_ret (hkind : s.current.kind = .returnWord) (hs : s.Proper)
    (h : ret sub s = .ok st u) : ∃ ts, s.Behind ts u ∧ Along ts [.stmt st] := by
  unfold ret at h
  obtain ⟨w, v, hword, h⟩ := bind_eq_ok_iff.mp h
  obtain ⟨rfl, hw⟩ := behind_of_advance hs (by rw [hkind]; decide) hword
  obtain ⟨e, x, he, h⟩ := bind_eq_ok_iff.mp h
  obtain ⟨ts, hts, halong⟩ := hsub _ _ _ _ hw.proper he
  obtain ⟨c, y, hclose, h⟩ := bind_eq_ok_iff.mp h
  obtain ⟨-, hc⟩ := behind_of_expect hts.proper (by decide) hclose
  obtain ⟨rfl, rfl⟩ := pure_eq_ok_iff.mp h
  exact ⟨s.current :: (ts ++ [c]), hw.trans (hts.trans hc), halong.between rfl rfl⟩

include hinner

/-- A conditional ends where its last branch does. -/
theorem along_of_branch (hkind : s.current.kind = .ifWord) (hs : s.Proper)
    (h : branch sub inner s = .ok st u) : ∃ ts, s.Behind ts u ∧ Along ts [.stmt st] := by
  unfold branch at h
  obtain ⟨w, v, hword, h⟩ := bind_eq_ok_iff.mp h
  obtain ⟨rfl, hw⟩ := behind_of_advance hs (by rw [hkind]; decide) hword
  obtain ⟨test, x, htest, h⟩ := bind_eq_ok_iff.mp h
  obtain ⟨cs, hcs, hcondition⟩ := along_of_condition hsub hw.proper htest
  obtain ⟨first, y, hfirst, h⟩ := bind_eq_ok_iff.mp h
  obtain ⟨ts, hts, hthen⟩ := hinner _ _ _ hcs.proper hfirst
  rw [peek_bind] at h
  by_cases helse : y.current.kind = .elseWord
  · rw [if_pos helse] at h
    obtain ⟨word, z, hadvance, h⟩ := bind_eq_ok_iff.mp h
    obtain ⟨rfl, hz⟩ := behind_of_advance hts.proper (by rw [helse]; decide) hadvance
    obtain ⟨second, x', hsecond, h⟩ := bind_eq_ok_iff.mp h
    obtain ⟨us, hus, hrest⟩ := hinner _ _ _ hz.proper hsecond
    obtain ⟨rfl, rfl⟩ := pure_eq_ok_iff.mp h
    exact ⟨s.current :: (cs ++ ts ++ ([y.current] ++ us)),
      hw.trans ((hcs.trans hts).trans (hz.trans hus)),
      ((hcondition.append hthen).append (hrest.prepend [y.current])).from_token rfl rfl rfl⟩
  · rw [if_neg helse] at h
    obtain ⟨rfl, rfl⟩ := pure_eq_ok_iff.mp h
    exact ⟨s.current :: (cs ++ ts), hw.trans (hcs.trans hts),
      (hcondition.append hthen).from_token rfl rfl rfl⟩

theorem along_of_loop (hkind : s.current.kind = .whileWord) (hs : s.Proper)
    (h : loop sub inner s = .ok st u) : ∃ ts, s.Behind ts u ∧ Along ts [.stmt st] := by
  unfold loop at h
  obtain ⟨w, v, hword, h⟩ := bind_eq_ok_iff.mp h
  obtain ⟨rfl, hw⟩ := behind_of_advance hs (by rw [hkind]; decide) hword
  obtain ⟨test, x, htest, h⟩ := bind_eq_ok_iff.mp h
  obtain ⟨cs, hcs, hcondition⟩ := along_of_condition hsub hw.proper htest
  obtain ⟨body, y, hbody, h⟩ := bind_eq_ok_iff.mp h
  obtain ⟨ts, hts, halong⟩ := hinner _ _ _ hcs.proper hbody
  obtain ⟨rfl, rfl⟩ := pure_eq_ok_iff.mp h
  exact ⟨s.current :: (cs ++ ts), hw.trans (hcs.trans hts),
    (hcondition.append halong).from_token rfl rfl rfl⟩

omit hsub

theorem along_of_stmtsUntil {ends : TokenKind → Bool} {n : Nat} {ss : List Stmt} (hs : s.Proper)
    (h : stmtsUntil ends inner n s = .ok ss u) :
    ∃ ts, s.Behind ts u ∧ Along ts (ss.map .stmt) := by
  induction n generalizing s ss with
  | zero =>
    obtain ⟨rfl, rfl⟩ := pure_eq_ok_iff.mp h
    exact ⟨[], .refl hs, .nil⟩
  | succ n ih =>
    unfold stmtsUntil at h
    rw [peek_bind] at h
    by_cases hend : ends s.current.kind = true
    · rw [if_pos hend] at h
      obtain ⟨rfl, rfl⟩ := pure_eq_ok_iff.mp h
      exact ⟨[], .refl hs, .nil⟩
    · rw [if_neg hend] at h
      obtain ⟨first, v, hfirst, h⟩ := bind_eq_ok_iff.mp h
      obtain ⟨ts, hts, halong⟩ := hinner _ _ _ hs hfirst
      obtain ⟨more, w, hmore, h⟩ := bind_eq_ok_iff.mp h
      obtain ⟨rfl, rfl⟩ := pure_eq_ok_iff.mp h
      obtain ⟨us, hus, halong'⟩ := ih hts.proper hmore
      exact ⟨ts ++ us, hts.trans hus, halong.append halong'⟩

/-- A block goes from bracket to bracket, as the body of a function and as a statement. -/
theorem along_of_block {b : IntLang.Block} (hs : s.Proper) (h : block inner s = .ok b u) :
    ∃ ts, s.Behind ts u ∧ Along ts [.block b] ∧ Along ts [.stmt (.block b.body b.span)] := by
  unfold block at h
  obtain ⟨o, v, hopen, h⟩ := bind_eq_ok_iff.mp h
  obtain ⟨-, ho⟩ := behind_of_expect hs (by decide) hopen
  rw [rounds_bind] at h
  obtain ⟨body, w, hbody, h⟩ := bind_eq_ok_iff.mp h
  obtain ⟨ts, hts, halong⟩ := along_of_stmtsUntil hinner ho.proper hbody
  obtain ⟨c, x, hclose, h⟩ := bind_eq_ok_iff.mp h
  obtain ⟨-, hc⟩ := behind_of_expect hts.proper (by decide) hclose
  obtain ⟨rfl, rfl⟩ := pure_eq_ok_iff.mp h
  exact ⟨o :: (ts ++ [c]), ho.trans (hts.trans hc), halong.between rfl rfl,
    halong.between rfl rfl⟩

/-- A function ends where its body does. -/
theorem along_of_function (hkind : s.current.kind = .functionWord) (hs : s.Proper)
    (h : function inner s = .ok st u) : ∃ ts, s.Behind ts u ∧ Along ts [.stmt st] := by
  unfold function at h
  obtain ⟨w, v, hword, h⟩ := bind_eq_ok_iff.mp h
  obtain ⟨rfl, hw⟩ := behind_of_advance hs (by rw [hkind]; decide) hword
  rw [peek_bind] at h
  obtain ⟨name, x, hname, h⟩ := bind_eq_ok_iff.mp h
  obtain ⟨-, hx⟩ := behind_of_expectOr hw.proper (by decide) hname
  obtain ⟨o, y, hopen, h⟩ := bind_eq_ok_iff.mp h
  obtain ⟨-, ho⟩ := behind_of_expect hx.proper (by decide) hopen
  obtain ⟨names, z, hnames, h⟩ := bind_eq_ok_iff.mp h
  obtain ⟨ps, hps, -⟩ := parameters_of_parameters ho.proper hnames
  obtain ⟨c, x', hclose, h⟩ := bind_eq_ok_iff.mp h
  obtain ⟨-, hc⟩ := behind_of_expect hps.proper (by decide) hclose
  obtain ⟨b, y', hbody, h⟩ := bind_eq_ok_iff.mp h
  obtain ⟨bs, hbs, halong, -⟩ := along_of_block hinner hc.proper hbody
  obtain ⟨rfl, rfl⟩ := pure_eq_ok_iff.mp h
  have hbody : Along ([name] ++ [o] ++ ps ++ [c] ++ bs) ([] ++ [Node.block b]) :=
    halong.prepend _
  exact ⟨s.current :: ([name] ++ [o] ++ ps ++ [c] ++ bs),
    hw.trans ((((hx.trans ho).trans hps).trans hc).trans hbs), hbody.from_token rfl rfl rfl⟩

include hsub

theorem along_of_stmtBy {rule : StmtRule}
    (hrule : Rules.standard.stmt? s.current.kind = some rule) (hs : s.Proper)
    (h : stmtBy .standard sub inner rule s = .ok st u) :
    ∃ ts, s.Behind ts u ∧ Along ts [.stmt st] := by
  rcases stmt?_cases hrule with ⟨rfl, hkind⟩ | ⟨rfl, hkind⟩ | ⟨rfl, hkind⟩ | ⟨rfl, hkind⟩ | rfl
  · exact along_of_branch hsub hinner hkind hs h
  · exact along_of_loop hsub hinner hkind hs h
  · exact along_of_ret hsub hkind hs h
  · exact along_of_function hinner hkind hs h
  · unfold stmtBy at h
    obtain ⟨b, v, hblock, h⟩ := bind_eq_ok_iff.mp h
    obtain ⟨ts, hts, -, halong⟩ := along_of_block hinner hs hblock
    obtain ⟨rfl, rfl⟩ := pure_eq_ok_iff.mp h
    exact ⟨ts, hts, halong⟩

theorem along_of_stmtHere (hs : s.Proper) (h : stmtHere .standard sub inner s = .ok st u) :
    ∃ ts, s.Behind ts u ∧ Along ts [.stmt st] := by
  unfold stmtHere at h
  rw [peek_bind] at h
  cases hrule : Rules.standard.stmt? s.current.kind with
  | some rule =>
    simp only [hrule] at h
    exact along_of_stmtBy hsub hinner hrule hs h
  | none =>
    simp only [hrule] at h
    by_cases hkind : s.current.kind = .identifier
    · rw [if_pos hkind] at h
      exact along_of_identifierStmt hsub hs h
    · rw [if_neg hkind] at h
      obtain ⟨e, v, he, h⟩ := bind_eq_ok_iff.mp h
      obtain ⟨ts, hts, halong⟩ := hsub _ _ _ _ hs he
      obtain ⟨us, hus, halong'⟩ := along_of_endExpression halong hts.proper h
      exact ⟨ts ++ us, hts.trans hus, halong'⟩

end Stmts

/-- Every statement lies on the tokens that were read for it. -/
theorem placesStmt_stmt (room : Nat) : PlacesStmt (stmt .standard room) := by
  induction room with
  | zero => exact fun s st u hs h => absurd h (tooDeep_ne_ok _ _ _)
  | succ room ih => exact fun s st u hs h => along_of_stmtHere (placesExpr_expr room) ih hs h

end IntLang.Grammar
