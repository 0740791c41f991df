import IntLang.Grammar.Expr
import IntLang.Proofs.Grammar.Derivation
import IntLang.Proofs.Grammar.Steps

/-!
What the readers of expressions accept is derived by the grammar. A reader that succeeds has taken
a phrase of the grammar: at the lowest power an expression, at the additive power a term, at the two
higher powers a factor; and the token it stops at binds no tighter than the power. The loop over
operators carries the left operand, and the invariant says which phrase that is: it is a term
whenever the next operator wants one.
-/
namespace IntLang.Grammar

open Parse TokenStream

def Derives : BindingPower → Nat → List Token → Expr → Prop
  | .lowest => Expression
  | .additive => Term
  | .multiplicative | .primary => Factor

theorem Factor.ne_nil {n ts e} (h : Factor n ts e) : ts ≠ [] := by
  cases h <;> simp

theorem Term.ne_nil {n ts e} (h : Term n ts e) : ts ≠ [] := by
  cases h with
  | factor he => exact he.ne_nil
  | product => simp

theorem Expression.ne_nil {n ts e} (h : Expression n ts e) : ts ≠ [] := by
  cases h with
  | term he => exact he.ne_nil
  | sum => simp

theorem derives_of_factor {p n ts e} (h : Factor n ts e) : Derives p n ts e := by
  cases p with
  | lowest => exact .term (.factor h)
  | additive => exact .factor h
  | multiplicative | primary => exact h

theorem Derives.ne_nil {p n ts e} (h : Derives p n ts e) : ts ≠ [] := by
  cases p with
  | lowest => exact Expression.ne_nil h
  | additive => exact Term.ne_nil h
  | multiplicative | primary => exact Factor.ne_nil h

def AtTighter (s : TokenStream) (p : BindingPower) : Prop :=
  (Rules.standard.power s.current.kind).tighter p = true

theorem not_atTighter_of_end {s : TokenStream} (h : s.current.kind = .endOfSource)
    (p : BindingPower) : ¬AtTighter s p := by
  unfold AtTighter
  rw [h]
  cases p <;> decide

/-- The loop stops at once at a token that binds no tighter than its power. -/
theorem operatorRounds_of_not_atTighter {s : TokenStream} {p : BindingPower} (h : ¬AtTighter s p)
    (sub : BindingPower → Parse Expr) (n : Nat) (e : Expr) :
    operatorRounds .standard sub p n e s = .ok e s := by
  cases n with
  | zero => rfl
  | succ n =>
    unfold AtTighter at h
    rw [operatorRounds, peek_bind, if_neg h]
    rfl

/-- A reader that takes phrases of the grammar, one of the given number of levels being its own. -/
def ReadsExpr (room : Nat) (sub : BindingPower → Parse Expr) : Prop :=
  ∀ p s e u, s.Proper → sub p s = .ok e u →
    ∃ n ts, room = n + 1 ∧ s.Behind ts u ∧ Derives p n ts e ∧ ¬AtTighter u p

/-- The two kinds of operator. -/
theorem sign_cases {kind : TokenKind} (h : Rules.standard.joins kind = true) :
    ∃ operator, Operator.ofKind? kind = some operator ∧
      (SumSign kind operator ∧ Rules.standard.power kind = .additive ∨
        ProductSign kind operator ∧ Rules.standard.power kind = .multiplicative) := by
  cases kind with
  | plus => exact ⟨_, rfl, Or.inl ⟨.plus, rfl⟩⟩
  | dash => exact ⟨_, rfl, Or.inl ⟨.dash, rfl⟩⟩
  | star => exact ⟨_, rfl, Or.inr ⟨.star, rfl⟩⟩
  | slash => exact ⟨_, rfl, Or.inr ⟨.slash, rfl⟩⟩
  | _ => exact absurd h (by decide)

/-- A phrase, an operator that binds tighter than the phrase's power, and what is read behind the
operator at its power make a phrase again. At the lowest power the left operand of a product must
itself be a term, and then so is the product. -/
theorem Derives.join {p : BindingPower} {n : Nat} {us ts : List Token} {s : Token}
    {operator : Operator} {left right : Expr} (span : Span)
    (htight : (Rules.standard.power s.kind).tighter p = true)
    (hsign : SumSign s.kind operator ∧ Rules.standard.power s.kind = .additive ∨
      ProductSign s.kind operator ∧ Rules.standard.power s.kind = .multiplicative)
    (hleft : Derives p (n + 1) us left)
    (hterm : p = .lowest → Rules.standard.power s.kind = .multiplicative → Term (n + 1) us left)
    (hright : Derives (Rules.standard.power s.kind) n ts right) :
    Derives p (n + 1) (us ++ s :: ts) (.binary operator left right span) ∧
      (p = .lowest → Rules.standard.power s.kind = .multiplicative →
        Term (n + 1) (us ++ s :: ts) (.binary operator left right span)) := by
  rcases hsign with ⟨hsum, hpower⟩ | ⟨hproduct, hpower⟩
  · rw [hpower] at hright htight ⊢
    have hlowest : p = .lowest := by
      revert htight
      cases p <;> decide
    subst hlowest
    exact ⟨.sum hleft hsum hright, nofun⟩
  · rw [hpower] at hright htight
    cases p with
    | lowest =>
      have hjoined : Term (n + 1) (us ++ s :: ts) (.binary operator left right span) :=
        .product (hterm rfl hpower) hproduct hright
      exact ⟨.term hjoined, fun _ _ => hjoined⟩
    | additive => exact ⟨.product hleft hproduct hright, nofun⟩
    | multiplicative | primary => exact absurd htight (by decide)

/-- Behind the right operand of a sum stands no sign of a product. -/
theorem power_of_not_atTighter {u : TokenStream} {kind : TokenKind} {operator : Operator}
    (hsign : SumSign kind operator ∧ Rules.standard.power kind = .additive ∨
      ProductSign kind operator ∧ Rules.standard.power kind = .multiplicative)
    (hstop : ¬AtTighter u (Rules.standard.power kind))
    (hproduct : Rules.standard.power u.current.kind = .multiplicative) :
    Rules.standard.power kind = .multiplicative := by
  rcases hsign with ⟨-, hpower⟩ | ⟨-, hpower⟩
  · rw [hpower] at hstop
    exact absurd (by unfold AtTighter; rw [hproduct]; decide) hstop
  · exact hpower

section Readers

variable {room : Nat} {sub : BindingPower → Parse Expr} (hsub : ReadsExpr room sub)
variable {s u : TokenStream} {e : Expr}

theorem factor_of_literal (hs : s.Proper) (h : literal s = .ok e u) :
    ∃ ts, s.Behind ts u ∧ Factor room ts e := by
  unfold literal at h
  rw [peek_bind] at h
  cases hkind : s.current.kind with
  | number =>
    simp only [hkind] at h
    obtain ⟨t, v, hadvance, h⟩ := bind_eq_ok_iff.mp h
    obtain ⟨rfl, hbehind⟩ := behind_of_advance hs (by rw [hkind]; decide) hadvance
    cases hvalue : integer? s.current.text.toList with
    | none =>
      simp only [hvalue] at h
      exact absurd h (throw_ne_ok _ _ _ _)
    | some value =>
      simp only [hvalue] at h
      obtain ⟨rfl, rfl⟩ := pure_eq_ok_iff.mp h
      obtain ⟨hlt, rfl⟩ := integer?_eq_some_iff.mp hvalue
      exact ⟨_, hbehind, .number hkind hlt⟩
  | string =>
    simp only [hkind] at h
    obtain ⟨t, v, hadvance, h⟩ := bind_eq_ok_iff.mp h
    obtain ⟨rfl, hbehind⟩ := behind_of_advance hs (by rw [hkind]; decide) hadvance
    obtain ⟨rfl, rfl⟩ := pure_eq_ok_iff.mp h
    exact ⟨_, hbehind, .string hkind⟩
  | _ =>
    simp only [hkind] at h
    exact absurd h (unexpected_ne_ok _ _ _)

include hsub

/-- Arguments are read one by one. Each takes a token and a comma follows all but the last, so the
rounds do not run out. -/
theorem arguments_of_rounds {n : Nat} {es : List Expr} (hs : s.Proper)
    (hn : s.pending.length ≤ n) (hpos : 0 < n) (h : argumentRounds sub n s = .ok es u) :
    ∃ ts, s.Behind ts u ∧ Arguments room ts es ∧ es ≠ [] := by
  induction n generalizing s es with
  | zero => exact absurd hpos (Nat.lt_irrefl 0)
  | succ n ih =>
    unfold argumentRounds at h
    obtain ⟨first, v, hfirst, h⟩ := bind_eq_ok_iff.mp h
    obtain ⟨k, ts, rfl, hbehind, hderives, -⟩ := hsub _ _ _ _ hs hfirst
    rw [peek_bind] at h
    by_cases hcomma : v.current.kind = .comma
    · rw [if_pos hcomma] at h
      obtain ⟨comma, w, hadvance, h⟩ := bind_eq_ok_iff.mp h
      obtain ⟨rfl, hbehind'⟩ :=
        behind_of_advance hbehind.proper (by rw [hcomma]; decide) hadvance
      obtain ⟨more, w', hmore, h⟩ := bind_eq_ok_iff.mp h
      obtain ⟨rfl, rfl⟩ := pure_eq_ok_iff.mp h
      have hlength : w.pending.length + 2 ≤ n + 1 := by
        have h₁ := hbehind.length
        have h₂ := hbehind'.length
        have h₃ := List.length_pos_iff.mpr hderives.ne_nil
        rw [List.length_singleton] at h₂
        omega
      obtain ⟨us, hbehind'', hargs, hne⟩ := ih hbehind'.proper (by omega) (by omega) hmore
      obtain ⟨f, fs, rfl⟩ := List.exists_cons_of_ne_nil hne
      exact ⟨ts ++ ([v.current] ++ us), hbehind.trans (hbehind'.trans hbehind''),
        .more hderives hcomma hargs, by simp⟩
    · rw [if_neg hcomma] at h
      obtain ⟨rfl, rfl⟩ := pure_eq_ok_iff.mp h
      exact ⟨ts, hbehind, .one hderives, by simp⟩

theorem arguments_of_arguments {es : List Expr} (hs : s.Proper)
    (h : arguments sub s = .ok es u) : ∃ ts, s.Behind ts u ∧ Arguments room ts es := by
  unfold arguments at h
  rw [peek_bind] at h
  by_cases hnone : s.current.kind = .closeParen
  · rw [if_pos hnone] at h
    obtain ⟨rfl, rfl⟩ := pure_eq_ok_iff.mp h
    exact ⟨[], .refl hs, .none⟩
  · rw [if_neg hnone, rounds_bind] at h
    obtain ⟨ts, hts, hderives, -⟩ :=
      arguments_of_rounds hsub hs s.length_pending_le (Nat.succ_pos _) h
    exact ⟨ts, hts, hderives⟩

theorem factor_of_call {name : Token} (hname : name.kind = .identifier) (hs : s.Proper)
    (h : call sub name s = .ok e u) : ∃ ts, s.Behind ts u ∧ Factor room (name :: ts) e := by
  unfold call at h
  obtain ⟨o, v, hopen, h⟩ := bind_eq_ok_iff.mp h
  obtain ⟨hokind, hbehind⟩ := behind_of_expect hs (by decide) hopen
  obtain ⟨args, w, hargs, h⟩ := bind_eq_ok_iff.mp h
  obtain ⟨ts, hts, hderives⟩ := arguments_of_arguments hsub hbehind.proper hargs
  obtain ⟨c, x, hclose, h⟩ := bind_eq_ok_iff.mp h
  obtain ⟨hckind, hbehind'⟩ := behind_of_expect hts.proper (by decide) hclose
  obtain ⟨rfl, rfl⟩ := pure_eq_ok_iff.mp h
  exact ⟨[o] ++ (ts ++ [c]), hbehind.trans (hts.trans hbehind'),
    .call hname hokind hderives hckind⟩

theorem factor_of_symbolTail {name : Token} (hname : name.kind = .identifier) (hs : s.Proper)
    (h : symbolTail sub name s = .ok e u) : ∃ ts, s.Behind ts u ∧ Factor room (name :: ts) e := by
  unfold symbolTail at h
  rw [peek_bind] at h
  by_cases hopen : s.current.kind = .openParen
  · rw [if_pos hopen] at h
    exact factor_of_call hsub hname hs h
  · rw [if_neg hopen] at h
    obtain ⟨rfl, rfl⟩ := pure_eq_ok_iff.mp h
    exact ⟨[], .refl hs, .var hname⟩

theorem factor_of_symbol (hs : s.Proper) (h : symbol sub s = .ok e u) :
    ∃ ts, s.Behind ts u ∧ Factor room ts e := by
  unfold symbol at h
  obtain ⟨name, v, hexpect, h⟩ := bind_eq_ok_iff.mp h
  obtain ⟨hname, hbehind⟩ := behind_of_expect hs (by decide) hexpect
  obtain ⟨ts, hts, hfactor⟩ := factor_of_symbolTail hsub hname hbehind.proper h
  exact ⟨[name] ++ ts, hbehind.trans hts, hfactor⟩

theorem factor_of_group (hkind : s.current.kind = .openParen) (hs : s.Proper)
    (h : group sub s = .ok e u) : ∃ ts, s.Behind ts u ∧ Factor room ts e := by
  unfold group at h
  obtain ⟨o, v, hopen, h⟩ := bind_eq_ok_iff.mp h
  obtain ⟨rfl, hbehind⟩ := behind_of_advance hs (by rw [hkind]; decide) hopen
  obtain ⟨inner, w, hinner, h⟩ := bind_eq_ok_iff.mp h
  obtain ⟨n, ts, rfl, hts, hderives, -⟩ := hsub _ _ _ _ hbehind.proper hinner
  obtain ⟨c, x, hclose, h⟩ := bind_eq_ok_iff.mp h
  obtain ⟨hckind, hbehind'⟩ := behind_of_expect hts.proper (by decide) hclose
  obtain ⟨rfl, rfl⟩ := pure_eq_ok_iff.mp h
  exact ⟨[s.current] ++ (ts ++ [c]), hbehind.trans (hts.trans hbehind'),
    .group hkind hderives hckind⟩

theorem factor_of_operand (hs : s.Proper) (h : operand .standard sub s = .ok e u) :
    ∃ ts, s.Behind ts u ∧ Factor room ts e := by
  unfold operand at h
  rw [peek_bind] at h
  cases hrule : Rules.standard.operand? s.current.kind with
  | none =>
    simp only [hrule] at h
    exact absurd h (unexpected_ne_ok _ _ _)
  | some rule =>
    simp only [hrule] at h
    cases rule with
    | literal => exact factor_of_literal hs h
    | symbol => exact factor_of_symbol hsub hs h
    | group =>
      have hkind : s.current.kind = .openParen := by
        have hgroup : ∀ kind, Rules.standard.operand? kind = some .group → kind = .openParen := by
          decide
        exact hgroup _ hrule
      exact factor_of_group hsub hkind hs h

/-- An operator and its right operand are read behind the left operand. -/
theorem sign_of_binary {left : Expr} {power : BindingPower}
    (hjoins : Rules.standard.joins s.current.kind = true) (hs : s.Proper)
    (h : binary sub left power s = .ok e u) :
    ∃ operator k ts right, room = k + 1 ∧ s.Behind (s.current :: ts) u ∧
      (SumSign s.current.kind operator ∧ Rules.standard.power s.current.kind = .additive ∨
        ProductSign s.current.kind operator ∧
          Rules.standard.power s.current.kind = .multiplicative) ∧
      Derives power k ts right ∧ ¬AtTighter u power ∧
      e = .binary operator left right (left.span.through right.span) := by
  obtain ⟨operator, hoperator, hsign⟩ := sign_cases hjoins
  have hne : s.current.kind ≠ .endOfSource := by
    intro hend
    rw [hend] at hjoins
    exact absurd hjoins (by decide)
  unfold binary at h
  obtain ⟨sign, v, hadvance, h⟩ := bind_eq_ok_iff.mp h
  obtain ⟨rfl, hv⟩ := behind_of_advance hs hne hadvance
  simp only [hoperator] at h
  obtain ⟨right, w, hright, h⟩ := bind_eq_ok_iff.mp h
  obtain ⟨rfl, rfl⟩ := pure_eq_ok_iff.mp h
  obtain ⟨k, ts, hroom, hts, hderives, hstop⟩ := hsub _ _ _ _ hv.proper hright
  exact ⟨operator, k, ts, right, hroom, hv.trans hts, hsign, hderives, hstop, rfl⟩

/-- The loop over operators goes on with a left operand that is already read. At the lowest power
the left operand of a product must itself be a term; behind a sum no product can follow, because
the right operand of the sum has taken it. -/
theorem derives_of_operatorRounds {p : BindingPower} {n : Nat} {left : Expr} {us : List Token}
    (hs : s.Proper) (hn : s.pending.length ≤ n) (hleft : Derives p room us left)
    (hterm : p = .lowest → Rules.standard.power s.current.kind = .multiplicative →
      Term room us left)
    (h : operatorRounds .standard sub p n left s = .ok e u) :
    ∃ ts, s.Behind ts u ∧ Derives p room (us ++ ts) e ∧ ¬AtTighter u p := by
  induction n generalizing s left us with
  | zero =>
    obtain ⟨rfl, rfl⟩ := pure_eq_ok_iff.mp h
    have hnil : s.pending = [] := List.length_eq_zero_iff.mp (by omega)
    exact ⟨[], .refl hs, by rwa [List.append_nil],
      not_atTighter_of_end (pending_eq_nil_iff.mp hnil) p⟩
  | succ n ih =>
    unfold operatorRounds at h
    rw [peek_bind] at h
    by_cases htight : (Rules.standard.power s.current.kind).tighter p = true
    · rw [if_pos htight] at h
      by_cases hjoins : Rules.standard.joins s.current.kind = true
      · rw [if_pos hjoins] at h
        obtain ⟨joined, w, hbinary, h⟩ := bind_eq_ok_iff.mp h
        obtain ⟨operator, k, ts, right, rfl, hts, hsign, hderives, hstop, rfl⟩ :=
          sign_of_binary hsub hjoins hs hbinary
        have hlength : w.pending.length ≤ n := by
          have hlength := hts.length
          rw [List.length_cons] at hlength
          omega
        obtain ⟨hjoined, hproduct⟩ :=
          Derives.join (left.span.through right.span) htight hsign hleft hterm hderives
        obtain ⟨vs, hvs, hresult, hend⟩ := ih hts.proper hlength hjoined
          (fun hlowest hmult => hproduct hlowest (power_of_not_atTighter hsign hstop hmult)) h
        refine ⟨s.current :: ts ++ vs, hts.trans hvs, ?_, hend⟩
        rwa [List.append_assoc] at hresult
      · rw [if_neg hjoins] at h
        exact absurd h (unexpected_ne_ok _ _ _)
    · rw [if_neg htight] at h
      obtain ⟨rfl, rfl⟩ := pure_eq_ok_iff.mp h
      exact ⟨[], .refl hs, by rwa [List.append_nil], htight⟩

/-- An operand that is already read goes on with the operators behind it. -/
theorem derives_of_operators {p : BindingPower} {left : Expr} {us : List Token} (hs : s.Proper)
    (hleft : Factor room us left) (h : operators .standard sub p left s = .ok e u) :
    ∃ ts, s.Behind ts u ∧ Derives p room (us ++ ts) e ∧ ¬AtTighter u p := by
  unfold operators at h
  rw [rounds_bind] at h
  exact derives_of_operatorRounds hsub hs s.length_pending_le (derives_of_factor hleft)
    (fun _ _ => .factor hleft) h

end Readers

/-- The reader of expressions takes phrases of the grammar. -/
theorem readsExpr_expr (room : Nat) : ReadsExpr room (expr .standard room) := by
  induction room with
  | zero =>
    intro p s e u _ h
    exact absurd h (tooDeep_ne_ok _ _ _)
  | succ room ih =>
    intro p s e u hs h
    unfold expr at h
    obtain ⟨left, v, hoperand, h⟩ := bind_eq_ok_iff.mp h
    obtain ⟨us, hus, hfactor⟩ := factor_of_operand ih hs hoperand
    obtain ⟨ts, hts, hderives, hstop⟩ := derives_of_operators ih hus.proper hfactor h
    exact ⟨room, us ++ ts, rfl, hus.trans hts, hderives, hstop⟩

end IntLang.Grammar
