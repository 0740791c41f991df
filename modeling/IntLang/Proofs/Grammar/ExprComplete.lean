import IntLang.Proofs.Grammar.Bare
import IntLang.Proofs.Grammar.ExprSound

/-!
What the grammar derives, the readers of expressions accept. A phrase is read in front of any rest
that does not bind tighter than the phrase ends, and the tree that is read is the same whatever that
rest is. An operator takes everything before it as its left operand, so the statement about a phrase
is about the loop: with the first operand read, the loop comes to stand behind the phrase with the
whole phrase as its left operand.
-/
namespace IntLang.Grammar

open Parse TokenStream

def BeginsOperand (t : Token) : Prop := (Rules.standard.operand? t.kind).isSome = true

theorem Factor.exists_head {n ts e} (h : Factor n ts e) :
    ∃ t us, ts = t :: us ∧ BeginsOperand t := by
  cases h with
  | number hkind | string hkind | var hkind | call hkind | group hkind =>
    exact ⟨_, _, rfl, by unfold BeginsOperand; rw [hkind]; rfl⟩

theorem Term.exists_head {n ts e} : Term n ts e → ∃ t us, ts = t :: us ∧ BeginsOperand t
  | .factor he => he.exists_head
  | .product ha _ _ => by
    obtain ⟨t, us, rfl, ht⟩ := ha.exists_head
    exact ⟨t, _, rfl, ht⟩

theorem Expression.exists_head {n ts e} :
    Expression n ts e → ∃ t us, ts = t :: us ∧ BeginsOperand t
  | .term he => he.exists_head
  | .sum ha _ _ => by
    obtain ⟨t, us, rfl, ht⟩ := ha.exists_head
    exact ⟨t, _, rfl, ht⟩

section Follow

variable {last : Token} {rest : List Token}

theorem not_atTighter_of_lowest {t : Token} (h : Rules.standard.power t.kind = .lowest)
    (p : BindingPower) : ¬AtTighter (front last (t :: rest)) p := by
  unfold AtTighter
  rw [current_front_cons, h]
  cases p <;> decide

/-- What binds no tighter than a power binds no tighter than a greater one. -/
theorem not_atTighter_of_le {p q : BindingPower} {s : TokenStream} (hle : p.rank ≤ q.rank)
    (h : ¬AtTighter s p) : ¬AtTighter s q := by
  unfold AtTighter BindingPower.tighter at h ⊢
  simp only [decide_eq_true_eq] at h ⊢
  omega

theorem SumSign.power {kind operator} (h : SumSign kind operator) :
    Rules.standard.power kind = .additive := by
  cases h <;> rfl

theorem ProductSign.power {kind operator} (h : ProductSign kind operator) :
    Rules.standard.power kind = .multiplicative := by
  cases h <;> rfl

end Follow

section Readers

variable {last : Token} {room : Nat} {p : BindingPower}

/-- One round of the loop, in front of an operator that binds tighter than the power. -/
theorem operatorRounds_succ {s : Token} {ts rest : List Token} {operator : Operator}
    {sub : BindingPower → Parse Expr} {n : Nat} {left right : Expr}
    (htight : (Rules.standard.power s.kind).tighter p = true)
    (hjoins : Rules.standard.joins s.kind = true)
    (hoperator : Operator.ofKind? s.kind = some operator)
    (hright : sub (Rules.standard.power s.kind) (front last ts) = .ok right (front last rest)) :
    operatorRounds .standard sub p (n + 1) left (front last (s :: ts)) =
      operatorRounds .standard sub p n
        (.binary operator left right (left.span.through right.span)) (front last rest) := by
  rw [operatorRounds, peek_bind, current_front_cons, if_pos htight, if_pos hjoins]
  refine bind_of_ok ?_ _
  unfold binary
  rw [advance_bind_front]
  simp only [hoperator]
  rw [bind_of_ok hright]
  rfl

/-- A step on some tokens yields a tree and stops behind them, in front of whatever binds no tighter
than the power. -/
def Reads (x : Parse Expr) (p : BindingPower) (ts : List Token) (e : Expr) : Prop :=
  ∀ last rest, ¬AtTighter (front last rest) p →
    x (front last (ts ++ rest)) = .ok e (front last rest)

/-- A step on the tokens of a tree yields the tree up to spans. Its spans do not depend on what
comes behind the tokens. -/
def ReadsTo (x : Parse Expr) (p : BindingPower) (ts : List Token) (e : Expr) : Prop :=
  ∃ e', Expr.bare e' = e.bare ∧ Reads x p ts e'

/-- With the first operand of a phrase read, the loop comes to stand behind the phrase, in front of
whatever binds no tighter than the power `q`. -/
def LoopsTo (room : Nat) (p q : BindingPower) (ts : List Token) (e : Expr) : Prop :=
  ∃ first mid e', Expr.bare e' = e.bare ∧ ∀ last rest, ¬AtTighter (front last rest) q →
    operand .standard (expr .standard room) (front last (ts ++ rest)) =
      .ok first (front last (mid ++ rest)) ∧
    ∀ n, (mid ++ rest).length ≤ n → ∃ m, rest.length ≤ m ∧
      operatorRounds .standard (expr .standard room) p n first (front last (mid ++ rest)) =
        operatorRounds .standard (expr .standard room) p m e' (front last rest)

theorem ReadsTo.loopsTo {q : BindingPower} {ts : List Token} {e : Expr}
    (h : ReadsTo (operand .standard (expr .standard room)) q ts e) : LoopsTo room p q ts e := by
  obtain ⟨e', hbare, hread⟩ := h
  exact ⟨e', [], e', hbare,
    fun last rest hstop => ⟨hread last rest hstop, fun n hn => ⟨n, hn, rfl⟩⟩⟩

/-- Behind the first operand of a phrase its operators are read. -/
theorem LoopsTo.exists_first {q : BindingPower} {ts : List Token} {e : Expr}
    (h : LoopsTo room p q ts e) (hle : p.rank ≤ q.rank) :
    ∃ first mid e', Expr.bare e' = e.bare ∧ ∀ last rest, ¬AtTighter (front last rest) p →
      operand .standard (expr .standard room) (front last (ts ++ rest)) =
        .ok first (front last (mid ++ rest)) ∧
      operators .standard (expr .standard room) p first (front last (mid ++ rest)) =
        .ok e' (front last rest) := by
  obtain ⟨first, mid, e', hbare, hloops⟩ := h
  refine ⟨first, mid, e', hbare, fun last rest hstop => ?_⟩
  obtain ⟨hoperand, hloop⟩ := hloops last rest (not_atTighter_of_le hle hstop)
  obtain ⟨m, -, hrounds⟩ := hloop _ (length_le_rounds_front last (mid ++ rest))
  refine ⟨hoperand, ?_⟩
  rw [operators, rounds_bind, hrounds, operatorRounds_of_not_atTighter hstop]

theorem LoopsTo.readsTo {q : BindingPower} {ts : List Token} {e : Expr}
    (h : LoopsTo room p q ts e) (hle : p.rank ≤ q.rank) :
    ReadsTo (expr .standard (room + 1) p) p ts e := by
  obtain ⟨first, mid, e', hbare, hreads⟩ := h.exists_first hle
  refine ⟨e', hbare, fun last rest hstop => ?_⟩
  obtain ⟨hoperand, hoperators⟩ := hreads last rest hstop
  unfold expr
  rw [bind_of_ok hoperand, hoperators]

/-- A phrase, an operator and its right operand make a phrase again. -/
theorem LoopsTo.join {q : BindingPower} {ts us : List Token} {s : Token} {operator : Operator}
    {a b : Expr} {span : Span} (ha : LoopsTo room p q ts a)
    (hpower : Rules.standard.power s.kind = q) (htight : q.tighter p = true)
    (hjoins : Rules.standard.joins s.kind = true)
    (hoperator : Operator.ofKind? s.kind = some operator)
    (hb : ReadsTo (expr .standard room q) q us b) :
    LoopsTo room p q (ts ++ s :: us) (.binary operator a b span) := by
  obtain ⟨first, mid, a', habare, hloops⟩ := ha
  obtain ⟨b', hbbare, hright⟩ := hb
  refine ⟨first, mid ++ s :: us, .binary operator a' b' (a'.span.through b'.span), ?_, ?_⟩
  · rw [Expr.bare, Expr.bare, habare, hbbare]
  · intro last rest hstop
    have hsign : ¬AtTighter (front last (s :: (us ++ rest))) q := by
      unfold AtTighter BindingPower.tighter
      rw [current_front_cons, hpower]
      simp
    obtain ⟨hoperand, hloop⟩ := hloops last (s :: (us ++ rest)) hsign
    simp only [List.append_assoc, List.cons_append]
    refine ⟨hoperand, fun n hn => ?_⟩
    obtain ⟨m, hm, hrounds⟩ := hloop n hn
    simp only [List.length_cons, List.length_append] at hm
    obtain ⟨k, rfl⟩ : ∃ k, m = k + 1 := ⟨m - 1, by omega⟩
    refine ⟨k, by omega, ?_⟩
    rw [hrounds]
    refine operatorRounds_succ (by rwa [hpower]) hjoins hoperator ?_
    rw [hpower]
    exact hright last rest hstop

theorem SumSign.joins {kind operator} (h : SumSign kind operator) :
    Rules.standard.joins kind = true ∧ Operator.ofKind? kind = some operator := by
  cases h <;> exact ⟨rfl, rfl⟩

theorem ProductSign.joins {kind operator} (h : ProductSign kind operator) :
    Rules.standard.joins kind = true ∧ Operator.ofKind? kind = some operator := by
  cases h <;> exact ⟨rfl, rfl⟩

theorem operand_front {t : Token} {rule : OperandRule}
    (hrule : Rules.standard.operand? t.kind = some rule) (sub : BindingPower → Parse Expr)
    (ts : List Token) :
    operand .standard sub (front last (t :: ts)) = operandBy sub rule (front last (t :: ts)) := by
  unfold operand
  rw [peek_bind, current_front_cons]
  simp only [hrule]

theorem operand_front_identifier {t : Token} (hkind : t.kind = .identifier)
    (sub : BindingPower → Parse Expr) (ts : List Token) :
    operand .standard sub (front last (t :: ts)) = symbolTail sub t (front last ts) := by
  have hrule : Rules.standard.operand? t.kind = some .symbol := by rw [hkind]; rfl
  rw [operand_front hrule]
  change symbol sub (front last (t :: ts)) = _
  unfold symbol
  rw [expect_bind_front hkind]

/-- The loop over arguments, when there are any, stops behind the last of them. -/
def RoundsTo (room : Nat) (ts : List Token) (es es' : List Expr) : Prop :=
  Expr.bareList es' = Expr.bareList es ∧ (es ≠ [] → ∀ last rest,
    (front last rest).current.kind = .closeParen → ∀ n, (ts ++ rest).length ≤ n →
      argumentRounds (expr .standard room) n (front last (ts ++ rest)) = .ok es' (front last rest))

theorem Arguments.reads_of_roundsTo {n ts es es'} (h : Arguments n ts es)
    (hrounds : RoundsTo n ts es es') {rest : List Token}
    (hclose : (front last rest).current.kind = .closeParen) :
    arguments (expr .standard n) (front last (ts ++ rest)) = .ok es' (front last rest) := by
  obtain ⟨hbare, hrounds⟩ := hrounds
  have hfirst : es ≠ [] → ∃ t us, ts = t :: us ∧ BeginsOperand t := by
    intro hne
    cases h with
    | none => exact absurd rfl hne
    | one he => exact he.exists_head
    | more he =>
      obtain ⟨t, us, rfl, ht⟩ := he.exists_head
      exact ⟨t, _, rfl, ht⟩
  unfold arguments
  rw [peek_bind]
  cases es with
  | nil =>
    cases h
    cases es' with
    | cons e es => cases hbare
    | nil =>
      rw [List.nil_append, if_pos hclose]
      rfl
  | cons e es =>
    have hrounds := hrounds (List.cons_ne_nil e es)
    obtain ⟨t, us, rfl, ht⟩ := hfirst (List.cons_ne_nil e es)
    have hkind : t.kind ≠ .closeParen := by
      intro hkind
      unfold BeginsOperand at ht
      rw [hkind] at ht
      exact absurd ht (by decide)
    rw [List.cons_append, current_front_cons, if_neg hkind, rounds_bind]
    exact hrounds last rest hclose _ (length_le_rounds_front last _)

theorem not_atTighter_of_closeParen {s : TokenStream} (h : s.current.kind = .closeParen)
    (p : BindingPower) : ¬AtTighter s p := by
  unfold AtTighter
  rw [h]
  cases p <;> decide

mutual

theorem Factor.readsTo {n ts e} :
    Factor n ts e → ReadsTo (operand .standard (expr .standard n)) .multiplicative ts e
  | .number (t := t) hkind hvalue => by
    refine ⟨.number (Int64.ofNat (decimalValue t.text.toList)) t.span, by simp only [Expr.bare],
      fun last rest _ => ?_⟩
    have hrule : Rules.standard.operand? t.kind = some .literal := by rw [hkind]; rfl
    have hinteger := integer?_eq_some_iff.mpr ⟨hvalue, rfl⟩
    rw [List.singleton_append, operand_front hrule]
    change literal (front last (t :: rest)) = _
    unfold literal
    rw [peek_bind, current_front_cons]
    simp only [hkind]
    rw [advance_bind_front]
    simp only [hinteger]
    rfl
  | .string (t := t) hkind => by
    refine ⟨.string t.text t.span, by simp only [Expr.bare], fun last rest _ => ?_⟩
    have hrule : Rules.standard.operand? t.kind = some .literal := by rw [hkind]; rfl
    rw [List.singleton_append, operand_front hrule]
    change literal (front last (t :: rest)) = _
    unfold literal
    rw [peek_bind, current_front_cons]
    simp only [hkind]
    rw [advance_bind_front]
    rfl
  | .var (t := t) hkind => by
    refine ⟨.var t.text t.span, by simp only [Expr.bare], fun last rest hstop => ?_⟩
    have hopen : (front last rest).current.kind ≠ .openParen := by
      intro hopen
      exact hstop (by unfold AtTighter; rw [hopen]; decide)
    rw [List.singleton_append, operand_front_identifier hkind]
    unfold symbolTail
    rw [peek_bind, if_neg hopen]
    rfl
  | .call (t := t) (o := o) (c := c) hkind hopen hargs hclose => by
    obtain ⟨args', hrounds⟩ := hargs.roundsTo
    refine ⟨.call t.text args' (t.span.through c.span), ?_, fun last rest _ => ?_⟩
    · rw [Expr.bare, Expr.bare, hrounds.1]
    · have hfront : (front last (c :: rest)).current.kind = .closeParen := hclose
      have hread := hargs.reads_of_roundsTo hrounds hfront
      simp only [List.cons_append, List.append_assoc, List.nil_append]
      rw [operand_front_identifier hkind]
      unfold symbolTail
      rw [peek_bind, current_front_cons, if_pos hopen]
      unfold call
      rw [expect_bind_front hopen, bind_of_ok hread, expect_bind_front hclose]
      rfl
  | .group (o := o) (c := c) hopen he hclose => by
    obtain ⟨e', hbare, hread⟩ := he.loopsTo.readsTo (by decide)
    refine ⟨e', hbare, fun last rest _ => ?_⟩
    have hrule : Rules.standard.operand? o.kind = some .group := by rw [hopen]; rfl
    have hclosed : ¬AtTighter (front last (c :: rest)) .lowest :=
      not_atTighter_of_closeParen hclose _
    simp only [List.cons_append, List.append_assoc, List.nil_append]
    rw [operand_front hrule]
    change group _ (front last (o :: (_ ++ c :: rest))) = _
    unfold group
    rw [advance_bind_front, bind_of_ok (hread last _ hclosed), expect_bind_front hclose]
    rfl

theorem Term.loopsTo {n ts e} : Term n ts e → ∀ p, BindingPower.multiplicative.tighter p = true →
    LoopsTo n p .multiplicative ts e
  | .factor he, _, _ => he.readsTo.loopsTo
  | .product ha hsign hb, p, htight =>
    (ha.loopsTo p htight).join hsign.power htight hsign.joins.1 hsign.joins.2
      (hb.readsTo.loopsTo.readsTo (Nat.le_refl _))

theorem Expression.loopsTo {n ts e} : Expression n ts e → LoopsTo n .lowest .additive ts e
  | .term he => by
    obtain ⟨first, mid, e', hbare, hloops⟩ := he.loopsTo .lowest rfl
    exact ⟨first, mid, e', hbare, fun last rest hstop =>
      hloops last rest (not_atTighter_of_le (by decide) hstop)⟩
  | .sum ha hsign hb =>
    ha.loopsTo.join hsign.power rfl hsign.joins.1 hsign.joins.2
      ((hb.loopsTo .additive rfl).readsTo (by decide))

theorem Arguments.roundsTo {n ts es} : Arguments n ts es → ∃ es', RoundsTo n ts es es'
  | .none => ⟨[], rfl, fun h => absurd rfl h⟩
  | .one he => by
    obtain ⟨e', hbare, hread⟩ := he.loopsTo.readsTo (by decide)
    refine ⟨[e'], by simp only [Expr.bareList, hbare], fun _ last rest hclose n hn => ?_⟩
    obtain ⟨t, us, rfl, -⟩ := he.exists_head
    obtain ⟨k, rfl⟩ : ∃ k, n = k + 1 := by
      simp only [List.cons_append, List.length_cons] at hn
      exact ⟨n - 1, by omega⟩
    have hcomma : (front last rest).current.kind ≠ .comma := by
      rw [hclose]
      decide
    rw [argumentRounds, bind_of_ok (hread last rest (not_atTighter_of_closeParen hclose _)),
      peek_bind, if_neg hcomma]
    rfl
  | @Arguments.more k _ s us _ _ _ he hcomma hes => by
    have hlowest : Rules.standard.power s.kind = .lowest := by rw [hcomma]; rfl
    obtain ⟨e', hbare, hread⟩ := he.loopsTo.readsTo (by decide)
    obtain ⟨es', hbares, hrounds⟩ := hes.roundsTo
    refine ⟨e' :: es', by simp only [Expr.bareList, hbare, hbares],
      fun _ last rest hclose n hn => ?_⟩
    obtain ⟨m, rfl⟩ : ∃ m, n = m + 1 := by
      simp only [List.length_append, List.length_cons] at hn
      exact ⟨n - 1, by omega⟩
    have hlength : (us ++ rest).length ≤ m := by
      simp only [List.length_append, List.length_cons] at hn ⊢
      omega
    have hfirst := hread last (s :: (us ++ rest)) (not_atTighter_of_lowest hlowest _)
    rw [List.append_assoc, List.cons_append, argumentRounds, bind_of_ok hfirst, peek_bind,
      current_front_cons, if_pos hcomma, advance_bind_front,
      bind_of_ok (hrounds (List.cons_ne_nil _ _) last rest hclose m hlength)]
    rfl

end

/-- A reader of expressions with a level left reads any expression of the grammar. -/
theorem Expression.readsTo {n ts e} (h : Expression n ts e) :
    ReadsTo (expr .standard (n + 1) .lowest) .lowest ts e :=
  h.loopsTo.readsTo (by decide)

end Readers

end IntLang.Grammar
