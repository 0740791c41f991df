import IntLang.Proofs.Grammar.Chains
import IntLang.Proofs.Grammar.Counted
import IntLang.Proofs.Grammar.Program

/-!
What a parser reads at a binding power. From any state with the standard rules an expression that is
read at a power is a phrase of that power, and the parser stops in front of a token that binds no
tighter. The loop over operators goes round by round: as long as the current token binds tighter and
is an operator, it takes one link, and the links that it takes are as many tokens as links can be.
If a token binds tighter and is no operator, the loop fails at it.
-/
namespace IntLang

open Parse Grammar

namespace Parser

variable {α : Type} {p q : Parser} {power : BindingPower} {left e : Expr}

theorem run_eq_ok_iff {x : ParseOn Parser α} {a : α} : p.run x = (.ok a, q) ↔ x p = .ok a q := by
  unfold run
  cases x p <;> simp

theorem run_of_error {x : ParseOn Parser α} {err : Error} (h : x p = .error err q) :
    p.run x = (.error err, q) := by
  unfold run
  rw [h]

/-- In front of a token that is not the end token a parser has a stream that ends as streams do. -/
theorem proper_stream (h : p.current.kind ≠ .endOfSource) : p.stream.Proper := by
  obtain ⟨hkinds, hending⟩ := p.cursor.kind_tokens
  exact ⟨hkinds, hending, fun hend => absurd hend h⟩

/-- Two parsers that are the same, with given rules and a given number of levels open. Taking a
token changes neither rules nor levels. -/
def unchanged (rules : Rules) : LevelCorrespondence Parser Parser where
  toLikeness := .same
  state d p q := p = q ∧ p.rules = rules ∧ p.depth = d
  current := by
    rintro d p q ⟨rfl, -⟩
    exact Likeness.same_tokens _
  ahead := by
    rintro d p q ⟨rfl, -⟩
    rfl
  take := by
    rintro d p q ⟨rfl, hrules, hdepth⟩
    change ResultsRelated _ _ _ p.take p.take
    unfold take
    rcases p.cursor.next with ⟨err | t, c⟩
    · exact .error (Likeness.same_errors err) ⟨rfl, hrules, hdepth⟩
    · exact .ok (Likeness.same_tokens _) ⟨rfl, hrules, hdepth⟩
  depth := by
    rintro d p q ⟨rfl, -, hdepth⟩
    exact ⟨hdepth, hdepth⟩
  setDepth := by
    rintro d p q ⟨rfl, hrules, -⟩ k
    exact ⟨rfl, hrules, rfl⟩

/-- A step that respects the rules and levels of a parser keeps them. -/
theorem keeps_of_ok {R : α → α → Prop} {x : ParseOn Parser α} {a : α}
    (hrel : ((unchanged p.rules).atDepth p.depth).Rel R x x) (h : x p = .ok a q) :
    q.rules = p.rules ∧ q.depth = p.depth := by
  have hresults := hrel p p ⟨rfl, rfl, rfl⟩
  rw [h] at hresults
  cases hresults with
  | ok _ hq => exact hq.2

/-- What a step does to a parser its counterpart does to the stream of the parser. -/
theorem ok_onStream {x : ParseOn Parser α} {y : Parse α} {a : α}
    (hrel : (onStream p.depth).Rel Eq x y) (h : x p = .ok a q) : y p.stream = .ok a q.stream := by
  have hresults := hrel p p.stream ⟨rfl, rfl⟩
  rw [h] at hresults
  generalize y p.stream = result at hresults
  cases hresults with
  | ok hab hq =>
    cases hab
    rw [hq.1]

theorem exprStep_onStream (hp : p.rules = .standard) (power : BindingPower) :
    (onStream p.depth).Rel Eq (p.exprStep power)
      (Parse.expr .standard (maxDepth - p.depth) power) := by
  unfold exprStep
  rw [hp]
  exact countedExpr_onStream (by omega) power

/-- At the end of a source no expression is read. -/
theorem kind_ne_end_of_expr {room : Nat} {s u : TokenStream}
    (h : Parse.expr .standard room power s = .ok e u) : s.current.kind ≠ .endOfSource := by
  intro hend
  cases room with
  | zero => exact tooDeep_ne_ok _ _ _ h
  | succ room =>
    unfold Parse.expr at h
    obtain ⟨first, v, hoperand, -⟩ := bind_eq_ok_iff.mp h
    unfold Parse.operand at hoperand
    rw [peek_bind, hend] at hoperand
    exact unexpected_ne_ok _ _ _ hoperand

/-- An expression that is read at a power is a phrase of that power. -/
theorem derives_of_expr (hp : p.rules = .standard) (h : p.expr power = (.ok e, q)) :
    ∃ n ts, maxDepth - p.depth = n + 1 ∧ p.stream.Behind ts q.stream ∧ Derives power n ts e ∧
      ¬AtTighter q.stream power := by
  have hstream := ok_onStream (exprStep_onStream hp power) (run_eq_ok_iff.mp h)
  have hproper := proper_stream (kind_ne_end_of_expr hstream)
  exact readsExpr_expr _ power _ e _ hproper hstream

section Rounds

variable {rules : Rules} {sub : BindingPower → ParseOn Parser Expr}

theorem operatorRounds_of_loose (h : (rules.power p.current.kind).tighter power = false) (n : Nat)
    (left : Expr) : operatorRounds rules sub power n left p = .ok left p := by
  cases n with
  | zero => rfl
  | succ n =>
    have hloose : ¬(rules.power (TokenSource.current p).kind).tighter power = true :=
      Bool.eq_false_iff.mp h
    exact congrFun (if_neg hloose) p

theorem operatorRounds_of_tighter (h : (rules.power p.current.kind).tighter power = true)
    (n : Nat) (left : Expr) :
    operatorRounds rules sub power (n + 1) left p =
      if rules.joins p.current.kind then
        EStateM.bind (Parse.binary sub left (rules.power p.current.kind))
          (operatorRounds rules sub power n) p
      else .error p.current.unexpected p := by
  have htight : (rules.power (TokenSource.current p).kind).tighter power = true := h
  refine (congrFun (if_pos htight) p).trans ?_
  by_cases hjoins : rules.joins p.current.kind = true
  · rw [if_pos hjoins]
    exact congrFun (if_pos hjoins) p
  · rw [if_neg hjoins]
    exact congrFun (if_neg hjoins) p

end Rounds

/-- The loop over operators goes from a parser with a left operand to another one with the
expression joined so far. Each round reads an operator that binds tighter than the power, and its
operand. -/
inductive Joins (power : BindingPower) : Parser → Expr → Parser → Expr → Prop
  | refl {p : Parser} {left : Expr} : Joins power p left p left
  | round {p q r : Parser} {left joined e : Expr} (htight : p.power.tighter power = true)
      (hjoins : p.rules.joins p.current.kind = true)
      (hbinary : p.binary left p.power = (.ok joined, q)) (hrest : Joins power q joined r e) :
      Joins power p left r e

/-- Reading an operator and its operand keeps the rules and the number of levels open. -/
theorem keeps_of_binary (h : p.binary left power = (.ok e, q)) :
    q.rules = p.rules ∧ q.depth = p.depth := by
  have hsub := LevelCorrespondence.rel_countedExpr (C := unchanged p.rules) p.rules (maxDepth + 1)
    p.depth
  exact keeps_of_ok (Correspondence.rel_binary hsub rfl power) (run_eq_ok_iff.mp h)

/-- A round takes a link. -/
theorem link_of_binary (hp : p.rules = .standard) (htight : p.power.tighter power = true)
    (hjoins : p.rules.joins p.current.kind = true) (h : p.binary left p.power = (.ok e, q)) :
    ∃ l : Link, l.At power (maxDepth - p.depth - 1) ∧ p.stream.Behind l.tokens q.stream ∧
      ¬AtTighter q.stream l.power ∧ e = l.join left := by
  have hstream := ok_onStream (Correspondence.rel_binary (exprStep_onStream hp) rfl p.power)
    (run_eq_ok_iff.mp h)
  rw [hp] at hjoins
  have hproper : p.stream.Proper := proper_stream fun hend => by
    rw [hend] at hjoins
    exact absurd hjoins (by decide)
  obtain ⟨operator, k, ts, right, hroom, hbehind, hsign, hderives, hstop, rfl⟩ :=
    sign_of_binary (readsExpr_expr _) hjoins hproper hstream
  unfold Parser.power at htight hderives hstop
  rw [hp] at htight hderives hstop
  have hoperator : Operator.ofKind? p.current.kind = some operator := by
    rcases hsign with ⟨hsum, -⟩ | ⟨hproduct, -⟩
    · exact hsum.joins.2
    · exact hproduct.joins.2
  refine ⟨⟨p.current, operator, right, ts⟩, ⟨hoperator, htight, ?_⟩, hbehind, hstop, rfl⟩
  rw [hroom]
  exact hderives

/-- Behind a round the loop goes on under the same rules, with fewer tokens in front of it. -/
theorem shorter_of_binary (hp : p.rules = .standard) (htight : p.power.tighter power = true)
    (hjoins : p.rules.joins p.current.kind = true) (h : p.binary left p.power = (.ok e, q)) :
    q.rules = .standard ∧ q.exprStep = p.exprStep ∧
      q.stream.pending.length < p.stream.pending.length := by
  obtain ⟨hrules, -⟩ := keeps_of_binary h
  obtain ⟨l, -, hbehind, -⟩ := link_of_binary hp htight hjoins h
  refine ⟨hrules.trans hp, by rw [exprStep, exprStep, hrules], ?_⟩
  have hlength := hbehind.length
  rw [Link.tokens, List.length_cons] at hlength
  omega

/-- The head of the pending tokens is the token that a stream stands at. -/
theorem loose_of_not_atTighter {s : TokenStream} {p : BindingPower} (h : ¬AtTighter s p) :
    ∀ t ∈ s.pending.head?, (Rules.standard.power t.kind).tighter p = false := by
  intro t ht
  by_cases hend : s.current.kind = .endOfSource
  · rw [TokenStream.pending_eq_nil_iff.mpr hend] at ht
    cases ht
  · rw [TokenStream.pending_of_ne hend] at ht
    cases ht
    exact Bool.eq_false_iff.mpr h

namespace Joins

/-- The rounds of the loop take a chain of links and join them from left to right. -/
theorem exists_chain (h : Joins power p left q e) (hp : p.rules = .standard) :
    q.rules = .standard ∧ ∃ ls,
      Chain power (maxDepth - p.depth - 1) p.stream.pending ls q.stream.pending ∧
        e = ls.foldl Link.join left := by
  induction h with
  | refl => exact ⟨hp, [], .nil, rfl⟩
  | round htight hjoins hbinary _ ih =>
    obtain ⟨hrules, hdepth⟩ := keeps_of_binary hbinary
    obtain ⟨l, hl, hbehind, hstop, rfl⟩ := link_of_binary hp htight hjoins hbinary
    obtain ⟨hstandard, ls, hls, rfl⟩ := ih (hrules.trans hp)
    rw [hdepth] at hls
    rw [hbehind.pending]
    exact ⟨hstandard, l :: ls, .cons hl (loose_of_not_atTighter hstop) hls, rfl⟩

/-- With a round for each pending token left, the loop does behind some rounds what it does in front
of them. -/
theorem operatorRounds_eq (h : Joins power p left q e) (hp : p.rules = .standard) {n : Nat}
    (hn : p.stream.pending.length ≤ n) :
    ∃ m, q.stream.pending.length ≤ m ∧
      operatorRounds .standard p.exprStep power n left p =
        operatorRounds .standard q.exprStep power m e q := by
  induction h generalizing n with
  | refl => exact ⟨n, hn, rfl⟩
  | @round p q r left joined e htight hjoins hbinary _ ih =>
    obtain ⟨hrules, hsame, hshorter⟩ := shorter_of_binary hp htight hjoins hbinary
    obtain ⟨n, rfl⟩ : ∃ k, n = k + 1 := ⟨n - 1, by omega⟩
    obtain ⟨m, hm, hrest⟩ := ih hrules (n := n) (by omega)
    refine ⟨m, hm, ?_⟩
    unfold Parser.power at htight hbinary
    rw [hp] at htight hjoins hbinary
    rw [operatorRounds_of_tighter htight, if_pos hjoins, EStateM.bind, run_eq_ok_iff.mp hbinary,
      ← hrest, hsame]

end Joins

/-- At the end of a source no token binds tighter. -/
theorem loose_of_end (hp : p.rules = .standard) (h : p.current.kind = .endOfSource) :
    p.power.tighter power = false := by
  unfold Parser.power
  rw [hp, h]
  cases power <;> rfl

/-- If the loop comes to an end, it has gone through its rounds up to a token that binds no
tighter. -/
theorem joins_of_operatorRounds (hp : p.rules = .standard) {n : Nat}
    (hn : p.stream.pending.length ≤ n)
    (h : operatorRounds .standard p.exprStep power n left p = .ok e q) :
    Joins power p left q e ∧ q.power.tighter power = false := by
  induction n generalizing p left with
  | zero =>
    -- the rounds do not run out before the tokens do
    have hnil := List.length_eq_zero_iff.mp (Nat.le_zero.mp hn)
    cases h
    exact ⟨.refl, loose_of_end hp (TokenStream.pending_eq_nil_iff.mp hnil)⟩
  | succ n ih =>
    by_cases htight : p.power.tighter power = true
    · have hstandard : (Rules.standard.power p.current.kind).tighter power = true := by
        rw [← hp]
        exact htight
      rw [operatorRounds_of_tighter hstandard] at h
      by_cases hjoins : Rules.standard.joins p.current.kind = true
      · rw [if_pos hjoins, EStateM.bind] at h
        rw [← hp] at hjoins
        cases hbinary : Parse.binary p.exprStep left (Rules.standard.power p.current.kind) p with
        | error err r =>
          rw [hbinary] at h
          cases h
        | ok joined r =>
          rw [hbinary] at h
          have hround : p.binary left p.power = (.ok joined, r) := by
            unfold Parser.power
            rw [hp]
            exact run_eq_ok_iff.mpr hbinary
          obtain ⟨hrules, hsame, hshorter⟩ := shorter_of_binary hp htight hjoins hround
          rw [← hsame] at h
          obtain ⟨hrest, hloose⟩ := ih hrules (by omega) h
          exact ⟨.round htight hjoins hround hrest, hloose⟩
      · rw [if_neg hjoins] at h
        cases h
    · have hloose : p.power.tighter power = false := Bool.eq_false_iff.mpr htight
      rw [operatorRounds_of_loose (by rw [← hp]; exact hloose)] at h
      cases h
      exact ⟨.refl, hloose⟩

theorem operators_eq (hp : p.rules = .standard) (left : Expr) (power : BindingPower) :
    p.operators left power =
      p.run (operatorRounds .standard p.exprStep power (p.stream.upcoming.length + 1) left) := by
  unfold operators
  rw [hp]
  rfl

/-- The loop over operators succeeds exactly by going through rounds up to a token that binds no
tighter. -/
theorem operators_eq_ok_iff (hp : p.rules = .standard) :
    p.operators left power = (.ok e, q) ↔
      Joins power p left q e ∧ q.power.tighter power = false := by
  rw [operators_eq hp, run_eq_ok_iff]
  constructor
  · exact joins_of_operatorRounds hp p.stream.length_pending_le
  · rintro ⟨hjoins, hloose⟩
    obtain ⟨hq, -⟩ := hjoins.exists_chain hp
    obtain ⟨m, -, hrounds⟩ := hjoins.operatorRounds_eq hp p.stream.length_pending_le
    rw [hrounds]
    exact operatorRounds_of_loose (by rw [← hq]; exact hloose) m e

/-- Behind any number of rounds a token that binds tighter and is no operator is refused. -/
theorem operators_of_stray (hp : p.rules = .standard) (h : Joins power p left q e)
    (htight : q.power.tighter power = true) (hstray : Operator.ofKind? q.current.kind = none) :
    p.operators left power = (.error ⟨.unexpectedToken q.current.text, q.current.position⟩, q) := by
  obtain ⟨hq, -⟩ := h.exists_chain hp
  obtain ⟨m, hm, hrounds⟩ := h.operatorRounds_eq hp p.stream.length_pending_le
  have hend : q.current.kind ≠ .endOfSource := by
    intro hend
    rw [loose_of_end hq hend] at htight
    cases htight
  have hpos : 0 < q.stream.pending.length :=
    List.length_pos_iff.mpr (mt TokenStream.pending_eq_nil_iff.mp hend)
  obtain ⟨m, rfl⟩ : ∃ k, m = k + 1 := ⟨m - 1, by omega⟩
  have hjoins : ¬Rules.standard.joins q.current.kind = true := by
    rw [joins_eq_isSome, hstray]
    decide
  unfold Parser.power at htight
  rw [hq] at htight
  rw [operatorRounds_of_tighter htight, if_neg hjoins] at hrounds
  rw [operators_eq hp, run_of_error hrounds]
  unfold Token.unexpected
  split
  · next h => exact absurd h hend
  · rfl

/-- Reading by binding powers is right at every power, from any state with the standard rules. An
expression that is read is a phrase of its power, and the token behind it binds no tighter. The loop
over operators succeeds with the links that it has taken joined onto the left operand; each operand
is as long as its operator lets it be, the token behind the last one binds no tighter than the
power, and no other links in front of the same tokens reach further. Wherever the loop comes to a
token that binds tighter and is no operator, it fails there and complains about that token. -/
theorem reads_by_power (p : Parser) (hp : p.rules = .standard) (power : BindingPower) :
    (∀ e q, p.expr power = (.ok e, q) →
      ∃ n ts, maxDepth - p.depth = n + 1 ∧ p.stream.Behind ts q.stream ∧ Derives power n ts e ∧
        (Rules.standard.power q.current.kind).tighter power = false) ∧
    (∀ left e q, p.operators left power = (.ok e, q) →
      (Rules.standard.power q.current.kind).tighter power = false ∧
      ∃ ls, Chain power (maxDepth - p.depth - 1) p.stream.pending ls q.stream.pending ∧
        e = ls.foldl Link.join left ∧
        ∀ m (ks : List Link), (∀ k ∈ ks, k.At power m) →
          ks.flatMap Link.tokens <+: p.stream.pending →
            ks.flatMap Link.tokens <+: ls.flatMap Link.tokens) ∧
    ∀ left e q, Joins power p left q e → q.power.tighter power = true →
      Operator.ofKind? q.current.kind = none →
        p.operators left power =
          (.error ⟨.unexpectedToken q.current.text, q.current.position⟩, q) := by
  refine ⟨?_, ?_, fun left e q hjoins htight hstray => operators_of_stray hp hjoins htight hstray⟩
  · intro e q h
    obtain ⟨n, ts, hroom, hbehind, hderives, hstop⟩ := derives_of_expr hp h
    exact ⟨n, ts, hroom, hbehind, hderives, Bool.eq_false_iff.mpr hstop⟩
  · intro left e q h
    obtain ⟨hjoins, hloose⟩ := (operators_eq_ok_iff hp).mp h
    obtain ⟨hq, ls, hls, rfl⟩ := hjoins.exists_chain hp
    unfold Parser.power at hloose
    rw [hq] at hloose
    refine ⟨hloose, ls, hls, rfl, fun m ks hks hbegin => ?_⟩
    rw [hls.tokens_eq] at hbegin
    have hstop := loose_of_not_atTighter (s := q.stream) (Bool.eq_false_iff.mp hloose)
    exact links_prefix_of_stop hls.at_of_mem hstop hks hbegin

/-- Of `7 * 3 - 4 5` the product is read at the power of sums, and the difference behind it at the
lowest power is refused at the last number. -/
theorem reads_by_power_stray :
    let p : Parser :=
      ⟨.standard, ⟨"f", 1, " * 3 - 4 5".toList⟩, ⟨.number, "7", ⟨"f", 0, 1⟩⟩, 0⟩
    let q : Parser := ⟨.standard, ⟨"f", 11, []⟩, ⟨.number, "5", ⟨"f", 10, 11⟩⟩, 0⟩
    (∃ e r n ts, p.expr .additive = (.ok e, r) ∧ e.span = ⟨"f", 0, 5⟩ ∧
        p.stream.Behind ts r.stream ∧ Derives .additive n ts e) ∧
      q.operators (.number 4 ⟨"f", 8, 9⟩) .lowest =
        (.error ⟨.unexpectedToken "5", ⟨"f", 10⟩⟩, q) := by
  intro p q
  obtain ⟨hexpr, -⟩ := reads_by_power p rfl .additive
  obtain ⟨-, -, hstray⟩ := reads_by_power q rfl .lowest
  refine ⟨?_, hstray _ _ q .refl rfl rfl⟩
  have hspan : (p.expr .additive).1.toOption.map Expr.span = some ⟨"f", 0, 5⟩ := by decide +kernel
  rcases hresult : p.expr .additive with ⟨err | e, r⟩ <;> rw [hresult] at hspan
  · cases hspan
  · obtain ⟨n, ts, -, hbehind, hderives, -⟩ := hexpr e r hresult
    exact ⟨e, r, n, ts, rfl, Option.some.inj hspan, hbehind, hderives⟩

end Parser

end IntLang
