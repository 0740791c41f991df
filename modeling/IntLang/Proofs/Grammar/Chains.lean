import IntLang.Proofs.Grammar.ExprComplete
import IntLang.Proofs.Grammar.Viable

/-!
Chains of operators and operands. A link of a chain at some power is an operator that binds tighter,
with an operand read at the power of that operator. A phrase with links behind it is a phrase again,
and where a phrase is continued to a longer one, it is continued by a token that binds tighter than
its power. So links that stop in front of a token that binds no tighter are as many tokens as links
can be: all other links in front of the same tokens end at or before theirs.
-/
namespace IntLang.Grammar

open Parse TokenStream

structure Link where
  sign : Token
  operator : Operator
  operand : Expr
  operandTokens : List Token

namespace Link

def tokens (l : Link) : List Token := l.sign :: l.operandTokens

def join (left : Expr) (l : Link) : Expr :=
  .binary l.operator left l.operand (left.span.through l.operand.span)

def power (l : Link) : BindingPower := Rules.standard.power l.sign.kind

/-- A link whose operator binds tighter than the power `p`, and whose operand is a phrase at the
power of the operator. -/
structure At (p : BindingPower) (n : Nat) (l : Link) : Prop where
  operator : Operator.ofKind? l.sign.kind = some l.operator
  tighter : l.power.tighter p = true
  operand : Derives l.power n l.operandTokens l.operand

end Link

/-- Links one after the other between the tokens `ts` and `us`. No operand stops in front of a token
that binds tighter than its operator. -/
inductive Chain (p : BindingPower) (n : Nat) : List Token → List Link → List Token → Prop
  | nil {ts} : Chain p n ts [] ts
  | cons {l ls ts us} (hl : l.At p n)
      (hstop : ∀ t ∈ ts.head?, (Rules.standard.power t.kind).tighter l.power = false)
      (hls : Chain p n ts ls us) : Chain p n (l.tokens ++ ts) (l :: ls) us

theorem Chain.tokens_eq {p : BindingPower} {n : Nat} {ts us : List Token} {ls : List Link}
    (h : Chain p n ts ls us) : ts = ls.flatMap Link.tokens ++ us := by
  induction h with
  | nil => rfl
  | cons _ _ _ ih => rw [List.flatMap_cons, List.append_assoc, ← ih]

theorem Chain.at_of_mem {p : BindingPower} {n : Nat} {ts us : List Token} {ls : List Link}
    (h : Chain p n ts ls us) : ∀ l ∈ ls, l.At p n := by
  induction h with
  | nil => exact nofun
  | cons hl _ _ ih => exact List.forall_mem_cons.mpr ⟨hl, ih⟩

/-- A token stands for an operator exactly if it may join two operands. -/
theorem joins_eq_isSome (kind : TokenKind) :
    Rules.standard.joins kind = (Operator.ofKind? kind).isSome := by
  cases kind <;> rfl

theorem Link.At.joins {p : BindingPower} {n : Nat} {l : Link} (h : l.At p n) :
    Rules.standard.joins l.sign.kind = true := by
  rw [joins_eq_isSome, h.operator]
  rfl

/-- No operator binds tighter than those of products. -/
theorem Link.At.loose {p : BindingPower} {n : Nat} {l : Link} (h : l.At p n) :
    BindingPower.multiplicative.tighter p = true := by
  obtain ⟨operator, -, hsign⟩ := sign_cases h.joins
  have htight := h.tighter
  unfold Link.power at htight
  rcases hsign with ⟨-, hpower⟩ | ⟨-, hpower⟩
  · rw [hpower] at htight
    revert htight
    cases p <;> decide
  · rwa [hpower] at htight

section Continued

variable {p : BindingPower} {ts us : List Token} {s t : Token}

/-- A product continues the last term of an expression. -/
theorem Phrase.product (hleft : Phrase Expression us) {operator : Operator}
    (hsign : ProductSign s.kind operator) (hright : Phrase Factor ts) :
    Phrase Expression (us ++ s :: ts) := by
  obtain ⟨n, a, ha⟩ := hleft
  obtain ⟨m, b, hb⟩ := hright
  cases ha with
  | term ha =>
    have hproduct : Term (max n m + 1) (us ++ s :: ts) (.binary operator a b .blank) :=
      .product (ha.mono (by omega)) hsign (hb.mono (by omega))
    exact ⟨_, _, .term hproduct⟩
  | @sum n vs x ws _ _ c _ ha hsum hc =>
    have hproduct : Term (max n m + 1) (ws ++ s :: ts) (.binary operator c b .blank) :=
      .product (hc.mono (by omega)) hsign (hb.mono (by omega))
    rw [List.append_assoc, List.cons_append]
    exact ⟨max n m + 2, .binary _ _ _ .blank, .sum (ha.mono (by omega)) hsum hproduct⟩

/-- A phrase with a link behind it is a phrase. The link need not be one that the reader would take:
behind a sum a product becomes a part of the right operand. -/
theorem Phrase.link {n : Nat} {l : Link} (hleft : Phrase (Derives p) us) (hl : l.At p n) :
    Phrase (Derives p) (us ++ l.tokens) := by
  have hright : Phrase (Derives l.power) l.operandTokens := ⟨n, l.operand, hl.operand⟩
  by_cases hmult : p = .lowest ∧ l.power = .multiplicative
  · obtain ⟨rfl, hpower⟩ := hmult
    obtain ⟨operator, -, ⟨-, hsum⟩ | ⟨hsign, -⟩⟩ := sign_cases hl.joins
    · exact absurd (hsum.symm.trans hpower) (by decide)
    · rw [hpower] at hright
      exact Phrase.product hleft hsign hright
  · exact (Phrase.join hl.tighter hl.joins hleft
      (fun hp hpower => absurd ⟨hp, hpower⟩ hmult) hright).1

theorem Phrase.links {n : Nat} {ls : List Link} (hleft : Phrase (Derives p) us)
    (hls : ∀ l ∈ ls, l.At p n) : Phrase (Derives p) (us ++ ls.flatMap Link.tokens) := by
  induction ls generalizing us with
  | nil =>
    rw [List.flatMap_nil, List.append_nil]
    exact hleft
  | cons l ls ih =>
    obtain ⟨hl, hls⟩ := List.forall_mem_cons.mp hls
    rw [List.flatMap_cons, ← List.append_assoc]
    exact ih (hleft.link hl) hls

/-- What is derived at a power at which operators are read, the reader of that power reads. -/
theorem Derives.readsTo {n : Nat} {e : Expr} (hp : BindingPower.multiplicative.tighter p = true)
    (h : Derives p n ts e) : ReadsTo (expr .standard (n + 1) p) p ts e := by
  cases p with
  | lowest => exact Expression.readsTo h
  | additive => exact (Term.loopsTo h .additive rfl).readsTo (by decide)
  | multiplicative | primary => exact absurd hp (by decide)

/-- A phrase that is continued to a longer one is continued by a token that binds tighter. Behind
any other token the reader would stop, and it cannot both stop and go on. -/
theorem tighter_of_continued (hp : BindingPower.multiplicative.tighter p = true)
    (hshort : Phrase (Derives p) ts) (hlong : Phrase (Derives p) (ts ++ t :: us)) :
    (Rules.standard.power t.kind).tighter p = true := by
  by_contra hloose
  obtain ⟨n, a, ha⟩ := hshort
  obtain ⟨m, b, hb⟩ := hlong
  obtain ⟨a', -, hreadShort⟩ := (ha.mono (Nat.le_max_left n m)).readsTo hp
  obtain ⟨b', -, hreadLong⟩ := (hb.mono (Nat.le_max_right n m)).readsTo hp
  let last (text : String) : Token := ⟨.endOfSource, text, .blank⟩
  have hlast : ∀ text, t = last text := by
    intro text
    have hstop := hreadShort (last text) (t :: us) hloose
    have hend := hreadLong (last text) [] (not_atTighter_of_end rfl p)
    rw [List.append_nil, hstop] at hend
    injection hend with hvalue hstream
    exact congrArg TokenStream.current hstream
  have htexts : "" = "EOF" := congrArg Token.text ((hlast "").symm.trans (hlast "EOF"))
  exact absurd htexts (by decide)

/-- Links that stop in front of a token that binds no tighter reach as far as links can. -/
theorem links_prefix_of_stop {n m : Nat} {ls ks : List Link} {after : List Token}
    (hls : ∀ l ∈ ls, l.At p n)
    (hstop : ∀ t ∈ after.head?, (Rules.standard.power t.kind).tighter p = false)
    (hks : ∀ k ∈ ks, k.At p m)
    (hbegin : ks.flatMap Link.tokens <+: ls.flatMap Link.tokens ++ after) :
    ks.flatMap Link.tokens <+: ls.flatMap Link.tokens := by
  rcases List.prefix_or_prefix_of_prefix hbegin (List.prefix_append _ _) with h | ⟨more, hmore⟩
  · exact h
  · cases more with
    | nil =>
      rw [List.append_nil] at hmore
      exact ⟨[], by rw [List.append_nil, hmore]⟩
    | cons t more =>
      rw [← hmore, List.prefix_append_right_inj] at hbegin
      obtain ⟨rest, rfl⟩ := hbegin
      have hloose : (Rules.standard.power t.kind).tighter p = false := hstop t rfl
      have hp : BindingPower.multiplicative.tighter p = true := by
        cases ks with
        | nil => cases (List.append_eq_nil_iff.mp hmore).2
        | cons k ks => exact (hks k (List.mem_cons_self ..)).loose
      -- both sequences of links continue a phrase, here a single number
      have hshort := (Phrase.factor_zero.derives (p := p)).links hls
      have hlong := (Phrase.factor_zero.derives (p := p)).links hks
      rw [← hmore, ← List.append_assoc] at hlong
      rw [tighter_of_continued hp hshort hlong] at hloose
      cases hloose

end Continued

end IntLang.Grammar
