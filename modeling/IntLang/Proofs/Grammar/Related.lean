import Mathlib.Data.List.Forall2
import IntLang.Grammar.Program
import IntLang.Proofs.Grammar.Steps

/-!
The readers do the same on every kind of state from which tokens are taken. So if two states stand
in a relation that taking a token respects, every reader takes equally many tokens from both, and
what it yields is related: trees of the same form with related spans, or errors with the same cause
at related positions. The states that are left stand in the relation again, also behind an error.
-/
namespace IntLang

/-- A relation between trees that follows from one between their spans. -/
structure Likeness where
  place : Position → Position → Prop
  span : Span → Span → Prop
  expr : Expr → Expr → Prop
  stmt : Stmt → Stmt → Prop
  position : ∀ {a a'}, span a a' → place a.position a'.position
  through : ∀ {a a' b b'}, span a a' → span b b' → span (a.through b) (a'.through b')
  span_expr : ∀ {e e'}, expr e e' → span e.span e'.span
  span_stmt : ∀ {s s'}, stmt s s' → span s.span s'.span
  number : ∀ {value a a'}, span a a' → expr (.number value a) (.number value a')
  string : ∀ {text a a'}, span a a' → expr (.string text a) (.string text a')
  var : ∀ {name a a'}, span a a' → expr (.var name a) (.var name a')
  binary : ∀ {operator l l' r r' a a'}, expr l l' → expr r r' → span a a' →
    expr (.binary operator l r a) (.binary operator l' r' a')
  call : ∀ {callee es es' a a'}, List.Forall₂ expr es es' → span a a' →
    expr (.call callee es a) (.call callee es' a')
  expression : ∀ {e e' a a'}, expr e e' → span a a' → stmt (.expression e a) (.expression e' a')
  assign : ∀ {name e e' a a'}, expr e e' → span a a' →
    stmt (.assign name e a) (.assign name e' a')
  block : ∀ {ss ss' a a'}, List.Forall₂ stmt ss ss' → span a a' →
    stmt (.block ss a) (.block ss' a')
  ifThen : ∀ {e e' s s' a a'}, expr e e' → stmt s s' → span a a' →
    stmt (.ifThen e s a) (.ifThen e' s' a')
  ifElse : ∀ {e e' s s' t t' a a'}, expr e e' → stmt s s' → stmt t t' → span a a' →
    stmt (.ifElse e s t a) (.ifElse e' s' t' a')
  loop : ∀ {e e' s s' a a'}, expr e e' → stmt s s' → span a a' →
    stmt (.loop e s a) (.loop e' s' a')
  ret : ∀ {e e' a a'}, expr e e' → span a a' → stmt (.ret e a) (.ret e' a')
  function : ∀ {name parameters ss ss' b b' a a'}, List.Forall₂ stmt ss ss' → span b b' →
    span a a' → stmt (.function name parameters ss b a) (.function name parameters ss' b' a')

namespace Likeness

structure Tokens (L : Likeness) (t t' : Token) : Prop where
  kind : t.kind = t'.kind
  text : t.text = t'.text
  span : L.span t.span t'.span

structure Errors (L : Likeness) (e e' : Error) : Prop where
  cause : e.cause = e'.cause
  position : L.place e.position e'.position

structure Blocks (L : Likeness) (b b' : Block) : Prop where
  body : List.Forall₂ L.stmt b.body b'.body
  span : L.span b.span b'.span

variable {L : Likeness} {t t' : Token}

theorem Tokens.position (h : L.Tokens t t') : L.place t.position t'.position := L.position h.span

theorem Tokens.unexpected (h : L.Tokens t t') : L.Errors t.unexpected t'.unexpected := by
  unfold Token.unexpected
  rw [h.kind, h.text]
  cases t'.kind <;> exact ⟨rfl, h.position⟩

end Likeness

/-- Results of the same kind, with related values or errors, and related states that are left. -/
inductive ResultsRelated {σ σ' α β : Type} (state : σ → σ' → Prop) (error : Error → Error → Prop)
    (R : α → β → Prop) : EStateM.Result Error σ α → EStateM.Result Error σ' β → Prop
  | ok {a b u u'} (hab : R a b) (hu : state u u') : ResultsRelated state error R (.ok a u) (.ok b u')
  | error {e e' u u'} (he : error e e') (hu : state u u') :
      ResultsRelated state error R (.error e u) (.error e' u')

/-- A relation between the states of two kinds that taking a token respects. -/
structure Correspondence (σ σ' : Type) [TokenSource σ] [TokenSource σ'] extends Likeness where
  state : σ → σ' → Prop
  current : ∀ {s s'}, state s s' →
    toLikeness.Tokens (TokenSource.current s) (TokenSource.current s')
  ahead : ∀ {s s'}, state s s' → TokenSource.ahead s = TokenSource.ahead s'
  take : ∀ {s s'}, state s s' →
    ResultsRelated state toLikeness.Errors toLikeness.Tokens (TokenSource.take s)
      (TokenSource.take s')

namespace Correspondence

variable {σ σ' : Type} [TokenSource σ] [TokenSource σ'] {C : Correspondence σ σ'}
variable {α β γ δ : Type} {R : α → β → Prop} {S : γ → δ → Prop}

def Rel (C : Correspondence σ σ') (R : α → β → Prop) (x : ParseOn σ α) (y : ParseOn σ' β) : Prop :=
  ∀ s s', C.state s s' → ResultsRelated C.state C.Errors R (x s) (y s')

namespace Rel

theorem pure {a : α} {b : β} (h : R a b) : C.Rel R (Pure.pure a) (Pure.pure b) :=
  fun _ _ hs => .ok h hs

theorem mono {T : α → β → Prop} {x : ParseOn σ α} {y : ParseOn σ' β} (h : C.Rel R x y)
    (hRT : ∀ a b, R a b → T a b) : C.Rel T x y := by
  intro s s' hs
  have hxy := h s s' hs
  generalize x s = first, y s' = second at hxy ⊢
  cases hxy with
  | ok hab hu => exact .ok (hRT _ _ hab) hu
  | error he hu => exact .error he hu

theorem fail {e e' : Error} (he : C.Errors e e') :
    C.Rel R (throw e : ParseOn σ α) (throw e' : ParseOn σ' β) :=
  fun _ _ hs => .error he hs

theorem bind {x : ParseOn σ α} {y : ParseOn σ' β} {f : α → ParseOn σ γ} {g : β → ParseOn σ' δ}
    (h : C.Rel R x y) (hf : ∀ a b, R a b → C.Rel S (f a) (g b)) :
    C.Rel S (x >>= f) (y >>= g) := by
  intro s s' hs
  have hxy := h s s' hs
  change ResultsRelated C.state C.Errors S (EStateM.bind x f s) (EStateM.bind y g s')
  unfold EStateM.bind
  generalize x s = first, y s' = second at hxy
  cases hxy with
  | ok hab hu => exact hf _ _ hab _ _ hu
  | error he hu => exact .error he hu

theorem peek : C.Rel C.Tokens Parse.peek Parse.peek := fun _ _ hs => .ok (C.current hs) hs

theorem rounds : C.Rel Eq Parse.rounds Parse.rounds :=
  fun _ _ hs => .ok (congrArg Nat.succ (C.ahead hs)) hs

theorem advance : C.Rel C.Tokens Parse.advance Parse.advance := fun _ _ hs => C.take hs

theorem unexpected :
    C.Rel R (Parse.unexpected : ParseOn σ α) (Parse.unexpected : ParseOn σ' β) :=
  fun _ _ hs => .error (C.current hs).unexpected hs

theorem tooDeep : C.Rel R (Parse.tooDeep : ParseOn σ α) (Parse.tooDeep : ParseOn σ' β) :=
  fun _ _ hs => .error ⟨rfl, (C.current hs).position⟩ hs

theorem expect (kind : TokenKind) : C.Rel C.Tokens (Parse.expect kind) (Parse.expect kind) := by
  unfold Parse.expect
  refine peek.bind fun t t' ht => ?_
  rw [ht.kind]
  split
  · exact advance
  · exact unexpected

theorem expectOr (kind : TokenKind) {e e' : Error} (he : C.Errors e e') :
    C.Rel C.Tokens (Parse.expectOr kind e) (Parse.expectOr kind e') := by
  unfold Parse.expectOr
  refine peek.bind fun t t' ht => ?_
  rw [ht.kind]
  split
  · exact advance
  · split
    · exact unexpected
    · exact fail he

end Rel

open Parse

section Expressions

theorem rel_literal : C.Rel C.expr literal literal := by
  unfold literal
  refine .bind .peek fun t t' ht => ?_
  rw [ht.kind]
  split
  · refine .bind .advance fun t t' ht => ?_
    rw [ht.text]
    split
    · exact .pure (C.number ht.span)
    · exact .fail ⟨rfl, ht.position⟩
  · refine .bind .advance fun t t' ht => ?_
    rw [ht.text]
    exact .pure (C.string ht.span)
  · exact .unexpected

variable {sub : BindingPower → ParseOn σ Expr} {sub' : BindingPower → ParseOn σ' Expr}
variable (h : ∀ p, C.Rel C.expr (sub p) (sub' p))
include h

theorem rel_argumentRounds (n : Nat) :
    C.Rel (List.Forall₂ C.expr) (argumentRounds sub n) (argumentRounds sub' n) := by
  induction n with
  | zero => exact .pure .nil
  | succ n ih =>
    unfold argumentRounds
    refine (h .lowest).bind fun e e' he => .bind .peek fun t t' ht => ?_
    rw [ht.kind]
    split
    · exact .bind .advance fun _ _ _ => ih.bind fun es es' hes => .pure (.cons he hes)
    · exact .pure (.cons he .nil)

theorem rel_arguments : C.Rel (List.Forall₂ C.expr) (arguments sub) (arguments sub') := by
  unfold arguments
  refine .bind .peek fun t t' ht => ?_
  rw [ht.kind]
  split
  · exact .pure .nil
  · refine .bind .rounds fun n n' hn => ?_
    subst hn
    exact rel_argumentRounds h n

theorem rel_call {name name' : Token} (hname : C.Tokens name name') :
    C.Rel C.expr (call sub name) (call sub' name') := by
  unfold call
  rw [hname.text]
  refine .bind (.expect _) fun _ _ _ => (rel_arguments h).bind fun es es' hes => ?_
  exact .bind (.expect _) fun _ _ hclose => .pure (C.call hes (C.through hname.span hclose.span))

theorem rel_symbolTail {name name' : Token} (hname : C.Tokens name name') :
    C.Rel C.expr (symbolTail sub name) (symbolTail sub' name') := by
  unfold symbolTail
  refine .bind .peek fun t t' ht => ?_
  rw [ht.kind]
  split
  · exact rel_call h hname
  · rw [hname.text]
    exact .pure (C.var hname.span)

theorem rel_operandBy (rule : OperandRule) :
    C.Rel C.expr (operandBy sub rule) (operandBy sub' rule) := by
  cases rule with
  | literal => exact rel_literal
  | symbol => exact .bind (.expect _) fun name name' hname => rel_symbolTail h hname
  | group =>
    refine .bind .advance fun _ _ _ => (h .lowest).bind fun e e' he => ?_
    exact .bind (.expect _) fun _ _ _ => .pure he

theorem rel_operand (rules : Rules) : C.Rel C.expr (operand rules sub) (operand rules sub') := by
  unfold operand
  refine .bind .peek fun t t' ht => ?_
  rw [ht.kind]
  split
  · exact rel_operandBy h _
  · exact .unexpected

theorem rel_binary {left left' : Expr} (hleft : C.expr left left') (p : BindingPower) :
    C.Rel C.expr (binary sub left p) (binary sub' left' p) := by
  unfold binary
  refine .bind .advance fun sign sign' hsign => ?_
  rw [hsign.kind, hsign.text]
  split
  · refine (h p).bind fun right right' hright => .pure (C.binary hleft hright ?_)
    exact C.through (C.span_expr hleft) (C.span_expr hright)
  · exact .fail ⟨rfl, hsign.position⟩

theorem rel_operatorRounds (rules : Rules) (p : BindingPower) (n : Nat) {left left' : Expr}
    (hleft : C.expr left left') :
    C.Rel C.expr (operatorRounds rules sub p n left) (operatorRounds rules sub' p n left') := by
  induction n generalizing left left' with
  | zero => exact .pure hleft
  | succ n ih =>
    unfold operatorRounds
    refine .bind .peek fun t t' ht => ?_
    dsimp only
    rw [ht.kind]
    split
    · split
      · exact (rel_binary h hleft _).bind fun e e' he => ih he
      · exact .unexpected
    · exact .pure hleft

theorem rel_operators (rules : Rules) (p : BindingPower) {left left' : Expr}
    (hleft : C.expr left left') :
    C.Rel C.expr (operators rules sub p left) (operators rules sub' p left') := by
  unfold operators
  refine .bind .rounds fun n n' hn => ?_
  subst hn
  exact rel_operatorRounds h rules p n hleft

/-- What is read at one level from what is read one level further in. -/
theorem rel_chain (rules : Rules) (p : BindingPower) :
    C.Rel C.expr (operand rules sub >>= operators rules sub p)
      (operand rules sub' >>= operators rules sub' p) :=
  (rel_operand h rules).bind fun _ _ he => rel_operators h rules p he

omit h

theorem rel_expr (rules : Rules) (room : Nat) (p : BindingPower) :
    C.Rel C.expr (expr rules room p) (expr rules room p) := by
  induction room generalizing p with
  | zero => exact .tooDeep
  | succ room ih => exact rel_chain ih rules p

end Expressions

section Statements

variable {sub : BindingPower → ParseOn σ Expr} {sub' : BindingPower → ParseOn σ' Expr}
variable (h : ∀ p, C.Rel C.expr (sub p) (sub' p))
variable {inner : ParseOn σ Stmt} {inner' : ParseOn σ' Stmt} (hinner : C.Rel C.stmt inner inner')

theorem rel_endExpression {e e' : Expr} (he : C.expr e e') :
    C.Rel C.stmt (endExpression e) (endExpression e') :=
  .bind (.expect _) fun _ _ hclose =>
    .pure (C.expression he (C.through (C.span_expr he) hclose.span))

theorem rel_parameterRounds (n : Nat) (names : List String) :
    C.Rel Eq (parameterRounds n names) (parameterRounds n names) := by
  induction n generalizing names with
  | zero => exact .pure rfl
  | succ n ih =>
    unfold parameterRounds
    refine .bind (.expect _) fun name name' hname => ?_
    rw [hname.text]
    split
    · exact .fail ⟨rfl, hname.position⟩
    · refine .bind .peek fun t t' ht => ?_
      rw [ht.kind]
      split
      · exact .bind .advance fun _ _ _ => ih _
      · exact .pure rfl

theorem rel_parameters : C.Rel Eq parameters parameters := by
  unfold parameters
  refine .bind .peek fun t t' ht => ?_
  rw [ht.kind]
  split
  · exact .pure rfl
  · refine .bind .rounds fun n n' hn => ?_
    subst hn
    exact rel_parameterRounds n []

section

include h

theorem rel_identifierStmt (rules : Rules) :
    C.Rel C.stmt (identifierStmt rules sub) (identifierStmt rules sub') := by
  unfold identifierStmt
  refine .bind (.expect _) fun name name' hname => .bind .peek fun t t' ht => ?_
  rw [ht.kind]
  split
  · refine .bind .advance fun _ _ _ => (h .lowest).bind fun e e' he => ?_
    refine .bind (.expect _) fun _ _ hclose => ?_
    rw [hname.text]
    exact .pure (C.assign he (C.through hname.span hclose.span))
  · refine (rel_symbolTail h hname).bind fun left left' hleft => ?_
    exact (rel_operators h rules _ hleft).bind fun e e' he => rel_endExpression he

theorem rel_condition : C.Rel C.expr (condition sub) (condition sub') := by
  refine .bind (.expect _) fun _ _ _ => (h .lowest).bind fun e e' he => ?_
  exact .bind (.expect _) fun _ _ _ => .pure he

theorem rel_ret : C.Rel C.stmt (ret sub) (ret sub') := by
  refine .bind .advance fun word word' hword => (h .lowest).bind fun e e' he => ?_
  exact .bind (.expect _) fun _ _ hclose => .pure (C.ret he (C.through hword.span hclose.span))

end

section

include hinner

theorem rel_stmtsUntil (ends : TokenKind → Bool) (n : Nat) :
    C.Rel (List.Forall₂ C.stmt) (stmtsUntil ends inner n) (stmtsUntil ends inner' n) := by
  induction n with
  | zero => exact .pure .nil
  | succ n ih =>
    unfold stmtsUntil
    refine .bind .peek fun t t' ht => ?_
    rw [ht.kind]
    split
    · exact .pure .nil
    · exact hinner.bind fun s s' hs => ih.bind fun ss ss' hss => .pure (.cons hs hss)

theorem rel_block : C.Rel C.Blocks (block inner) (block inner') := by
  unfold block
  refine .bind (.expect _) fun start start' hstart => .bind .rounds fun n n' hn => ?_
  subst hn
  refine (rel_stmtsUntil hinner _ n).bind fun ss ss' hss => ?_
  exact .bind (.expect _) fun _ _ hclose => .pure ⟨hss, C.through hstart.span hclose.span⟩

theorem rel_function : C.Rel C.stmt (function inner) (function inner') := by
  unfold function
  refine .bind .advance fun word word' hword => .bind .peek fun next next' hnext => ?_
  rw [hnext.text]
  refine .bind (.expectOr _ ⟨rfl, hnext.position⟩) fun name name' hname => ?_
  refine .bind (.expect _) fun _ _ _ => rel_parameters.bind fun names names' hnames => ?_
  refine .bind (.expect _) fun _ _ _ => (rel_block hinner).bind fun b b' hb => ?_
  subst hnames
  rw [hname.text]
  exact .pure (C.function hb.body hb.span (C.through hword.span hb.span))

include h

theorem rel_branch : C.Rel C.stmt (branch sub inner) (branch sub' inner') := by
  unfold branch
  refine .bind .advance fun word word' hword => (rel_condition h).bind fun e e' he => ?_
  refine hinner.bind fun s s' hs => .bind .peek fun t t' ht => ?_
  rw [ht.kind]
  split
  · refine .bind .advance fun _ _ _ => hinner.bind fun r r' hr => ?_
    exact .pure (C.ifElse he hs hr (C.through hword.span (C.span_stmt hr)))
  · exact .pure (C.ifThen he hs (C.through hword.span (C.span_stmt hs)))

theorem rel_loop : C.Rel C.stmt (loop sub inner) (loop sub' inner') := by
  refine .bind .advance fun word word' hword => (rel_condition h).bind fun e e' he => ?_
  exact hinner.bind fun s s' hs => .pure (C.loop he hs (C.through hword.span (C.span_stmt hs)))

theorem rel_stmtBy (rules : Rules) (rule : StmtRule) :
    C.Rel C.stmt (stmtBy rules sub inner rule) (stmtBy rules sub' inner' rule) := by
  cases rule with
  | branch => exact rel_branch h hinner
  | loop => exact rel_loop h hinner
  | ret => exact rel_ret h
  | function => exact rel_function hinner
  | block => exact (rel_block hinner).bind fun b b' hb => .pure (C.block hb.body hb.span)
  | identifier => exact rel_identifierStmt h rules
  | any => exact hinner

theorem rel_stmtHere (rules : Rules) :
    C.Rel C.stmt (stmtHere rules sub inner) (stmtHere rules sub' inner') := by
  unfold stmtHere
  refine .bind .peek fun t t' ht => ?_
  dsimp only
  rw [ht.kind]
  split
  · exact rel_stmtBy h hinner rules _
  · split
    · exact rel_identifierStmt h rules
    · exact (h .lowest).bind fun e e' he => rel_endExpression he

end

theorem rel_stmt (rules : Rules) (room : Nat) :
    C.Rel C.stmt (stmt rules room) (stmt rules room) := by
  induction room with
  | zero => exact .tooDeep
  | succ room ih => exact rel_stmtHere (rel_expr rules room) ih rules

end Statements

end Correspondence

namespace Likeness

variable {L : Likeness}

inductive Endings (L : Likeness) : Except Error Token → Except Error Token → Prop
  | ok {t t'} (ht : L.Tokens t t') : Endings L (.ok t) (.ok t')
  | error {e e'} (he : L.Errors e e') : Endings L (.error e) (.error e')

structure Streams (L : Likeness) (s s' : TokenStream) : Prop where
  current : L.Tokens s.current s'.current
  upcoming : List.Forall₂ L.Tokens s.upcoming s'.upcoming
  ending : L.Endings s.ending s'.ending

theorem Streams.take {s s' : TokenStream} (h : L.Streams s s') :
    ResultsRelated L.Streams L.Errors L.Tokens s.take s'.take := by
  obtain ⟨current, upcoming, ending⟩ := s
  obtain ⟨current', upcoming', ending'⟩ := s'
  obtain ⟨hcurrent, hupcoming, hending⟩ := h
  cases hupcoming with
  | cons ht hts => exact .ok hcurrent ⟨ht, hts, hending⟩
  | nil =>
    cases hending with
    | ok hlast => exact .ok hcurrent ⟨hlast, .nil, .ok hlast⟩
    | error he => exact .error he ⟨hcurrent, .nil, .error he⟩

def onStreams (L : Likeness) : Correspondence TokenStream TokenStream where
  toLikeness := L
  state := L.Streams
  current h := h.current
  ahead h := h.upcoming.length_eq
  take h := h.take

theorem streams_front {ts ts' : List Token} {last last' : Token} (h : List.Forall₂ L.Tokens ts ts')
    (hlast : L.Tokens last last') :
    L.Streams (TokenStream.front last ts) (TokenStream.front last' ts') := by
  cases h with
  | nil => exact ⟨hlast, .nil, .ok hlast⟩
  | cons ht hts => exact ⟨ht, hts, .ok hlast⟩

open Parse

theorem rel_program :
    L.onStreams.Rel (fun b b' => List.Forall₂ L.stmt b.body b'.body) program program := by
  unfold program
  refine .bind .rounds fun n n' hn => ?_
  subst hn
  refine (Correspondence.rel_stmtsUntil (Correspondence.rel_stmt .standard maxDepth) _ n).bind ?_
  exact fun ss ss' hss => .bind .peek fun _ _ _ => .pure hss

theorem rel_wholeExpr : L.onStreams.Rel L.expr wholeExpr wholeExpr := by
  unfold wholeExpr
  refine (Correspondence.rel_expr .standard maxDepth .lowest).bind fun e e' he => ?_
  refine .bind .peek fun t t' ht => ?_
  rw [ht.kind]
  split
  · exact .pure he
  · exact .unexpected

end Likeness

end IntLang
