import IntLang.Proofs.Semantics.Chain

/-!
What the evaluator does the semantics derives, unless the evaluator gives up at a limit of depth.
Each part of the evaluator is followed on its own, by induction on the fuel. A machine is seen as an
environment and a world placed on counters, which no part of the evaluator changes for good; so a
judgement about environments and worlds is handed on from each computation to the next.
-/
namespace IntLang

def Cause.isRecursionLimit : Cause → Bool
  | recursionLimit _ => true
  | _ => false

namespace Machine

def place (m : Machine) (env : Environment) (w : World) : Machine :=
  { m with env, functions := w.functions, output := w.output }

/-- What holds of a result, an environment and a world holds of the result and of the machine that
was left, which has the counters of the given one. -/
def Reaches (m : Machine) (Q : Except Error α → Environment → World → Prop) :
    Except Error α → Machine → Prop :=
  fun r after => ∃ env w, after = m.place env w ∧ Q r env w

end Machine

/-- What holds of the result and of the machine left holds, unless a limit of depth was exceeded or
the fuel ran out. -/
def Outcome.Satisfies (P : Except Error α → Machine → Prop) : Outcome α → Prop
  | .done a m => P (.ok a) m
  | .failed e m => e.cause.isRecursionLimit = true ∨ P (.error e) m
  | .outOfFuel => True

theorem Outcome.Satisfies.mono {P R : Except Error α → Machine → Prop} {outcome : Outcome α}
    (h : outcome.Satisfies P) (hPR : ∀ r m, P r m → R r m) : outcome.Satisfies R := by
  cases outcome with
  | done a m => exact hPR _ _ h
  | failed e m => exact h.imp_right (hPR _ _)
  | outOfFuel => trivial

namespace Eval

def Derives (x : Eval α) (D : Environment → World → Except Error α → Environment → World → Prop) :
    Prop :=
  ∀ (m : Machine) env w, (x (m.place env w)).Satisfies (m.Reaches (D env w))

namespace Derives

variable {x : Eval α} {D : Environment → World → Except Error α → Environment → World → Prop}
variable {m : Machine} {env : Environment} {w : World}

theorem bind (hx : x.Derives D) {f : α → Eval β}
    {Q : Except Error β → Environment → World → Prop}
    (hok : ∀ a env₁ w₁, D env w (.ok a) env₁ w₁ →
      (f a (m.place env₁ w₁)).Satisfies (m.Reaches Q))
    (herror : ∀ e env₁ w₁, D env w (.error e) env₁ w₁ → Q (.error e) env₁ w₁) :
    ((x >>= f) (m.place env w)).Satisfies (m.Reaches Q) := by
  have hfirst := hx m env w
  cases hrun : x (m.place env w) with
  | done a after =>
    rw [hrun] at hfirst
    obtain ⟨env₁, w₁, rfl, hD⟩ := hfirst
    rw [bind_of_done hrun]
    exact hok a env₁ w₁ hD
  | failed e after =>
    rw [hrun] at hfirst
    rw [bind_of_failed hrun]
    rcases hfirst with hlimit | ⟨env₁, w₁, rfl, hD⟩
    · exact Or.inl hlimit
    · exact Or.inr ⟨env₁, w₁, rfl, herror e env₁ w₁ hD⟩
  | outOfFuel =>
    rw [bind_of_outOfFuel hrun]
    trivial

theorem mono (hx : x.Derives D) {Q : Except Error α → Environment → World → Prop}
    (h : ∀ r env₁ w₁, D env w r env₁ w₁ → Q r env₁ w₁) :
    (x (m.place env w)).Satisfies (m.Reaches Q) := by
  refine (hx m env w).mono fun r after hafter => ?_
  obtain ⟨env₁, w₁, rfl, hD⟩ := hafter
  exact ⟨env₁, w₁, rfl, h r env₁ w₁ hD⟩

section Same

variable {E : Environment → World → Except Error α → World → Prop}

/-- What follows a computation that leaves the environment alone goes on in that environment. -/
theorem bind_same (hx : x.Derives fun env w r env' w' => E env w r w' ∧ env' = env)
    {f : α → Eval β} {Q : Except Error β → Environment → World → Prop}
    (hok : ∀ a w₁, E env w (.ok a) w₁ → (f a (m.place env w₁)).Satisfies (m.Reaches Q))
    (herror : ∀ e w₁, E env w (.error e) w₁ → Q (.error e) env w₁) :
    ((x >>= f) (m.place env w)).Satisfies (m.Reaches Q) := by
  refine hx.bind ?_ ?_
  · intro a env₁ w₁ hD
    obtain ⟨hE, rfl⟩ := hD
    exact hok a w₁ hE
  · intro e env₁ w₁ hD
    obtain ⟨hE, rfl⟩ := hD
    exact herror e w₁ hE

theorem mono_same (hx : x.Derives fun env w r env' w' => E env w r w' ∧ env' = env)
    {Q : Except Error α → Environment → World → Prop}
    (h : ∀ r w₁, E env w r w₁ → Q r env w₁) : (x (m.place env w)).Satisfies (m.Reaches Q) := by
  refine hx.mono fun r env₁ w₁ hD => ?_
  obtain ⟨hE, rfl⟩ := hD
  exact h r w₁ hE

end Same

theorem nested (hx : x.Derives D) (c : Config) (p : Position) :
    Derives (Eval.nested c p x) D := by
  intro m env w
  by_cases hlimit : c.nestingLimit ≤ (m.place env w).nestingDepth
  · rw [nested_of_limit hlimit]
    exact Or.inl rfl
  · rw [nested_of_room hlimit]
    have hinside := hx m.opened env w
    change (x (m.place env w).opened).Satisfies _ at hinside
    cases hrun : x (m.place env w).opened with
    | done a inside =>
      rw [hrun] at hinside
      obtain ⟨env₁, w₁, rfl, hD⟩ := hinside
      exact ⟨env₁, w₁, rfl, hD⟩
    | failed e inside =>
      rw [hrun] at hinside
      rcases hinside with hlimit | ⟨env₁, w₁, rfl, hD⟩
      · exact Or.inl hlimit
      · exact Or.inr ⟨env₁, w₁, rfl, hD⟩
    | outOfFuel => trivial

theorem called (hx : x.Derives D) (c : Config) (p : Position)
    (bindings : List (String × Int64)) :
    Derives (Eval.called c p bindings x) fun env w r env' w' =>
      ((∃ cause, (Scope.empty c.maxVariables).assignAll bindings = .error cause ∧
          r = .error ⟨cause, p⟩ ∧ w' = w) ∨
        ∃ scope env₁, (Scope.empty c.maxVariables).assignAll bindings = .ok scope ∧
          D ⟨scope, [env.root]⟩ w r env₁ w') ∧ env' = env := by
  intro m env w
  by_cases hlimit : c.maxCallDepth ≤ (m.place env w).callDepth
  · rw [called_of_limit hlimit]
    exact Or.inl rfl
  · cases hscope : (Scope.empty c.maxVariables).assignAll bindings with
    | error cause =>
      rw [called_of_noRoom hlimit hscope]
      exact Or.inr ⟨env, w, rfl, Or.inl ⟨cause, rfl, rfl, rfl⟩, rfl⟩
    | ok scope =>
      rw [called_of_room hlimit hscope]
      have hinside := hx (m.entered scope) ⟨scope, [env.root]⟩ w
      change (x ((m.place env w).entered scope)).Satisfies _ at hinside
      cases hrun : x ((m.place env w).entered scope) with
      | done a inside =>
        rw [hrun] at hinside
        obtain ⟨env₁, w₁, rfl, hD⟩ := hinside
        exact ⟨env, w₁, rfl, Or.inr ⟨scope, env₁, rfl, hD⟩, rfl⟩
      | failed e inside =>
        rw [hrun] at hinside
        rcases hinside with hlimit | ⟨env₁, w₁, rfl, hD⟩
        · exact Or.inl hlimit
        · exact Or.inr ⟨env, w₁, rfl, Or.inr ⟨scope, env₁, rfl, hD⟩, rfl⟩
      | outOfFuel => trivial

end Derives

theorem derives_function? (name : String) : Derives (Eval.function? name) fun env w r env' w' =>
    (r = .ok (w.functions.get? name) ∧ w' = w) ∧ env' = env :=
  fun _ env w => ⟨env, w, rfl, ⟨rfl, rfl⟩, rfl⟩

theorem derives_emit (line : String) : Derives (Eval.emit line) fun env w r env' w' =>
    (r = .ok () ∧ w' = w.print line) ∧ env' = env :=
  fun _ env w => ⟨env, w.print line, rfl, ⟨rfl, rfl⟩, rfl⟩

theorem derives_declare (f : Function) : Derives (Eval.declare f) fun env w r env' w' =>
    (r = .ok () ∧ w' = w.declare f) ∧ env' = env :=
  fun _ env w => ⟨env, w.declare f, rfl, ⟨rfl, rfl⟩, rfl⟩

theorem derives_lookup (name : String) (p : Position) :
    Derives (Eval.lookup name p) fun env w r env' w' =>
      (r = env.lookup name p ∧ w' = w) ∧ env' = env := by
  intro m env w
  have hsame : (m.place env w).env.lookup name p = env.lookup name p := rfl
  cases hvalue : env.lookup name p with
  | ok value =>
    rw [lookup_of_ok (hsame.trans hvalue)]
    exact ⟨env, w, rfl, ⟨hvalue.symm, rfl⟩, rfl⟩
  | error e =>
    rw [lookup_of_error (hsame.trans hvalue)]
    exact Or.inr ⟨env, w, rfl, ⟨hvalue.symm, rfl⟩, rfl⟩

theorem derives_assign (name : String) (value : Int64) (p : Position) :
    Derives (Eval.assign name value p) fun env w r env' w' =>
      (r = .ok () ∧ env.assign name value p = .ok env' ∨
        ∃ e, r = .error e ∧ env.assign name value p = .error e ∧ env' = env) ∧ w' = w := by
  intro m env w
  have hsame : (m.place env w).env.assign name value p = env.assign name value p := rfl
  cases henv : env.assign name value p with
  | ok env' =>
    rw [assign_of_ok (hsame.trans henv)]
    exact ⟨env', w, rfl, Or.inl ⟨rfl, henv⟩, rfl⟩
  | error e =>
    rw [assign_of_error (hsame.trans henv)]
    exact Or.inr ⟨env, w, rfl, Or.inr ⟨e, rfl, henv, rfl⟩, rfl⟩

theorem derives_apply (operator : Operator) (a b : Int64) (p : Position) :
    Derives (Eval.apply operator a b p) fun env w r env' w' =>
      (r = operator.answer a b p ∧ w' = w) ∧ env' = env := by
  intro m env w
  unfold Eval.apply Operator.answer
  cases operator.result? a b with
  | some value => exact ⟨env, w, rfl, ⟨rfl, rfl⟩, rfl⟩
  | none => exact Or.inr ⟨env, w, rfl, ⟨rfl, rfl⟩, rfl⟩

end Eval

def Completion.exit : Except Error Completion → Except Exit Unit
  | .ok .completed => .ok ()
  | .ok (.returned value) => .error (.returned value)
  | .error e => .error (.failed e)

theorem Completion.answer_exit (completion : Completion) :
    Exit.answer (exit (.ok completion)) = .ok completion.value := by
  cases completion with
  | completed => rfl
  | returned value => rfl

/-- What the semantics says of each part of the evaluator with some fuel. -/
structure Sound (c : Config) (n : Nat) : Prop where
  expr : ∀ e, Eval.Derives (Eval.expr c n e) fun env w r env' w' =>
    Evaluates c.maxVariables env w e r w' ∧ env' = env
  node : ∀ e, Eval.Derives (Eval.node c n e) fun env w r env' w' =>
    Evaluates c.maxVariables env w e r w' ∧ env' = env
  links : ∀ a ls, Eval.Derives (Eval.links c n a ls) fun env w r env' w' =>
    Continues c.maxVariables env w a ls r w' ∧ env' = env
  call : ∀ f es (span : Span), Eval.Derives (Eval.call c n f es span.position)
    fun env w r env' w' => Evaluates c.maxVariables env w (.call f es span) r w' ∧ env' = env
  exprs : ∀ es, Eval.Derives (Eval.exprs c n es) fun env w r env' w' =>
    EvaluatesAll c.maxVariables env w es r w' ∧ env' = env
  printed : ∀ es, Eval.Derives (Eval.printed c n es) fun env w r env' w' =>
    Shows c.maxVariables env w es r w' ∧ env' = env
  stmt : ∀ s, Eval.Derives (Eval.stmt c n s) fun env w r env' w' =>
    Executes c.maxVariables env w s (Completion.exit r) env' w'
  stmtNode : ∀ s, Eval.Derives (Eval.stmtNode c n s) fun env w r env' w' =>
    Executes c.maxVariables env w s (Completion.exit r) env' w'
  stmts : ∀ ss, Eval.Derives (Eval.stmts c n ss) fun env w r env' w' =>
    ExecutesAll c.maxVariables env w ss (Completion.exit r) env' w'
  loop : ∀ e s, Eval.Derives (Eval.loop c n e s) fun env w r env' w' =>
    Repeats c.maxVariables env w e s (Completion.exit r) env' w'

namespace Sound

variable {c : Config} {n : Nat}

theorem zero (c : Config) : Sound c 0 where
  expr e := by rw [Eval.expr]; exact fun _ _ _ => trivial
  node e := by rw [Eval.node]; exact fun _ _ _ => trivial
  links a ls := by rw [Eval.links]; exact fun _ _ _ => trivial
  call f es span := by rw [Eval.call]; exact fun _ _ _ => trivial
  exprs es := by rw [Eval.exprs]; exact fun _ _ _ => trivial
  printed es := by rw [Eval.printed]; exact fun _ _ _ => trivial
  stmt s := by rw [Eval.stmt]; exact fun _ _ _ => trivial
  stmtNode s := by rw [Eval.stmtNode]; exact fun _ _ _ => trivial
  stmts ss := by rw [Eval.stmts]; exact fun _ _ _ => trivial
  loop e s := by rw [Eval.loop]; exact fun _ _ _ => trivial

variable (h : Sound c n)
include h

theorem expr_succ (e : Expr) : Eval.Derives (Eval.expr c (n + 1) e) fun env w r env' w' =>
    Evaluates c.maxVariables env w e r w' ∧ env' = env := by
  rw [Eval.expr]
  exact (h.node e).nested c e.position

theorem node_succ (e : Expr) : Eval.Derives (Eval.node c (n + 1) e) fun env w r env' w' =>
    Evaluates c.maxVariables env w e r w' ∧ env' = env := by
  intro m env w
  cases e with
  | number value span =>
    rw [Eval.node]
    exact ⟨env, w, rfl, .number, rfl⟩
  | string text span =>
    rw [Eval.node]
    exact Or.inr ⟨env, w, rfl, .string, rfl⟩
  | var name span =>
    rw [Eval.node]
    refine (Eval.derives_lookup name span.position).mono_same fun r w₁ hlookup => ?_
    obtain ⟨rfl, rfl⟩ := hlookup
    exact ⟨.var, rfl⟩
  | binary operator left right span =>
    rw [Eval.node]
    let chain := left.chainOnto [(operator, right)]
    refine (h.expr chain.1).bind_same ?_ ?_
    · intro a w₁ hfirst
      refine (h.links a chain.2).mono_same fun r w₂ hlinks => ⟨?_, rfl⟩
      -- the chain is that of the whole expression, with nothing to go on with
      rcases Evaluates.of_chain (.binary operator left right span) [] hfirst hlinks with
        ⟨b, w₃, hwhole, hnil⟩ | ⟨err, rfl, hwhole⟩
      · cases hnil
        exact hwhole
      · exact hwhole
    · intro e w₁ hfirst
      exact ⟨Evaluates.of_chain_fails (.binary operator left right span) [] hfirst, rfl⟩
  | call callee arguments span =>
    rw [Eval.node]
    exact h.call callee arguments span m env w

theorem links_succ (a : Int64) (ls : List (Operator × Expr)) :
    Eval.Derives (Eval.links c (n + 1) a ls) fun env w r env' w' =>
      Continues c.maxVariables env w a ls r w' ∧ env' = env := by
  intro m env w
  cases ls with
  | nil =>
    rw [Eval.links]
    exact ⟨env, w, rfl, .nil, rfl⟩
  | cons link rest =>
    obtain ⟨operator, right⟩ := link
    rw [Eval.links]
    refine (h.expr right).bind_same ?_ ?_
    · intro b w₁ hright
      refine (Eval.derives_apply operator a b right.position).bind_same ?_ ?_
      · intro value w₂ happly
        obtain ⟨hvalue, rfl⟩ := happly
        refine (h.links value rest).mono_same fun r w₃ hrest => ?_
        exact ⟨.cons hright hvalue.symm hrest, rfl⟩
      · intro e w₂ happly
        obtain ⟨hundefined, rfl⟩ := happly
        exact ⟨.undefined hright hundefined.symm, rfl⟩
    · intro e w₁ hright
      exact ⟨.fails hright, rfl⟩

theorem call_succ (f : String) (es : List Expr) (span : Span) :
    Eval.Derives (Eval.call c (n + 1) f es span.position) fun env w r env' w' =>
      Evaluates c.maxVariables env w (.call f es span) r w' ∧ env' = env := by
  intro m env w
  rw [Eval.call]
  refine (Eval.derives_function? f).bind_same ?_ ?_
  · intro found w₁ hfunction
    obtain ⟨hf, rfl⟩ := hfunction
    obtain rfl := Except.ok.inj hf
    cases hfound : w₁.functions.get? f with
    | some g =>
      by_cases harity : g.arity = es.length
      · simp only [if_pos harity]
        refine (h.exprs es).bind_same ?_ ?_
        · intro values w₂ hes
          refine ((h.stmts g.body.body).called c span.position _).bind_same ?_ ?_
          · intro completion w₃ hcalled
            rcases hcalled with ⟨cause, -, hnone, -⟩ | ⟨scope, env₄, hscope, hbody⟩
            · cases hnone
            · have hcall : Evaluates _ _ _ (.call f es span) _ _ :=
                .call hfound harity hes hscope hbody
              rw [Completion.answer_exit] at hcall
              exact ⟨_, _, rfl, hcall, rfl⟩
          · intro e w₃ hcalled
            rcases hcalled with ⟨cause, hscope, he, rfl⟩ | ⟨scope, env₄, hscope, hbody⟩
            · cases he
              exact ⟨.noRoom hfound harity hes hscope, rfl⟩
            · exact ⟨.call hfound harity hes hscope hbody, rfl⟩
        · intro e w₂ hes
          exact ⟨.argumentFails hfound harity hes, rfl⟩
      · simp only [if_neg harity]
        exact Or.inr ⟨env, w₁, rfl, .arity hfound harity, rfl⟩
    | none =>
      cases hbuiltin : Builtin.ofName? f with
      | some builtin =>
        cases builtin with
        | print =>
          simp only
          refine (h.printed es).bind_same ?_ ?_
          · intro parts w₂ hes
            refine (Eval.derives_emit _).bind_same ?_ ?_
            · intro _ w₃ hemit
              obtain ⟨-, rfl⟩ := hemit
              exact ⟨_, _, rfl, .print hfound hbuiltin hes, rfl⟩
            · intro e w₃ hemit
              cases hemit.1
          · intro e w₂ hes
            exact ⟨.printFails hfound hbuiltin hes, rfl⟩
      | none => exact Or.inr ⟨env, w₁, rfl, .undefined hfound hbuiltin, rfl⟩
  · intro e w₁ hfunction
    cases hfunction.1

theorem exprs_succ (es : List Expr) :
    Eval.Derives (Eval.exprs c (n + 1) es) fun env w r env' w' =>
      EvaluatesAll c.maxVariables env w es r w' ∧ env' = env := by
  intro m env w
  cases es with
  | nil =>
    rw [Eval.exprs]
    exact ⟨env, w, rfl, .nil, rfl⟩
  | cons e es =>
    rw [Eval.exprs]
    refine (h.expr e).bind_same ?_ ?_
    · intro value w₁ he
      refine (h.exprs es).bind_same ?_ ?_
      · intro values w₂ hes
        exact ⟨_, _, rfl, .cons he hes, rfl⟩
      · intro err w₂ hes
        exact ⟨.cons he hes, rfl⟩
    · intro err w₁ he
      exact ⟨.fails he, rfl⟩

theorem printed_succ (es : List Expr) :
    Eval.Derives (Eval.printed c (n + 1) es) fun env w r env' w' =>
      Shows c.maxVariables env w es r w' ∧ env' = env := by
  intro m env w
  match es with
  | [] =>
    rw [Eval.printed]
    exact ⟨env, w, rfl, .nil, rfl⟩
  | .string text span :: es =>
    rw [Eval.printed]
    refine (h.printed es).bind_same ?_ ?_
    · intro parts w₁ hes
      exact ⟨_, _, rfl, .text hes, rfl⟩
    · intro err w₁ hes
      exact ⟨.text hes, rfl⟩
  | .number _ _ :: es | .var _ _ :: es | .binary _ _ _ _ :: es | .call _ _ _ :: es =>
    rw [Eval.printed]
    · refine (h.expr _).bind_same ?_ ?_
      · intro value w₁ he
        refine (h.printed es).bind_same ?_ ?_
        · intro parts w₂ hes
          exact ⟨_, _, rfl, .value rfl he hes, rfl⟩
        · intro err w₂ hes
          exact ⟨.value rfl he hes, rfl⟩
      · intro err w₁ he
        exact ⟨.fails rfl he, rfl⟩
    all_goals simp

theorem stmt_succ (s : Stmt) : Eval.Derives (Eval.stmt c (n + 1) s) fun env w r env' w' =>
    Executes c.maxVariables env w s (Completion.exit r) env' w' := by
  rw [Eval.stmt]
  exact (h.stmtNode s).nested c s.position

theorem stmtNode_succ (s : Stmt) :
    Eval.Derives (Eval.stmtNode c (n + 1) s) fun env w r env' w' =>
      Executes c.maxVariables env w s (Completion.exit r) env' w' := by
  intro m env w
  cases s with
  | expression e span =>
    rw [Eval.stmtNode]
    refine (h.expr e).bind_same ?_ ?_
    · intro value w₁ he
      exact ⟨_, _, rfl, .expression he⟩
    · intro err w₁ he
      exact .expressionFails he
  | assign name e span =>
    rw [Eval.stmtNode]
    refine (h.expr e).bind_same ?_ ?_
    · intro value w₁ he
      refine (Eval.derives_assign name value span.position).bind ?_ ?_
      · intro _ env₂ w₂ hassign
        obtain ⟨⟨-, henv⟩ | ⟨err, hnone, -⟩, rfl⟩ := hassign
        · exact ⟨_, _, rfl, .assign he henv⟩
        · cases hnone
      · intro err env₂ w₂ hassign
        obtain ⟨⟨hnone, -⟩ | ⟨err', heq, henv, rfl⟩, rfl⟩ := hassign
        · cases hnone
        · cases heq
          exact .noRoom he henv
    · intro err w₁ he
      exact .valueFails he
  | block body span =>
    rw [Eval.stmtNode]
    refine (h.stmts body).mono ?_
    intro r env₁ w₁ hbody
    exact .block hbody
  | ifThen e s span =>
    rw [Eval.stmtNode]
    refine (h.expr e).bind_same ?_ ?_
    · intro value w₁ he
      by_cases hvalue : value = 0
      · rw [if_pos hvalue]
        subst hvalue
        exact ⟨_, _, rfl, .ifThenSkip he⟩
      · rw [if_neg hvalue]
        refine (h.stmt s).mono ?_
        intro r env₂ w₂ hs
        exact .ifThen he hvalue hs
    · intro err w₁ he
      exact .ifThenFails he
  | ifElse e s t span =>
    rw [Eval.stmtNode]
    refine (h.expr e).bind_same ?_ ?_
    · intro value w₁ he
      by_cases hvalue : value = 0
      · rw [if_pos hvalue]
        subst hvalue
        refine (h.stmt t).mono ?_
        intro r env₂ w₂ ht
        exact .ifElseZero he ht
      · rw [if_neg hvalue]
        refine (h.stmt s).mono ?_
        intro r env₂ w₂ hs
        exact .ifElse he hvalue hs
    · intro err w₁ he
      exact .ifElseFails he
  | loop e s span =>
    rw [Eval.stmtNode]
    refine (h.loop e s).mono ?_
    intro r env₁ w₁ hloop
    exact .loop hloop
  | ret e span =>
    rw [Eval.stmtNode]
    refine (h.expr e).bind_same ?_ ?_
    · intro value w₁ he
      exact ⟨_, _, rfl, .ret he⟩
    · intro err w₁ he
      exact .retFails he
  | function name parameters body bodySpan span =>
    rw [Eval.stmtNode]
    refine (Eval.derives_declare _).bind_same ?_ ?_
    · intro _ w₁ hdeclare
      obtain ⟨-, rfl⟩ := hdeclare
      exact ⟨_, _, rfl, .function⟩
    · intro err w₁ hdeclare
      cases hdeclare.1

theorem stmts_succ (ss : List Stmt) :
    Eval.Derives (Eval.stmts c (n + 1) ss) fun env w r env' w' =>
      ExecutesAll c.maxVariables env w ss (Completion.exit r) env' w' := by
  intro m env w
  cases ss with
  | nil =>
    rw [Eval.stmts]
    exact ⟨env, w, rfl, .nil⟩
  | cons s ss =>
    rw [Eval.stmts]
    refine (h.stmt s).bind ?_ ?_
    · intro completion env₁ w₁ hs
      cases completion with
      | completed =>
        refine (h.stmts ss).mono ?_
        intro r env₂ w₂ hss
        exact .cons hs hss
      | returned value => exact ⟨env₁, w₁, rfl, .exit hs⟩
    · intro err env₁ w₁ hs
      exact .exit hs

theorem loop_succ (e : Expr) (s : Stmt) :
    Eval.Derives (Eval.loop c (n + 1) e s) fun env w r env' w' =>
      Repeats c.maxVariables env w e s (Completion.exit r) env' w' := by
  intro m env w
  rw [Eval.loop]
  refine (h.expr e).bind_same ?_ ?_
  · intro value w₁ he
    by_cases hvalue : value = 0
    · rw [if_pos hvalue]
      subst hvalue
      exact ⟨_, _, rfl, .stop he⟩
    · rw [if_neg hvalue]
      refine (h.stmt s).bind ?_ ?_
      · intro completion env₂ w₂ hs
        cases completion with
        | completed =>
          refine (h.loop e s).mono ?_
          intro r env₃ w₃ hloop
          exact .again he hvalue hs hloop
        | returned value' => exact ⟨env₂, w₂, rfl, .exit he hvalue hs⟩
      · intro err env₂ w₂ hs
        exact .exit he hvalue hs
  · intro err w₁ he
    exact .fails he

omit h

/-- The semantics derives what the evaluator does with any fuel. -/
theorem of_fuel (c : Config) (n : Nat) : Sound c n := by
  induction n with
  | zero => exact zero c
  | succ n ih =>
    exact ⟨ih.expr_succ, ih.node_succ, ih.links_succ, ih.call_succ, ih.exprs_succ,
      ih.printed_succ, ih.stmt_succ, ih.stmtNode_succ, ih.stmts_succ, ih.loop_succ⟩

theorem program (c : Config) (n : Nat) (last : Int64) (ss : List Stmt) :
    Eval.Derives (Eval.program c n last ss) fun env w r env' w' =>
      Runs c.maxVariables env w last ss r env' w' := by
  have h := of_fuel c n
  induction ss generalizing last with
  | nil =>
    intro m env w
    rw [Eval.program]
    exact ⟨env, w, rfl, .nil⟩
  | cons s ss ih =>
    intro m env w
    cases s with
    | expression e span =>
      rw [Eval.program]
      refine (h.expr e).bind_same ?_ ?_
      · intro value w₁ he
        refine (ih value).mono ?_
        intro r env₂ w₂ hss
        exact .expression he hss
      · intro err w₁ he
        exact .fails he
    | _ =>
      rw [Eval.program]
      · refine (h.stmt _).bind ?_ ?_
        · intro completion env₁ w₁ hs
          cases completion with
          | completed =>
            refine (ih last).mono ?_
            intro r env₂ w₂ hss
            exact .statement rfl hs hss
          | returned value => exact ⟨env₁, w₁, rfl, .exit rfl hs⟩
        · intro err env₁ w₁ hs
          exact .exit rfl hs
      all_goals simp

end Sound

end IntLang
