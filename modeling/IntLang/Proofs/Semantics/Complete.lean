import IntLang.Proofs.Semantics.Sound

/-!
What the semantics derives the evaluator does once it has fuel enough, unless it gives up at a limit
of depth. The proof is by induction on the derivation. For the operands of a chain the evaluator
goes on in the same level with the operators behind, so a derivation for an expression also tells
what happens when the expression begins a chain.
-/
namespace IntLang

/-- The outcome is the given one or a failure at a limit of depth. -/
def Outcome.Ends (r : Except Error α) (m : Machine) : Outcome α → Prop
  | .done a after => r = .ok a ∧ after = m
  | .failed e after => e.cause.isRecursionLimit = true ∨ r = .error e ∧ after = m
  | .outOfFuel => False

namespace Eval

/-- With fuel enough a computation has the given result and leaves the given environment and world,
whatever the counters, unless it gives up at a limit of depth. -/
def Realizes (x : Nat → Eval α) (env : Environment) (w : World) (r : Except Error α)
    (env' : Environment) (w' : World) : Prop :=
  ∀ m : Machine, ∃ n, ∀ k, n ≤ k → (x k (m.place env w)).Ends r (m.place env' w')

namespace Realizes

variable {x : Nat → Eval α} {f : Nat → α → Eval β} {env env₁ env₂ : Environment}
variable {w w₁ w₂ : World} {r : Except Error α}

theorem succ (h : Realizes (fun k => x (k + 1)) env w r env₁ w₁) : Realizes x env w r env₁ w₁ := by
  intro m
  obtain ⟨n, hn⟩ := h m
  refine ⟨n + 1, fun k hk => ?_⟩
  obtain ⟨j, rfl⟩ : ∃ j, k = j + 1 := ⟨k - 1, by omega⟩
  exact hn j (by omega)

theorem const {y : Eval α} (h : ∀ m : Machine, (y (m.place env w)).Ends r (m.place env₁ w₁)) :
    Realizes (fun _ => y) env w r env₁ w₁ :=
  fun m => ⟨0, fun _ _ => h m⟩

theorem pure (a : α) (env : Environment) (w : World) :
    Realizes (fun _ => Pure.pure a) env w (.ok a) env w :=
  const fun _ => ⟨rfl, rfl⟩

theorem fail (cause : Cause) (p : Position) (env : Environment) (w : World) :
    Realizes (fun _ => (Eval.fail cause p : Eval α)) env w (.error ⟨cause, p⟩) env w :=
  const fun _ => Or.inr ⟨rfl, rfl⟩

theorem bind_ok {a : α} {r : Except Error β} (hx : Realizes x env w (.ok a) env₁ w₁)
    (hf : Realizes (fun k => f k a) env₁ w₁ r env₂ w₂) :
    Realizes (fun k => x k >>= f k) env w r env₂ w₂ := by
  intro m
  obtain ⟨n, hn⟩ := hx m
  obtain ⟨j, hj⟩ := hf m
  refine ⟨max n j, fun k hk => ?_⟩
  have hfirst := hn k (by omega)
  have hsecond := hj k (by omega)
  show ((x k >>= f k) (m.place env w)).Ends _ _
  cases hrun : x k (m.place env w) with
  | done b after =>
    rw [hrun] at hfirst
    obtain ⟨hvalue, rfl⟩ := hfirst
    cases hvalue
    rw [bind_of_done hrun]
    exact hsecond
  | failed e after =>
    rw [hrun] at hfirst
    rw [bind_of_failed hrun]
    rcases hfirst with hlimit | ⟨hnone, -⟩
    · exact Or.inl hlimit
    · cases hnone
  | outOfFuel =>
    rw [hrun] at hfirst
    exact hfirst.elim

theorem bind_error {e : Error} (hx : Realizes x env w (.error e) env₁ w₁) :
    Realizes (fun k => x k >>= f k) env w (.error e) env₁ w₁ := by
  intro m
  obtain ⟨n, hn⟩ := hx m
  refine ⟨n, fun k hk => ?_⟩
  have hfirst := hn k hk
  show ((x k >>= f k) (m.place env w)).Ends _ _
  cases hrun : x k (m.place env w) with
  | done b after =>
    rw [hrun] at hfirst
    cases hfirst.1
  | failed e' after =>
    rw [hrun] at hfirst
    rw [bind_of_failed hrun]
    rcases hfirst with hlimit | ⟨heq, hafter⟩
    · exact Or.inl hlimit
    · cases heq
      exact Or.inr ⟨rfl, hafter⟩
  | outOfFuel =>
    rw [hrun] at hfirst
    exact hfirst.elim

theorem nested (hx : Realizes x env w r env₁ w₁) (c : Config) (p : Position) :
    Realizes (fun k => Eval.nested c p (x k)) env w r env₁ w₁ := by
  intro m
  obtain ⟨n, hn⟩ := hx m.opened
  refine ⟨n, fun k hk => ?_⟩
  have hinside := hn k hk
  change (x k (m.place env w).opened).Ends _ _ at hinside
  show (Eval.nested c p (x k) (m.place env w)).Ends _ _
  by_cases hlimit : c.nestingLimit ≤ (m.place env w).nestingDepth
  · rw [nested_of_limit hlimit]
    exact Or.inl rfl
  · rw [nested_of_room hlimit]
    cases hrun : x k (m.place env w).opened with
    | done a inside =>
      rw [hrun] at hinside
      obtain ⟨hvalue, rfl⟩ := hinside
      exact ⟨hvalue, rfl⟩
    | failed e inside =>
      rw [hrun] at hinside
      rcases hinside with hlimit | ⟨heq, rfl⟩
      · exact Or.inl hlimit
      · exact Or.inr ⟨heq, rfl⟩
    | outOfFuel =>
      rw [hrun] at hinside
      exact hinside.elim

theorem called {c : Config} {bindings : List (String × Int64)} {scope : Scope}
    (hscope : (Scope.empty c.maxVariables).assignAll bindings = .ok scope)
    (hx : Realizes x ⟨scope, [env.root]⟩ w r env₁ w₁) (p : Position) :
    Realizes (fun k => Eval.called c p bindings (x k)) env w r env w₁ := by
  intro m
  obtain ⟨n, hn⟩ := hx (m.entered scope)
  refine ⟨n, fun k hk => ?_⟩
  have hinside := hn k hk
  change (x k ((m.place env w).entered scope)).Ends _ _ at hinside
  show (Eval.called c p bindings (x k) (m.place env w)).Ends _ _
  by_cases hlimit : c.maxCallDepth ≤ (m.place env w).callDepth
  · rw [called_of_limit hlimit]
    exact Or.inl rfl
  · rw [called_of_room hlimit hscope]
    cases hrun : x k ((m.place env w).entered scope) with
    | done a inside =>
      rw [hrun] at hinside
      obtain ⟨hvalue, rfl⟩ := hinside
      exact ⟨hvalue, rfl⟩
    | failed e inside =>
      rw [hrun] at hinside
      rcases hinside with hlimit | ⟨heq, rfl⟩
      · exact Or.inl hlimit
      · exact Or.inr ⟨heq, rfl⟩
    | outOfFuel =>
      rw [hrun] at hinside
      exact hinside.elim

theorem called_noRoom {c : Config} {bindings : List (String × Int64)} {cause : Cause}
    (hscope : (Scope.empty c.maxVariables).assignAll bindings = .error cause) (p : Position) :
    Realizes (fun k => Eval.called c p bindings (x k)) env w (.error ⟨cause, p⟩) env w := by
  refine fun m => ⟨0, fun k _ => ?_⟩
  show (Eval.called c p bindings (x k) (m.place env w)).Ends _ _
  by_cases hlimit : c.maxCallDepth ≤ (m.place env w).callDepth
  · rw [called_of_limit hlimit]
    exact Or.inl rfl
  · rw [called_of_noRoom hlimit hscope]
    exact Or.inr ⟨rfl, rfl⟩

end Realizes

theorem realizes_function? (name : String) (env : Environment) (w : World) :
    Realizes (fun _ => Eval.function? name) env w (.ok (w.functions.get? name)) env w :=
  .const fun _ => ⟨rfl, rfl⟩

theorem realizes_emit (line : String) (env : Environment) (w : World) :
    Realizes (fun _ => Eval.emit line) env w (.ok ()) env (w.print line) :=
  .const fun _ => ⟨rfl, rfl⟩

theorem realizes_declare (f : Function) (env : Environment) (w : World) :
    Realizes (fun _ => Eval.declare f) env w (.ok ()) env (w.declare f) :=
  .const fun _ => ⟨rfl, rfl⟩

theorem realizes_lookup (name : String) (p : Position) (env : Environment) (w : World) :
    Realizes (fun _ => Eval.lookup name p) env w (env.lookup name p) env w := by
  refine .const fun m => ?_
  have hsame : (m.place env w).env.lookup name p = env.lookup name p := rfl
  cases hvalue : env.lookup name p with
  | ok value =>
    rw [lookup_of_ok (hsame.trans hvalue)]
    exact ⟨rfl, rfl⟩
  | error e =>
    rw [lookup_of_error (hsame.trans hvalue)]
    exact Or.inr ⟨rfl, rfl⟩

theorem realizes_assign {name : String} {value : Int64} {p : Position} {env env' : Environment}
    (h : env.assign name value p = .ok env') (w : World) :
    Realizes (fun _ => Eval.assign name value p) env w (.ok ()) env' w := by
  refine .const fun m => ?_
  have hsame : (m.place env w).env.assign name value p = env.assign name value p := rfl
  rw [assign_of_ok (hsame.trans h)]
  exact ⟨rfl, rfl⟩

theorem realizes_assign_error {name : String} {value : Int64} {p : Position} {env : Environment}
    {e : Error} (h : env.assign name value p = .error e) (w : World) :
    Realizes (fun _ => Eval.assign name value p) env w (.error e) env w := by
  refine .const fun m => ?_
  have hsame : (m.place env w).env.assign name value p = env.assign name value p := rfl
  rw [assign_of_error (hsame.trans h)]
  exact Or.inr ⟨rfl, rfl⟩

theorem realizes_apply (operator : Operator) (a b : Int64) (p : Position) (env : Environment)
    (w : World) :
    Realizes (fun _ => Eval.apply operator a b p) env w (operator.answer a b p) env w := by
  unfold Eval.apply Operator.answer
  cases operator.result? a b with
  | some value => exact .pure value env w
  | none => exact .fail _ _ env w

/-- What operators behind an expression make of its result: they go on from its value. -/
def Carries (c : Config) (env : Environment) (ls : List (Operator × Expr)) (r' : Except Error Int64)
    (w' : World) : Except Error Int64 → World → Prop
  | .ok a, w => Realizes (fun k => links c k a ls) env w r' env w'
  | .error e, w => r' = .error e ∧ w' = w

def chain (c : Config) (k : Nat) (e : Expr) (ls : List (Operator × Expr)) : Eval Int64 :=
  expr c k (e.chainOnto ls).1 >>= fun a => links c k a (e.chainOnto ls).2

variable {c : Config} {env : Environment} {w w' w₁ : World} {r r' : Except Error Int64}
variable {ls : List (Operator × Expr)}

theorem Carries.bind {x : Nat → Eval Int64} (h : Carries c env ls r' w' r w₁)
    (hx : Realizes x env w r env w₁) :
    Realizes (fun k => x k >>= fun a => links c k a ls) env w r' env w' := by
  cases r with
  | ok a => exact hx.bind_ok h
  | error e =>
    obtain ⟨rfl, rfl⟩ := h
    exact hx.bind_error

theorem carries_nil (c : Config) (env : Environment) (w : World) (r : Except Error Int64) :
    Carries c env [] r w r w := by
  cases r with
  | ok a =>
    refine Realizes.succ ?_
    simp only [links]
    exact .pure a env w
  | error e => exact ⟨rfl, rfl⟩

structure Realized (c : Config) (env : Environment) (w : World) (e : Expr)
    (r : Except Error Int64) (w₁ : World) : Prop where
  expr : Realizes (fun k => expr c k e) env w r env w₁
  chain : ∀ ls r' w', Carries c env ls r' w' r w₁ →
    Realizes (fun k => chain c k e ls) env w r' env w'

theorem realizes_expr_of_node {e : Expr} (h : Realizes (fun k => node c k e) env w r env w₁) :
    Realizes (fun k => expr c k e) env w r env w₁ := by
  refine Realizes.succ ?_
  simp only [expr]
  exact h.nested c e.position

theorem realizes_stmt_of_node {s : Stmt} {r : Except Error Completion} {env' : Environment}
    (h : Realizes (fun k => stmtNode c k s) env w r env' w₁) :
    Realizes (fun k => stmt c k s) env w r env' w₁ := by
  refine Realizes.succ ?_
  simp only [stmt]
  exact h.nested c s.position

/-- An expression that is no operator is a chain of its own. -/
theorem realized_of_node {e : Expr} (hbinary : e.isBinary = false)
    (h : Realizes (fun k => node c k e) env w r env w₁) : Realized c env w e r w₁ := by
  have hexpr := realizes_expr_of_node h
  refine ⟨hexpr, fun ls r' w' hls => ?_⟩
  have hchain : ∀ k, chain c k e ls = (Eval.expr c k e >>= fun a => links c k a ls) := by
    intro k
    cases e with
    | binary operator left right span => cases hbinary
    | _ => rfl
  simp only [hchain]
  exact hls.bind hexpr

section Calls

variable {f : String} {es : List Expr} {span : Span}

theorem realized_of_call
    (h : Realizes (fun k => call c (k + 1) f es span.position) env w r env w₁) :
    Realized c env w (.call f es span) r w₁ := by
  refine realized_of_node rfl (.succ ?_)
  simp only [node]
  exact .succ h

/-- A call of a declared function evaluates its arguments and then its body. -/
theorem realized_of_function {g : Function} (hf : w.functions.get? f = some g)
    (harity : g.arity = es.length)
    (h : Realizes (fun k => exprs c k es >>= fun values =>
      Eval.called c span.position (g.parameters.zip values) (stmts c k g.body.body) >>=
        fun completion => Pure.pure completion.value) env w r env w₁) :
    Realized c env w (.call f es span) r w₁ := by
  refine realized_of_call ?_
  simp only [call]
  refine (realizes_function? f env w).bind_ok ?_
  simp only [hf, if_pos harity]
  exact h

/-- A call of `print` makes the texts of its arguments and then prints them. -/
theorem realized_of_print (hf : w.functions.get? f = none)
    (hbuiltin : Builtin.ofName? f = some .print)
    (h : Realizes (fun k => printed c k es >>= fun parts =>
      Eval.emit (String.intercalate " " parts) >>= fun _ => Pure.pure 0) env w r env w₁) :
    Realized c env w (.call f es span) r w₁ := by
  refine realized_of_call ?_
  simp only [call]
  refine (realizes_function? f env w).bind_ok ?_
  simp only [hf, hbuiltin]
  exact h

end Calls

/-- An operator is the chain of its left operand with one more link. -/
theorem realized_of_chain {operator : Operator} {left right : Expr} {span : Span}
    (h : ∀ ls r' w', Carries c env ls r' w' r w₁ →
      Realizes (fun k => chain c k left ((operator, right) :: ls)) env w r' env w') :
    Realized c env w (.binary operator left right span) r w₁ := by
  refine ⟨realizes_expr_of_node ?_, h⟩
  refine Realizes.succ ?_
  simp only [node]
  exact h [] r w₁ (carries_nil c env w₁ r)

end Eval

def Exit.completion : Except Exit Unit → Except Error Completion
  | .ok () => .ok .completed
  | .error (.returned value) => .ok (.returned value)
  | .error (.failed e) => .error e

theorem Eval.Realizes.value {x : Nat → Eval Completion} {env env' : Environment} {w w' : World}
    {r : Except Exit Unit} (h : Realizes x env w (Exit.completion r) env' w') :
    Realizes (fun k => x k >>= fun completion => Pure.pure completion.value) env w
      (Exit.answer r) env' w' := by
  match r with
  | .ok () => exact h.bind_ok (.pure 0 env' w')
  | .error (.returned value) => exact h.bind_ok (.pure value env' w')
  | .error (.failed e) => exact h.bind_error

open Eval

mutual

theorem Evaluates.realized {c : Config} {env w e r w'} :
    Evaluates c.maxVariables env w e r w' → Realized c env w e r w'
  | .number => by
    refine realized_of_node rfl (.succ ?_)
    simp only [node]
    exact .pure _ env w
  | .string => by
    refine realized_of_node rfl (.succ ?_)
    simp only [node]
    exact .fail _ _ env w
  | .var => by
    refine realized_of_node rfl (.succ ?_)
    simp only [node]
    exact realizes_lookup _ _ env w
  | .leftFails ha => by
    have hleft := ha.realized
    refine realized_of_chain fun ls r' w₂ hls => ?_
    exact hleft.chain _ _ _ hls
  | .rightFails ha hb => by
    have hleft := ha.realized
    have hright := hb.realized
    refine realized_of_chain fun ls r' w₂ hls => ?_
    obtain ⟨rfl, rfl⟩ := hls
    refine hleft.chain _ _ _ (Realizes.succ ?_)
    simp only [links]
    exact hright.expr.bind_error
  | .binary ha hb => by
    refine realized_of_chain fun ls r' w₂ hls => ?_
    refine ha.realized.chain _ _ _ (Realizes.succ ?_)
    simp only [links]
    refine hb.realized.expr.bind_ok ?_
    exact hls.bind (realizes_apply _ _ _ _ env _)
  | .undefined hf hbuiltin => by
    refine realized_of_call ?_
    simp only [call]
    refine (realizes_function? _ env w).bind_ok ?_
    simp only [hf, hbuiltin]
    exact .fail _ _ env w
  | .printFails hf hbuiltin hes => by
    refine realized_of_print hf hbuiltin ?_
    exact hes.realizes.bind_error
  | .print hf hbuiltin hes => by
    refine realized_of_print hf hbuiltin ?_
    refine hes.realizes.bind_ok ?_
    exact (realizes_emit _ env _).bind_ok (.pure 0 env _)
  | .arity hf harity => by
    refine realized_of_call ?_
    simp only [call]
    refine (realizes_function? _ env w).bind_ok ?_
    simp only [hf, if_neg harity]
    exact .fail _ _ env w
  | .argumentFails hf harity hes => by
    refine realized_of_function hf harity ?_
    exact hes.realizes.bind_error
  | .noRoom hf harity hes hscope => by
    refine realized_of_function hf harity ?_
    refine hes.realizes.bind_ok ?_
    exact (Realizes.called_noRoom hscope _).bind_error
  | .call hf harity hes hscope hbody => by
    refine realized_of_function hf harity ?_
    refine hes.realizes.bind_ok ?_
    exact (hbody.realizes.called hscope _).value

theorem EvaluatesAll.realizes {c : Config} {env w es r w'} :
    EvaluatesAll c.maxVariables env w es r w' → Realizes (fun k => exprs c k es) env w r env w'
  | .nil => by
    refine .succ ?_
    simp only [exprs]
    exact .pure [] env w
  | .fails he => by
    refine .succ ?_
    simp only [exprs]
    exact he.realized.expr.bind_error
  | .cons (r := r) he hes => by
    have hrest := hes.realizes
    refine .succ ?_
    simp only [exprs]
    refine he.realized.expr.bind_ok ?_
    cases r with
    | ok values => exact hrest.bind_ok (.pure _ env _)
    | error err => exact hrest.bind_error

theorem Shows.realizes {c : Config} {env w es r w'} :
    Shows c.maxVariables env w es r w' → Realizes (fun k => printed c k es) env w r env w'
  | .nil => by
    refine .succ ?_
    simp only [printed]
    exact .pure [] env w
  | .text (r := r) hes => by
    have hrest := hes.realizes
    refine .succ ?_
    simp only [printed]
    cases r with
    | ok parts => exact hrest.bind_ok (.pure _ env _)
    | error err => exact hrest.bind_error
  | .fails (e := e) hstring he => by
    have hfirst := he.realized
    refine .succ ?_
    cases e with
    | string text span => cases hstring
    | _ =>
      simp only [printed]
      exact hfirst.expr.bind_error
  | .value (e := e) (r := r) hstring he hes => by
    have hfirst := he.realized
    have hrest := hes.realizes
    refine .succ ?_
    cases e with
    | string text span => cases hstring
    | _ =>
      simp only [printed]
      refine hfirst.expr.bind_ok ?_
      cases r with
      | ok parts => exact hrest.bind_ok (.pure _ env _)
      | error err => exact hrest.bind_error

theorem Executes.realizes_node {c : Config} {env w s r env' w'} :
    Executes c.maxVariables env w s r env' w' →
      Realizes (fun k => stmtNode c k s) env w (Exit.completion r) env' w'
  | .expressionFails he => by
    refine .succ ?_
    simp only [stmtNode]
    exact he.realized.expr.bind_error
  | .expression he => by
    refine .succ ?_
    simp only [stmtNode]
    exact he.realized.expr.bind_ok (.pure _ env _)
  | .valueFails he => by
    refine .succ ?_
    simp only [stmtNode]
    exact he.realized.expr.bind_error
  | .noRoom he henv => by
    refine .succ ?_
    simp only [stmtNode]
    refine he.realized.expr.bind_ok ?_
    exact (realizes_assign_error henv _).bind_error
  | .assign he henv => by
    refine .succ ?_
    simp only [stmtNode]
    refine he.realized.expr.bind_ok ?_
    exact (realizes_assign henv _).bind_ok (.pure _ _ _)
  | .block hbody => by
    refine .succ ?_
    simp only [stmtNode]
    exact hbody.realizes
  | .ifThenFails he => by
    refine .succ ?_
    simp only [stmtNode]
    exact he.realized.expr.bind_error
  | .ifThenSkip he => by
    refine .succ ?_
    simp only [stmtNode]
    refine he.realized.expr.bind_ok ?_
    simp only [if_true]
    exact .pure _ env _
  | .ifThen he hvalue hs => by
    refine .succ ?_
    simp only [stmtNode]
    refine he.realized.expr.bind_ok ?_
    simp only [if_neg hvalue]
    exact realizes_stmt_of_node hs.realizes_node
  | .ifElseFails he => by
    refine .succ ?_
    simp only [stmtNode]
    exact he.realized.expr.bind_error
  | .ifElseZero he ht => by
    refine .succ ?_
    simp only [stmtNode]
    refine he.realized.expr.bind_ok ?_
    simp only [if_true]
    exact realizes_stmt_of_node ht.realizes_node
  | .ifElse he hvalue hs => by
    refine .succ ?_
    simp only [stmtNode]
    refine he.realized.expr.bind_ok ?_
    simp only [if_neg hvalue]
    exact realizes_stmt_of_node hs.realizes_node
  | .loop hloop => by
    refine .succ ?_
    simp only [stmtNode]
    exact hloop.realizes
  | .retFails he => by
    refine .succ ?_
    simp only [stmtNode]
    exact he.realized.expr.bind_error
  | .ret he => by
    refine .succ ?_
    simp only [stmtNode]
    exact he.realized.expr.bind_ok (.pure _ env _)
  | .function => by
    refine .succ ?_
    simp only [stmtNode]
    exact (realizes_declare _ env w).bind_ok (.pure _ env _)

theorem ExecutesAll.realizes {c : Config} {env w ss r env' w'} :
    ExecutesAll c.maxVariables env w ss r env' w' →
      Realizes (fun k => stmts c k ss) env w (Exit.completion r) env' w'
  | .nil => by
    refine .succ ?_
    simp only [stmts]
    exact .pure _ env w
  | .exit (x := x) hs => by
    refine .succ ?_
    simp only [stmts]
    have hfirst := realizes_stmt_of_node hs.realizes_node
    cases x with
    | returned value => exact hfirst.bind_ok (.pure _ _ _)
    | failed e => exact hfirst.bind_error
  | .cons hs hss => by
    refine .succ ?_
    simp only [stmts]
    refine (realizes_stmt_of_node hs.realizes_node).bind_ok ?_
    exact hss.realizes

theorem Repeats.realizes {c : Config} {env w e s r env' w'} :
    Repeats c.maxVariables env w e s r env' w' →
      Realizes (fun k => loop c k e s) env w (Exit.completion r) env' w'
  | .fails he => by
    refine .succ ?_
    simp only [loop]
    exact he.realized.expr.bind_error
  | .stop he => by
    refine .succ ?_
    simp only [loop]
    refine he.realized.expr.bind_ok ?_
    simp only [if_true]
    exact .pure _ env _
  | .exit (x := x) he hvalue hs => by
    refine .succ ?_
    simp only [loop]
    refine he.realized.expr.bind_ok ?_
    simp only [if_neg hvalue]
    have hbody := realizes_stmt_of_node hs.realizes_node
    cases x with
    | returned value => exact hbody.bind_ok (.pure _ _ _)
    | failed e => exact hbody.bind_error
  | .again he hvalue hs hloop => by
    refine .succ ?_
    simp only [loop]
    refine he.realized.expr.bind_ok ?_
    simp only [if_neg hvalue]
    refine (realizes_stmt_of_node hs.realizes_node).bind_ok ?_
    exact hloop.realizes

end

theorem Runs.realizes {c : Config} {env w last ss r env' w'}
    (h : Runs c.maxVariables env w last ss r env' w') :
    Realizes (fun k => program c k last ss) env w r env' w' := by
  induction h with
  | nil => exact .pure _ _ _
  | fails he =>
    simp only [program]
    exact he.realized.expr.bind_error
  | expression he hss ih =>
    simp only [program]
    exact he.realized.expr.bind_ok ih
  | @exit env w last s ss x env' w' hexpression hs =>
    have hfirst := realizes_stmt_of_node hs.realizes_node
    cases s with
    | expression e span => cases hexpression
    | _ =>
      simp only [program]
      cases x with
      | returned value => exact hfirst.bind_ok (.pure _ _ _)
      | failed e => exact hfirst.bind_error
  | @statement env w last s ss env₁ w₁ r env' w' hexpression hs hss ih =>
    have hfirst := realizes_stmt_of_node hs.realizes_node
    cases s with
    | expression e span => cases hexpression
    | _ =>
      simp only [program]
      exact hfirst.bind_ok ih

end IntLang
