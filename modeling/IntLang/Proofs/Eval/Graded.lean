import IntLang.Eval.Related

/-!
Properties of evaluation that depend on the syntax. A grading says of each statement and expression
under which grades it may be evaluated, and what a computation of a grade must keep to. If every
form hands its grade on to its parts and every operation keeps to its grade, then so does every part
of the evaluator. Unlike a congruence, a grading can tell one statement from another, and it speaks
of a computation on its own.
-/
namespace IntLang

open Effects

/-- Grades of computations and of the syntax that they evaluate, under the limits `c`. -/
structure Grading (M : Type → Type) [Effects M] (c : Config) (G : Type) where
  keeps : ∀ {α : Type}, G → M α → Prop
  /-- An expression may be evaluated. -/
  expr : G → Expr → Prop
  /-- An expression may be evaluated whose level is open. -/
  node : G → Expr → Prop
  /-- A statement may be executed. -/
  stmt : G → Stmt → Prop
  /-- A statement may be executed whose level is open. -/
  stmtNode : G → Stmt → Prop
  /-- A function may be declared. -/
  function : Function → Prop
  pure : ∀ {α : Type} {g : G} (a : α), keeps g (pure a)
  bind : ∀ {α β : Type} {g : G} {x : M α} {f : α → M β}, keeps g x → (∀ a, keeps g (f a)) →
    keeps g (x >>= f)
  exhausted : ∀ {α : Type} {g : G}, keeps g (exhausted : M α)
  emit : ∀ {g : G} (line : String), keeps g (emit line)
  /-- A function that is found has been declared. -/
  function? : ∀ {α : Type} {g : G} (name : String) {f : Option Function → M α},
    (∀ found : Option Function, (∀ d, found = some d → function d) → keeps g (f found)) →
      keeps g (function? name >>= f)
  expr_nested : ∀ {g : G} {e : Expr}, expr g e →
    ∃ h, node h e ∧ ∀ x : M Int64, keeps h x → keeps g (nested c e.position x)
  stmt_nested : ∀ {g : G} {s : Stmt}, stmt g s →
    ∃ h, stmtNode h s ∧ ∀ x : M Completion, keeps h x → keeps g (nested c s.position x)
  string : ∀ {g : G} {text : String} {span : Span}, node g (.string text span) →
    keeps g (fail (.typeMismatch "integer" "string") span.position : M Int64)
  var : ∀ {g : G} {name : String} {span : Span}, node g (.var name span) →
    keeps g (lookup name span.position)
  /-- The left operand of a chain is evaluated as a part of it. -/
  left : ∀ {g : G} {operator : Operator} {l r : Expr} {span : Span},
    node g (.binary operator l r span) → if l.isBinary then node g l else expr g l
  right : ∀ {g : G} {operator : Operator} {l r : Expr} {span : Span},
    node g (.binary operator l r span) →
      expr g r ∧ (operator = .divide → keeps g (fail .divisionByZero r.position : M Int64))
  arguments : ∀ {g : G} {callee : String} {es : List Expr} {span : Span},
    node g (.call callee es span) → ∀ e ∈ es, expr g e
  undefined : ∀ {g : G} {callee : String} {es : List Expr} {span : Span},
    node g (.call callee es span) →
      keeps g (fail (.undefinedFunction callee) span.position : M Int64)
  arity : ∀ {g : G} {callee : String} {es : List Expr} {span : Span} {d : Function},
    node g (.call callee es span) → function d → d.arity ≠ es.length →
      keeps g (fail (.arityMismatch callee d.arity es.length) span.position : M Int64)
  called : ∀ {g : G} {callee : String} {es : List Expr} {span : Span} {d : Function},
    node g (.call callee es span) → function d →
      ∃ h, (∀ s ∈ d.body.body, stmt h s) ∧ ∀ bindings, ∀ x : M Completion, keeps h x →
        keeps g (called c span.position bindings x)
  /-- An expression statement at the top of a program opens no level of its own. -/
  top : ∀ {g : G} {e : Expr} {span : Span}, stmt g (.expression e span) → expr g e
  expression : ∀ {g : G} {e : Expr} {span : Span}, stmtNode g (.expression e span) → expr g e
  assign : ∀ {g : G} {name : String} {e : Expr} {span : Span},
    stmtNode g (.assign name e span) →
      expr g e ∧ ∀ value, keeps g (assign name value span.position)
  block : ∀ {g : G} {body : List Stmt} {span : Span}, stmtNode g (.block body span) →
    ∀ s ∈ body, stmt g s
  ifThen : ∀ {g : G} {test : Expr} {s : Stmt} {span : Span}, stmtNode g (.ifThen test s span) →
    expr g test ∧ stmt g s
  ifElse : ∀ {g : G} {test : Expr} {s t : Stmt} {span : Span},
    stmtNode g (.ifElse test s t span) → expr g test ∧ stmt g s ∧ stmt g t
  loop : ∀ {g : G} {test : Expr} {s : Stmt} {span : Span}, stmtNode g (.loop test s span) →
    expr g test ∧ stmt g s
  ret : ∀ {g : G} {e : Expr} {span : Span}, stmtNode g (.ret e span) → expr g e
  declare : ∀ {g : G} {name : String} {parameters : List String} {body : List Stmt}
    {bodySpan span : Span}, stmtNode g (.function name parameters body bodySpan span) →
      keeps g (declare ⟨name, parameters, ⟨body, bodySpan⟩⟩)

namespace Grading

variable {M : Type → Type} [Effects M] {c : Config} {G : Type} (R : Grading M c G)

def Link (g : G) (link : Operator × Expr) : Prop :=
  R.expr g link.2 ∧
    (link.1 = .divide → R.keeps g (fail .divisionByZero link.2.position : M Int64))

/-- The operands of a chain may be evaluated one by one. -/
theorem chainOnto {g : G} {e : Expr} (he : if e.isBinary then R.node g e else R.expr g e)
    {links : List (Operator × Expr)} (hlinks : ∀ link ∈ links, R.Link g link) :
    R.expr g (e.chainOnto links).1 ∧ ∀ link ∈ (e.chainOnto links).2, R.Link g link := by
  match e with
  | .binary operator l r span =>
    have hnode : R.node g (.binary operator l r span) := he
    refine chainOnto (R.left hnode) fun link hlink => ?_
    rcases List.mem_cons.mp hlink with rfl | hlink
    · exact R.right hnode
    · exact hlinks link hlink
  | .number .. | .string .. | .var .. | .call .. => exact ⟨he, hlinks⟩

/-- Every part of the evaluator with fuel `n` keeps to the grades of what it evaluates. -/
structure AllKeep (n : Nat) : Prop where
  expr : ∀ {g e}, R.expr g e → R.keeps g (Eval.expr c n e)
  node : ∀ {g e}, R.node g e → R.keeps g (Eval.node c n e)
  links : ∀ {g} a {ls}, (∀ link ∈ ls, R.Link g link) → R.keeps g (Eval.links c n a ls)
  call : ∀ {g callee es span}, R.node g (.call callee es span) →
    R.keeps g (Eval.call c n callee es span.position)
  exprs : ∀ {g es}, (∀ e ∈ es, R.expr g e) → R.keeps g (Eval.exprs c n es)
  printed : ∀ {g es}, (∀ e ∈ es, R.expr g e) → R.keeps g (Eval.printed c n es)
  stmt : ∀ {g s}, R.stmt g s → R.keeps g (Eval.stmt c n s)
  stmtNode : ∀ {g s}, R.stmtNode g s → R.keeps g (Eval.stmtNode c n s)
  stmts : ∀ {g ss}, (∀ s ∈ ss, R.stmt g s) → R.keeps g (Eval.stmts c n ss)
  loop : ∀ {g e s}, R.expr g e → R.stmt g s → R.keeps g (Eval.loop c n e s)

theorem allKeep_zero : R.AllKeep 0 where
  expr _ := by rw [Eval.expr]; exact R.exhausted
  node _ := by rw [Eval.node]; exact R.exhausted
  links _ _ _ := by rw [Eval.links]; exact R.exhausted
  call _ := by rw [Eval.call]; exact R.exhausted
  exprs _ := by rw [Eval.exprs]; exact R.exhausted
  printed _ := by rw [Eval.printed]; exact R.exhausted
  stmt _ := by rw [Eval.stmt]; exact R.exhausted
  stmtNode _ := by rw [Eval.stmtNode]; exact R.exhausted
  stmts _ := by rw [Eval.stmts]; exact R.exhausted
  loop _ _ := by rw [Eval.loop]; exact R.exhausted

namespace AllKeep

variable {R} {n : Nat} (h : R.AllKeep n) {g : G}
include h

theorem expr_succ {e : Expr} (he : R.expr g e) : R.keeps g (Eval.expr c (n + 1) e) := by
  rw [Eval.expr]
  obtain ⟨inner, hnode, hnested⟩ := R.expr_nested he
  exact hnested _ (h.node hnode)

theorem node_succ {e : Expr} (he : R.node g e) : R.keeps g (Eval.node c (n + 1) e) := by
  cases e with
  | number value span =>
    rw [Eval.node]
    exact R.pure value
  | string text span =>
    rw [Eval.node]
    exact R.string he
  | var name span =>
    rw [Eval.node]
    exact R.var he
  | binary operator l r span =>
    rw [Eval.node]
    have hlinks : ∀ link ∈ [(operator, r)], R.Link g link := by
      intro link hlink
      rw [List.mem_singleton] at hlink
      subst hlink
      exact R.right he
    obtain ⟨hfirst, hrest⟩ := R.chainOnto (R.left he) hlinks
    exact R.bind (h.expr hfirst) fun a => h.links a hrest
  | call callee es span =>
    rw [Eval.node]
    exact h.call he

theorem links_succ (a : Int64) {ls : List (Operator × Expr)} (hls : ∀ link ∈ ls, R.Link g link) :
    R.keeps g (Eval.links c (n + 1) a ls) := by
  cases ls with
  | nil =>
    rw [Eval.links]
    exact R.pure a
  | cons link rest =>
    obtain ⟨operator, r⟩ := link
    obtain ⟨hr, hzero⟩ := hls _ (List.mem_cons_self ..)
    rw [Eval.links]
    refine R.bind (h.expr hr) fun b => R.bind ?_ fun value =>
      h.links value fun link hlink => hls link (List.mem_cons_of_mem _ hlink)
    unfold Eval.apply
    cases hresult : operator.result? a b with
    | some value => exact R.pure value
    | none =>
      refine hzero ?_
      cases operator with
      | divide => rfl
      | add | subtract | multiply => cases hresult

theorem call_succ {callee : String} {es : List Expr} {span : Span}
    (hcall : R.node g (.call callee es span)) :
    R.keeps g (Eval.call c (n + 1) callee es span.position) := by
  rw [Eval.call]
  refine R.function? callee fun found hfound => ?_
  cases found with
  | some d =>
    have hd := hfound d rfl
    by_cases harity : d.arity = es.length
    · simp only [if_pos harity]
      obtain ⟨inner, hbody, hcalled⟩ := R.called hcall hd
      refine R.bind (h.exprs (R.arguments hcall)) fun values => ?_
      exact R.bind (hcalled _ _ (h.stmts hbody)) fun completion => R.pure _
    · simp only [if_neg harity]
      exact R.arity hcall hd harity
  | none =>
    cases Builtin.ofName? callee with
    | some builtin =>
      cases builtin with
      | print =>
        refine R.bind (h.printed (R.arguments hcall)) fun parts => ?_
        exact R.bind (R.emit _) fun _ => R.pure 0
    | none => exact R.undefined hcall

theorem exprs_succ {es : List Expr} (hes : ∀ e ∈ es, R.expr g e) :
    R.keeps g (Eval.exprs c (n + 1) es) := by
  cases es with
  | nil =>
    rw [Eval.exprs]
    exact R.pure []
  | cons e es =>
    rw [Eval.exprs]
    obtain ⟨he, hes⟩ := List.forall_mem_cons.mp hes
    exact R.bind (h.expr he) fun value => R.bind (h.exprs hes) fun values => R.pure _

theorem printed_succ {es : List Expr} (hes : ∀ e ∈ es, R.expr g e) :
    R.keeps g (Eval.printed c (n + 1) es) := by
  match es with
  | [] =>
    rw [Eval.printed]
    exact R.pure []
  | .string text span :: es =>
    rw [Eval.printed]
    obtain ⟨-, hes⟩ := List.forall_mem_cons.mp hes
    exact R.bind (h.printed hes) fun parts => R.pure _
  | .number _ _ :: es | .var _ _ :: es | .binary _ _ _ _ :: es | .call _ _ _ :: es =>
    rw [Eval.printed]
    · obtain ⟨he, hes⟩ := List.forall_mem_cons.mp hes
      exact R.bind (h.expr he) fun value => R.bind (h.printed hes) fun parts => R.pure _
    all_goals simp

theorem stmt_succ {s : Stmt} (hs : R.stmt g s) : R.keeps g (Eval.stmt c (n + 1) s) := by
  rw [Eval.stmt]
  obtain ⟨inner, hnode, hnested⟩ := R.stmt_nested hs
  exact hnested _ (h.stmtNode hnode)

theorem stmtNode_succ {s : Stmt} (hs : R.stmtNode g s) :
    R.keeps g (Eval.stmtNode c (n + 1) s) := by
  cases s with
  | expression e span =>
    rw [Eval.stmtNode]
    exact R.bind (h.expr (R.expression hs)) fun a => R.pure _
  | assign name e span =>
    rw [Eval.stmtNode]
    obtain ⟨he, hassign⟩ := R.assign hs
    exact R.bind (h.expr he) fun a => R.bind (hassign a) fun _ => R.pure _
  | block body span =>
    rw [Eval.stmtNode]
    exact h.stmts (R.block hs)
  | ifThen test s span =>
    rw [Eval.stmtNode]
    obtain ⟨htest, hthen⟩ := R.ifThen hs
    refine R.bind (h.expr htest) fun a => ?_
    by_cases ha : a = 0
    · simp only [if_pos ha]
      exact R.pure _
    · simp only [if_neg ha]
      exact h.stmt hthen
  | ifElse test s t span =>
    rw [Eval.stmtNode]
    obtain ⟨htest, hthen, helse⟩ := R.ifElse hs
    refine R.bind (h.expr htest) fun a => ?_
    by_cases ha : a = 0
    · simp only [if_pos ha]
      exact h.stmt helse
    · simp only [if_neg ha]
      exact h.stmt hthen
  | loop test s span =>
    rw [Eval.stmtNode]
    obtain ⟨htest, hbody⟩ := R.loop hs
    exact h.loop htest hbody
  | ret e span =>
    rw [Eval.stmtNode]
    exact R.bind (h.expr (R.ret hs)) fun a => R.pure _
  | function name parameters body bodySpan span =>
    rw [Eval.stmtNode]
    exact R.bind (R.declare hs) fun _ => R.pure _

theorem stmts_succ {ss : List Stmt} (hss : ∀ s ∈ ss, R.stmt g s) :
    R.keeps g (Eval.stmts c (n + 1) ss) := by
  cases ss with
  | nil =>
    rw [Eval.stmts]
    exact R.pure _
  | cons s ss =>
    rw [Eval.stmts]
    obtain ⟨hs, hss⟩ := List.forall_mem_cons.mp hss
    refine R.bind (h.stmt hs) fun completion => ?_
    cases completion with
    | completed => exact h.stmts hss
    | returned value => exact R.pure _

theorem loop_succ {test : Expr} {body : Stmt} (htest : R.expr g test) (hbody : R.stmt g body) :
    R.keeps g (Eval.loop c (n + 1) test body) := by
  rw [Eval.loop]
  refine R.bind (h.expr htest) fun a => ?_
  by_cases ha : a = 0
  · simp only [if_pos ha]
    exact R.pure _
  · simp only [if_neg ha]
    refine R.bind (h.stmt hbody) fun completion => ?_
    cases completion with
    | completed => exact h.loop htest hbody
    | returned value => exact R.pure _

theorem succ : R.AllKeep (n + 1) :=
  ⟨h.expr_succ, h.node_succ, h.links_succ, h.call_succ, h.exprs_succ, h.printed_succ,
    h.stmt_succ, h.stmtNode_succ, h.stmts_succ, h.loop_succ⟩

theorem program (last : Int64) {ss : List Stmt} (hss : ∀ s ∈ ss, R.stmt g s) :
    R.keeps g (Eval.program c n last ss) := by
  induction ss generalizing last with
  | nil => exact R.pure last
  | cons s ss ih =>
    obtain ⟨hs, hrest⟩ := List.forall_mem_cons.mp hss
    cases s with
    | expression e span =>
      rw [Eval.program]
      exact R.bind (h.expr (R.top hs)) fun a => ih a hrest
    | _ =>
      rw [Eval.program]
      · refine R.bind (h.stmt hs) fun completion => ?_
        cases completion with
        | completed => exact ih last hrest
        | returned value => exact R.pure value
      all_goals simp

end AllKeep

/-- Whatever its fuel, every part of the evaluator keeps to the grades of what it evaluates. -/
theorem allKeep (n : Nat) : R.AllKeep n := by
  induction n with
  | zero => exact R.allKeep_zero
  | succ n ih => exact ih.succ

end Grading

end IntLang
