import Mathlib.Data.List.Forall2
import IntLang.Proofs.Eval.Returning
import IntLang.Session.Basic

/-!
Runs of programs that differ where it does not matter. On machines whose functions differ no more
than the programs do, every part of the evaluator goes through the same steps with the same fuel,
and ends with the same value, or with the same cause at a position that may stand for the other.
Where the programs go on differently, behind a statement that always returns, neither run goes on.
-/
namespace IntLang

variable {L : Leeway}

/-- Errors with the same cause at positions that may stand for each other. -/
structure Error.Alike (place : Position → Position → Prop) (e e' : Error) : Prop where
  cause : e.cause = e'.cause
  position : place e.position e'.position

structure Function.Alike (L : Leeway) (f g : Function) : Prop where
  name : f.name = g.name
  parameters : f.parameters = g.parameters
  body : Stmt.AllAlike L f.body.body g.body.body
  span : L.place f.body.span.position g.body.span.position

/-- Tables with the same names in the same order, and with functions that differ only as far as they
may. -/
def Table.Alike (L : Leeway) (functions functions' : Table Function) : Prop :=
  List.Forall₂ (fun entry entry' => entry.1 = entry'.1 ∧ entry.2.Alike L entry'.2)
    functions.entries functions'.entries

namespace Table.Alike

variable {functions functions' : Table Function}

theorem get? (h : functions.Alike L functions') (name : String) :
    Option.Rel (Function.Alike L) (functions.get? name) (functions'.get? name) := by
  unfold Table.get?
  unfold Table.Alike at h
  generalize functions.entries = entries, functions'.entries = entries' at h
  induction h with
  | nil => exact .none
  | @cons entry entry' rest rest' hentry _ ih =>
    obtain ⟨n, f⟩ := entry
    obtain ⟨n', f'⟩ := entry'
    obtain ⟨rfl, hf⟩ := hentry
    rw [List.lookup_cons, List.lookup_cons]
    cases name == n with
    | true => exact .some hf
    | false => exact ih

theorem declare (h : functions.Alike L functions') {f g : Function} (hfg : f.Alike L g) :
    (functions.declare f).Alike L (functions'.declare g) := by
  unfold Table.Alike Table.declare Table.insert
  rw [hfg.name]
  show List.Forall₂ _ (putEntry g.name f functions.entries) (putEntry g.name g functions'.entries)
  unfold Table.Alike at h
  generalize functions.entries = entries, functions'.entries = entries' at h ⊢
  induction h with
  | nil => exact .cons ⟨rfl, hfg⟩ .nil
  | @cons entry entry' rest rest' hentry hrest ih =>
    obtain ⟨n, f'⟩ := entry
    obtain ⟨n', g'⟩ := entry'
    obtain ⟨rfl, hf⟩ := hentry
    rw [putEntry, putEntry]
    split
    · exact .cons ⟨rfl, hfg⟩ hrest
    · exact .cons ⟨rfl, hf⟩ ih

end Table.Alike

structure Machine.Alike (L : Leeway) (m n : Machine) : Prop where
  env : m.env = n.env
  functions : m.functions.Alike L n.functions
  output : m.output = n.output
  callDepth : m.callDepth = n.callDepth
  nestingDepth : m.nestingDepth = n.nestingDepth

namespace Machine.Alike

variable {m n : Machine} (h : m.Alike L n)
include h

theorem opened : m.opened.Alike L n.opened :=
  { h with nestingDepth := congrArg Nat.succ h.nestingDepth }

theorem closed : m.closed.Alike L n.closed :=
  { h with nestingDepth := congrArg Nat.pred h.nestingDepth }

theorem entered (scope : Scope) : (m.entered scope).Alike L (n.entered scope) :=
  { h with
    env := by rw [Machine.entered, Machine.entered, h.env]
    callDepth := congrArg Nat.succ h.callDepth }

theorem left (caller : Environment) : (m.left caller).Alike L (n.left caller) :=
  { h with
    env := rfl
    callDepth := congrArg Nat.pred h.callDepth }

end Machine.Alike

/-- Outcomes of the same kind, with related values or with errors that are alike, on machines that
are alike. -/
inductive Outcome.Alike {α β : Type} (L : Leeway) (R : α → β → Prop) : Outcome α → Outcome β → Prop
  | done {a b m n} (hab : R a b) (hmn : m.Alike L n) : Alike L R (.done a m) (.done b n)
  | failed {e e' m n} (he : e.Alike L.place e') (hmn : m.Alike L n) :
      Alike L R (.failed e m) (.failed e' n)
  | outOfFuel : Alike L R .outOfFuel .outOfFuel

theorem Outcome.Alike.onMachine {α β : Type} {R : α → β → Prop} {outcome : Outcome α}
    {outcome' : Outcome β} (h : outcome.Alike L R outcome') {change change' : Machine → Machine}
    (hchange : ∀ m n, m.Alike L n → (change m).Alike L (change' n)) :
    (outcome.onMachine change).Alike L R (outcome'.onMachine change') := by
  cases h with
  | done hab hmn => exact .done hab (hchange _ _ hmn)
  | failed he hmn => exact .failed he (hchange _ _ hmn)
  | outOfFuel => exact .outOfFuel

namespace Eval

def Alike (L : Leeway) (R : α → β → Prop) (x : Eval α) (y : Eval β) : Prop :=
  ∀ m n, m.Alike L n → (x m).Alike L R (y n)

namespace Alike

variable {α β γ δ : Type} {R : α → β → Prop} {S : γ → δ → Prop} {c : Config} {p q : Position}

theorem pure {a : α} {b : β} (h : R a b) : Alike L R (Pure.pure a) (Pure.pure b) :=
  fun _ _ hmn => .done h hmn

theorem exhausted : Alike L R Eval.exhausted Eval.exhausted := fun _ _ _ => .outOfFuel

theorem fail (cause : Cause) (hpq : L.place p q) :
    Alike L R (Eval.fail cause p) (Eval.fail cause q) :=
  fun _ _ hmn => .failed ⟨rfl, hpq⟩ hmn

/-- What follows computations that are alike matters for values that the first of them has. -/
theorem bind_of_done {x : Eval α} {y : Eval β} {f : α → Eval γ} {g : β → Eval δ}
    (h : Alike L R x y) (hf : ∀ a b m after, x m = .done a after → R a b → Alike L S (f a) (g b)) :
    Alike L S (x >>= f) (y >>= g) := by
  intro m n hmn
  have hxy := h m n hmn
  generalize hx : x m = first, hy : y n = second at hxy
  cases hxy with
  | done hab hmid =>
    rw [Eval.bind_of_done hx, Eval.bind_of_done hy]
    exact hf _ _ m _ hx hab _ _ hmid
  | failed he hmid =>
    rw [bind_of_failed hx, bind_of_failed hy]
    exact .failed he hmid
  | outOfFuel =>
    rw [bind_of_outOfFuel hx, bind_of_outOfFuel hy]
    exact .outOfFuel

/-- The case of `bind_of_done` for computations with the same values. -/
theorem bind {x y : Eval α} {f : α → Eval γ} {g : α → Eval δ} (h : Alike L Eq x y)
    (hf : ∀ a, Alike L S (f a) (g a)) : Alike L S (x >>= f) (y >>= g) := by
  refine h.bind_of_done fun a b m after _ hab => ?_
  subst hab
  exact hf a

theorem lookup (name : String) (hpq : L.place p q) :
    Alike L Eq (Eval.lookup name p) (Eval.lookup name q) := by
  intro m n hmn
  simp only [Eval.lookup, Environment.lookup, hmn.env]
  cases n.env.get? name with
  | some value => exact .done rfl hmn
  | none => exact .failed ⟨rfl, hpq⟩ hmn

theorem assign (name : String) (value : Int64) (hpq : L.place p q) :
    Alike L Eq (Eval.assign name value p) (Eval.assign name value q) := by
  intro m n hmn
  simp only [Eval.assign, Environment.assign, hmn.env]
  cases n.env.scope.assign name value with
  | ok scope => exact .done rfl { hmn with env := rfl }
  | error cause => exact .failed ⟨rfl, hpq⟩ hmn

theorem function? (name : String) :
    Alike L (Option.Rel (Function.Alike L)) (Eval.function? name) (Eval.function? name) :=
  fun _ _ hmn => .done (hmn.functions.get? name) hmn

theorem declare {f g : Function} (hfg : f.Alike L g) :
    Alike L Eq (Eval.declare f) (Eval.declare g) :=
  fun _ _ hmn => .done rfl { hmn with functions := hmn.functions.declare hfg }

theorem emit (line : String) : Alike L Eq (Eval.emit line) (Eval.emit line) :=
  fun _ _ hmn => .done rfl { hmn with output := congrArg (Array.push · line) hmn.output }

theorem apply (operator : Operator) (a b : Int64) (hpq : L.place p q) :
    Alike L Eq (Eval.apply operator a b p) (Eval.apply operator a b q) := by
  unfold Eval.apply
  cases operator.result? a b with
  | some value => exact .pure rfl
  | none => exact .fail _ hpq

theorem nested {x : Eval α} {y : Eval β} (h : Alike L R x y) (c : Config) (hpq : L.place p q) :
    Alike L R (Eval.nested c p x) (Eval.nested c q y) := by
  intro m n hmn
  by_cases hlimit : c.nestingLimit ≤ m.nestingDepth
  · have hlimit' : c.nestingLimit ≤ n.nestingDepth := by rwa [← hmn.nestingDepth]
    rw [nested_of_limit hlimit, nested_of_limit hlimit']
    exact .failed ⟨rfl, hpq⟩ hmn
  · have hlimit' : ¬c.nestingLimit ≤ n.nestingDepth := by rwa [← hmn.nestingDepth]
    rw [nested_of_room hlimit, nested_of_room hlimit']
    exact (h _ _ hmn.opened).onMachine fun inside inside' hinside => hinside.closed

theorem called {x : Eval α} {y : Eval β} (h : Alike L R x y) (c : Config) (hpq : L.place p q)
    (bindings : List (String × Int64)) :
    Alike L R (Eval.called c p bindings x) (Eval.called c q bindings y) := by
  intro m n hmn
  by_cases hlimit : c.maxCallDepth ≤ m.callDepth
  · have hlimit' : c.maxCallDepth ≤ n.callDepth := by rwa [← hmn.callDepth]
    rw [called_of_limit hlimit, called_of_limit hlimit']
    exact .failed ⟨rfl, hpq⟩ hmn
  · have hlimit' : ¬c.maxCallDepth ≤ n.callDepth := by rwa [← hmn.callDepth]
    cases hscope : (Scope.empty c.maxVariables).assignAll bindings with
    | error cause =>
      rw [called_of_noRoom hlimit hscope, called_of_noRoom hlimit' hscope]
      exact .failed ⟨rfl, hpq⟩ hmn
    | ok scope =>
      rw [called_of_room hlimit hscope, called_of_room hlimit' hscope, hmn.env]
      exact (h _ _ (hmn.entered scope)).onMachine fun inside inside' hinside => hinside.left n.env

end Alike

structure AllAlike (L : Leeway) (c : Config) (n : Nat) : Prop where
  expr : ∀ {e e' : Expr}, e.Alike L.place e' → Alike L Eq (Eval.expr c n e) (Eval.expr c n e')
  node : ∀ {e e' : Expr}, e.Alike L.place e' → Alike L Eq (Eval.node c n e) (Eval.node c n e')
  links : ∀ a {ls ls'}, Expr.LinksAlike L.place ls ls' →
    Alike L Eq (Eval.links c n a ls) (Eval.links c n a ls')
  call : ∀ f {es es' p q}, Expr.AllAlike L.place es es' → L.place p q →
    Alike L Eq (Eval.call c n f es p) (Eval.call c n f es' q)
  exprs : ∀ {es es'}, Expr.AllAlike L.place es es' →
    Alike L Eq (Eval.exprs c n es) (Eval.exprs c n es')
  printed : ∀ {es es'}, Expr.AllAlike L.place es es' →
    Alike L Eq (Eval.printed c n es) (Eval.printed c n es')
  stmt : ∀ {s s' : Stmt}, s.Alike L s' → Alike L Eq (Eval.stmt c n s) (Eval.stmt c n s')
  stmtNode : ∀ {s s' : Stmt}, s.Alike L s' →
    Alike L Eq (Eval.stmtNode c n s) (Eval.stmtNode c n s')
  stmts : ∀ {ss ss'}, Stmt.AllAlike L ss ss' →
    Alike L Eq (Eval.stmts c n ss) (Eval.stmts c n ss')
  loop : ∀ {e e' : Expr} {s s' : Stmt}, e.Alike L.place e' → s.Alike L s' →
    Alike L Eq (Eval.loop c n e s) (Eval.loop c n e' s')

/-- An argument of `print` that is no string literal is shown by its value. -/
theorem printed_cons {e : Expr} (he : ∀ text span, e ≠ .string text span) (c : Config) (n : Nat)
    (es : List Expr) :
    (Eval.printed c (n + 1) (e :: es) : Eval (List String)) =
      Eval.expr c n e >>= fun value =>
        Eval.printed c n es >>= fun parts => Pure.pure (toString value.toInt :: parts) := by
  cases e with
  | string text span => exact absurd rfl (he text span)
  | _ => rfl

namespace AllAlike

theorem zero (L : Leeway) (c : Config) : AllAlike L c 0 where
  expr _ := by rw [Eval.expr, Eval.expr]; exact .exhausted
  node _ := by rw [Eval.node, Eval.node]; exact .exhausted
  links _ _ _ _ := by rw [Eval.links, Eval.links]; exact .exhausted
  call _ _ _ _ _ _ _ := by rw [Eval.call, Eval.call]; exact .exhausted
  exprs _ := by rw [Eval.exprs, Eval.exprs]; exact .exhausted
  printed _ := by rw [Eval.printed, Eval.printed]; exact .exhausted
  stmt _ := by rw [Eval.stmt, Eval.stmt]; exact .exhausted
  stmtNode _ := by rw [Eval.stmtNode, Eval.stmtNode]; exact .exhausted
  stmts _ := by rw [Eval.stmts, Eval.stmts]; exact .exhausted
  loop _ _ := by rw [Eval.loop, Eval.loop]; exact .exhausted

variable {c : Config} {n : Nat} (h : AllAlike L c n)
include h

theorem expr_succ {e e' : Expr} (he : e.Alike L.place e') :
    Alike L Eq (Eval.expr c (n + 1) e) (Eval.expr c (n + 1) e') := by
  rw [Eval.expr, Eval.expr]
  exact (h.node he).nested c he.position

theorem node_succ {e e' : Expr} (he : e.Alike L.place e') :
    Alike L Eq (Eval.node c (n + 1) e) (Eval.node c (n + 1) e') := by
  cases he with
  | number hspan =>
    rw [Eval.node, Eval.node]
    exact .pure rfl
  | string hspan =>
    rw [Eval.node, Eval.node]
    exact .fail _ hspan
  | var hspan =>
    rw [Eval.node, Eval.node]
    exact .lookup _ hspan
  | binary hleft hright hspan =>
    rw [Eval.node, Eval.node]
    obtain ⟨hfirst, hlinks⟩ := hleft.chainOnto (.cons hright .nil)
    exact (h.expr hfirst).bind fun a => h.links a hlinks
  | call hes hspan =>
    rw [Eval.node, Eval.node]
    exact h.call _ hes hspan

theorem links_succ (a : Int64) {ls ls' : List (Operator × Expr)}
    (hls : Expr.LinksAlike L.place ls ls') :
    Alike L Eq (Eval.links c (n + 1) a ls) (Eval.links c (n + 1) a ls') := by
  cases hls with
  | nil =>
    rw [Eval.links]
    exact .pure rfl
  | @cons operator right right' _ _ hright hls =>
    rw [Eval.links, Eval.links]
    refine (h.expr hright).bind fun b => ?_
    exact (Alike.apply operator a b hright.position).bind fun value => h.links value hls

theorem call_succ (f : String) {es es' : List Expr} {p q : Position}
    (hes : Expr.AllAlike L.place es es') (hpq : L.place p q) :
    Alike L Eq (Eval.call c (n + 1) f es p) (Eval.call c (n + 1) f es' q) := by
  rw [Eval.call, Eval.call]
  refine (Alike.function? f).bind_of_done fun found found' _ _ _ hfound => ?_
  cases hfound with
  | @some g g' hg =>
    have harity : g.arity = g'.arity := congrArg List.length hg.parameters
    simp only [harity, hg.parameters, hes.length_eq]
    by_cases hcount : g'.arity = es'.length
    · simp only [if_pos hcount]
      refine (h.exprs hes).bind fun values => ?_
      exact ((h.stmts hg.body).called c hpq _).bind fun completion => .pure rfl
    · simp only [if_neg hcount]
      exact .fail _ hpq
  | none =>
    cases Builtin.ofName? f with
    | some builtin =>
      cases builtin with
      | print =>
        refine (h.printed hes).bind fun parts => ?_
        exact (Alike.emit _).bind fun _ => .pure rfl
    | none => exact .fail _ hpq

theorem exprs_succ {es es' : List Expr} (hes : Expr.AllAlike L.place es es') :
    Alike L Eq (Eval.exprs c (n + 1) es) (Eval.exprs c (n + 1) es') := by
  cases hes with
  | nil =>
    rw [Eval.exprs]
    exact .pure rfl
  | cons he hes =>
    rw [Eval.exprs, Eval.exprs]
    refine (h.expr he).bind fun value => ?_
    exact (h.exprs hes).bind fun values => .pure rfl

theorem printed_succ {es es' : List Expr} (hes : Expr.AllAlike L.place es es') :
    Alike L Eq (Eval.printed c (n + 1) es) (Eval.printed c (n + 1) es') := by
  cases hes with
  | nil =>
    rw [Eval.printed]
    exact .pure rfl
  | @cons e e' es es' he hes =>
    by_cases hstring : ∃ text span, e = .string text span
    · obtain ⟨text, span, rfl⟩ := hstring
      cases he with
      | string hspan =>
        rw [Eval.printed, Eval.printed]
        exact (h.printed hes).bind fun parts => .pure rfl
    · have hstring' : ∀ text span, e' ≠ .string text span := by
        rintro text span rfl
        cases he
        exact hstring ⟨_, _, rfl⟩
      rw [printed_cons fun text span heq => hstring ⟨text, span, heq⟩, printed_cons hstring']
      refine (h.expr he).bind fun value => ?_
      exact (h.printed hes).bind fun parts => .pure rfl

theorem stmt_succ {s s' : Stmt} (hs : s.Alike L s') :
    Alike L Eq (Eval.stmt c (n + 1) s) (Eval.stmt c (n + 1) s') := by
  rw [Eval.stmt, Eval.stmt]
  exact (h.stmtNode hs).nested c hs.position

theorem stmtNode_succ {s s' : Stmt} (hs : s.Alike L s') :
    Alike L Eq (Eval.stmtNode c (n + 1) s) (Eval.stmtNode c (n + 1) s') := by
  cases hs with
  | expression he hspan =>
    rw [Eval.stmtNode, Eval.stmtNode]
    exact (h.expr he).bind fun a => .pure rfl
  | assign he hspan =>
    rw [Eval.stmtNode, Eval.stmtNode]
    refine (h.expr he).bind fun a => ?_
    exact (Alike.assign _ _ hspan).bind fun _ => .pure rfl
  | block hbody hspan =>
    rw [Eval.stmtNode, Eval.stmtNode]
    exact h.stmts hbody
  | ifThen he hs hspan =>
    rw [Eval.stmtNode, Eval.stmtNode]
    refine (h.expr he).bind fun a => ?_
    by_cases ha : a = 0
    · simp only [if_pos ha]
      exact .pure rfl
    · simp only [if_neg ha]
      exact h.stmt hs
  | ifElse he hs ht hspan =>
    rw [Eval.stmtNode, Eval.stmtNode]
    refine (h.expr he).bind fun a => ?_
    by_cases ha : a = 0
    · simp only [if_pos ha]
      exact h.stmt ht
    · simp only [if_neg ha]
      exact h.stmt hs
  | loop he hs hspan =>
    rw [Eval.stmtNode, Eval.stmtNode]
    exact h.loop he hs
  | ret he hspan =>
    rw [Eval.stmtNode, Eval.stmtNode]
    exact (h.expr he).bind fun a => .pure rfl
  | function hbody hbodySpan hspan =>
    rw [Eval.stmtNode, Eval.stmtNode]
    refine Alike.bind (Alike.declare ?_) fun _ => .pure rfl
    exact ⟨rfl, rfl, hbody, hbodySpan⟩

/-- What follows a statement is alike if it is after a completed one, or if the statement always
returns. -/
theorem after_stmt {s s' : Stmt} (hs : s.Alike L s') {f g : Completion → Eval α}
    (hcompleted : s.alwaysReturns = true ∨ Alike L Eq (f .completed) (g .completed))
    (hreturned : ∀ value, Alike L Eq (f (.returned value)) (g (.returned value))) :
    Alike L Eq (Eval.stmt c n s >>= f) (Eval.stmt c n s' >>= g) := by
  refine (h.stmt hs).bind_of_done fun completion completion' m after hdone heq => ?_
  subst heq
  cases completion with
  | completed =>
    rcases hcompleted with hreturns | hrest
    · exact absurd hdone ((AllReturn.of_fuel c n).stmt s hreturns m after)
    · exact hrest
  | returned value => exact hreturned value

theorem stmts_succ {ss ss' : List Stmt} (hss : Stmt.AllAlike L ss ss') :
    Alike L Eq (Eval.stmts c (n + 1) ss) (Eval.stmts c (n + 1) ss') := by
  cases hss with
  | nil =>
    rw [Eval.stmts]
    exact .pure rfl
  | cons hs hss =>
    rw [Eval.stmts, Eval.stmts]
    exact h.after_stmt hs (Or.inr (h.stmts hss)) fun value => .pure rfl
  | dead _ hreturns hs =>
    rw [Eval.stmts, Eval.stmts]
    exact h.after_stmt hs (Or.inl hreturns) fun value => .pure rfl

theorem loop_succ {e e' : Expr} {s s' : Stmt} (he : e.Alike L.place e') (hs : s.Alike L s') :
    Alike L Eq (Eval.loop c (n + 1) e s) (Eval.loop c (n + 1) e' s') := by
  rw [Eval.loop, Eval.loop]
  refine (h.expr he).bind fun a => ?_
  by_cases ha : a = 0
  · simp only [if_pos ha]
    exact .pure rfl
  · simp only [if_neg ha]
    refine (h.stmt hs).bind fun completion => ?_
    cases completion with
    | completed => exact h.loop he hs
    | returned value => exact .pure rfl

theorem succ : AllAlike L c (n + 1) :=
  ⟨h.expr_succ, h.node_succ, h.links_succ, h.call_succ, h.exprs_succ, h.printed_succ, h.stmt_succ,
    h.stmtNode_succ, h.stmts_succ, h.loop_succ⟩

omit h in
theorem of_fuel (L : Leeway) (c : Config) (n : Nat) : AllAlike L c n := by
  induction n with
  | zero => exact zero L c
  | succ n ih => exact ih.succ

end AllAlike

/-- A statement at the top that is no expression is executed before the ones behind it. -/
theorem program_cons {s : Stmt} (hs : ∀ e span, s ≠ .expression e span) (c : Config) (n : Nat)
    (last : Int64) (ss : List Stmt) :
    (Eval.program c n last (s :: ss) : Eval Int64) =
      Eval.stmt c n s >>= fun completion =>
        match completion with
        | .completed => Eval.program c n last ss
        | .returned value => Pure.pure value := by
  cases s with
  | expression e span => exact absurd rfl (hs e span)
  | _ => rfl

/-- Programs that are alike run alike. -/
theorem Alike.program (c : Config) (n : Nat) (last : Int64) {ss ss' : List Stmt}
    (hss : Stmt.AllAlike L ss ss') :
    Alike L Eq (Eval.program c n last ss) (Eval.program c n last ss') := by
  have h := AllAlike.of_fuel L c n
  induction ss generalizing last ss' with
  | nil =>
    cases hss
    exact .pure rfl
  | cons s ss ih =>
    obtain ⟨s', ss', rfl, hs, hrest⟩ := hss.exists_cons
    by_cases hexpression : ∃ e span, s = .expression e span
    · obtain ⟨e, span, rfl⟩ := hexpression
      cases hs with
      | expression he hspan =>
        rw [Eval.program, Eval.program]
        refine (h.expr he).bind fun a => ih a ?_
        exact hrest.resolve_left nofun
    · have hs' : ∀ e span, s' ≠ .expression e span := by
        rintro e span rfl
        cases hs
        exact hexpression ⟨_, _, rfl⟩
      rw [program_cons fun e span heq => hexpression ⟨e, span, heq⟩, program_cons hs']
      exact h.after_stmt hs (hrest.imp_right (ih last)) fun value => .pure rfl

end Eval

/-- Sessions that differ only in functions, and there only as far as they may. -/
structure Session.Alike (L : Leeway) (s t : Session) : Prop where
  config : s.config = t.config
  globals : s.globals = t.globals
  functions : s.functions.Alike L t.functions
  output : s.output = t.output
  callDepth : s.callDepth = t.callDepth
  nestingDepth : s.nestingDepth = t.nestingDepth

inductive AnswersAlike {α : Type} (place : Position → Position → Prop) :
    Except Error α → Except Error α → Prop
  | ok {a} : AnswersAlike place (.ok a) (.ok a)
  | error {e e'} (he : e.Alike place e') : AnswersAlike place (.error e) (.error e')

namespace Session.Alike

variable {s t : Session}

theorem machine (h : s.Alike L t) : s.machine.Alike L t.machine where
  env := congrArg Environment.ofScope h.globals
  functions := h.functions
  output := h.output
  callDepth := rfl
  nestingDepth := rfl

theorem after (h : s.Alike L t) {m n : Machine} (hmn : m.Alike L n) :
    (s.after m).Alike L (t.after n) where
  config := h.config
  globals := congrArg Environment.scope hmn.env
  functions := hmn.functions
  output := hmn.output
  callDepth := hmn.callDepth
  nestingDepth := hmn.nestingDepth

/-- Computations that are alike have answers that are alike in sessions that are alike, and leave
such sessions, or neither of them has an answer. -/
theorem perform (h : s.Alike L t) {α : Type} {x y : Eval α} (hxy : Eval.Alike L Eq x y) :
    Option.Rel (fun r r' => AnswersAlike L.place r.1 r'.1 ∧ r.2.Alike L r'.2) (s.perform x)
      (t.perform y) := by
  have houtcome := hxy s.machine t.machine h.machine
  unfold Session.perform
  generalize x s.machine = first, y t.machine = second at houtcome
  cases houtcome with
  | done hab hmn =>
    subst hab
    exact .some ⟨.ok, h.after hmn⟩
  | failed he hmn => exact .some ⟨.error he, h.after hmn⟩
  | outOfFuel => exact .none

/-- Programs that are alike run alike in sessions that are alike. -/
theorem run (h : s.Alike L t) (fuel : Nat) {program program' : Block}
    (hprogram : Stmt.AllAlike L program.body program'.body) :
    Option.Rel (fun r r' => AnswersAlike L.place r.1 r'.1 ∧ r.2.Alike L r'.2)
      (s.run fuel program) (t.run fuel program') := by
  unfold Session.run
  rw [h.config]
  exact h.perform (.program t.config fuel 0 hprogram)

end Session.Alike

end IntLang
