import IntLang.Proofs.Eval.Depth
import IntLang.Proofs.Eval.Graded
import IntLang.Proofs.Grammar.Levels

/-!
Evaluation under the levels that its syntax takes. As long as all functions come from parsed
sources, a call needs no more levels than the parser allows for its body, twice over. So with as
many levels to spare as an expression or a statement is deep, there never are more open than so many
for each open call and for what is evaluated, and a limit that leaves room for these is not reached.
-/
namespace IntLang

/-- How many levels the body of a parsed function opens at most. -/
def levelsPerCall : Nat := 2 * Parse.maxDepth

/-- All functions come from parsed sources. -/
def Table.AllDeclared (functions : Table Function) : Prop :=
  ∀ name f, functions.get? name = some f → f.Declared

theorem Table.AllDeclared.declare {functions : Table Function} (h : functions.AllDeclared)
    {f : Function} (hf : f.Declared) : (functions.declare f).AllDeclared := by
  intro name g hg
  rcases Table.eq_or_get?_of_declare hg with rfl | hg
  · exact hf
  · exact h name g hg

/-- No more levels are open than the open calls may take, and `k` further ones would not be. -/
def Machine.Spare (k : Nat) (m : Machine) : Prop :=
  m.nestingDepth + k ≤ levelsPerCall * (m.callDepth + 1)

structure Machine.Ready (k : Nat) (m : Machine) : Prop where
  declared : m.functions.AllDeclared
  spare : m.Spare k

namespace Machine

variable {m mid : Machine} {j k : Nat}

theorem Spare.mono (h : m.Spare k) (hle : j ≤ k) : m.Spare j :=
  (Nat.add_le_add_left hle _).trans h

theorem Spare.congr (h : m.Spare k) (hsame : m.SameDepths mid) : mid.Spare k := by
  obtain ⟨hcalls, hlevels⟩ := hsame
  unfold Spare at h ⊢
  rwa [hcalls, hlevels]

theorem Ready.opened (h : m.Ready (k + 1)) : m.opened.Ready k := by
  refine ⟨h.declared, ?_⟩
  have hspare : m.nestingDepth + (k + 1) ≤ levelsPerCall * (m.callDepth + 1) := h.spare
  show m.nestingDepth + 1 + k ≤ levelsPerCall * (m.callDepth + 1)
  omega

/-- A call brings the levels for its body. -/
theorem Ready.entered (h : m.Ready k) (scope : Scope) : (m.entered scope).Ready levelsPerCall := by
  refine ⟨h.declared, ?_⟩
  have hspare : m.nestingDepth + k ≤ levelsPerCall * (m.callDepth + 1) := h.spare
  show m.nestingDepth + levelsPerCall ≤ levelsPerCall * (m.callDepth + 1 + 1)
  rw [Nat.mul_succ levelsPerCall (m.callDepth + 1)]
  omega

end Machine

/-- The nesting limit leaves room for the levels of as many calls as may be open. -/
def Config.Roomy (config : Config) : Prop :=
  levelsPerCall * (config.maxCallDepth + 1) ≤ config.nestingLimit

/-- An error that is about no limit on nesting but the one on calls. -/
def Error.SparesLevels (config : Config) (e : Error) : Prop :=
  ∀ limit, e.cause = .recursionLimit limit → limit = config.maxCallDepth

theorem Config.Roomy.ne_nestingLimit {config : Config} (h : config.Roomy) {e : Error}
    (he : e.SparesLevels config) : e.cause ≠ .recursionLimit config.nestingLimit := by
  intro hcause
  have hlimit := he _ hcause
  have hroom : 256 * (config.maxCallDepth + 1) ≤ config.nestingLimit := h
  omega

namespace Recorded

/-- A computation that needs `k` levels. With these to spare it never has more levels open than the
calls may take, and if the limit leaves room for that, it does not fail at the limit. -/
structure Bounded (config : Config) (k : Nat) (x : Recorded α) : Prop where
  keeps : ∀ m after : Machine, m.functions.AllDeclared → (x.run m).machine? = some after →
    m.SameDepths after ∧ after.functions.AllDeclared
  within : ∀ m : Machine, m.Ready k → ∀ t ∈ (x m).moments, t.Spare 0
  spares : config.Roomy → ∀ (m : Machine) e after, m.Ready k →
    m.callDepth ≤ config.maxCallDepth → x.run m = .failed e after → e.SparesLevels config

namespace Bounded

variable {config : Config} {k : Nat}

/-- An operation that opens nothing. -/
theorem single {x : Eval α} (hsame : x.Advances Machine.SameDepths)
    (hdeclared : ∀ m after : Machine, m.functions.AllDeclared → (x m).machine? = some after →
      after.functions.AllDeclared)
    (hspares : ∀ m e after, x m = .failed e after → e.SparesLevels config) :
    Bounded config k (single x) where
  keeps m after hm h := ⟨hsame m after h, hdeclared m after hm h⟩
  within m hm t ht :=
    (hm.spare.mono (Nat.zero_le k)).congr (hsame m t (machine?_of_mem_single ht))
  spares _ m e after _ _ h := hspares m e after h

/-- An operation that leaves functions and counters alone. -/
theorem of_eq {x : Eval α}
    (hkeeps : x.Advances fun m after => m.SameDepths after ∧ after.functions = m.functions)
    (hspares : ∀ m e after, x m = .failed e after → e.SparesLevels config) :
    Bounded config k (Recorded.single x) :=
  .single (fun m after h => (hkeeps m after h).1)
    (fun m after hm h => by rwa [(hkeeps m after h).2]) hspares

theorem pure (a : α) : Bounded config k (Recorded.single (Pure.pure a)) :=
  .of_eq (fun m after h => by cases h; exact ⟨⟨rfl, rfl⟩, rfl⟩) nofun

theorem fail (cause : Cause) (p : Position) (hcause : ∀ limit, cause ≠ .recursionLimit limit) :
    Bounded config k (Recorded.single (Eval.fail cause p : Eval α)) := by
  refine .of_eq (fun m after h => by cases h; exact ⟨⟨rfl, rfl⟩, rfl⟩) fun m e after h => ?_
  cases h
  exact fun limit heq => absurd heq (hcause limit)

theorem lookup (name : String) (p : Position) :
    Bounded config k (Recorded.single (Eval.lookup name p)) := by
  refine .of_eq (fun m after h => ?_) fun m e after h => ?_
  · obtain rfl := Eval.machine?_lookup h
    exact ⟨⟨rfl, rfl⟩, rfl⟩
  · rw [Eval.error_of_lookup h]
    exact nofun

theorem assign (name : String) (value : Int64) (p : Position) :
    Bounded config k (Recorded.single (Eval.assign name value p)) := by
  refine .of_eq (fun m after h => ?_) fun m e after h => ?_
  · rcases Eval.machine?_assign h with rfl | ⟨env, -, rfl⟩ <;> exact ⟨⟨rfl, rfl⟩, rfl⟩
  · obtain ⟨limit, rfl⟩ := Eval.error_of_assign h
    exact nofun

theorem declare {f : Function} (hf : f.Declared) :
    Bounded config k (Recorded.single (Eval.declare f)) :=
  .single (fun m after h => by cases h; exact ⟨rfl, rfl⟩)
    (fun m after hm h => by cases h; exact hm.declare hf) nofun

theorem bind {x : Recorded α} {f : α → Recorded β} (hx : Bounded config k x)
    (hf : ∀ a, Bounded config k (f a)) : Bounded config k (x.andThen f) where
  keeps m after hm h := by
    rw [run_andThen] at h
    rcases Eval.machine?_bind h with ⟨a, mid, hdone, hafter⟩ | ⟨e, hfailed⟩
    · obtain ⟨hsame, hmid⟩ := hx.keeps m mid hm (by rw [hdone]; rfl)
      obtain ⟨hrest, hdeclared⟩ := (hf a).keeps mid after hmid hafter
      exact ⟨Machine.progress_sameDepths.trans hsame hrest, hdeclared⟩
    · exact hx.keeps m after hm (by rw [hfailed]; rfl)
  within m hm t ht := by
    rcases cases_of_mem_andThen ht with ht | ⟨a, mid, hrun, ht⟩
    · exact hx.within m hm t ht
    · obtain ⟨hsame, hmid⟩ := hx.keeps m mid hm.declared (by rw [hrun]; rfl)
      exact (hf a).within mid ⟨hmid, hm.spare.congr hsame⟩ t ht
  spares hroomy m e after hm hcalls h := by
    rw [run_andThen] at h
    cases hrun : x.run m with
    | done a mid =>
      rw [Eval.bind_of_done hrun] at h
      obtain ⟨hsame, hmid⟩ := hx.keeps m mid hm.declared (by rw [hrun]; rfl)
      refine (hf a).spares hroomy mid e after ⟨hmid, hm.spare.congr hsame⟩ ?_ h
      rw [hsame.1]
      exact hcalls
    | failed e' mid =>
      rw [Eval.bind_of_failed hrun] at h
      cases h
      exact hx.spares hroomy m e after hm hcalls hrun
    | outOfFuel =>
      rw [Eval.bind_of_outOfFuel hrun] at h
      cases h

theorem function? {name : String} {f : Option Function → Recorded α}
    (hf : ∀ found : Option Function, (∀ d, found = some d → d.Declared) →
      Bounded config k (f found)) :
    Bounded config k ((Recorded.single (Eval.function? name)).andThen f) where
  keeps m after hm h := (hf _ (hm name)).keeps m after hm h
  within m hm t ht := by
    rcases cases_of_mem_andThen ht with ht | ⟨found, mid, hrun, ht⟩
    · cases machine?_of_mem_single ht
      exact hm.spare.mono (Nat.zero_le k)
    · cases hrun
      exact (hf _ (hm.declared name)).within m hm t ht
  spares hroomy m e after hm hcalls h :=
    (hf _ (hm.declared name)).spares hroomy m e after hm hcalls h

/-- A level is opened for a computation that needs one less. -/
theorem nested {x : Recorded α} (hx : Bounded config k x) (p : Position) :
    Bounded config (k + 1) (nested config p x) where
  keeps m after hm h := by
    rw [run_nested] at h
    rcases Eval.machine?_nested h with rfl | ⟨inside, hinside, rfl⟩
    · exact ⟨⟨rfl, rfl⟩, hm⟩
    · obtain ⟨hsame, hdeclared⟩ := hx.keeps m.opened inside hm hinside
      exact ⟨Machine.progress_sameDepths.nested hsame, hdeclared⟩
  within m hm t ht := by
    have hspare : m.Spare 0 := hm.spare.mono (Nat.zero_le _)
    rcases cases_of_mem_nested ht with rfl | ⟨-, rfl | ht | ⟨inside, hinside, rfl⟩⟩
    · exact hspare
    · exact hm.opened.spare.mono (Nat.zero_le _)
    · exact hx.within m.opened hm.opened t ht
    · obtain ⟨hsame, -⟩ := hx.keeps m.opened inside hm.declared hinside
      exact hspare.congr (Machine.progress_sameDepths.nested hsame)
  spares hroomy m e after hm hcalls h := by
    have hspare : m.nestingDepth + (k + 1) ≤ 256 * (m.callDepth + 1) := hm.spare
    have hroom : 256 * (config.maxCallDepth + 1) ≤ config.nestingLimit := hroomy
    have hlimit : ¬config.nestingLimit ≤ m.nestingDepth := by omega
    rw [run_nested, Eval.nested_of_room hlimit] at h
    obtain ⟨inside, hinside, -⟩ := Outcome.exists_of_onMachine_eq_failed h
    exact hx.spares hroomy m.opened e inside hm.opened hcalls hinside

/-- Whatever a call needs in its body, it has the levels for that. -/
theorem called {x : Recorded α} (hx : Bounded config levelsPerCall x) (p : Position)
    (bindings : List (String × Int64)) : Bounded config k (called config p bindings x) where
  keeps m after hm h := by
    rw [run_called] at h
    rcases Eval.machine?_called h with rfl | ⟨scope, inside, hinside, rfl⟩
    · exact ⟨⟨rfl, rfl⟩, hm⟩
    · obtain ⟨hsame, hdeclared⟩ := hx.keeps (m.entered scope) inside hm hinside
      exact ⟨Machine.progress_sameDepths.called hsame, hdeclared⟩
  within m hm t ht := by
    have hspare : m.Spare 0 := hm.spare.mono (Nat.zero_le k)
    rcases cases_of_mem_called ht with rfl | ⟨-, scope, rfl | ht | ⟨inside, hinside, rfl⟩⟩
    · exact hspare
    · exact (hm.entered scope).spare.mono (Nat.zero_le _)
    · exact hx.within (m.entered scope) (hm.entered scope) t ht
    · obtain ⟨hsame, -⟩ := hx.keeps (m.entered scope) inside hm.declared hinside
      exact hspare.congr (Machine.progress_sameDepths.called hsame)
  spares hroomy m e after hm hcalls h := by
    rw [run_called] at h
    by_cases hlimit : config.maxCallDepth ≤ m.callDepth
    · rw [Eval.called_of_limit hlimit] at h
      cases h
      exact fun limit heq => (Cause.recursionLimit.inj heq).symm
    · cases hscope : (Scope.empty config.maxVariables).assignAll bindings with
      | error cause =>
        rw [Eval.called_of_noRoom hlimit hscope] at h
        cases h
        obtain ⟨limit, rfl⟩ := Scope.exists_of_assignAll_eq_error hscope
        exact nofun
      | ok scope =>
        rw [Eval.called_of_room hlimit hscope] at h
        obtain ⟨inside, hinside, -⟩ := Outcome.exists_of_onMachine_eq_failed h
        have hinner : (m.entered scope).callDepth ≤ config.maxCallDepth :=
          Nat.lt_of_not_le hlimit
        exact hx.spares hroomy _ e inside (hm.entered scope) hinner hinside

end Bounded

def bounding (config : Config) : Grading Recorded config Nat where
  keeps k x := Bounded config k x
  expr k e := e.depth < k
  node k e := e.depth ≤ k
  stmt k s := s.depth < k ∧ ∀ f ∈ s.functions, f.Declared
  stmtNode k s := s.depth ≤ k ∧ ∀ f ∈ s.functions, f.Declared
  function f := f.Declared
  pure a := .pure a
  bind hx hf := hx.bind hf
  exhausted := .of_eq nofun nofun
  emit line := .of_eq (fun m after h => by cases h; exact ⟨⟨rfl, rfl⟩, rfl⟩) nofun
  function? name f hf := .function? hf
  expr_nested {k e} he := by
    obtain ⟨k, rfl⟩ := Nat.exists_eq_add_one_of_ne_zero (Nat.ne_zero_of_lt he)
    exact ⟨k, Nat.le_of_lt_succ he, fun x hx => hx.nested e.position⟩
  stmt_nested {k s} hs := by
    obtain ⟨hdepth, hfunctions⟩ := hs
    obtain ⟨k, rfl⟩ := Nat.exists_eq_add_one_of_ne_zero (Nat.ne_zero_of_lt hdepth)
    exact ⟨k, ⟨Nat.le_of_lt_succ hdepth, hfunctions⟩, fun x hx => hx.nested s.position⟩
  string _ := .fail (.typeMismatch _ _) _ nofun
  var _ := .lookup _ _
  left h := Expr.depth_left h
  right h := ⟨Expr.depth_right h, fun _ => .fail .divisionByZero _ nofun⟩
  arguments h e he := by
    rw [Expr.depth] at h
    exact Nat.lt_of_lt_of_le (Expr.depth_lt_depthList he) h
  undefined _ := .fail (.undefinedFunction _) _ nofun
  arity _ _ _ := .fail (.arityMismatch _ _ _) _ nofun
  called {_ _ _ _ d} _ hd := by
    refine ⟨levelsPerCall, fun s hs => ⟨?_, fun f hf => ?_⟩, fun bindings x hx => hx.called _ _⟩
    · exact Nat.lt_of_lt_of_le (Stmt.depth_lt_depthList hs) hd.depthList_le
    · exact hd.of_mem (Stmt.functions_subset_functionsList hs hf)
  top h := by
    obtain ⟨hdepth, -⟩ := h
    rw [Stmt.depth] at hdepth
    exact Nat.lt_of_succ_lt hdepth
  expression h := by
    obtain ⟨hdepth, -⟩ := h
    rwa [Stmt.depth] at hdepth
  assign h := by
    obtain ⟨hdepth, -⟩ := h
    rw [Stmt.depth] at hdepth
    exact ⟨hdepth, fun value => .assign _ value _⟩
  block h s hs := by
    obtain ⟨hdepth, hfunctions⟩ := h
    rw [Stmt.depth] at hdepth
    rw [Stmt.functions] at hfunctions
    exact ⟨Nat.lt_of_lt_of_le (Stmt.depth_lt_depthList hs) hdepth,
      fun f hf => hfunctions f (Stmt.functions_subset_functionsList hs hf)⟩
  ifThen h := by
    obtain ⟨hdepth, hfunctions⟩ := h
    obtain ⟨htest, hthen⟩ := Stmt.depth_ifThen_le_iff.mp hdepth
    rw [Stmt.functions] at hfunctions
    exact ⟨htest, hthen, hfunctions⟩
  ifElse h := by
    obtain ⟨hdepth, hfunctions⟩ := h
    obtain ⟨htest, hthen, helse⟩ := Stmt.depth_ifElse_le_iff.mp hdepth
    rw [Stmt.functions] at hfunctions
    obtain ⟨hinThen, hinElse⟩ := List.forall_mem_append.mp hfunctions
    exact ⟨htest, ⟨hthen, hinThen⟩, helse, hinElse⟩
  loop h := by
    obtain ⟨hdepth, hfunctions⟩ := h
    obtain ⟨htest, hbody⟩ := Stmt.depth_loop_le_iff.mp hdepth
    rw [Stmt.functions] at hfunctions
    exact ⟨htest, hbody, hfunctions⟩
  ret h := by
    obtain ⟨hdepth, -⟩ := h
    rwa [Stmt.depth] at hdepth
  declare h := by
    obtain ⟨-, hfunctions⟩ := h
    rw [Stmt.functions] at hfunctions
    exact .declare (hfunctions _ (List.mem_cons_self ..))

variable {source file : String}

theorem bounded_program {b : Block} (h : parseProgram source file = .ok b) (config : Config)
    (fuel : Nat) :
    Bounded config levelsPerCall (Eval.program config fuel 0 b.body : Recorded Int64) := by
  refine ((bounding config).allKeep fuel).program 0 fun s hs => ⟨?_, fun f hf => ?_⟩
  · have hdepth := Grammar.depthList_le_of_parseProgram h
    exact Nat.lt_of_lt_of_le (Stmt.depth_lt_depthList hs) hdepth
  · exact ⟨source, file, b, h, Stmt.functions_subset_functionsList hs hf⟩

theorem bounded_expr {e : Expr} (h : parseExpr source file = .ok e) (config : Config)
    (fuel : Nat) : Bounded config levelsPerCall (Eval.expr config fuel e : Recorded Int64) :=
  ((bounding config).allKeep fuel).expr (Grammar.depth_lt_of_parseExpr h)

end Recorded

end IntLang
