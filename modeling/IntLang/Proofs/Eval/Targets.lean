import IntLang.Proofs.Eval.Graded
import IntLang.Proofs.Eval.Progress

/-!
Which variables evaluation assigns. A statement assigns only in its own scope, and only the targets
of the assignments that stand in it outside function declarations: a call works in a scope of its
own and gives the scopes of its caller back. So an expression leaves all scopes as they were.
-/
namespace IntLang

namespace Stmt

mutual

/-- The targets of the assignments in a statement, those in function declarations left out. -/
def targets : Stmt → List String
  | expression _ _ | ret _ _ | function _ _ _ _ _ => []
  | assign name _ _ => [name]
  | block body _ => targetsList body
  | ifThen _ thenBranch _ => thenBranch.targets
  | ifElse _ thenBranch elseBranch _ => thenBranch.targets ++ elseBranch.targets
  | loop _ body _ => body.targets

def targetsList : List Stmt → List String
  | [] => []
  | s :: ss => s.targets ++ targetsList ss

end

theorem targets_subset_targetsList {s : Stmt} {ss : List Stmt} (h : s ∈ ss) :
    s.targets ⊆ targetsList ss := by
  induction ss with
  | nil => cases h
  | cons t ss ih =>
    rw [targetsList]
    rcases List.mem_cons.mp h with rfl | h
    · exact List.subset_append_left ..
    · exact List.subset_append_of_subset_right _ (ih h)

end Stmt

/-- The second environment comes from the first one by binding some of the given variables, one
after the other, in the innermost scope. -/
inductive Environment.Reassigned (names : List String) : Environment → Environment → Prop
  | refl (env) : Reassigned names env env
  | assign {env mid after name value p} (h : Reassigned names env mid) (hname : name ∈ names)
      (hassign : mid.assign name value p = .ok after) : Reassigned names env after

namespace Environment

variable {env mid after : Environment} {names : List String} {name : String}

namespace Reassigned

theorem trans (h : Reassigned names env mid) (h' : Reassigned names mid after) :
    Reassigned names env after := by
  induction h' with
  | refl => exact h
  | assign _ hname hassign ih => exact .assign ih hname hassign

theorem eq_of_nil (h : Reassigned [] env after) : after = env := by
  cases h with
  | refl => rfl
  | assign _ hname => cases hname

/-- A variable that is not among the given ones keeps its value in the scope, or has none still. -/
theorem get?_eq (h : Reassigned names env after) (hname : name ∉ names) :
    after.scope.get? name = env.scope.get? name := by
  induction h with
  | refl => rfl
  | @assign mid _ other value p _ hother hassign ih =>
    obtain ⟨scope, hscope, rfl⟩ := exists_of_assign_eq_ok hassign
    have hne : name ≠ other := by
      rintro rfl
      exact hname hother
    rw [← ih, Scope.eq_of_assign_eq_ok hscope]
    exact Table.get?_insert_of_ne hne _ _

end Reassigned

end Environment

namespace Eval

/-- A computation that binds none but the given variables, and those in the innermost scope. -/
def Reassigns (names : List String) (x : Eval α) : Prop :=
  x.Advances fun m after => m.env.Reassigned names after.env

namespace Reassigns

variable {names : List String}

/-- Operations that leave the environment alone. -/
theorem of_env_eq {x : Eval α} (h : x.Advances fun m after => after.env = m.env) :
    Reassigns names x := by
  intro m after hafter
  rw [h m after hafter]
  exact .refl _

theorem bind {x : Eval α} {f : α → Eval β} (hx : Reassigns names x)
    (hf : ∀ a, Reassigns names (f a)) : Reassigns names (x >>= f) := by
  intro m after h
  rcases machine?_bind h with ⟨a, mid, hdone, hafter⟩ | ⟨e, hfailed⟩
  · have hmid := hx m mid (by rw [hdone]; rfl)
    exact hmid.trans (hf a mid after hafter)
  · exact hx m after (by rw [hfailed]; rfl)

theorem nested {x : Eval α} (hx : Reassigns names x) (config : Config) (p : Position) :
    Reassigns names (Eval.nested config p x) := by
  intro m after h
  rcases machine?_nested h with rfl | ⟨inside, hinside, rfl⟩
  · exact .refl _
  · exact hx m.opened inside hinside

/-- Whatever a call assigns, the caller has its variables back. -/
theorem called (x : Eval α) (config : Config) (p : Position) (bindings : List (String × Int64)) :
    Reassigns names (Eval.called config p bindings x) := by
  refine of_env_eq fun m after h => ?_
  rcases machine?_called h with rfl | ⟨scope, inside, -, rfl⟩ <;> rfl

theorem assign {name : String} (hname : name ∈ names) (value : Int64) (p : Position) :
    Reassigns names (Eval.assign name value p) := by
  intro m after h
  rcases machine?_assign h with rfl | ⟨env, henv, rfl⟩
  · exact .refl _
  · exact .assign (.refl _) hname henv

theorem lookup (name : String) (p : Position) : Reassigns names (Eval.lookup name p) := by
  refine of_env_eq fun m after h => ?_
  rw [machine?_lookup h]

theorem fail (cause : Cause) (p : Position) : Reassigns names (Eval.fail cause p : Eval α) := by
  refine of_env_eq fun m after h => ?_
  cases h
  rfl

end Reassigns

def reassigning (config : Config) : Grading Eval config (List String) where
  keeps names x := Reassigns names x
  expr _ _ := True
  node _ _ := True
  stmt names s := s.targets ⊆ names
  stmtNode names s := s.targets ⊆ names
  function _ := True
  pure a := .of_env_eq fun m after h => by cases h; rfl
  bind hx hf := hx.bind hf
  exhausted := nofun
  emit line := .of_env_eq fun m after h => by cases h; rfl
  function? name f hf m after h := hf (m.functions.get? name) (fun _ _ => trivial) m after h
  expr_nested {names e} _ := ⟨names, trivial, fun x hx => hx.nested config e.position⟩
  stmt_nested {names s} hs := ⟨names, hs, fun x hx => hx.nested config s.position⟩
  string _ := .fail _ _
  var _ := .lookup _ _
  left _ := by split <;> trivial
  right _ := ⟨trivial, fun _ => .fail _ _⟩
  arguments _ _ _ := trivial
  undefined _ := .fail _ _
  arity _ _ _ := .fail _ _
  called {_ _ _ _ d} _ _ := ⟨Stmt.targetsList d.body.body,
    fun _ hs => Stmt.targets_subset_targetsList hs, fun bindings x _ => .called x config _ bindings⟩
  top _ := trivial
  expression _ := trivial
  assign {_ name _ _} h := by
    have hname : name ∈ [name] := List.mem_singleton.mpr rfl
    rw [Stmt.targets] at h
    exact ⟨trivial, fun value => .assign (h hname) value _⟩
  block h s hs := by
    rw [Stmt.targets] at h
    exact List.Subset.trans (Stmt.targets_subset_targetsList hs) h
  ifThen h := ⟨trivial, by rwa [Stmt.targets] at h⟩
  ifElse h := by
    rw [Stmt.targets] at h
    exact ⟨trivial, List.append_subset.mp h⟩
  loop h := ⟨trivial, by rwa [Stmt.targets] at h⟩
  ret _ := trivial
  declare _ := .of_env_eq fun m after h => by cases h; rfl

variable {config : Config} {n : Nat} {m after : Machine}

/-- Evaluating an expression leaves all scopes as they were, whatever functions it calls. -/
theorem env_of_expr {e : Expr} (h : ((Eval.expr config n e : Eval Int64) m).machine? = some after) :
    after.env = m.env := by
  have hkeeps : Reassigns [] (Eval.expr config n e) := ((reassigning config).allKeep n).expr trivial
  exact (hkeeps m after h).eq_of_nil

theorem env_of_exprs {es : List Expr}
    (h : ((Eval.exprs config n es : Eval (List Int64)) m).machine? = some after) :
    after.env = m.env := by
  have hkeeps : Reassigns [] (Eval.exprs config n es) :=
    ((reassigning config).allKeep n).exprs fun _ _ => trivial
  exact (hkeeps m after h).eq_of_nil

/-- A program assigns none but the targets of its assignments outside function declarations. -/
theorem reassigns_program (config : Config) (n : Nat) (last : Int64) (ss : List Stmt) :
    Reassigns (Stmt.targetsList ss) (Eval.program config n last ss) :=
  ((reassigning config).allKeep n).program last fun _ hs => Stmt.targets_subset_targetsList hs

end Eval

end IntLang
