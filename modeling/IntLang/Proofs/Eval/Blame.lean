import IntLang.Proofs.Eval.Graded
import IntLang.Proofs.Eval.Progress
import IntLang.Proofs.Grammar.Nodes

/-!
Which node an error of evaluation stands at. Every operation that fails does so on behalf of a node
of the syntax, and the cause says what kind of node that is. The nodes that a run may come to are
those of what is run and those of the bodies of the functions declared before; a function that is
declared on the way has its body among them. So an error stands at one of these nodes, however many
calls it has come through.
-/
namespace IntLang

def Node.IsCall (n : Node) : Prop := ∃ callee args span, n = .expr (.call callee args span)

/-- A node is of the kind at which an error with the given cause stands. The cause may be about a
node around it, which has to occur as well. -/
def Cause.Fits (config : Config) (occurs : Node → Prop) (n : Node) : Cause → Prop
  | undefinedVariable name => ∃ span, n = .expr (.var name span)
  | undefinedFunction name => ∃ args span, n = .expr (.call name args span)
  | arityMismatch name expected received =>
    expected ≠ received ∧ ∃ args span, n = .expr (.call name args span) ∧ args.length = received
  | typeMismatch _ _ => ∃ text span, n = .expr (.string text span)
  | divisionByZero =>
    ∃ left right span, n = .expr right ∧ occurs (.expr (.binary .divide left right span))
  | capacityExceeded _ => (∃ name value span, n = .stmt (.assign name value span)) ∨ n.IsCall
  | recursionLimit limit =>
    ((∃ e, n = .expr e) ∨ ∃ s, n = .stmt s) ∧ (limit ≠ config.nestingLimit → n.IsCall)
  | _ => False

/-- A cause that some node fits is one of running. -/
theorem Cause.Fits.stage_eq {config : Config} {occurs : Node → Prop} {n : Node} {cause : Cause}
    (h : cause.Fits config occurs n) : cause.stage = .running := by
  cases cause with
  | undefinedVariable | undefinedFunction | arityMismatch | divisionByZero | typeMismatch
  | recursionLimit | capacityExceeded => rfl
  | _ => exact h.elim

/-- Such a node is an expression or a statement. -/
theorem Cause.Fits.ne_block {config : Config} {occurs : Node → Prop} {n : Node} {cause : Cause}
    (h : cause.Fits config occurs n) (b : Block) : n ≠ .block b := by
  rintro rfl
  cases cause <;> simp [Cause.Fits, Node.IsCall] at h

/-- An error stands where a node begins that occurs and fits its cause. -/
def Error.StandsAtNode (config : Config) (occurs : Node → Prop) (e : Error) : Prop :=
  ∃ n, occurs n ∧ e.position = n.span.position ∧ e.cause.Fits config occurs n

def Table.BodiesOccur (occurs : Node → Prop) (functions : Table Function) : Prop :=
  ∀ name f, functions.get? name = some f → occurs (.block f.body)

theorem Table.BodiesOccur.declare {occurs : Node → Prop} {functions : Table Function}
    (h : functions.BodiesOccur occurs) {f : Function} (hf : occurs (.block f.body)) :
    (functions.declare f).BodiesOccur occurs := by
  intro name g hg
  rcases Table.eq_or_get?_of_declare hg with rfl | hg
  · exact hf
  · exact h name g hg

namespace Eval

/-- On a machine all of whose functions have bodies that occur, a computation leaves such a machine,
and fails only at a node that occurs and fits. -/
structure Blames (config : Config) (occurs : Node → Prop) (x : Eval α) : Prop where
  keeps : ∀ m after : Machine, m.functions.BodiesOccur occurs → (x m).machine? = some after →
    after.functions.BodiesOccur occurs
  blames : ∀ (m : Machine) e after, m.functions.BodiesOccur occurs → x m = .failed e after →
    e.StandsAtNode config occurs

namespace Blames

variable {config : Config} {occurs : Node → Prop} {x : Eval α} {n : Node}

/-- An operation that leaves the functions alone. -/
theorem of_eq (hkeeps : x.Advances fun m after => after.functions = m.functions)
    (hblames : ∀ m e after, x m = .failed e after → e.StandsAtNode config occurs) :
    Blames config occurs x where
  keeps m after hm h := by rwa [hkeeps m after h]
  blames m e after _ h := hblames m e after h

/-- A computation that fails at once, at a node that fits. -/
theorem fail {cause : Cause} (hn : occurs n) (hfits : cause.Fits config occurs n) :
    Blames config occurs (Eval.fail cause n.span.position : Eval α) := by
  refine .of_eq (fun m after h => by cases h; rfl) fun m e after h => ?_
  cases h
  exact ⟨n, hn, rfl, hfits⟩

theorem lookup {name : String} {span : Span} (hn : occurs (.expr (.var name span))) :
    Blames config occurs (Eval.lookup name span.position) := by
  refine .of_eq (fun m after h => by rw [machine?_lookup h]) fun m e after h => ?_
  rw [error_of_lookup h]
  exact ⟨_, hn, rfl, span, rfl⟩

theorem assign {name : String} {e : Expr} {span : Span} (hn : occurs (.stmt (.assign name e span)))
    (value : Int64) : Blames config occurs (Eval.assign name value span.position) := by
  refine .of_eq (fun m after h => ?_) fun m e' after h => ?_
  · rcases machine?_assign h with rfl | ⟨env, -, rfl⟩ <;> rfl
  · obtain ⟨limit, rfl⟩ := error_of_assign h
    exact ⟨_, hn, rfl, Or.inl ⟨name, e, span, rfl⟩⟩

theorem declare {f : Function} (hf : occurs (.block f.body)) :
    Blames config occurs (Eval.declare f) where
  keeps m after hm h := by
    cases h
    exact hm.declare hf
  blames m e after _ h := by cases h

theorem bind {f : α → Eval β} (hx : Blames config occurs x)
    (hf : ∀ a, Blames config occurs (f a)) : Blames config occurs (x >>= f) where
  keeps m after hm h := by
    rcases machine?_bind h with ⟨a, mid, hdone, hafter⟩ | ⟨e, hfailed⟩
    · have hmid := hx.keeps m mid hm (by rw [hdone]; rfl)
      exact (hf a).keeps mid after hmid hafter
    · exact hx.keeps m after hm (by rw [hfailed]; rfl)
  blames m e after hm h := by
    cases hrun : x m with
    | done a mid =>
      rw [bind_of_done hrun] at h
      have hmid := hx.keeps m mid hm (by rw [hrun]; rfl)
      exact (hf a).blames mid e after hmid h
    | failed e' mid =>
      rw [bind_of_failed hrun] at h
      cases h
      exact hx.blames m e after hm hrun
    | outOfFuel =>
      rw [bind_of_outOfFuel hrun] at h
      cases h

/-- A level that is refused is refused to the node that asks for it. -/
theorem nested (hx : Blames config occurs x) (hn : occurs n)
    (hkind : (∃ e, n = .expr e) ∨ ∃ s, n = .stmt s) :
    Blames config occurs (Eval.nested config n.span.position x) where
  keeps m after hm h := by
    rcases machine?_nested h with rfl | ⟨inside, hinside, rfl⟩
    · exact hm
    · exact hx.keeps m.opened inside hm hinside
  blames m e after hm h := by
    by_cases hlimit : config.nestingLimit ≤ m.nestingDepth
    · rw [nested_of_limit hlimit] at h
      cases h
      exact ⟨n, hn, rfl, hkind, fun hne => absurd rfl hne⟩
    · rw [nested_of_room hlimit] at h
      obtain ⟨inside, hinside, -⟩ := Outcome.exists_of_onMachine_eq_failed h
      exact hx.blames m.opened e inside hm hinside

/-- A call may be refused at the limit on calls or for want of room for its arguments. An error of
its body stands where it stands. -/
theorem called {callee : String} {args : List Expr} {span : Span} (hx : Blames config occurs x)
    (hn : occurs (.expr (.call callee args span))) (bindings : List (String × Int64)) :
    Blames config occurs (Eval.called config span.position bindings x) where
  keeps m after hm h := by
    rcases machine?_called h with rfl | ⟨scope, inside, hinside, rfl⟩
    · exact hm
    · exact hx.keeps (m.entered scope) inside hm hinside
  blames m e after hm h := by
    have hcall : (Node.expr (.call callee args span)).IsCall := ⟨callee, args, span, rfl⟩
    by_cases hlimit : config.maxCallDepth ≤ m.callDepth
    · rw [called_of_limit hlimit] at h
      cases h
      exact ⟨_, hn, rfl, Or.inl ⟨_, rfl⟩, fun _ => hcall⟩
    · cases hscope : (Scope.empty config.maxVariables).assignAll bindings with
      | error cause =>
        rw [called_of_noRoom hlimit hscope] at h
        cases h
        obtain ⟨limit, rfl⟩ := Scope.exists_of_assignAll_eq_error hscope
        exact ⟨_, hn, rfl, Or.inr hcall⟩
      | ok scope =>
        rw [called_of_room hlimit hscope] at h
        obtain ⟨inside, hinside, -⟩ := Outcome.exists_of_onMachine_eq_failed h
        exact hx.blames (m.entered scope) e inside hm hinside

end Blames

/-- Statements and expressions may be evaluated if they occur, where what occurs does so with all
that it consists of. -/
def blaming (config : Config) {occurs : Node → Prop}
    (hchild : ∀ {m n}, occurs m → n ∈ m.children → occurs n) : Grading Eval config Unit where
  keeps _ x := Blames config occurs x
  expr _ e := occurs (.expr e)
  node _ e := occurs (.expr e)
  stmt _ s := occurs (.stmt s)
  stmtNode _ s := occurs (.stmt s)
  function f := occurs (.block f.body)
  pure a := .of_eq (fun m after h => by cases h; rfl) nofun
  bind hx hf := hx.bind hf
  exhausted := .of_eq nofun nofun
  emit line := .of_eq (fun m after h => by cases h; rfl) nofun
  function? name f hf := {
    keeps := fun m after hm h => (hf _ (hm name)).keeps m after hm h
    blames := fun m e after hm h => (hf _ (hm name)).blames m e after hm h }
  expr_nested {_ e} he := ⟨(), he, fun x hx => hx.nested he (Or.inl ⟨e, rfl⟩)⟩
  stmt_nested {_ s} hs := ⟨(), hs, fun x hx => hx.nested hs (Or.inr ⟨s, rfl⟩)⟩
  string h := .fail h ⟨_, _, rfl⟩
  var h := .lookup h
  left h := by
    have hleft := hchild h (List.mem_cons_self ..)
    split <;> exact hleft
  right {_ operator l r span} h := by
    have hright : occurs (.expr r) := hchild h (by simp [Node.children])
    refine ⟨hright, ?_⟩
    rintro rfl
    exact .fail hright ⟨l, r, span, rfl, h⟩
  arguments h e he := hchild h (List.mem_map_of_mem he)
  undefined h := .fail h ⟨_, _, rfl⟩
  arity h _ hne := .fail h ⟨hne, _, _, rfl, rfl⟩
  called h hd :=
    ⟨(), fun s hs => hchild hd (List.mem_map_of_mem hs), fun bindings x hx => hx.called h bindings⟩
  top h := hchild h (List.mem_cons_self ..)
  expression h := hchild h (List.mem_cons_self ..)
  assign h := ⟨hchild h (List.mem_cons_self ..), fun value => .assign h value⟩
  block h s hs := hchild h (List.mem_map_of_mem hs)
  ifThen h := ⟨hchild h (by simp [Node.children]), hchild h (by simp [Node.children])⟩
  ifElse h := ⟨hchild h (by simp [Node.children]), hchild h (by simp [Node.children]),
    hchild h (by simp [Node.children])⟩
  loop h := ⟨hchild h (by simp [Node.children]), hchild h (by simp [Node.children])⟩
  ret h := hchild h (List.mem_cons_self ..)
  declare h := .declare (hchild h (List.mem_cons_self ..))

end Eval

end IntLang
