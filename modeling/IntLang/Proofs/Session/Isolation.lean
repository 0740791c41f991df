import IntLang.Eval.Fuel
import IntLang.Proofs.Eval.Depth
import IntLang.Proofs.Eval.Targets

/-!
Scopes keep out of each other's way. A program changes no global variable that it does not assign
outside function declarations, whatever functions it calls. The other way round, a function sees of
its caller only the arguments: called from two environments with the same outermost scope it does
the same.
-/
namespace IntLang

namespace Eval

variable {config : Config} {m : Machine} {env : Environment}

/-- A computation inside a call does not depend on the scopes of the caller but for the
outermost. -/
theorem called_withEnv (hroot : env.root = m.env.root) (p : Position)
    (bindings : List (String × Int64)) (x : Eval α) :
    Eval.called config p bindings x { m with env } =
      (Eval.called config p bindings x m).onMachine ({ · with env }) := by
  by_cases hlimit : config.maxCallDepth ≤ m.callDepth
  · rw [called_of_limit hlimit, called_of_limit (m := { m with env }) hlimit]
    rfl
  · cases hscope : (Scope.empty config.maxVariables).assignAll bindings with
    | error cause =>
      rw [called_of_noRoom hlimit hscope, called_of_noRoom (m := { m with env }) hlimit hscope]
      rfl
    | ok scope =>
      rw [called_of_room hlimit hscope, called_of_room (m := { m with env }) hlimit hscope]
      -- both calls run the body on one machine
      have hentered : ({ m with env } : Machine).entered scope = m.entered scope := by
        simp only [Machine.entered, hroot]
      rw [hentered]
      cases x (m.entered scope) <;> rfl

/-- A declared function with the right number of arguments is called with their values. -/
theorem call_of_function {callee : String} {f : Function} {args : List Expr} {n : Nat}
    {values : List Int64} {mid : Machine} (hf : m.functions.get? callee = some f)
    (harity : f.arity = args.length)
    (hargs : (Eval.exprs config n args : Eval (List Int64)) m = .done values mid) (p : Position) :
    (Eval.call config (n + 1) callee args p : Eval Int64) m =
      (Eval.called config p (f.parameters.zip values) (Eval.stmts config n f.body.body) >>=
        fun completion => pure completion.value) mid := by
  have hfound : (Eval.function? callee) m = .done (some f) m := by
    simp only [Eval.function?, hf]
  rw [Eval.call]
  refine (bind_of_done hfound _).trans ?_
  simp only [if_pos harity]
  exact bind_of_done hargs _

theorem call_of_arity_ne {callee : String} {f : Function} {args : List Expr} (n : Nat)
    (hf : m.functions.get? callee = some f) (harity : f.arity ≠ args.length) (p : Position) :
    (Eval.call config (n + 1) callee args p : Eval Int64) m =
      .failed ⟨.arityMismatch callee f.arity args.length, p⟩ m := by
  have hfound : (Eval.function? callee) m = .done (some f) m := by
    simp only [Eval.function?, hf]
  rw [Eval.call]
  refine (bind_of_done hfound _).trans ?_
  simp only [if_neg harity]
  rfl

/-- With more fuel the values of arguments are the same. -/
theorem exprs_of_le {args : List Expr} {n k : Nat} (hle : n ≤ k) {values : List Int64}
    {mid : Machine} (h : (Eval.exprs config n args : Eval (List Int64)) m = .done values mid) :
    (Eval.exprs config k args : Eval (List Int64)) m = .done values mid := by
  rcases (allBelow_of_le config hle).exprs args m with hout | heq
  · rw [h] at hout
    cases hout
  · rw [← heq, h]

/-- Evaluating arguments changes nothing but the functions and the lines printed. -/
theorem eq_of_exprs {args : List Expr} {n : Nat} {values : List Int64} {mid : Machine}
    (h : (Eval.exprs config n args : Eval (List Int64)) m = .done values mid) :
    mid = { m with functions := mid.functions, output := mid.output } := by
  have hmid : ((Eval.exprs config n args : Eval (List Int64)) m).machine? = some mid := by
    rw [h]
    rfl
  obtain ⟨hcalls, hlevels⟩ := (allKeepDepths config n).exprs args m mid hmid
  have henv := env_of_exprs hmid
  obtain ⟨_, functions, output, _, _⟩ := mid
  cases hcalls
  cases hlevels
  cases henv
  rfl

/-- What is made of the value of a computation does not hinge on the part of the machine that the
computation hands through. -/
theorem bind_pure_onMachine {x : Eval α} {m m' : Machine} {change : Machine → Machine}
    (h : x m' = (x m).onMachine change) (f : α → β) :
    (x >>= fun a => Pure.pure (f a)) m' =
      ((x >>= fun a => Pure.pure (f a)) m).onMachine change := by
  cases hx : x m with
  | done a after =>
    rw [hx] at h
    rw [bind_of_done hx, bind_of_done h]
    rfl
  | failed e after =>
    rw [hx] at h
    rw [bind_of_failed hx, bind_of_failed h]
    rfl
  | outOfFuel =>
    rw [hx] at h
    rw [bind_of_outOfFuel hx, bind_of_outOfFuel h]
    rfl

/-- A call of a declared function in two environments with the same outermost scope, in which the
arguments have the same values and effects. -/
theorem call_withEnv {callee : String} {f : Function} {args : List Expr} {values : List Int64}
    {mid mid' : Machine} {n : Nat} (hroot : env.root = m.env.root)
    (hf : m.functions.get? callee = some f)
    (hargs : (Eval.exprs config n args : Eval (List Int64)) m = .done values mid)
    (hargs' : (Eval.exprs config n args : Eval (List Int64)) { m with env } = .done values mid')
    (hfunctions : mid'.functions = mid.functions) (houtput : mid'.output = mid.output)
    (p : Position) :
    (Eval.call config (n + 1) callee args p : Eval Int64) { m with env } =
      ((Eval.call config (n + 1) callee args p : Eval Int64) m).onMachine ({ · with env }) := by
  by_cases harity : f.arity = args.length
  · have hmid : mid = { m with functions := mid.functions, output := mid.output } :=
      eq_of_exprs hargs
    have hmid' : mid' = { mid with env } := by
      rw [eq_of_exprs hargs', hmid, hfunctions, houtput]
    have hrootMid : env.root = mid.env.root := by
      rw [hmid]
      exact hroot
    rw [call_of_function hf harity hargs, call_of_function (m := { m with env }) hf harity hargs',
      hmid']
    exact bind_pure_onMachine (called_withEnv hrootMid p _ _) _
  · rw [call_of_arity_ne n hf harity, call_of_arity_ne (m := { m with env }) n hf harity]
    rfl

end Eval

/-- Scopes are isolated. After a run, failed or not, a global variable that is no target of an
assignment outside function declarations has the value that it had. And from two environments with
the same outermost scope, in which the arguments have the same values and effects, a call of a
declared function ends in the same way with the same effects. -/
theorem scopes_isolated :
    (∀ (s : Session) (fuel : Nat) (program : Block) answer after,
      s.run fuel program = some (answer, after) →
        ∀ name ∉ Stmt.targetsList program.body,
          after.globals.get? name = s.globals.get? name) ∧
    ∀ (config : Config) (m : Machine) (env : Environment) callee f args p values mid mid' n n',
      env.root = m.env.root → m.functions.get? callee = some f →
        (Eval.exprs config n args : Eval (List Int64)) m = .done values mid →
          (Eval.exprs config n' args : Eval (List Int64)) { m with env } = .done values mid' →
            mid'.functions = mid.functions → mid'.output = mid.output →
              ∀ fuel, n ≤ fuel → n' ≤ fuel →
                (Eval.call config (fuel + 1) callee args p : Eval Int64) { m with env } =
                  ((Eval.call config (fuel + 1) callee args p : Eval Int64) m).onMachine
                    ({ · with env }) := by
  constructor
  · intro s fuel program answer after h name hname
    obtain ⟨m, hm, rfl⟩ := Session.exists_machine_of_perform h
    exact (Eval.reassigns_program s.config fuel 0 program.body s.machine m hm).get?_eq hname
  · intro config m env callee f args p values mid mid' n n' hroot hf hargs hargs' hfunctions houtput
      fuel hn hn'
    exact Eval.call_withEnv hroot hf (Eval.exprs_of_le hn hargs) (Eval.exprs_of_le hn' hargs')
      hfunctions houtput p

/-- A function assigns a variable of its own that is named like the global `x`, which stays as it
was; and a function adds the global `g` to its argument, whether or not its caller has a `g` too. -/
theorem scopes_isolated_shadowing :
    (∃ b answer after, parseProgram "function f(a) { x = a; return x; } y = f(7);" "f" = .ok b ∧
      (⟨.standard, ⟨Table.empty.insert "x" 5, none⟩, .empty, #[], 0, 0⟩ : Session).run 40 b =
        some (answer, after) ∧ after.globals.get? "x" = some 5 ∧
          after.globals.get? "y" = some 7) ∧
    ∃ (m : Machine) (env : Environment), m.env.get? "g" = some 100 ∧ env.get? "g" = some 2 ∧
      (Eval.call .standard 9 "f" [.number 7 ⟨"f", 2, 3⟩] ⟨"f", 0⟩ : Eval Int64) m = .done 9 m ∧
        (Eval.call .standard 9 "f" [.number 7 ⟨"f", 2, 3⟩] ⟨"f", 0⟩ : Eval Int64)
          { m with env } = .done 9 { m with env } := by
  obtain ⟨hkept, hcall⟩ := scopes_isolated
  constructor
  · have hends : (parseProgram "function f(a) { x = a; return x; } y = f(7);" "f").toOption.map
        (fun b => (Stmt.targetsList b.body,
          ((⟨.standard, ⟨Table.empty.insert "x" 5, none⟩, .empty, #[], 0, 0⟩ : Session).run
            40 b).map (·.2.globals.get? "y"))) = some (["y"], some (some 7)) := by
      rw [parseProgram, Parse.onSource, Cursor.start_of_toList ?chars]
      case chars => exact String.toList_ofList
      decide +kernel
    cases hprogram : parseProgram "function f(a) { x = a; return x; } y = f(7);" "f" with
    | error e =>
      rw [hprogram] at hends
      cases hends
    | ok b =>
      rw [hprogram] at hends
      obtain ⟨htargets, hruns⟩ := Prod.mk.inj (Option.some.inj hends)
      obtain ⟨⟨answer, after⟩, hrun, hy⟩ := Option.map_eq_some_iff.mp hruns
      refine ⟨b, answer, after, rfl, hrun, ?_, hy⟩
      have hx : "x" ∉ Stmt.targetsList b.body := by
        rw [htargets]
        decide
      rw [hkept _ 40 b answer after hrun "x" hx]
      rfl
  · -- the local `g` of the one caller stands before the global `g`, which is all that the other has
    let root : Scope := ⟨Table.empty.insert "g" 2, none⟩
    let m : Machine := ⟨⟨⟨Table.empty.insert "g" 100, none⟩, [root]⟩,
      Table.empty.declare ⟨"f", ["a"], ⟨[.ret (.binary .add (.var "a" ⟨"f", 5, 6⟩)
        (.var "g" ⟨"f", 7, 8⟩) ⟨"f", 5, 8⟩) ⟨"f", 5, 9⟩], ⟨"f", 4, 10⟩⟩⟩, #[], 0, 0⟩
    have hm : (Eval.call .standard 9 "f" [.number 7 ⟨"f", 2, 3⟩] ⟨"f", 0⟩ : Eval Int64) m =
        .done 9 m := rfl
    refine ⟨m, .ofScope root, rfl, rfl, hm, ?_⟩
    rw [hcall .standard m (.ofScope root) "f" _ [.number 7 ⟨"f", 2, 3⟩] ⟨"f", 0⟩ [7] m _ 3 3 rfl rfl
      rfl rfl rfl rfl 8 (by decide) (by decide), hm]
    rfl

end IntLang
