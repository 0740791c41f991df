import Mathlib.Data.List.Forall2
import IntLang.Proofs.Eval.Progress
import IntLang.Proofs.Session.Fuel

/-!
Two runs of one program under different limits. As long as the run under the smaller limits does not
fail at one of them, both runs go through the same steps on machines that differ in nothing but the
room of their scopes. When it does, the other run goes on and prints no less.
-/
namespace IntLang

/-- The second capacity is at least as large as the first. No capacity is the largest. -/
def CapacityLe : Option Nat → Option Nat → Prop
  | _, none => True
  | none, some _ => False
  | some a, some b => a ≤ b

/-- The second configuration allows at least as much as the first. -/
structure Config.Laxer (c d : Config) : Prop where
  calls : c.maxCallDepth ≤ d.maxCallDepth
  levels : c.nestingLimit ≤ d.nestingLimit
  room : CapacityLe c.maxVariables d.maxVariables

def Cause.isLimit : Cause → Bool
  | recursionLimit _ | capacityExceeded _ => true
  | _ => false

structure Scope.Roomier (s t : Scope) : Prop where
  bindings : t.bindings = s.bindings
  capacity : CapacityLe s.capacity t.capacity

namespace Scope

variable {s t s' : Scope}

theorem isLimit_of_assign {name : String} {value : Int64} {cause : Cause}
    (h : s.assign name value = .error cause) : cause.isLimit = true := by
  obtain ⟨limit, rfl⟩ := exists_of_assign_eq_error h
  rfl

theorem isLimit_of_assignAll {bindings : List (String × Int64)} {cause : Cause}
    (h : s.assignAll bindings = .error cause) : cause.isLimit = true := by
  obtain ⟨limit, rfl⟩ := exists_of_assignAll_eq_error h
  rfl

namespace Roomier

/-- What has room in a scope has room in one with more room. -/
theorem assign (h : s.Roomier t) {name : String} {value : Int64}
    (hs : s.assign name value = .ok s') : ∃ t', t.assign name value = .ok t' ∧ s'.Roomier t' := by
  obtain ⟨hbindings, hcapacity⟩ := h
  cases ht : t.assign name value with
  | ok t' =>
    refine ⟨t', rfl, ?_⟩
    obtain rfl := eq_of_assign_eq_ok hs
    obtain rfl := eq_of_assign_eq_ok ht
    exact ⟨by rw [hbindings], hcapacity⟩
  | error cause =>
    obtain ⟨limit, hlimit, hfull, hnew, -⟩ := assign_eq_error_iff.mp ht
    rw [hlimit] at hcapacity
    rw [hbindings] at hfull hnew
    cases hroom : s.capacity with
    | none =>
      rw [hroom] at hcapacity
      exact hcapacity.elim
    | some room =>
      rw [hroom] at hcapacity
      have hle : room ≤ limit := hcapacity
      have herror : s.assign name value = .error (.capacityExceeded room) :=
        assign_eq_error_iff.mpr ⟨room, hroom, Nat.le_trans hle hfull, hnew, rfl⟩
      rw [hs] at herror
      cases herror

theorem assignAll {bindings : List (String × Int64)} (h : s.Roomier t)
    (hs : s.assignAll bindings = .ok s') :
    ∃ t', t.assignAll bindings = .ok t' ∧ s'.Roomier t' := by
  induction bindings generalizing s t with
  | nil =>
    cases hs
    exact ⟨t, rfl, h⟩
  | cons binding rest ih =>
    obtain ⟨name, value⟩ := binding
    rw [Scope.assignAll] at hs ⊢
    cases hfirst : s.assign name value with
    | ok mid =>
      simp only [hfirst] at hs
      obtain ⟨mid', hfirst', hmid⟩ := h.assign hfirst
      simp only [hfirst']
      exact ih hmid hs
    | error cause =>
      simp only [hfirst] at hs
      cases hs

end Roomier

end Scope

structure Environment.Roomier (env env' : Environment) : Prop where
  scope : env.scope.Roomier env'.scope
  outer : List.Forall₂ Scope.Roomier env.outer env'.outer

namespace Environment.Roomier

variable {env env' : Environment}

theorem root (h : env.Roomier env') : env.root.Roomier env'.root := by
  obtain ⟨scope, outer⟩ := env
  obtain ⟨scope', outer'⟩ := env'
  obtain ⟨hscope, houter⟩ := h
  change scope.Roomier scope' at hscope
  change List.Forall₂ Scope.Roomier outer outer' at houter
  show (outer.getLastD scope).Roomier (outer'.getLastD scope')
  induction houter generalizing scope scope' with
  | nil => exact hscope
  | cons hfirst hrest ih =>
    rw [List.getLastD_cons, List.getLastD_cons]
    exact ih _ _ hfirst

theorem get? (h : env.Roomier env') (name : String) : env'.get? name = env.get? name := by
  have hall : List.Forall₂ Scope.Roomier (env.scope :: env.outer) (env'.scope :: env'.outer) :=
    .cons h.scope h.outer
  unfold Environment.get?
  generalize env.scope :: env.outer = scopes, env'.scope :: env'.outer = scopes' at hall
  induction hall with
  | nil => rfl
  | cons hfirst hrest ih =>
    rw [List.findSome?_cons, List.findSome?_cons, ih, Scope.get?, hfirst.bindings, Scope.get?]

theorem lookup (h : env.Roomier env') (name : String) (p : Position) :
    env'.lookup name p = env.lookup name p := by
  rw [Environment.lookup, Environment.lookup, h.get?]

end Environment.Roomier

/-- The second machine differs from the first in nothing but the room of its scopes. -/
structure Machine.Roomier (m n : Machine) : Prop where
  env : m.env.Roomier n.env
  functions : n.functions = m.functions
  output : n.output = m.output
  callDepth : n.callDepth = m.callDepth
  nestingDepth : n.nestingDepth = m.nestingDepth

namespace Machine

def PrintsLess (m n : Machine) : Prop := m.output.toList <+: n.output.toList

theorem progress_printsLess : Progress PrintsLess where
  refl _ := List.prefix_rfl
  trans h₁ h₂ := List.IsPrefix.trans h₁ h₂
  assign _ := List.prefix_rfl
  declare _ _ := List.prefix_rfl
  emit m line := ⟨[line], by rw [Array.toList_push]⟩
  nested h := h
  called h := h

theorem Roomier.printsLess {m n : Machine} (h : m.Roomier n) : m.PrintsLess n := by
  have houtput : n.output.toList = m.output.toList := congrArg Array.toList h.output
  show m.output.toList <+: n.output.toList
  simp only [houtput, List.prefix_rfl]

theorem Roomier.opened {m n : Machine} (h : m.Roomier n) : m.opened.Roomier n.opened :=
  { h with nestingDepth := congrArg Nat.succ h.nestingDepth }

theorem Roomier.closed {m n : Machine} (h : m.Roomier n) : m.closed.Roomier n.closed :=
  { h with nestingDepth := congrArg Nat.pred h.nestingDepth }

theorem Roomier.entered {m n : Machine} (h : m.Roomier n) {s t : Scope} (hst : s.Roomier t) :
    (m.entered s).Roomier (n.entered t) :=
  { h with
    env := ⟨hst, .cons h.env.root .nil⟩
    callDepth := congrArg Nat.succ h.callDepth }

theorem Roomier.left {m n : Machine} (h : m.Roomier n) {env env' : Environment}
    (henv : env.Roomier env') : (m.left env).Roomier (n.left env') :=
  { h with
    env := henv
    callDepth := congrArg Nat.pred h.callDepth }

end Machine

/-- The second outcome is the first one on a roomier machine. If the first is a failure at a limit,
the second may be any that has printed no less. -/
inductive Outcome.Outdone {α : Type} : Outcome α → Outcome α → Prop
  | done {a m n} (h : m.Roomier n) : Outdone (.done a m) (.done a n)
  | failed {e m n} (h : m.Roomier n) : Outdone (.failed e m) (.failed e n)
  | limit {e m} {outcome : Outcome α} (he : e.cause.isLimit = true)
      (h : ∀ n, outcome.machine? = some n → m.PrintsLess n) : Outdone (.failed e m) outcome
  | outOfFuel {outcome} : Outdone .outOfFuel outcome

theorem Outcome.Outdone.onMachine {α : Type} {outcome outcome' : Outcome α}
    (h : outcome.Outdone outcome') {change change' : Machine → Machine}
    (hroom : ∀ m n, m.Roomier n → (change m).Roomier (change' n))
    (hless : ∀ m n, m.PrintsLess n → (change m).PrintsLess (change' n)) :
    (outcome.onMachine change).Outdone (outcome'.onMachine change') := by
  cases h with
  | done hmn => exact .done (hroom _ _ hmn)
  | failed hmn => exact .failed (hroom _ _ hmn)
  | limit he hmn =>
    refine .limit he fun after hafter => ?_
    rw [Outcome.machine?_onMachine, Option.map_eq_some_iff] at hafter
    obtain ⟨inside, hinside, rfl⟩ := hafter
    exact hless _ _ (hmn inside hinside)
  | outOfFuel => exact .outOfFuel

namespace Eval

open Machine (PrintsLess progress_printsLess)

/-- On a roomier machine the second computation does what the first one does, or goes on where the
first one fails at a limit. -/
structure Outdone (x y : Eval α) : Prop where
  advances : y.Advances PrintsLess
  outdone : ∀ m n, m.Roomier n → (x m).Outdone (y n)

namespace Outdone

variable {c d : Config}

theorem bind {x y : Eval α} {f g : α → Eval β} (h : Outdone x y) (hf : ∀ a, Outdone (f a) (g a)) :
    Outdone (x >>= f) (y >>= g) := by
  have hg : (y >>= g).Advances PrintsLess :=
    advances_bind progress_printsLess h.advances fun a => (hf a).advances
  refine ⟨hg, fun m n hmn => ?_⟩
  have hxy := h.outdone m n hmn
  generalize hx : x m = first, hy : y n = second at hxy
  cases hxy with
  | done hmid =>
    rw [bind_of_done hx, bind_of_done hy]
    exact (hf _).outdone _ _ hmid
  | failed hmid =>
    rw [bind_of_failed hx, bind_of_failed hy]
    exact .failed hmid
  | limit he hless =>
    rw [bind_of_failed hx]
    refine .limit he fun after hafter => ?_
    rcases machine?_bind hafter with ⟨a, mid, hdone, hrest⟩ | ⟨e, hfailed⟩
    · have hmid := hless mid (by rw [← hy, hdone]; rfl)
      exact progress_printsLess.trans hmid ((hf a).advances mid after hrest)
    · exact hless after (by rw [← hy, hfailed]; rfl)
  | outOfFuel =>
    rw [bind_of_outOfFuel hx]
    exact .outOfFuel

/-- A failure at a limit is outdone by every computation that takes nothing back. -/
theorem of_limit {y : Eval α} (hy : y.Advances PrintsLess) {m n : Machine} (hmn : m.Roomier n)
    {e : Error} (he : e.cause.isLimit = true) : (Outcome.failed e m).Outdone (y n) := by
  refine .limit he fun after hafter => ?_
  exact progress_printsLess.trans hmn.printsLess (hy n after hafter)

theorem lookup (name : String) (p : Position) :
    Outdone (Eval.lookup name p) (Eval.lookup name p) := by
  refine ⟨advances_lookup progress_printsLess.toStepwise name p, fun m n hmn => ?_⟩
  have hsame := hmn.env.lookup name p
  cases hvalue : m.env.lookup name p with
  | ok value =>
    rw [lookup_of_ok hvalue, lookup_of_ok (hsame.trans hvalue)]
    exact .done hmn
  | error e =>
    rw [lookup_of_error hvalue, lookup_of_error (hsame.trans hvalue)]
    exact .failed hmn

theorem assign (name : String) (value : Int64) (p : Position) :
    Outdone (Eval.assign name value p) (Eval.assign name value p) := by
  have hadvances := advances_assign progress_printsLess.toStepwise name value p
  refine ⟨hadvances, fun m n hmn => ?_⟩
  cases hscope : m.env.scope.assign name value with
  | ok scope =>
    obtain ⟨scope', hscope', hroom⟩ := hmn.env.scope.assign hscope
    simp only [Eval.assign, Environment.assign, hscope, hscope']
    exact .done { hmn with env := ⟨hroom, hmn.env.outer⟩ }
  | error cause =>
    have hfailed : Eval.assign name value p m = .failed ⟨cause, p⟩ m := by
      simp only [Eval.assign, Environment.assign, hscope]
    rw [hfailed]
    exact of_limit hadvances hmn (Scope.isLimit_of_assign hscope)

theorem function? (name : String) : Outdone (Eval.function? name) (Eval.function? name) := by
  refine ⟨advances_function? progress_printsLess.toStepwise name, fun m n hmn => ?_⟩
  unfold Eval.function?
  rw [hmn.functions]
  exact .done hmn

theorem declare (f : Function) : Outdone (Eval.declare f) (Eval.declare f) := by
  refine ⟨advances_declare progress_printsLess.toStepwise f, fun m n hmn => ?_⟩
  exact .done { hmn with functions := congrArg (Table.declare · f) hmn.functions }

theorem emit (line : String) : Outdone (Eval.emit line) (Eval.emit line) := by
  refine ⟨advances_emit progress_printsLess.toStepwise line, fun m n hmn => ?_⟩
  exact .done { hmn with output := congrArg (Array.push · line) hmn.output }

theorem fail (cause : Cause) (p : Position) :
    Outdone (Eval.fail cause p : Eval α) (Eval.fail cause p) :=
  ⟨advances_fail progress_printsLess.toStepwise cause p, fun _ _ hmn => .failed hmn⟩

theorem pure (a : α) : Outdone (Pure.pure a) (Pure.pure a) :=
  ⟨advances_pure progress_printsLess.toStepwise a, fun _ _ hmn => .done hmn⟩

theorem nested {x y : Eval α} (h : Outdone x y) (hlaxer : c.Laxer d) (p : Position) :
    Outdone (Eval.nested c p x) (Eval.nested d p y) := by
  have hadvances := advances_nested progress_printsLess h.advances d p
  refine ⟨hadvances, fun m n hmn => ?_⟩
  have hlevels := hlaxer.levels
  have hdepth := hmn.nestingDepth
  by_cases hlimit : c.nestingLimit ≤ m.nestingDepth
  · rw [nested_of_limit hlimit]
    exact of_limit hadvances hmn rfl
  · have hlimit' : ¬d.nestingLimit ≤ n.nestingDepth := by omega
    rw [nested_of_room hlimit, nested_of_room hlimit']
    refine (h.outdone m.opened n.opened hmn.opened).onMachine ?_ ?_
    · intro inside inside' hinside
      exact hinside.closed
    · intro inside inside' hinside
      exact hinside

theorem called {x y : Eval α} (h : Outdone x y) (hlaxer : c.Laxer d) (p : Position)
    (bindings : List (String × Int64)) :
    Outdone (Eval.called c p bindings x) (Eval.called d p bindings y) := by
  have hadvances := advances_called progress_printsLess h.advances d p bindings
  refine ⟨hadvances, fun m n hmn => ?_⟩
  have hcalls := hlaxer.calls
  have hdepth := hmn.callDepth
  by_cases hlimit : c.maxCallDepth ≤ m.callDepth
  · rw [called_of_limit hlimit]
    exact of_limit hadvances hmn rfl
  · have hlimit' : ¬d.maxCallDepth ≤ n.callDepth := by omega
    cases hscope : (Scope.empty c.maxVariables).assignAll bindings with
    | error cause =>
      rw [called_of_noRoom hlimit hscope]
      exact of_limit hadvances hmn (Scope.isLimit_of_assignAll hscope)
    | ok scope =>
      have hempty : (Scope.empty c.maxVariables).Roomier (Scope.empty d.maxVariables) :=
        ⟨rfl, hlaxer.room⟩
      obtain ⟨scope', hscope', hroom⟩ := hempty.assignAll hscope
      rw [called_of_room hlimit hscope, called_of_room hlimit' hscope']
      refine (h.outdone _ _ (hmn.entered hroom)).onMachine ?_ ?_
      · intro inside inside' hinside
        exact hinside.left hmn.env
      · intro inside inside' hinside
        exact hinside

end Outdone

def outdoing {c d : Config} (h : c.Laxer d) : Congruence Eval Eval c d where
  rel := Outdone
  within := Outdone
  within_of_rel := id
  pure a := .pure a
  bind h hf := .bind h hf
  within_bind h hf := .bind h hf
  exhausted := ⟨nofun, fun _ _ _ => .outOfFuel⟩
  fail cause p := .fail cause p
  lookup name p := .lookup name p
  assign name value p := .assign name value p
  function? name := .function? name
  declare f := .declare f
  emit line := .emit line
  nested p _ _ hxy := .nested hxy h p
  called p bindings _ _ hxy := .called hxy h p bindings

end Eval

/-- The second session differs from the first in nothing but laxer limits. -/
structure Session.Laxer (s t : Session) : Prop where
  config : s.config.Laxer t.config
  globals : s.globals.Roomier t.globals
  functions : t.functions = s.functions
  output : t.output = s.output

namespace Session

variable {s t : Session}

theorem Laxer.machine (h : s.Laxer t) : s.machine.Roomier t.machine where
  env := ⟨h.globals, .nil⟩
  functions := h.functions
  output := h.output
  callDepth := rfl
  nestingDepth := rfl

theorem Laxer.outdone_program (h : s.Laxer t) (fuel : Nat) (program : Block) :
    Eval.Outdone (Eval.program s.config fuel 0 program.body)
      (Eval.program t.config fuel 0 program.body) :=
  ((Eval.outdoing h.config).allRelated fuel).program 0 program.body

/-- What does not fail at a limit goes the same way under laxer limits. -/
theorem Laxer.perform_eq (h : s.Laxer t) {x y : Eval α} (hxy : x.Outdone y)
    {answer : Except Error α} {after : Session} (hx : s.perform x = some (answer, after))
    (hlimit : ∀ e, answer = .error e → e.cause.isLimit = false) :
    ∃ after', t.perform y = some (answer, after') ∧
      after'.globals.bindings = after.globals.bindings ∧ after'.functions = after.functions ∧
        after'.output = after.output := by
  have houtdone := hxy.outdone s.machine t.machine h.machine
  rcases perform_eq_some_iff.mp hx with ⟨a, m, hrun, rfl, rfl⟩ | ⟨e, m, hrun, rfl, rfl⟩
  · rw [hrun] at houtdone
    generalize hy : y t.machine = second at houtdone
    cases houtdone with
    | done hmn =>
      exact ⟨_, perform_of_done hy, hmn.env.scope.bindings, hmn.functions, hmn.output⟩
  · rw [hrun] at houtdone
    generalize hy : y t.machine = second at houtdone
    cases houtdone with
    | failed hmn =>
      exact ⟨_, perform_of_failed hy, hmn.env.scope.bindings, hmn.functions, hmn.output⟩
    | limit he hless =>
      rw [hlimit e rfl] at he
      cases he

/-- Under laxer limits no less is printed. -/
theorem Laxer.output_prefix (h : s.Laxer t) {x y : Eval α} (hxy : x.Outdone y)
    {answer answer' : Except Error α} {after after' : Session}
    (hx : s.perform x = some (answer, after)) (hy : t.perform y = some (answer', after')) :
    after.output.toList <+: after'.output.toList := by
  have houtdone := hxy.outdone s.machine t.machine h.machine
  obtain ⟨m, hm, rfl⟩ := exists_machine_of_perform hx
  obtain ⟨n, hn, rfl⟩ := exists_machine_of_perform hy
  show m.PrintsLess n
  generalize x s.machine = first, y t.machine = second at houtdone hm hn
  cases houtdone with
  | done hmn =>
    cases hm
    cases hn
    exact hmn.printsLess
  | failed hmn =>
    cases hm
    cases hn
    exact hmn.printsLess
  | limit he hless =>
    cases hm
    exact hless n hn
  | outOfFuel => cases hm

/-- Laxer limits change nothing about a run that does not fail at a limit, and take back no line
that was printed before one did. -/
theorem run_of_laxer {s t : Session} (h : s.Laxer t) (program : Block) :
    (∀ fuel answer after, s.run fuel program = some (answer, after) →
      (∀ e, answer = .error e → e.cause.isLimit = false) →
        ∃ after', t.run fuel program = some (answer, after') ∧
          after'.globals.bindings = after.globals.bindings ∧
            after'.functions = after.functions ∧ after'.output = after.output) ∧
      ∀ fuel fuel' answer answer' after after', s.run fuel program = some (answer, after) →
        t.run fuel' program = some (answer', after') →
          after.output.toList <+: after'.output.toList := by
  constructor
  · intro fuel answer after hrun hlimit
    exact h.perform_eq (h.outdone_program fuel program) hrun hlimit
  · intro fuel fuel' answer answer' after after' hrun hrun'
    have hlonger := run_eq_of_le (Nat.le_max_left fuel fuel') hrun
    have hlonger' := run_eq_of_le (Nat.le_max_right fuel fuel') hrun'
    exact h.output_prefix (h.outdone_program _ program) hlonger hlonger'

/-- A program that needs one variable prints the same where there is room for any number. -/
theorem run_of_laxer_oneVariable :
    ∃ after, (new ⟨3, 9, none⟩).run 20 ⟨[.assign "x" (.number 7 ⟨"f", 4, 5⟩) ⟨"f", 0, 6⟩,
      .expression (.call "print" [.var "x" ⟨"f", 13, 14⟩] ⟨"f", 7, 15⟩) ⟨"f", 7, 16⟩],
        ⟨"f", 0, 16⟩⟩ = some (.ok 0, after) ∧ after.output = #["7"] := by
  have hlaxer : (new ⟨2, 4, some 1⟩).Laxer (new ⟨3, 9, none⟩) :=
    ⟨⟨by decide, by decide, trivial⟩, ⟨rfl, trivial⟩, rfl, rfl⟩
  obtain ⟨hsame, -⟩ := run_of_laxer hlaxer
    ⟨[.assign "x" (.number 7 ⟨"f", 4, 5⟩) ⟨"f", 0, 6⟩,
      .expression (.call "print" [.var "x" ⟨"f", 13, 14⟩] ⟨"f", 7, 15⟩) ⟨"f", 7, 16⟩], ⟨"f", 0, 16⟩⟩
  obtain ⟨after, hafter, -, -, houtput⟩ := hsame 20 (.ok 0) _ rfl nofun
  exact ⟨after, hafter, houtput⟩

end Session

end IntLang
