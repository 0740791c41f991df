import IntLang.Error.Basic
import IntLang.Scope.Table

/-!
Scopes and environments. A scope binds variables to integers and may have a capacity, the greatest
number of variables it takes. An environment is a scope inside others: a name is looked up from the
innermost scope outwards, and bound in the innermost scope only.
-/
namespace IntLang

/-- Variables with their values, and how many of them there may be at most. -/
structure Scope where
  bindings : Table Int64
  capacity : Option Nat

namespace Scope

def empty (capacity : Option Nat) : Scope := ⟨.empty, capacity⟩

def get? (s : Scope) (name : String) : Option Int64 := s.bindings.get? name

/-- Binds a variable. One that is new needs room in the scope. -/
def assign (s : Scope) (name : String) (value : Int64) : Except Cause Scope :=
  let bound : Scope := { s with bindings := s.bindings.insert name value }
  if s.bindings.contains name then .ok bound
  else
    match s.capacity with
    | none => .ok bound
    | some limit =>
      if limit ≤ s.bindings.size then .error (.capacityExceeded limit) else .ok bound

theorem assign_eq_error_iff {s : Scope} {name : String} {value : Int64} {cause : Cause} :
    s.assign name value = .error cause ↔
      ∃ limit, s.capacity = some limit ∧ limit ≤ s.bindings.size ∧
        name ∉ s.bindings.names ∧ cause = .capacityExceeded limit := by
  unfold assign
  by_cases hmem : name ∈ s.bindings.names
  · have hc := Table.contains_iff.mpr hmem
    simp [hc, hmem]
  · have hc : s.bindings.contains name = false :=
      Bool.eq_false_iff.mpr fun h => hmem (Table.contains_iff.mp h)
    cases hcap : s.capacity with
    | none => simp [hc]
    | some limit =>
      by_cases hle : limit ≤ s.bindings.size
      · simp [hc, hle, hmem, eq_comm]
      · simp [hc, hle]

theorem eq_of_assign_eq_ok {s t : Scope} {name : String} {value : Int64}
    (h : s.assign name value = .ok t) :
    t = { s with bindings := s.bindings.insert name value } := by
  unfold assign at h
  by_cases hc : s.bindings.contains name = true
  · rw [if_pos hc] at h
    exact (Except.ok.inj h).symm
  · rw [if_neg hc] at h
    cases hcap : s.capacity with
    | none =>
      simp only [hcap] at h
      rw [← Except.ok.inj h]
    | some limit =>
      simp only [hcap] at h
      by_cases hle : limit ≤ s.bindings.size
      · rw [if_pos hle] at h
        cases h
      · rw [if_neg hle] at h
        rw [← Except.ok.inj h]

def assignAll (s : Scope) : List (String × Int64) → Except Cause Scope
  | [] => .ok s
  | (name, value) :: rest =>
    match s.assign name value with
    | .ok s => s.assignAll rest
    | .error cause => .error cause

theorem exists_of_assign_eq_error {s : Scope} {name : String} {value : Int64} {cause : Cause}
    (h : s.assign name value = .error cause) : ∃ limit, cause = .capacityExceeded limit := by
  obtain ⟨limit, -, -, -, hcause⟩ := assign_eq_error_iff.mp h
  exact ⟨limit, hcause⟩

theorem exists_of_assignAll_eq_error {s : Scope} {bindings : List (String × Int64)} {cause : Cause}
    (h : s.assignAll bindings = .error cause) : ∃ limit, cause = .capacityExceeded limit := by
  induction bindings generalizing s with
  | nil => cases h
  | cons binding rest ih =>
    obtain ⟨name, value⟩ := binding
    rw [assignAll] at h
    cases hs : s.assign name value with
    | ok s' =>
      simp only [hs] at h
      exact ih h
    | error cause' =>
      simp only [hs, Except.error.injEq] at h
      subst h
      exact exists_of_assign_eq_error hs

end Scope

/-- A scope and the scopes around it, from the inside out. -/
structure Environment where
  scope : Scope
  outer : List Scope

namespace Environment

def ofScope (scope : Scope) : Environment := ⟨scope, []⟩

def root (env : Environment) : Scope := env.outer.getLastD env.scope

def push (env : Environment) (scope : Scope) : Environment := ⟨scope, env.scope :: env.outer⟩

def pop? (env : Environment) : Option Environment :=
  match env.outer with
  | [] => none
  | scope :: outer => some ⟨scope, outer⟩

def get? (env : Environment) (name : String) : Option Int64 :=
  (env.scope :: env.outer).findSome? (·.get? name)

def lookup (env : Environment) (name : String) (position : Position) : Except Error Int64 :=
  match env.get? name with
  | some value => .ok value
  | none => .error ⟨.undefinedVariable name, position⟩

def assign (env : Environment) (name : String) (value : Int64) (position : Position) :
    Except Error Environment :=
  match env.scope.assign name value with
  | .ok scope => .ok { env with scope }
  | .error cause => .error ⟨cause, position⟩

section

variable {env after : Environment} {name : String} {value : Int64} {p : Position} {e : Error}

theorem eq_of_lookup_eq_error (h : env.lookup name p = .error e) :
    e = ⟨.undefinedVariable name, p⟩ := by
  unfold lookup at h
  cases hvalue : env.get? name with
  | some value => simp only [hvalue, reduceCtorEq] at h
  | none =>
    simp only [hvalue, Except.error.injEq] at h
    exact h.symm

theorem exists_of_assign_eq_ok (h : env.assign name value p = .ok after) :
    ∃ scope, env.scope.assign name value = .ok scope ∧ after = { env with scope } := by
  unfold assign at h
  cases hscope : env.scope.assign name value with
  | ok scope =>
    simp only [hscope, Except.ok.injEq] at h
    exact ⟨scope, rfl, h.symm⟩
  | error cause => simp only [hscope, reduceCtorEq] at h

theorem exists_of_assign_eq_error (h : env.assign name value p = .error e) :
    ∃ limit, e = ⟨.capacityExceeded limit, p⟩ := by
  unfold assign at h
  cases hscope : env.scope.assign name value with
  | ok scope => simp only [hscope, reduceCtorEq] at h
  | error cause =>
    simp only [hscope, Except.error.injEq] at h
    obtain ⟨limit, rfl⟩ := Scope.exists_of_assign_eq_error hscope
    exact ⟨limit, h.symm⟩

end

end Environment

end IntLang
