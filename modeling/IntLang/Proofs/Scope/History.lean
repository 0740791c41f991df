import Mathlib.Tactic.ByContra
import IntLang.Eval.Machine

/-!
Scopes after any sequence of assignments, accepted and refused ones. A scope lists the names that
were accepted in the order in which they first were, each with the value that it got last. Only a
name that is new in the scope is refused, and only in a full scope, so there are never more names
than there is room for. The scopes around it stay as they are. A name is looked up through the
scopes from the inside out, and the first that binds it gives the value.
-/
namespace IntLang

namespace Table

theorem size_eq (t : Table α) : t.size = t.names.length :=
  (List.length_map ..).symm

theorem names_prefix_insert (t : Table α) (name : String) (value : α) :
    t.names <+: (t.insert name value).names := by
  rw [names_insert]
  split
  · exact List.prefix_rfl
  · exact List.prefix_append _ _

theorem size_insert_of_mem {t : Table α} {name : String} (h : name ∈ t.names) (value : α) :
    (t.insert name value).size = t.size := by
  rw [size_eq, size_eq, names_insert, if_pos h]

/-- A value for a new name makes a table longer by one. -/
theorem size_insert_of_notMem {t : Table α} {name : String} (h : name ∉ t.names) (value : α) :
    (t.insert name value).size = t.size + 1 := by
  rw [size_eq, size_eq, names_insert, if_neg h, List.length_append, List.length_singleton]

end Table

namespace Scope

variable {s t u : Scope}

def Fits (s : Scope) : Prop := ∀ limit, s.capacity = some limit → s.bindings.size ≤ limit

/-- The second scope has the variables of the first one in their order, and further ones behind them
as far as there is room. -/
structure Grows (s t : Scope) : Prop where
  names : s.bindings.names <+: t.bindings.names
  capacity : t.capacity = s.capacity
  fits : s.Fits → t.Fits

theorem Grows.refl (s : Scope) : s.Grows s := ⟨List.prefix_rfl, rfl, id⟩

theorem Grows.trans (h : s.Grows t) (h' : t.Grows u) : s.Grows u :=
  ⟨h.names.trans h'.names, h'.capacity.trans h.capacity, h'.fits ∘ h.fits⟩

/-- Binding a variable appends it if it is new, which takes room that is left. -/
theorem grows_of_assign {name : String} {value : Int64} (h : s.assign name value = .ok t) :
    s.Grows t := by
  have hadded : t = { s with bindings := s.bindings.insert name value } := eq_of_assign_eq_ok h
  refine ⟨?_, by rw [hadded], fun hfits limit hlimit => ?_⟩
  · rw [hadded]
    exact Table.names_prefix_insert _ _ _
  · have hcapacity : s.capacity = some limit := by
      rw [hadded] at hlimit
      exact hlimit
    have hsize : t.bindings.size = (s.bindings.insert name value).size := by rw [hadded]
    by_cases hmem : name ∈ s.bindings.names
    · rw [hsize, Table.size_insert_of_mem hmem]
      exact hfits limit hcapacity
    · rw [hsize, Table.size_insert_of_notMem hmem]
      by_contra hfull
      have herror : s.assign name value = .error (.capacityExceeded limit) :=
        assign_eq_error_iff.mpr ⟨limit, hcapacity, by omega, hmem, rfl⟩
      rw [h] at herror
      cases herror

end Scope

/-- A name that comes again is not listed again. -/
theorem eraseDups_concat (names : List String) (name : String) :
    (names ++ [name]).eraseDups =
      if name ∈ names then names.eraseDups else names.eraseDups ++ [name] := by
  rw [List.eraseDups_append]
  by_cases hmem : name ∈ names
  · simp [List.removeAll, hmem]
  · simp [List.removeAll, hmem, List.eraseDups_cons]

/-- With no name twice, an entry is what is found under its name. -/
theorem lookup_eq_some_iff_mem {entries : List (String × α)} (h : (entries.map Prod.fst).Nodup)
    {name : String} {value : α} : entries.lookup name = some value ↔ (name, value) ∈ entries := by
  induction entries with
  | nil => simp
  | cons entry rest ih =>
    obtain ⟨n, v⟩ := entry
    rw [List.map_cons, List.nodup_cons] at h
    rw [List.lookup_cons, List.mem_cons]
    by_cases hname : name = n
    · subst hname
      have hrest : (name, value) ∉ rest := fun hmem => h.1 (List.mem_map.mpr ⟨_, hmem, rfl⟩)
      simp [hrest, eq_comm]
    · simp [beq_false_of_ne hname, hname, ih h.2]

theorem Table.get?_eq_some_iff_mem {t : Table α} {name : String} {value : α} :
    t.get? name = some value ↔ (name, value) ∈ t.entries :=
  lookup_eq_some_iff_mem t.nodup_names

theorem Table.get?_eq_none_iff {t : Table α} {name : String} :
    t.get? name = none ↔ name ∉ t.names := by
  rw [← contains_iff, contains, Bool.not_eq_true, Option.isSome_eq_false_iff,
    Option.isNone_iff_eq_none]

namespace Scope

variable {s t : Scope}

/-- The scope lists the names of a history in the order in which they first came, each with the last
value that it got. -/
structure Lists (s : Scope) (history : List (String × Int64)) : Prop where
  names : s.bindings.names = (history.map Prod.fst).eraseDups
  values : ∀ name, s.get? name = history.reverse.lookup name

theorem lists_empty (capacity : Option Nat) : (empty capacity).Lists [] := ⟨rfl, fun _ => rfl⟩

theorem fits_empty (capacity : Option Nat) : (empty capacity).Fits := fun _ _ => Nat.zero_le _

/-- A binding that is accepted goes to the end of the history. -/
theorem Lists.assign {history : List (String × Int64)} (h : s.Lists history) {name : String}
    {value : Int64} (hassign : s.assign name value = .ok t) :
    t.Lists (history ++ [(name, value)]) := by
  rw [eq_of_assign_eq_ok hassign]
  refine ⟨?_, fun other => ?_⟩
  · rw [Table.names_insert, List.map_append, List.map_singleton, eraseDups_concat, h.names]
    simp only [List.mem_eraseDups]
  · rw [List.reverse_append, List.reverse_singleton, List.singleton_append, List.lookup_cons]
    by_cases hname : other = name
    · subst hname
      rw [beq_self_eq_true]
      exact Table.get?_insert_self _ _ _
    · rw [beq_false_of_ne hname]
      exact (Table.get?_insert_of_ne hname _ _).trans (h.values other)

end Scope

/-- The first of some scopes that binds a name gives it a value. -/
def BindsFirst (scopes : List Scope) (name : String) (value : Int64) : Prop :=
  ∃ inner scope around, scopes = inner ++ scope :: around ∧
    (∀ s ∈ inner, name ∉ s.bindings.names) ∧ (name, value) ∈ scope.bindings.entries

structure Assignment where
  name : String
  value : Int64
  position : Position

namespace Environment

def answer (env : Environment) (a : Assignment) : Except Error Environment :=
  env.assign a.name a.value a.position

def perform (env : Environment) (a : Assignment) : Environment :=
  match env.answer a with
  | .ok after => after
  | .error _ => env

def performs (env : Environment) (requests : List Assignment) : Environment :=
  requests.foldl perform env

def accepted (env : Environment) : List Assignment → List (String × Int64)
  | [] => []
  | a :: requests =>
    match env.answer a with
    | .ok after => (a.name, a.value) :: after.accepted requests
    | .error _ => env.accepted requests

section

variable {env after : Environment} {a : Assignment} {name : String} {value : Int64} {e : Error}

theorem answer_eq_error_iff :
    env.answer a = .error e ↔
      ∃ limit, env.scope.capacity = some limit ∧ limit ≤ env.scope.bindings.size ∧
        a.name ∉ env.scope.bindings.names ∧ e = ⟨.capacityExceeded limit, a.position⟩ := by
  unfold answer assign
  cases hscope : env.scope.assign a.name a.value with
  | ok scope =>
    simp only [reduceCtorEq, false_iff]
    rintro ⟨limit, hcapacity, hfull, hnew, -⟩
    rw [Scope.assign_eq_error_iff.mpr ⟨limit, hcapacity, hfull, hnew, rfl⟩] at hscope
    cases hscope
  | error cause =>
    obtain ⟨limit, hcapacity, hfull, hnew, rfl⟩ := Scope.assign_eq_error_iff.mp hscope
    simp only [Except.error.injEq]
    constructor
    · rintro rfl
      exact ⟨limit, hcapacity, hfull, hnew, rfl⟩
    · rintro ⟨limit', hcapacity', -, -, rfl⟩
      rw [hcapacity, Option.some.injEq] at hcapacity'
      rw [hcapacity']

/-- A request changes the innermost scope or nothing. -/
theorem perform_cases (env : Environment) (a : Assignment) :
    (∃ scope, env.scope.assign a.name a.value = .ok scope ∧
        env.answer a = .ok { env with scope } ∧ env.perform a = { env with scope }) ∨
      ∃ e, env.answer a = .error e ∧ env.perform a = env := by
  unfold perform
  cases h : env.answer a with
  | ok after =>
    obtain ⟨scope, hscope, rfl⟩ := exists_of_assign_eq_ok h
    exact Or.inl ⟨scope, hscope, rfl, rfl⟩
  | error e => exact Or.inr ⟨e, rfl, rfl⟩

theorem performs_spec (env : Environment) (requests : List Assignment)
    {history : List (String × Int64)} (h : env.scope.Lists history) :
    (env.performs requests).scope.Lists (history ++ env.accepted requests) ∧
      env.scope.Grows (env.performs requests).scope ∧
        (env.performs requests).outer = env.outer := by
  induction requests generalizing env history with
  | nil => exact ⟨by rwa [accepted, List.append_nil], .refl _, rfl⟩
  | cons a requests ih =>
    rw [performs, List.foldl_cons, ← performs, accepted]
    rcases env.perform_cases a with ⟨scope, hscope, hanswer, hperform⟩ | ⟨e, hanswer, hperform⟩
    · obtain ⟨hlists, hgrows, houter⟩ := ih { env with scope } (h.assign hscope)
      simp only [hanswer, hperform]
      rw [List.append_assoc, List.singleton_append] at hlists
      exact ⟨hlists, (Scope.grows_of_assign hscope).trans hgrows, houter⟩
    · simp only [hanswer, hperform]
      exact ih env h

theorem get?_eq_none_iff :
    env.get? name = none ↔ ∀ s ∈ env.scope :: env.outer, name ∉ s.bindings.names := by
  rw [get?, List.findSome?_eq_none_iff]
  exact forall₂_congr fun s _ => Table.get?_eq_none_iff

theorem get?_eq_some_iff :
    env.get? name = some value ↔ BindsFirst (env.scope :: env.outer) name value := by
  rw [get?, List.findSome?_eq_some_iff]
  unfold BindsFirst
  constructor
  · rintro ⟨inner, scope, around, hscopes, hvalue, hinner⟩
    exact ⟨inner, scope, around, hscopes, fun s hs => Table.get?_eq_none_iff.mp (hinner s hs),
      Table.get?_eq_some_iff_mem.mp hvalue⟩
  · rintro ⟨inner, scope, around, hscopes, hinner, hvalue⟩
    exact ⟨inner, scope, around, hscopes, Table.get?_eq_some_iff_mem.mpr hvalue,
      fun s hs => Table.get?_eq_none_iff.mpr (hinner s hs)⟩

theorem lookup_eq_ok_iff {p : Position} :
    env.lookup name p = .ok value ↔ env.get? name = some value := by
  unfold lookup
  cases env.get? name <;> simp

theorem lookup_eq_error_iff {p : Position} :
    env.lookup name p = .error e ↔
      env.get? name = none ∧ e = ⟨.undefinedVariable name, p⟩ := by
  unfold lookup
  cases env.get? name <;> simp [eq_comm]

end

/-- An environment after any requests to bind names is an ordered map with shadowing and a limit.
Its innermost scope lists each name that was accepted once, in the order in which the names first
were, with the value accepted last. A request is refused just if its name is new in the innermost
scope and this scope is full, and then nothing changes; so the limit is kept, and the scopes around
are never written to. The value of a name is that of the innermost scope that binds it. -/
theorem binds_in_order (capacity : Option Nat) (outer : List Scope) (requests : List Assignment) :
    let start : Environment := ⟨.empty capacity, outer⟩
    let env := start.performs requests
    let history := start.accepted requests
    (env.scope.bindings.names = (history.map Prod.fst).eraseDups ∧
      env.scope.bindings.names.Nodup ∧
      ∀ name value, (name, value) ∈ env.scope.bindings.entries ↔
        history.reverse.lookup name = some value) ∧
    (∀ a e, env.answer a = .error e ↔
      ∃ limit, capacity = some limit ∧ limit ≤ env.scope.bindings.size ∧
        a.name ∉ env.scope.bindings.names ∧ e = ⟨.capacityExceeded limit, a.position⟩) ∧
    (∀ a e, env.answer a = .error e → env.perform a = env ∧
      ∀ m : Machine, m.env = env → Eval.assign a.name a.value a.position m = .failed e m) ∧
    (∀ a, a.name ∈ env.scope.bindings.names → ∃ after, env.answer a = .ok after) ∧
    (∀ limit, capacity = some limit → env.scope.bindings.size ≤ limit) ∧
    env.pop? = start.pop? ∧
    (∀ name value, env.get? name = some value ↔ BindsFirst (env.scope :: outer) name value) ∧
    (∀ name, env.get? name = none ↔ ∀ s ∈ env.scope :: outer, name ∉ s.bindings.names) ∧
    ∀ name p, (∀ value, env.lookup name p = .ok value ↔ env.get? name = some value) ∧
      ∀ e, env.lookup name p = .error e ↔
        env.get? name = none ∧ e = ⟨.undefinedVariable name, p⟩ := by
  intro start env history
  obtain ⟨hlists, hgrows, houter⟩ := start.performs_spec requests (Scope.lists_empty capacity)
  rw [List.nil_append] at hlists
  have hcapacity : env.scope.capacity = capacity := hgrows.capacity
  have houter : env.outer = outer := houter
  have hrefused : ∀ a e, env.answer a = .error e ↔
      ∃ limit, capacity = some limit ∧ limit ≤ env.scope.bindings.size ∧
        a.name ∉ env.scope.bindings.names ∧ e = ⟨.capacityExceeded limit, a.position⟩ := by
    intro a e
    rw [answer_eq_error_iff, hcapacity]
  refine ⟨⟨hlists.names, env.scope.bindings.nodup_names, fun name value => ?_⟩, hrefused,
    fun a e he => ⟨?_, fun m hm => ?_⟩, fun a hmem => ?_, fun limit hlimit => ?_, ?_,
    fun name value => ?_, fun name => ?_, fun name p => ⟨fun value => ?_, fun e => ?_⟩⟩
  · rw [← Table.get?_eq_some_iff_mem]
    exact Eq.congr_left (hlists.values name)
  · rw [perform, he]
  · rw [← hm] at he
    exact Eval.assign_of_error he
  · cases h : env.answer a with
    | ok after => exact ⟨after, rfl⟩
    | error e =>
      obtain ⟨-, -, -, hnew, -⟩ := (hrefused a e).mp h
      exact absurd hmem hnew
  · exact hgrows.fits (Scope.fits_empty capacity) limit (hcapacity.trans hlimit)
  · simp only [pop?, houter, start]
  · rw [get?_eq_some_iff, houter]
  · rw [get?_eq_none_iff, houter]
  · exact lookup_eq_ok_iff
  · exact lookup_eq_error_iff

/-- In a scope with room for one name, `x` can be bound again and again, but `y` cannot, although a
scope around binds it. -/
theorem binds_in_order_oneName :
    let start : Environment := ⟨.empty (some 1), [⟨.insert .empty "y" 5, none⟩]⟩
    let env := start.performs [⟨"x", 1, ⟨"f", 0⟩⟩, ⟨"y", 2, ⟨"f", 7⟩⟩, ⟨"x", 3, ⟨"f", 14⟩⟩]
    ("x", 3) ∈ env.scope.bindings.entries ∧
      env.answer ⟨"y", 4, ⟨"f", 21⟩⟩ = .error ⟨.capacityExceeded 1, ⟨"f", 21⟩⟩ ∧
        env.perform ⟨"y", 4, ⟨"f", 21⟩⟩ = env ∧
          (∃ after, env.answer ⟨"x", 4, ⟨"f", 28⟩⟩ = .ok after) ∧
            env.scope.bindings.size ≤ 1 ∧ env.get? "y" = some 5 := by
  intro start env
  obtain ⟨⟨-, -, hvalues⟩, hrefused, hkept, hagain, hfits, -, hget, -⟩ :=
    binds_in_order (some 1) [⟨.insert .empty "y" 5, none⟩]
      [⟨"x", 1, ⟨"f", 0⟩⟩, ⟨"y", 2, ⟨"f", 7⟩⟩, ⟨"x", 3, ⟨"f", 14⟩⟩]
  have hfull := (hrefused ⟨"y", 4, ⟨"f", 21⟩⟩ ⟨.capacityExceeded 1, ⟨"f", 21⟩⟩).mpr
    ⟨1, rfl, by decide, by decide, rfl⟩
  refine ⟨(hvalues "x" 3).mpr (by decide), hfull, (hkept _ _ hfull).1, hagain _ (by decide),
    hfits 1 rfl, (hget "y" 5).mpr ?_⟩
  exact ⟨[env.scope], ⟨.insert .empty "y" 5, none⟩, [], rfl, by decide, by decide⟩

end Environment

end IntLang
