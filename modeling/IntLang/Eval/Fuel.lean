import IntLang.Eval.Machine
import IntLang.Eval.Related

/-!
Fuel only decides whether a run is followed to its end. A computation is below another if it does
the same whenever its fuel suffices; every part of the evaluator with some fuel is below the same
part with more.
-/
namespace IntLang

namespace Eval

/-- The second computation does what the first one does whenever the first has fuel enough. -/
def Below (x y : Eval α) : Prop := ∀ m, x m = .outOfFuel ∨ x m = y m

theorem Below.refl (x : Eval α) : Below x x := fun _ => Or.inr rfl

theorem Below.bind {x y : Eval α} {f g : α → Eval β} (h : Below x y)
    (hf : ∀ a, Below (f a) (g a)) : Below (x >>= f) (y >>= g) := by
  intro m
  cases hx : x m with
  | done a after =>
    rcases h m with hout | heq
    · rw [hx] at hout
      cases hout
    · rw [hx] at heq
      rw [bind_of_done hx, bind_of_done heq.symm]
      exact hf a after
  | failed e after =>
    rcases h m with hout | heq
    · rw [hx] at hout
      cases hout
    · rw [hx] at heq
      rw [bind_of_failed hx, bind_of_failed heq.symm]
      exact Or.inr rfl
  | outOfFuel => exact Or.inl (bind_of_outOfFuel hx f)

theorem Below.nested {x y : Eval α} (h : Below x y) (config : Config) (position : Position) :
    Below (Eval.nested config position x) (Eval.nested config position y) := by
  intro m
  by_cases hlimit : config.nestingLimit ≤ m.nestingDepth
  · rw [nested_of_limit hlimit, nested_of_limit hlimit]
    exact Or.inr rfl
  · rw [nested_of_room hlimit, nested_of_room hlimit]
    rcases h m.opened with hout | heq
    · rw [hout]
      exact Or.inl rfl
    · rw [heq]
      exact Or.inr rfl

theorem Below.called {x y : Eval α} (h : Below x y) (config : Config) (position : Position)
    (bindings : List (String × Int64)) :
    Below (Eval.called config position bindings x) (Eval.called config position bindings y) := by
  intro m
  by_cases hlimit : config.maxCallDepth ≤ m.callDepth
  · rw [called_of_limit hlimit, called_of_limit hlimit]
    exact Or.inr rfl
  · cases hscope : (Scope.empty config.maxVariables).assignAll bindings with
    | error cause =>
      rw [called_of_noRoom hlimit hscope, called_of_noRoom hlimit hscope]
      exact Or.inr rfl
    | ok scope =>
      rw [called_of_room hlimit hscope, called_of_room hlimit hscope]
      rcases h (m.entered scope) with hout | heq
      · rw [hout]
        exact Or.inl rfl
      · rw [heq]
        exact Or.inr rfl

/-- Doing more is a relation that all operations respect. -/
def below (config : Config) : Congruence Eval Eval config config where
  rel := Below
  within := Below
  within_of_rel := id
  pure _ := .refl _
  bind h hf := Below.bind h hf
  within_bind h hf := Below.bind h hf
  exhausted := .refl _
  fail _ _ := .refl _
  lookup _ _ := .refl _
  assign _ _ _ := .refl _
  function? _ := .refl _
  declare _ := .refl _
  emit _ := .refl _
  nested p _ _ h := Below.nested h config p
  called p bindings _ _ h := Below.called h config p bindings

/-- Every part of the evaluator is below the same part with more fuel. -/
theorem allBelow_of_le (config : Config) {n k : Nat} (h : n ≤ k) :
    (below config).AllRelated n k :=
  (below config).allRelated_of_le (fun _ _ => Or.inl rfl) h

end Eval

end IntLang
