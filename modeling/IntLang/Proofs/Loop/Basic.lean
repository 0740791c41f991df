import IntLang.Error.Basic

/-!
Loops by their rounds. What a loop has gathered and the state it is in say whether a round follows;
a round changes both or fails. How a loop ends, and after how many rounds, is said here without any
bound on the rounds. If every round makes a measure smaller, the loop ends within as many rounds as
the measure had at its beginning, whether it succeeds or fails. A loop that is given a number of
rounds beforehand does the same, if it is given enough of them.
-/
namespace IntLang

/-- A loop: whether it goes on, what a round does, and what it yields in the end. -/
structure Loop (σ α β : Type) where
  goesOn : α → σ → Bool
  round : α → EStateM Error σ α
  value : α → β

namespace Loop

variable {σ α β : Type}

/-- The loop ends after a number of rounds with a result. A round that fails is the last one. -/
inductive Ends (L : Loop σ α β) : Nat → α → σ → EStateM.Result Error σ β → Prop
  | stopped {a s} (hstop : L.goesOn a s = false) : Ends L 0 a s (.ok (L.value a) s)
  | failed {a s e u} (hgoes : L.goesOn a s = true) (hround : L.round a s = .error e u) :
      Ends L 1 a s (.error e u)
  | again {n a s b u r} (hgoes : L.goesOn a s = true) (hround : L.round a s = .ok b u)
      (hrest : Ends L n b u r) : Ends L (n + 1) a s r

variable {L : Loop σ α β} {n m : Nat} {a : α} {s : σ} {r r' : EStateM.Result Error σ β}

/-- A loop ends in one way only. -/
theorem Ends.unique (h : L.Ends n a s r) (h' : L.Ends m a s r') : n = m ∧ r = r' := by
  induction h generalizing m with
  | stopped hstop =>
    cases h' with
    | stopped => exact ⟨rfl, rfl⟩
    | failed hgoes | again hgoes => cases hstop.symm.trans hgoes
  | failed hgoes hround =>
    cases h' with
    | stopped hstop => cases hstop.symm.trans hgoes
    | failed _ hround' =>
      cases hround.symm.trans hround'
      exact ⟨rfl, rfl⟩
    | again _ hround' => cases hround.symm.trans hround'
  | again hgoes hround _ ih =>
    cases h' with
    | stopped hstop => cases hstop.symm.trans hgoes
    | failed _ hround' => cases hround.symm.trans hround'
    | again _ hround' hrest' =>
      cases hround.symm.trans hround'
      obtain ⟨rfl, rfl⟩ := ih hrest'
      exact ⟨rfl, rfl⟩

/-- If the rounds keep an invariant and make a measure smaller, the loop ends within as many of them
as the measure has at the beginning. -/
theorem exists_ends {I : α → σ → Prop} {μ : α → σ → Nat}
    (hpos : ∀ a s, I a s → L.goesOn a s = true → 0 < μ a s)
    (hround : ∀ a s b u, I a s → L.goesOn a s = true → L.round a s = .ok b u →
      I b u ∧ μ b u < μ a s)
    (h : I a s) : ∃ n r, n ≤ μ a s ∧ L.Ends n a s r := by
  induction hμ : μ a s using Nat.strongRecOn generalizing a s with
  | _ k ih =>
    subst hμ
    cases hgoes : L.goesOn a s with
    | false => exact ⟨0, _, Nat.zero_le _, .stopped hgoes⟩
    | true =>
      cases hresult : L.round a s with
      | error e u => exact ⟨1, _, hpos a s h hgoes, .failed hgoes hresult⟩
      | ok b u =>
        obtain ⟨hb, hless⟩ := hround a s b u h hgoes hresult
        obtain ⟨n, r, hn, hends⟩ := ih _ hless hb rfl
        exact ⟨n + 1, r, by omega, .again hgoes hresult hends⟩

/-- The loop with a number of rounds that it is given beforehand. -/
def bounded (L : Loop σ α β) : Nat → α → σ → EStateM.Result Error σ β
  | 0, a, s => .ok (L.value a) s
  | n + 1, a, s =>
    if L.goesOn a s then
      match L.round a s with
      | .ok b u => L.bounded n b u
      | .error e u => .error e u
    else .ok (L.value a) s

theorem bounded_of_stopped (h : L.goesOn a s = false) (n : Nat) :
    L.bounded n a s = .ok (L.value a) s := by
  cases n with
  | zero => rfl
  | succ n => rw [bounded, h, if_neg Bool.false_ne_true]

theorem bounded_of_ok {b : α} {u : σ} (hgoes : L.goesOn a s = true)
    (hround : L.round a s = .ok b u) (n : Nat) : L.bounded (n + 1) a s = L.bounded n b u := by
  rw [bounded, if_pos hgoes, hround]

theorem bounded_of_error {e : Error} {u : σ} (hgoes : L.goesOn a s = true)
    (hround : L.round a s = .error e u) (n : Nat) : L.bounded (n + 1) a s = .error e u := by
  rw [bounded, if_pos hgoes, hround]

/-- A loop that is given rounds enough does what it does without a bound. -/
theorem Ends.bounded_eq (h : L.Ends n a s r) (hn : n ≤ m) : L.bounded m a s = r := by
  induction h generalizing m with
  | stopped hstop => exact bounded_of_stopped hstop m
  | failed hgoes hround =>
    obtain ⟨m, rfl⟩ : ∃ k, m = k + 1 := ⟨m - 1, by omega⟩
    exact bounded_of_error hgoes hround m
  | again hgoes hround _ ih =>
    obtain ⟨m, rfl⟩ : ∃ k, m = k + 1 := ⟨m - 1, by omega⟩
    exact (bounded_of_ok hgoes hround m).trans (ih (by omega))

/-- Such a loop ends in the same way without a bound and with one that the measure does not
exceed. -/
theorem ends_bounded {I : α → σ → Prop} {μ : α → σ → Nat}
    (hpos : ∀ a s, I a s → L.goesOn a s = true → 0 < μ a s)
    (hround : ∀ a s b u, I a s → L.goesOn a s = true → L.round a s = .ok b u →
      I b u ∧ μ b u < μ a s)
    (h : I a s) (hm : μ a s ≤ m) : ∃ n ≤ μ a s, L.Ends n a s (L.bounded m a s) := by
  obtain ⟨n, r, hn, hends⟩ := exists_ends hpos hround h
  rw [hends.bounded_eq (Nat.le_trans hn hm)]
  exact ⟨n, hn, hends⟩

end Loop

end IntLang
