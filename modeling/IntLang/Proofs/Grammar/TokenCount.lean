import IntLang.Proofs.Grammar.Loops

/-!
Counting the tokens that are left. Taking a token leaves fewer of them, and so does a reader that
takes one. A round of a loop takes a token, so the loop ends within as many rounds as there are
tokens left, whether it succeeds or fails. A reader that is given so many rounds, or more of them,
does what its loop does.
-/
namespace IntLang

open Parse

/-- A count of the tokens that are left, the end token not counted, for a kind of states that taking
a token does not leave. -/
structure TokenCount (σ : Type) [TokenSource σ] where
  proper : σ → Prop
  unread : σ → Nat
  unread_pos : ∀ {s}, proper s → (TokenSource.current s).kind ≠ .endOfSource → 0 < unread s
  unread_le : ∀ {s}, proper s → unread s ≤ TokenSource.ahead s + 1
  advance : ∀ {s t u}, proper s → (TokenSource.current s).kind ≠ .endOfSource →
    Parse.advance s = .ok t u → proper u ∧ unread u < unread s

namespace TokenCount

variable {σ : Type} [TokenSource σ] (C : TokenCount σ)

def Shorter (s u : σ) : Prop := C.proper u ∧ C.unread u < C.unread s

def Reads {α : Type} (x : ParseOn σ α) : Prop :=
  ∀ s a u, C.proper s → x s = .ok a u → C.Shorter s u

def ReadsBeforeEnd {α : Type} (x : ParseOn σ α) : Prop :=
  ∀ s a u, C.proper s → (TokenSource.current s).kind ≠ .endOfSource → x s = .ok a u →
    C.Shorter s u

variable {C} {s u v : σ} {m : Nat}

theorem Shorter.trans (hsu : C.Shorter s u) (huv : C.Shorter u v) : C.Shorter s v :=
  ⟨huv.1, Nat.lt_trans huv.2 hsu.2⟩

theorem reads_expect {kind : TokenKind} (hkind : kind ≠ .endOfSource) :
    C.Reads (Parse.expect kind) := by
  intro s t u hs h
  unfold Parse.expect at h
  rw [peek_bind_current] at h
  by_cases hcurrent : (TokenSource.current s).kind = kind
  · rw [if_pos hcurrent] at h
    exact C.advance hs (by rwa [hcurrent]) h
  · rw [if_neg hcurrent] at h
    exact absurd h (unexpected_ne_ok _ _ _)

/-- If another member of a list follows, the comma has been taken. -/
theorem shorter_of_comma {follows : Bool} (hs : C.proper s) (h : comma s = .ok follows u) :
    follows = true ∧ C.Shorter s u ∨ follows = false ∧ u = s := by
  rcases comma_eq_ok_iff.mp h with ⟨hcomma, hfollows, t, hadvance⟩ | ⟨-, hfollows, hsame⟩
  · have hkind : (TokenSource.current s).kind ≠ .endOfSource := by
      rw [hcomma]
      decide
    exact .inl ⟨hfollows, C.advance hs hkind hadvance⟩
  · exact .inr ⟨hfollows, hsame⟩

/-- The end token binds no tighter than any power. -/
theorem kind_ne_end_of_tighter {kind : TokenKind} {power : BindingPower}
    (h : (Rules.standard.power kind).tighter power = true) : kind ≠ .endOfSource := by
  rintro rfl
  cases power <;> cases h

section Expressions

variable {sub : BindingPower → ParseOn σ Expr} (hsub : ∀ power, C.Reads (sub power))
variable {power : BindingPower} {left : Expr}
include hsub

theorem readsBeforeEnd_binary (left : Expr) (power : BindingPower) :
    C.ReadsBeforeEnd (binary sub left power) := by
  intro s e u hs hkind h
  unfold binary at h
  obtain ⟨sign, v, hadvance, h⟩ := bind_eq_ok_iff.mp h
  have hsign : C.Shorter s v := C.advance hs hkind hadvance
  cases hoperator : Operator.ofKind? sign.kind with
  | none =>
    simp only [hoperator] at h
    exact absurd h (throw_ne_ok _ _ _ _)
  | some operator =>
    simp only [hoperator] at h
    obtain ⟨right, w, hright, h⟩ := bind_eq_ok_iff.mp h
    obtain ⟨-, rfl⟩ := pure_eq_ok_iff.mp h
    exact hsign.trans (hsub power _ _ _ hsign.1 hright)

theorem ends_operatorRounds (hs : C.proper s) (hm : C.unread s ≤ m) :
    ∃ n ≤ C.unread s, (operatorLoop .standard sub power).Ends n left s
      (operatorRounds .standard sub power m left s) := by
  rw [operatorRounds_eq_bounded]
  refine Loop.ends_bounded (I := fun _ => C.proper) (μ := fun _ => C.unread) ?_ ?_ hs hm
  · intro left s hs hgoes
    exact C.unread_pos hs (kind_ne_end_of_tighter hgoes)
  · intro left s joined u hs hgoes hround
    -- a round that succeeds stands at an operator
    by_cases hjoins : Rules.standard.joins (TokenSource.current s).kind = true
    · rw [round_operatorLoop_of_joins hjoins] at hround
      exact readsBeforeEnd_binary hsub _ _ s joined u hs (kind_ne_end_of_tighter hgoes) hround
    · rw [round_operatorLoop_of_stray hjoins] at hround
      cases hround

end Expressions

theorem ends_stmtsUntil {ends : TokenKind → Bool} {inner : ParseOn σ Stmt}
    (hends : ends .endOfSource = true) (hinner : C.ReadsBeforeEnd inner) (hs : C.proper s)
    (hm : C.unread s ≤ m) :
    ∃ n ≤ C.unread s, (stmtLoop ends inner).Ends n [] s (stmtsUntil ends inner m s) := by
  have hkind : ∀ (read : List Stmt) s, (stmtLoop ends inner).goesOn read s = true →
      (TokenSource.current s).kind ≠ .endOfSource := by
    intro read s hgoes hend
    simp only [stmtLoop, hend, hends, Bool.not_true, Bool.false_eq_true] at hgoes
  rw [stmtsUntil_eq_bounded]
  refine Loop.ends_bounded (I := fun _ => C.proper) (μ := fun _ => C.unread) ?_ ?_ hs hm
  · intro read s hs hgoes
    exact C.unread_pos hs (hkind read s hgoes)
  · intro read s read' u hs hgoes hround
    obtain ⟨st, v, hstmt, hround⟩ := bind_eq_ok_iff.mp hround
    obtain ⟨-, rfl⟩ := pure_eq_ok_iff.mp hround
    exact hinner s st v hs (hkind read s hgoes) hstmt

section Lists

variable {β γ : Type}

/-- The tokens that a loop over the members of a list may still come to: none if no member is to
follow, and otherwise at least the end token. -/
def within (C : TokenCount σ) (gathered : Bool × β) (s : σ) : Nat :=
  if gathered.1 then max 1 (C.unread s) else 0

/-- A round of such a loop takes a member, and a comma if another one follows. -/
theorem ends_of_comma {L : Loop σ (Bool × β) γ} {read : β}
    (hgoes : ∀ gathered s, L.goesOn gathered s = gathered.1)
    (hround : ∀ gathered s gathered' u, C.proper s → L.round gathered s = .ok gathered' u →
      ∃ v, C.Shorter s v ∧ comma v = .ok gathered'.1 u)
    (hs : C.proper s) (hm : max 1 (C.unread s) ≤ m) :
    ∃ n ≤ max 1 (C.unread s), L.Ends n (true, read) s (L.bounded m (true, read) s) := by
  have hwithin : C.within (true, read) s = max 1 (C.unread s) := if_pos rfl
  rw [← hwithin] at hm ⊢
  refine Loop.ends_bounded (I := fun _ => C.proper) (μ := C.within) ?_ ?_ hs hm
  · intro gathered s _ hmore
    rw [within, if_pos ((hgoes gathered s).symm.trans hmore)]
    omega
  · intro gathered s gathered' u hs hmore hresult
    obtain ⟨v, hv, hcomma⟩ := hround gathered s gathered' u hs hresult
    rw [within, within, if_pos ((hgoes gathered s).symm.trans hmore)]
    rcases shorter_of_comma hv.1 hcomma with ⟨hfollows, hu⟩ | ⟨hfollows, rfl⟩
    · -- a member and its comma are two tokens, so fewer are left even if the next is the end token
      have hmember := hv.2
      have htaken := hu.2
      rw [if_pos hfollows]
      exact ⟨hu.1, by omega⟩
    · rw [hfollows, if_neg Bool.false_ne_true]
      exact ⟨hv.1, by omega⟩

theorem ends_argumentRounds {sub : BindingPower → ParseOn σ Expr}
    (hsub : ∀ power, C.Reads (sub power)) (hs : C.proper s) (hm : max 1 (C.unread s) ≤ m) :
    ∃ n ≤ max 1 (C.unread s), (argumentLoop sub).Ends n (true, []) s
      (argumentRounds sub m s) := by
  rw [argumentRounds_eq_bounded]
  refine ends_of_comma (fun _ _ => rfl) (fun gathered s gathered' u hs hround => ?_) hs hm
  obtain ⟨e, v, hexpr, hround⟩ := bind_eq_ok_iff.mp hround
  obtain ⟨follows, w, hcomma, hround⟩ := bind_eq_ok_iff.mp hround
  obtain ⟨rfl, rfl⟩ := pure_eq_ok_iff.mp hround
  exact ⟨v, hsub .lowest _ _ _ hs hexpr, hcomma⟩

theorem ends_parameterRounds (names : List String) (hs : C.proper s)
    (hm : max 1 (C.unread s) ≤ m) :
    ∃ n ≤ max 1 (C.unread s), parameterLoop.Ends n (true, names) s
      (parameterRounds m names s) := by
  rw [parameterRounds_eq_bounded]
  refine ends_of_comma (fun _ _ => rfl) (fun gathered s gathered' u hs hround => ?_) hs hm
  obtain ⟨name, v, hname, hround⟩ := bind_eq_ok_iff.mp hround
  by_cases hmem : gathered.2.contains name.text = true
  · rw [if_pos hmem] at hround
    exact absurd hround (throw_ne_ok _ _ _ _)
  · rw [if_neg hmem] at hround
    obtain ⟨follows, w, hcomma, hround⟩ := bind_eq_ok_iff.mp hround
    obtain ⟨rfl, rfl⟩ := pure_eq_ok_iff.mp hround
    exact ⟨v, reads_expect (by decide) _ _ _ hs hname, hcomma⟩

end Lists

section Readers

/-! The readers are given one round more than there are tokens ahead. -/

theorem max_unread_le (hs : C.proper s) : max 1 (C.unread s) ≤ TokenSource.ahead s + 1 := by
  have hle := C.unread_le hs
  omega

variable {sub : BindingPower → ParseOn σ Expr} (hsub : ∀ power, C.Reads (sub power))

include hsub in
/-- There are no arguments in front of a closing parenthesis. -/
theorem ends_arguments (hs : C.proper s) :
    ∃ n ≤ max 1 (C.unread s), (argumentLoop sub).Ends n
      ((TokenSource.current s).kind != .closeParen, []) s (arguments sub s) := by
  unfold arguments
  rw [peek_bind_current]
  by_cases hclose : (TokenSource.current s).kind = .closeParen
  · rw [if_pos hclose, hclose]
    exact ⟨0, Nat.zero_le _, .stopped rfl⟩
  · rw [if_neg hclose, bne_iff_ne.mpr hclose]
    exact ends_argumentRounds hsub hs (max_unread_le hs)

/-- There are no parameters in front of a closing parenthesis. -/
theorem ends_parameters (hs : C.proper s) :
    ∃ n ≤ max 1 (C.unread s), parameterLoop.Ends n
      ((TokenSource.current s).kind != .closeParen, []) s (parameters s) := by
  unfold parameters
  rw [peek_bind_current]
  by_cases hclose : (TokenSource.current s).kind = .closeParen
  · rw [if_pos hclose, hclose]
    exact ⟨0, Nat.zero_le _, .stopped rfl⟩
  · rw [if_neg hclose, bne_iff_ne.mpr hclose]
    exact ends_parameterRounds [] hs (max_unread_le hs)

end Readers

end TokenCount

end IntLang
