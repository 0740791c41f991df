import IntLang.Proofs.Grammar.Lookahead
import IntLang.Proofs.Grammar.Viable

/-!
The readers of expressions look one token ahead, and where a token does not fit, the tokens in front
of it can be completed. A reader may have fewer levels than the one it is compared with; it does the
same unless it lacks one. Each reader has this from the reader of its parts: what is left open when
a part fails is closed by completing the part and then the phrase around it.
-/
namespace IntLang.Grammar

open Parse TokenStream

/-- Readers of expressions of which the first looks one token ahead and fails only behind tokens that
can be completed to what is read at the power. -/
def AheadExpr (sub sub' : BindingPower → Parse Expr) : Prop :=
  ∀ p n s, s.Proper → s.pending.length < n →
    OneAhead (Completable (Phrase (Derives p))) n (sub p) (sub' p) s

theorem completable_factor_nil : Completable (Phrase Factor) [] :=
  .of_append [zero] (by simp) Phrase.factor_zero

section Readers

variable {room more : Nat} {sub sub' : BindingPower → Parse Expr}
variable {s : TokenStream} {n : Nat}

theorem ahead_literal (hs : s.Proper) :
    OneAhead (Completable (Phrase Factor)) n literal literal s := by
  unfold literal
  refine .peek_bind hs ?_
  cases hkind : s.current.kind with
  | number =>
    have hne : s.current.kind ≠ .endOfSource := by rw [hkind]; decide
    cases hvalue : integer? s.current.text.toList with
    | none =>
      let e : Error := ⟨.numberOutOfRange s.current.text, s.current.position⟩
      refine .advance_fail e e hs (.of_ne rfl nofun hne) completable_factor_nil ?_ ?_ hne
      all_goals simp only [hvalue, e]
    | some value =>
      refine .advance_bind hs hne fun m hm => ?_
      simp only [hvalue]
      exact .pure hm.proper _
  | string =>
    exact .advance_bind hs (by rw [hkind]; decide) fun m hm => .pure hm.proper _
  | _ => exact .unexpected hs completable_factor_nil

variable (hsub : ReadsExpr room sub) (hsub' : ReadsExpr more sub') (hahead : AheadExpr sub sub')

section

include hsub hahead

theorem ahead_argumentRounds (hs : s.Proper) (hn : s.pending.length < n) :
    OneAhead (Completable (Phrase SomeArguments)) n (argumentRounds sub n)
      (argumentRounds sub' n) s := by
  induction n generalizing s with
  | zero => exact absurd hn (Nat.not_lt_zero _)
  | succ n ih =>
    unfold argumentRounds
    refine (hahead .lowest (n + 1) s hs hn).bind_of_le (fun ts h => h.imp fun us => .argument) ?_
    intro first v hfirst
    obtain ⟨k, ts, -, hts, hderives, -⟩ := hsub _ _ _ _ hs hfirst
    have hpos := List.length_pos_iff.mpr hderives.ne_nil
    refine ⟨ts, n, hts, by omega, .peek_bind hts.proper ?_⟩
    by_cases hcomma : v.current.kind = .comma
    · rw [if_pos hcomma, if_pos hcomma]
      refine .advance_bind hts.proper (by rw [hcomma]; decide) fun w hw => ?_
      have hlength : w.pending.length < n := by
        have h₁ := hts.length
        have h₂ := hw.length
        rw [List.length_singleton] at h₂
        omega
      refine (ih hw.proper hlength).bind (fun us h => ?_) fun more x hmore => ?_
      · rw [List.append_cons]
        refine h.behind _ fun vs hvs => ?_
        rw [← List.append_cons]
        exact .argument_cons ⟨k, first, hderives⟩ hcomma hvs
      · obtain ⟨us, hus, -⟩ := arguments_of_rounds hsub hw.proper (Nat.le_of_lt hlength)
          (Nat.zero_lt_of_lt hlength) hmore
        exact ⟨us, hus, .pure hus.proper _⟩
    · rw [if_neg hcomma, if_neg hcomma]
      exact .pure hts.proper _

theorem ahead_binary {p : BindingPower} {us : List Token} (left : Expr) (hs : s.Proper)
    (hn : s.pending.length < n)
    (htight : (Rules.standard.power s.current.kind).tighter p = true)
    (hjoins : Rules.standard.joins s.current.kind = true) (hleft : Phrase (Derives p) us)
    (hterm : p = .lowest → Rules.standard.power s.current.kind = .multiplicative →
      Phrase Term us) :
    OneAhead (fun ts => Completable (Phrase (Derives p)) (us ++ ts)) n
      (binary sub left (Rules.standard.power s.current.kind))
      (binary sub' left (Rules.standard.power s.current.kind)) s := by
  obtain ⟨operator, hoperator, -⟩ := sign_cases hjoins
  have hne : s.current.kind ≠ .endOfSource := by
    intro hend
    rw [hend] at hjoins
    exact absurd hjoins (by decide)
  unfold binary
  refine .advance_bind hs hne fun v hv => ?_
  simp only [hoperator]
  refine (hahead _ n v hv.proper (hv.length_lt hn)).bind (fun ts h => ?_) fun right w hright => ?_
  · rw [List.append_cons]
    refine h.behind _ fun vs hvs => ?_
    rw [← List.append_cons]
    exact (Phrase.join htight hjoins hleft hterm hvs).1
  · obtain ⟨k, ts, -, hts, -⟩ := hsub _ _ _ _ hv.proper hright
    exact ⟨ts, hts, .pure hts.proper _⟩

/-- The loop over operators goes on with a phrase that is read; as in `derives_of_operatorRounds`
it is a term whenever the next operator wants one. -/
theorem ahead_operatorRounds {p : BindingPower} {left : Expr} {us : List Token} (hs : s.Proper)
    (hn : s.pending.length < n) (hleft : Phrase (Derives p) us)
    (hterm : p = .lowest → Rules.standard.power s.current.kind = .multiplicative →
      Phrase Term us) :
    OneAhead (fun ts => Completable (Phrase (Derives p)) (us ++ ts)) n
      (operatorRounds .standard sub p n left) (operatorRounds .standard sub' p n left) s := by
  induction n generalizing s left us with
  | zero => exact absurd hn (Nat.not_lt_zero _)
  | succ n ih =>
    unfold operatorRounds
    refine .peek_bind hs ?_
    dsimp only
    by_cases htight : (Rules.standard.power s.current.kind).tighter p = true
    · rw [if_pos htight, if_pos htight]
      by_cases hjoins : Rules.standard.joins s.current.kind = true
      · rw [if_pos hjoins, if_pos hjoins]
        refine (ahead_binary hsub hahead left hs hn htight hjoins hleft hterm).bind_of_le
          (fun _ => id) fun joined w hbinary => ?_
        obtain ⟨operator, k, ts, right, -, hts, hsign, hderives, hstop, -⟩ :=
          sign_of_binary hsub hjoins hs hbinary
        obtain ⟨hjoined, hproduct⟩ :=
          Phrase.join htight hjoins hleft hterm ⟨k, right, hderives⟩
        have hlength : w.pending.length < n := by
          have hlength := hts.length
          rw [List.length_cons] at hlength
          omega
        refine ⟨s.current :: ts, n, hts, by rw [List.length_cons]; omega, ?_⟩
        refine (ih hts.proper hlength hjoined fun hp hmult => hproduct hp
          (power_of_not_atTighter hsign hstop hmult)).mono fun vs h => ?_
        rwa [List.append_assoc] at h
      · rw [if_neg hjoins, if_neg hjoins]
        exact .unexpected hs (.of (by rwa [List.append_nil]))
    · rw [if_neg htight, if_neg htight]
      exact .pure hs _

end

include hsub hahead

theorem ahead_group (hkind : s.current.kind = .openParen) (hs : s.Proper)
    (hn : s.pending.length < n) :
    OneAhead (Completable (Phrase Factor)) n (group sub) (group sub') s := by
  unfold group
  refine .advance_bind hs (by rw [hkind]; decide) fun v hv => ?_
  refine (hahead _ n v hv.proper (hv.length_lt hn)).bind (fun ts h => ?_) fun e w he => ?_
  · exact h.within [s.current] [closeParen] (by simp)
      fun us hus => .group hkind hus rfl
  · obtain ⟨k, ts, -, hts, hderives, -⟩ := hsub _ _ _ _ hv.proper he
    refine ⟨ts, hts, .expect_bind hts.proper (by decide) ?_ fun c x _ hx => .pure hx.proper _⟩
    rw [List.append_nil]
    exact .of_append [closeParen] (by simp) (.group hkind ⟨_, _, hderives⟩ rfl)

include hsub'

theorem ahead_arguments (hs : s.Proper) (hn : s.pending.length < n) :
    OneAhead (Completable (Phrase Arguments)) n (arguments sub) (arguments sub') s := by
  unfold arguments
  refine .peek_bind hs ?_
  by_cases hnone : s.current.kind = .closeParen
  · rw [if_pos hnone, if_pos hnone]
    exact .pure hs _
  · rw [if_neg hnone, if_neg hnone]
    refine .rounds_bind hs hn (settled_argumentRounds hsub) (settled_argumentRounds hsub') ?_
    refine (ahead_argumentRounds hsub hahead hs hn).mono fun ts h => h.imp ?_
    rintro us ⟨k, es, hes, -⟩
    exact ⟨k, es, hes⟩

theorem ahead_symbolTail {name : Token} (hname : name.kind = .identifier) (hs : s.Proper)
    (hn : s.pending.length < n) :
    OneAhead (fun ts => Completable (Phrase Factor) (name :: ts)) n (symbolTail sub name)
      (symbolTail sub' name) s := by
  unfold symbolTail call
  refine .peek_bind hs ?_
  by_cases hopen : s.current.kind = .openParen
  · rw [if_pos hopen, if_pos hopen]
    refine .expect_bind hs (by decide) (.of (.var hname)) fun o v ho hv => ?_
    refine (ahead_arguments hsub hsub' hahead hv.proper (hv.length_lt hn)).bind (fun ts h => ?_) ?_
    · exact h.within [name, o] [closeParen] (by simp)
        fun us hus => .call hname ho hus rfl
    · intro args w hargs
      obtain ⟨ts, hts, hderives⟩ := arguments_of_arguments hsub hv.proper hargs
      refine ⟨ts, hts, .expect_bind hts.proper (by decide) ?_ fun c x _ hx => .pure hx.proper _⟩
      rw [List.append_nil]
      exact .of_append [closeParen] (by simp) (.call hname ho ⟨_, _, hderives⟩ rfl)
  · rw [if_neg hopen, if_neg hopen]
    exact .pure hs _

theorem ahead_operand (hs : s.Proper) (hn : s.pending.length < n) :
    OneAhead (Completable (Phrase Factor)) n (operand .standard sub) (operand .standard sub') s := by
  unfold operand
  refine .peek_bind hs ?_
  cases hrule : Rules.standard.operand? s.current.kind with
  | none => exact .unexpected hs completable_factor_nil
  | some rule =>
    cases rule with
    | literal => exact ahead_literal hs
    | symbol =>
      refine .expect_bind hs (by decide) completable_factor_nil fun name v hname hv => ?_
      exact ahead_symbolTail hsub hsub' hahead hname hv.proper (hv.length_lt hn)
    | group =>
      have hkind : s.current.kind = .openParen := by
        have hgroup : ∀ kind, Rules.standard.operand? kind = some .group → kind = .openParen := by
          decide
        exact hgroup _ hrule
      exact ahead_group hsub hahead hkind hs hn

theorem ahead_operators {p : BindingPower} {left : Expr} {us : List Token} (hs : s.Proper)
    (hn : s.pending.length < n) (hleft : Phrase Factor us) :
    OneAhead (fun ts => Completable (Phrase (Derives p)) (us ++ ts)) n
      (operators .standard sub p left) (operators .standard sub' p left) s := by
  have hterm : Phrase Term us := hleft.derives (p := .additive)
  exact .rounds_bind hs hn (settled_operatorRounds hsub p left)
    (settled_operatorRounds hsub' p left)
    (ahead_operatorRounds hsub hahead hs hn hleft.derives fun _ _ => hterm)

end Readers

/-- The reader of expressions looks one token ahead, and if a token does not fit, the tokens in front
of it can be completed. -/
theorem ahead_expr {room more : Nat} (hle : room ≤ more) :
    AheadExpr (expr .standard room) (expr .standard more) := by
  induction room generalizing more with
  | zero => exact fun p n s _ _ => .tooDeep _
  | succ room ih =>
    obtain ⟨more, rfl⟩ : ∃ k, more = k + 1 := ⟨more - 1, by omega⟩
    have hahead : AheadExpr (expr .standard room) (expr .standard more) := ih (by omega)
    have hsub := readsExpr_expr room
    have hsub' := readsExpr_expr more
    intro p n s hs hn
    unfold expr
    refine (ahead_operand hsub hsub' hahead hs hn).bind (fun ts h => h.imp fun us => .derives) ?_
    intro left v hleft
    obtain ⟨ts, hts, hfactor⟩ := factor_of_operand hsub hs hleft
    exact ⟨ts, hts, ahead_operators hsub hsub' hahead hts.proper (hts.length_lt hn)
      ⟨room, left, hfactor⟩⟩

end IntLang.Grammar
