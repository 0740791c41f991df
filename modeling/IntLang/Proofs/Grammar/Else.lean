import IntLang.Proofs.Grammar.Bare
import IntLang.Proofs.Grammar.Derivation

/-!
Which `if` an `else` belongs to. A statement takes an `else` if it ends in a conditional without
one. The choice of the language is that every `else` belongs to the nearest `if` that can have it:
no conditional with an `else` has a first branch that takes an `else`. The choice costs no programs:
whatever tokens the grammar derives, it derives them with this choice too.
-/
namespace IntLang

/-- Whether an `else` behind a statement would belong to a conditional inside it. -/
def Stmt.takesElse : Stmt → Bool
  | .ifThen _ _ _ => true
  | .ifElse _ _ elseBranch _ => elseBranch.takesElse
  | .loop _ body _ => body.takesElse
  | _ => false

namespace Grammar

mutual

/-- Every `else` in a statement belongs to the nearest `if` that can have it. -/
def ElseNearest : Stmt → Prop
  | .ifThen _ thenBranch _ => ElseNearest thenBranch
  | .ifElse _ thenBranch elseBranch _ =>
    thenBranch.takesElse = false ∧ ElseNearest thenBranch ∧ ElseNearest elseBranch
  | .loop _ body _ => ElseNearest body
  | .block body _ => ElsesNearest body
  | .function _ _ body _ _ => ElsesNearest body
  | _ => True

def ElsesNearest : List Stmt → Prop
  | [] => True
  | s :: ss => ElseNearest s ∧ ElsesNearest ss

end

mutual

theorem Factor.mono {n m ts e} (hle : n ≤ m) : Factor n ts e → Factor m ts e
  | .number hkind hvalue => .number hkind hvalue
  | .string hkind => .string hkind
  | .var hkind => .var hkind
  | .call hkind hopen hargs hclose => .call hkind hopen (hargs.mono hle) hclose
  | .group hopen he hclose => by
    obtain ⟨j, rfl⟩ : ∃ j, m = j + 1 := ⟨m - 1, by omega⟩
    exact .group hopen (he.mono (by omega)) hclose

theorem Term.mono {n m ts e} (hle : n ≤ m) : Term n ts e → Term m ts e
  | .factor he => .factor (he.mono hle)
  | .product ha hsign hb => by
    obtain ⟨j, rfl⟩ : ∃ j, m = j + 1 := ⟨m - 1, by omega⟩
    exact .product (ha.mono hle) hsign (hb.mono (by omega))

theorem Expression.mono {n m ts e} (hle : n ≤ m) : Expression n ts e → Expression m ts e
  | .term he => .term (he.mono hle)
  | .sum ha hsign hb => by
    obtain ⟨j, rfl⟩ : ∃ j, m = j + 1 := ⟨m - 1, by omega⟩
    exact .sum (ha.mono hle) hsign (hb.mono (by omega))

theorem Arguments.mono {n m ts es} (hle : n ≤ m) : Arguments n ts es → Arguments m ts es
  | .none => .none
  | .one he => by
    obtain ⟨j, rfl⟩ : ∃ j, m = j + 1 := ⟨m - 1, by omega⟩
    exact .one (he.mono (by omega))
  | .more he hcomma hes => by
    obtain ⟨j, rfl⟩ : ∃ j, m = j + 1 := ⟨m - 1, by omega⟩
    exact .more (he.mono (by omega)) hcomma (hes.mono hle)

end

theorem Condition.mono {n m ts e} (hle : n ≤ m) : Condition n ts e → Condition m ts e
  | .mk hopen he hclose => by
    obtain ⟨j, rfl⟩ : ∃ j, m = j + 1 := ⟨m - 1, by omega⟩
    exact .mk hopen (he.mono (by omega)) hclose

mutual

/-- What a statement derives with some levels it derives with more. -/
theorem Statement.mono {n m ts s} (hle : n ≤ m) : Statement n ts s → Statement m ts s
  | .ifThen hword htest hthen => by
    obtain ⟨j, rfl⟩ : ∃ j, m = j + 1 := ⟨m - 1, by omega⟩
    exact .ifThen hword (htest.mono hle) (hthen.mono (by omega))
  | .ifElse hword htest hthen helse hrest => by
    obtain ⟨j, rfl⟩ : ∃ j, m = j + 1 := ⟨m - 1, by omega⟩
    exact .ifElse hword (htest.mono hle) (hthen.mono (by omega)) helse (hrest.mono (by omega))
  | .loop hword htest hbody => by
    obtain ⟨j, rfl⟩ : ∃ j, m = j + 1 := ⟨m - 1, by omega⟩
    exact .loop hword (htest.mono hle) (hbody.mono (by omega))
  | .ret hword he hclose => by
    obtain ⟨j, rfl⟩ : ∃ j, m = j + 1 := ⟨m - 1, by omega⟩
    exact .ret hword (he.mono (by omega)) hclose
  | .function hword hname hopen hnames hnodup hclose hbody =>
    .function hword hname hopen hnames hnodup hclose (hbody.mono hle)
  | .block hbody => .block (hbody.mono hle)
  | .assign hname hassign he hclose => by
    obtain ⟨j, rfl⟩ : ∃ j, m = j + 1 := ⟨m - 1, by omega⟩
    exact .assign hname hassign (he.mono (by omega)) hclose
  | .expressionNamed he hnamed hclose => .expressionNamed (he.mono hle) hnamed hclose
  | .expression he hnamed hclose => by
    obtain ⟨j, rfl⟩ : ∃ j, m = j + 1 := ⟨m - 1, by omega⟩
    exact .expression (he.mono (by omega)) hnamed hclose

theorem Block.mono {n m ts body} (hle : n ≤ m) : Block n ts body → Block m ts body
  | .mk hopen hbody hclose => .mk hopen (hbody.mono hle) hclose

theorem Statements.mono {n m ts ss} (hle : n ≤ m) : Statements n ts ss → Statements m ts ss
  | .nil => .nil
  | .cons hs hss => by
    obtain ⟨j, rfl⟩ : ∃ j, m = j + 1 := ⟨m - 1, by omega⟩
    exact .cons (hs.mono (by omega)) (hss.mono hle)

end

/-- A statement that takes an `else` can be read on through an `else` branch behind it. -/
theorem Statement.exists_absorb {n k ts us s r x} (hr : Statement k us r)
    (hrnear : ElseNearest r) (hx : x.kind = .elseWord) :
    Statement n ts s → ElseNearest s → s.takesElse = true →
      ∃ m s', Statement m (ts ++ x :: us) s' ∧ ElseNearest s'
  | .ifThen (n := j) (e := e) (s := t) hword htest hthen, hnear, _ => by
    simp only [List.cons_append, List.append_assoc]
    simp only [ElseNearest] at hnear
    cases htakes : t.takesElse with
    | true =>
      obtain ⟨m, s', hs', hnear'⟩ := exists_absorb hr hrnear hx hthen hnear htakes
      refine ⟨max m j + 1, .ifThen e s' .blank, ?_, by simpa only [ElseNearest] using hnear'⟩
      exact .ifThen hword (htest.mono (by omega)) (hs'.mono (by omega))
    | false =>
      refine ⟨max k j + 1, .ifElse e t r .blank, ?_, ?_⟩
      · exact .ifElse hword (htest.mono (by omega)) (hthen.mono (by omega)) hx
          (hr.mono (by omega))
      · simpa only [ElseNearest] using And.intro htakes ⟨hnear, hrnear⟩
  | .ifElse (n := j) (e := e) (s := t) hword htest hthen helse hrest, hnear, htakes => by
    simp only [List.cons_append, List.append_assoc]
    simp only [ElseNearest] at hnear
    obtain ⟨hfirst, htnear, helseNear⟩ := hnear
    obtain ⟨m, r', hr', hnear'⟩ := exists_absorb hr hrnear hx hrest helseNear
      (by simpa only [Stmt.takesElse] using htakes)
    refine ⟨max m j + 1, .ifElse e t r' .blank, ?_, ?_⟩
    · exact .ifElse hword (htest.mono (by omega)) (hthen.mono (by omega)) helse
        (hr'.mono (by omega))
    · simpa only [ElseNearest] using And.intro hfirst ⟨htnear, hnear'⟩
  | .loop (n := j) (e := e) hword htest hbody, hnear, htakes => by
    simp only [List.cons_append, List.append_assoc]
    simp only [ElseNearest] at hnear
    obtain ⟨m, s', hs', hnear'⟩ := exists_absorb hr hrnear hx hbody hnear
      (by simpa only [Stmt.takesElse] using htakes)
    refine ⟨max m j + 1, .loop e s' .blank, ?_, by simpa only [ElseNearest] using hnear'⟩
    exact .loop hword (htest.mono (by omega)) (hs'.mono (by omega))
  | .ret .., _, htakes | .function .., _, htakes | .block _, _, htakes | .assign .., _, htakes
  | .expressionNamed .., _, htakes | .expression .., _, htakes => by
    simp only [Stmt.takesElse, Bool.false_eq_true] at htakes

mutual

/-- A statement of the grammar can be read with every `else` at the nearest `if`. -/
theorem Statement.exists_elseNearest {n ts s} :
    Statement n ts s → ∃ m s', Statement m ts s' ∧ ElseNearest s'
  | .ifThen (n := j) (e := e) hword htest hthen => by
    obtain ⟨m, s', hs', hnear⟩ := hthen.exists_elseNearest
    refine ⟨max m j + 1, .ifThen e s' .blank, ?_, by simpa only [ElseNearest] using hnear⟩
    exact .ifThen hword (htest.mono (by omega)) (hs'.mono (by omega))
  | .ifElse (n := j) (e := e) hword htest hthen helse hrest => by
    obtain ⟨m, s', hs', hnear⟩ := hthen.exists_elseNearest
    obtain ⟨k, r', hr', hrnear⟩ := hrest.exists_elseNearest
    cases htakes : s'.takesElse with
    | true =>
      -- the first branch takes the `else`, so the conditional itself is left without one
      obtain ⟨i, inner, hinner, hnear'⟩ :=
        Statement.exists_absorb hr' hrnear helse hs' hnear htakes
      refine ⟨max i j + 1, .ifThen e inner .blank, ?_, by simpa only [ElseNearest] using hnear'⟩
      exact .ifThen hword (htest.mono (by omega)) (hinner.mono (by omega))
    | false =>
      refine ⟨max (max m k) j + 1, .ifElse e s' r' .blank, ?_,
        by simpa only [ElseNearest] using And.intro htakes ⟨hnear, hrnear⟩⟩
      exact .ifElse hword (htest.mono (by omega)) (hs'.mono (by omega)) helse
        (hr'.mono (by omega))
  | .loop (n := j) (e := e) hword htest hbody => by
    obtain ⟨m, s', hs', hnear⟩ := hbody.exists_elseNearest
    refine ⟨max m j + 1, .loop e s' .blank, ?_, by simpa only [ElseNearest] using hnear⟩
    exact .loop hword (htest.mono (by omega)) (hs'.mono (by omega))
  | .function (t := t) hword hname hopen hnames hnodup hclose hbody => by
    obtain ⟨m, body', hbody', hnear⟩ := hbody.exists_elsesNearest
    refine ⟨m, .function t.text _ body' .blank .blank,
      .function hword hname hopen hnames hnodup hclose hbody', ?_⟩
    simpa only [ElseNearest] using hnear
  | .block hbody => by
    obtain ⟨m, body', hbody', hnear⟩ := hbody.exists_elsesNearest
    exact ⟨m, .block body' .blank, .block hbody', by simpa only [ElseNearest] using hnear⟩
  | .ret hword he hclose =>
    ⟨_, .ret _ .blank, .ret hword he hclose, by simp only [ElseNearest]⟩
  | .assign hname hassign he hclose =>
    ⟨_, .assign _ _ .blank, .assign hname hassign he hclose, by simp only [ElseNearest]⟩
  | .expressionNamed he hnamed hclose =>
    ⟨_, .expression _ .blank, .expressionNamed he hnamed hclose, by simp only [ElseNearest]⟩
  | .expression he hnamed hclose =>
    ⟨_, .expression _ .blank, .expression he hnamed hclose, by simp only [ElseNearest]⟩

theorem Block.exists_elsesNearest {n ts body} :
    Block n ts body → ∃ m body', Block m ts body' ∧ ElsesNearest body'
  | .mk hopen hbody hclose => by
    obtain ⟨m, body', hbody', hnear⟩ := hbody.exists_elsesNearest
    exact ⟨m, body', .mk hopen hbody' hclose, hnear⟩

/-- The choice of the nearest `if` costs no programs. -/
theorem Statements.exists_elsesNearest {n ts ss} :
    Statements n ts ss → ∃ m ss', Statements m ts ss' ∧ ElsesNearest ss'
  | .nil => ⟨0, [], .nil, by simp only [ElsesNearest]⟩
  | .cons hs hss => by
    obtain ⟨m, s', hs', hnear⟩ := hs.exists_elseNearest
    obtain ⟨k, ss', hss', hnears⟩ := hss.exists_elsesNearest
    refine ⟨max m k + 1, s' :: ss', ?_, by simpa only [ElsesNearest] using And.intro hnear hnears⟩
    exact .cons (hs'.mono (by omega)) (hss'.mono (by omega))

end

end Grammar

end IntLang
