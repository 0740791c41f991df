import IntLang.Stmt.Basic

/-!
Programs that differ where it does not matter. Nodes may stand at other positions, as far as a given
relation allows, and statements behind one that always returns may be others altogether. Everything
else is alike. The end of a span never matters, as evaluation only reports where a node begins.
-/
namespace IntLang

/-- How programs may differ: which positions may stand for which, and whether statements that
follow one that always returns may be any others. -/
structure Leeway where
  place : Position → Position → Prop
  dead : Prop

/-- Positions stay, and statements that follow one that always returns may be any others. -/
def Leeway.deadCode : Leeway := ⟨Eq, True⟩

mutual

/-- Expressions that differ in nothing but positions. -/
inductive Expr.Alike (place : Position → Position → Prop) : Expr → Expr → Prop
  | number {value span span'} (hspan : place span.position span'.position) :
      Alike place (.number value span) (.number value span')
  | string {text span span'} (hspan : place span.position span'.position) :
      Alike place (.string text span) (.string text span')
  | var {name span span'} (hspan : place span.position span'.position) :
      Alike place (.var name span) (.var name span')
  | binary {operator left left' right right' span span'} (hleft : Alike place left left')
      (hright : Alike place right right') (hspan : place span.position span'.position) :
      Alike place (.binary operator left right span) (.binary operator left' right' span')
  | call {callee es es' span span'} (hes : AllAlike place es es')
      (hspan : place span.position span'.position) :
      Alike place (.call callee es span) (.call callee es' span')

inductive Expr.AllAlike (place : Position → Position → Prop) : List Expr → List Expr → Prop
  | nil : AllAlike place [] []
  | cons {e e' es es'} (he : Alike place e e') (hes : AllAlike place es es') :
      AllAlike place (e :: es) (e' :: es')

end

namespace Stmt

mutual

/-- Whether a statement is a `return`, a block with a statement that always returns, or a
conditional both of whose branches always return. -/
def alwaysReturns : Stmt → Bool
  | ret _ _ => true
  | block body _ => anyReturns body
  | ifElse _ thenBranch elseBranch _ => thenBranch.alwaysReturns && elseBranch.alwaysReturns
  | expression _ _ | assign _ _ _ | ifThen _ _ _ | loop _ _ _ | function _ _ _ _ _ => false

def anyReturns : List Stmt → Bool
  | [] => false
  | s :: ss => s.alwaysReturns || anyReturns ss

end

mutual

inductive Alike (L : Leeway) : Stmt → Stmt → Prop
  | expression {e e' span span'} (he : e.Alike L.place e')
      (hspan : L.place span.position span'.position) :
      Alike L (.expression e span) (.expression e' span')
  | assign {name e e' span span'} (he : e.Alike L.place e')
      (hspan : L.place span.position span'.position) :
      Alike L (.assign name e span) (.assign name e' span')
  | block {body body' span span'} (hbody : AllAlike L body body')
      (hspan : L.place span.position span'.position) :
      Alike L (.block body span) (.block body' span')
  | ifThen {e e' s s' span span'} (he : e.Alike L.place e') (hs : Alike L s s')
      (hspan : L.place span.position span'.position) :
      Alike L (.ifThen e s span) (.ifThen e' s' span')
  | ifElse {e e' s s' t t' span span'} (he : e.Alike L.place e') (hs : Alike L s s')
      (ht : Alike L t t') (hspan : L.place span.position span'.position) :
      Alike L (.ifElse e s t span) (.ifElse e' s' t' span')
  | loop {e e' s s' span span'} (he : e.Alike L.place e') (hs : Alike L s s')
      (hspan : L.place span.position span'.position) :
      Alike L (.loop e s span) (.loop e' s' span')
  | ret {e e' span span'} (he : e.Alike L.place e')
      (hspan : L.place span.position span'.position) :
      Alike L (.ret e span) (.ret e' span')
  | function {name parameters body body' bodySpan bodySpan' span span'}
      (hbody : AllAlike L body body') (hbodySpan : L.place bodySpan.position bodySpan'.position)
      (hspan : L.place span.position span'.position) :
      Alike L (.function name parameters body bodySpan span)
        (.function name parameters body' bodySpan' span')

/-- Lists of statements that differ only as far as they may. Behind a statement that always returns
they may go on in any way. -/
inductive AllAlike (L : Leeway) : List Stmt → List Stmt → Prop
  | nil : AllAlike L [] []
  | cons {s s' ss ss'} (hs : Alike L s s') (hss : AllAlike L ss ss') :
      AllAlike L (s :: ss) (s' :: ss')
  | dead {s s' ss ss'} (hdead : L.dead) (hreturns : s.alwaysReturns = true) (hs : Alike L s s') :
      AllAlike L (s :: ss) (s' :: ss')

end

end Stmt

variable {place : Position → Position → Prop} {L : Leeway}

namespace Expr

theorem Alike.position {e e' : Expr} (h : e.Alike place e') : place e.position e'.position := by
  cases h <;> assumption

theorem AllAlike.length_eq {es es' : List Expr} (h : AllAlike place es es') :
    es.length = es'.length := by
  induction es generalizing es' with
  | nil =>
    cases h
    rfl
  | cons e es ih =>
    cases h with
    | cons he hes => rw [List.length_cons, List.length_cons, ih hes]

inductive LinksAlike (place : Position → Position → Prop) :
    List (Operator × Expr) → List (Operator × Expr) → Prop
  | nil : LinksAlike place [] []
  | cons {operator right right' ls ls'} (hright : Alike place right right')
      (hls : LinksAlike place ls ls') :
      LinksAlike place ((operator, right) :: ls) ((operator, right') :: ls')

/-- Chains that are alike have the same operators between operands that are alike. -/
theorem Alike.chainOnto {e e' : Expr} (h : e.Alike place e') {ls ls' : List (Operator × Expr)}
    (hls : LinksAlike place ls ls') :
    (e.chainOnto ls).1.Alike place (e'.chainOnto ls').1 ∧
      LinksAlike place (e.chainOnto ls).2 (e'.chainOnto ls').2 := by
  match h with
  | .number hspan => exact ⟨.number hspan, hls⟩
  | .string hspan => exact ⟨.string hspan, hls⟩
  | .var hspan => exact ⟨.var hspan, hls⟩
  | .call hes hspan => exact ⟨.call hes hspan, hls⟩
  | .binary hleft hright _ => exact hleft.chainOnto (.cons hright hls)

mutual

theorem Alike.refl (hplace : ∀ p, place p p) (e : Expr) : e.Alike place e := by
  match e with
  | .number value span => exact .number (hplace _)
  | .string text span => exact .string (hplace _)
  | .var name span => exact .var (hplace _)
  | .binary operator left right span =>
    exact .binary (Alike.refl hplace left) (Alike.refl hplace right) (hplace _)
  | .call callee es span => exact .call (AllAlike.refl hplace es) (hplace _)

theorem AllAlike.refl (hplace : ∀ p, place p p) (es : List Expr) : AllAlike place es es := by
  match es with
  | [] => exact .nil
  | e :: es => exact .cons (Alike.refl hplace e) (AllAlike.refl hplace es)

end

end Expr

namespace Stmt

theorem Alike.position {s s' : Stmt} (h : s.Alike L s') : L.place s.position s'.position := by
  cases h <;> assumption

mutual

/-- What may differ does not decide whether a statement always returns. -/
theorem Alike.alwaysReturns_eq {s s' : Stmt} (h : s.Alike L s') :
    s.alwaysReturns = s'.alwaysReturns := by
  match h with
  | .ret _ _ => rfl
  | .block hbody _ =>
    rw [alwaysReturns, alwaysReturns]
    exact hbody.anyReturns_eq
  | .ifElse _ hs ht _ => rw [alwaysReturns, alwaysReturns, hs.alwaysReturns_eq, ht.alwaysReturns_eq]
  | .expression _ _ | .assign _ _ | .ifThen _ _ _ | .loop _ _ _ | .function _ _ _ => rfl

theorem AllAlike.anyReturns_eq {ss ss' : List Stmt} (h : AllAlike L ss ss') :
    anyReturns ss = anyReturns ss' := by
  match h with
  | .nil => rfl
  | .cons hs hss => rw [anyReturns, anyReturns, hs.alwaysReturns_eq, hss.anyReturns_eq]
  | .dead _ hreturns hs =>
    rw [anyReturns, anyReturns, ← hs.alwaysReturns_eq, hreturns, Bool.true_or, Bool.true_or]

end

theorem AllAlike.exists_cons {s : Stmt} {ss rest : List Stmt} (h : AllAlike L (s :: ss) rest) :
    ∃ s' ss', rest = s' :: ss' ∧ s.Alike L s' ∧ (s.alwaysReturns = true ∨ AllAlike L ss ss') := by
  cases h with
  | cons hs hss => exact ⟨_, _, rfl, hs, Or.inr hss⟩
  | dead _ hreturns hs => exact ⟨_, _, rfl, hs, Or.inl hreturns⟩

mutual

theorem Alike.refl (hplace : ∀ p, L.place p p) (s : Stmt) : s.Alike L s := by
  match s with
  | .expression e span => exact .expression (.refl hplace e) (hplace _)
  | .assign name e span => exact .assign (.refl hplace e) (hplace _)
  | .block body span => exact .block (AllAlike.refl hplace body) (hplace _)
  | .ifThen e s span => exact .ifThen (.refl hplace e) (Alike.refl hplace s) (hplace _)
  | .ifElse e s t span =>
    exact .ifElse (.refl hplace e) (Alike.refl hplace s) (Alike.refl hplace t) (hplace _)
  | .loop e s span => exact .loop (.refl hplace e) (Alike.refl hplace s) (hplace _)
  | .ret e span => exact .ret (.refl hplace e) (hplace _)
  | .function name parameters body bodySpan span =>
    exact .function (AllAlike.refl hplace body) (hplace _) (hplace _)

theorem AllAlike.refl (hplace : ∀ p, L.place p p) (ss : List Stmt) : AllAlike L ss ss := by
  match ss with
  | [] => exact .nil
  | s :: ss => exact .cons (Alike.refl hplace s) (AllAlike.refl hplace ss)

end

end Stmt

end IntLang
