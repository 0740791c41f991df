import IntLang.Stmt.Basic
import IntLang.Text.Decimal
import IntLang.Token.Basic
import Mathlib.Logic.Relation

/-!
The nodes of a syntax tree and the tokens they lie on. A number, a string or a variable is a single
token. Any other node goes from the beginning of one token to the end of another, and the nodes that
it consists of lie on the tokens between these, one after the other; what is left over between them
are signs, words and brackets. A parenthesis around an expression is left over as well: it belongs
to no node but those around it.
-/
namespace IntLang

inductive Node where
  | expr (e : Expr)
  | stmt (s : Stmt)
  | block (b : Block)

namespace Node

def span : Node → Span
  | expr e => e.span
  | stmt s => s.span
  | block b => b.span

/-- The nodes that a node consists of, in the order of the source. -/
def children : Node → List Node
  | expr (.number _ _) | expr (.string _ _) | expr (.var _ _) => []
  | expr (.binary _ left right _) => [expr left, expr right]
  | expr (.call _ arguments _) => arguments.map expr
  | stmt (.expression value _) | stmt (.assign _ value _) | stmt (.ret value _) => [expr value]
  | stmt (.block body _) => body.map stmt
  | stmt (.ifThen test thenBranch _) => [expr test, stmt thenBranch]
  | stmt (.ifElse test thenBranch elseBranch _) =>
    [expr test, stmt thenBranch, stmt elseBranch]
  | stmt (.loop test body _) => [expr test, stmt body]
  | stmt (.function _ _ body bodySpan _) => [block ⟨body, bodySpan⟩]
  | block b => b.body.map stmt

def isLeaf : Node → Bool
  | expr (.number _ _) | expr (.string _ _) | expr (.var _ _) => true
  | _ => false

/-- A node and the nodes it consists of, theirs, and so on. -/
def Contains : Node → Node → Prop := Relation.ReflTransGen fun m n => n ∈ m.children

/-- The nodes that a node consists of lie inside it, one after the other. -/
structure Nested (n : Node) : Prop where
  inside : ∀ m ∈ n.children, n.span.start ≤ m.span.start ∧ m.span.stop ≤ n.span.stop
  inOrder : n.children.Pairwise fun a b => a.span.stop ≤ b.span.start

end Node

inductive Leaf : Token → Expr → Prop
  | number {t value} (hkind : t.kind = .number) (hvalue : integer? t.text.toList = some value) :
      Leaf t (.number value t.span)
  | string {t} (hkind : t.kind = .string) : Leaf t (.string t.text t.span)
  | var {t} (hkind : t.kind = .identifier) : Leaf t (.var t.text t.span)

/-- The span goes from the beginning of the first token to the end of the last one. -/
structure Covers (ts : List Token) (a : Span) : Prop where
  head : ts.head?.map Token.position = some a.position
  last : ts.getLast?.map (·.span.stop) = some a.stop

/-- Nodes lie on tokens, one after the other. Other tokens may stand between and around them. -/
inductive Along : List Token → List Node → Prop
  | nil {ts} : Along ts []
  | leaf {before t after e ns} (hleaf : Leaf t e) (hns : Along after ns) :
      Along (before ++ ([t] ++ after)) (.expr e :: ns)
  | inner {before core after n ns} (hinner : n.isLeaf = false) (hspan : Covers core n.span)
      (hchildren : Along core n.children) (hns : Along after ns) :
      Along (before ++ (core ++ after)) (n :: ns)

/-- The tokens are those of the node: none of them stands around it. -/
structure Placed (core : List Token) (n : Node) : Prop where
  span : Covers core n.span
  children : Along core n.children
  leaf : n.isLeaf = true → ∃ t e, core = [t] ∧ n = .expr e ∧ Leaf t e

theorem head?_map_append {α : Type} {f : Token → α} {a : α} {ts : List Token}
    (h : ts.head?.map f = some a) (us : List Token) : (ts ++ us).head?.map f = some a := by
  obtain ⟨t, ht, rfl⟩ := Option.map_eq_some_iff.mp h
  rw [List.head?_append, ht]
  rfl

theorem getLast?_map_append {α : Type} {f : Token → α} {a : α} {us : List Token}
    (h : us.getLast?.map f = some a) (ts : List Token) : (ts ++ us).getLast?.map f = some a := by
  obtain ⟨t, ht, rfl⟩ := Option.map_eq_some_iff.mp h
  rw [List.getLast?_append, ht]
  rfl

theorem Leaf.placed {t : Token} {e : Expr} (h : Leaf t e) : Placed [t] (.expr e) := by
  have hspan : e.span = t.span := by cases h <;> rfl
  have hchildren : (Node.expr e).children = [] := by cases h <;> rfl
  refine ⟨⟨?_, ?_⟩, ?_, fun _ => ⟨t, e, rfl, rfl, h⟩⟩
  · rw [Node.span, hspan]
    rfl
  · rw [Node.span, hspan]
    rfl
  · rw [hchildren]
    exact .nil

namespace Along

variable {ts us ls rs : List Token} {ns ms : List Node} {n l r : Node}

theorem cons_iff :
    Along ts (n :: ns) ↔
      ∃ before core after, ts = before ++ (core ++ after) ∧ Placed core n ∧ Along after ns := by
  constructor
  · intro h
    cases h with
    | leaf hleaf hns => exact ⟨_, _, _, rfl, hleaf.placed, hns⟩
    | inner hinner hspan hchildren hns =>
      exact ⟨_, _, _, rfl, ⟨hspan, hchildren, fun hleaf => by simp [hinner] at hleaf⟩, hns⟩
  · rintro ⟨before, core, after, rfl, hplaced, hns⟩
    cases hleaf : n.isLeaf with
    | false => exact .inner hleaf hplaced.span hplaced.children hns
    | true =>
      obtain ⟨t, e, rfl, rfl, hte⟩ := hplaced.leaf hleaf
      exact .leaf hte hns

theorem of_leaf {t : Token} {e : Expr} (h : Leaf t e) : Along [t] [.expr e] :=
  cons_iff.mpr ⟨[], [t], [], rfl, h.placed, .nil⟩

theorem of_covers (hinner : n.isLeaf = false) (hspan : Covers ts n.span)
    (hchildren : Along ts n.children) : Along ts [n] := by
  refine cons_iff.mpr ⟨[], ts, [], (List.append_nil ts).symm, ⟨hspan, hchildren, fun hleaf => ?_⟩,
    .nil⟩
  rw [hinner] at hleaf
  cases hleaf

theorem prepend (h : Along ts ns) (us : List Token) : Along (us ++ ts) ns := by
  cases ns with
  | nil => exact .nil
  | cons n ns =>
    obtain ⟨before, core, after, rfl, hplaced, hns⟩ := cons_iff.mp h
    exact cons_iff.mpr ⟨us ++ before, core, after, (List.append_assoc ..).symm, hplaced, hns⟩

theorem append (h : Along ts ns) (h' : Along us ms) : Along (ts ++ us) (ns ++ ms) := by
  induction ns generalizing ts with
  | nil => exact h'.prepend ts
  | cons n ns ih =>
    obtain ⟨before, core, after, rfl, hplaced, hns⟩ := cons_iff.mp h
    refine cons_iff.mpr ⟨before, core, after ++ us, ?_, hplaced, ih hns⟩
    simp only [List.append_assoc]

/-- Tokens behind the nodes change nothing. -/
theorem extend (h : Along ts ns) (us : List Token) : Along (ts ++ us) ns := by
  have hnone : Along us [] := .nil
  have hboth := h.append hnone
  rwa [List.append_nil] at hboth

/-- The tokens in front of the first node are left away. -/
theorem exists_trim_left (h : Along ts (l :: ns)) :
    ∃ before core, ts = before ++ core ∧ Along core (l :: ns) ∧
      core.head?.map Token.position = some l.span.position := by
  obtain ⟨before, core, after, rfl, hplaced, hns⟩ := cons_iff.mp h
  exact ⟨before, core ++ after, rfl, cons_iff.mpr ⟨[], core, after, rfl, hplaced, hns⟩,
    head?_map_append hplaced.span.head after⟩

/-- The tokens behind the last node are left away. -/
theorem exists_trim_right (h : Along ts (ns ++ [r])) :
    ∃ core after, ts = core ++ after ∧ Along core (ns ++ [r]) ∧
      core.getLast?.map (·.span.stop) = some r.span.stop := by
  induction ns generalizing ts with
  | nil =>
    obtain ⟨before, core, after, rfl, hplaced, -⟩ := cons_iff.mp h
    exact ⟨before ++ core, after, (List.append_assoc ..).symm,
      cons_iff.mpr ⟨before, core, [], by rw [List.append_nil], hplaced, .nil⟩,
      getLast?_map_append hplaced.span.last before⟩
  | cons n ns ih =>
    obtain ⟨before, front, rest, rfl, hplaced, hns⟩ := cons_iff.mp h
    obtain ⟨core, after, rfl, hcore, hlast⟩ := ih hns
    exact ⟨before ++ (front ++ core), after, by simp only [List.append_assoc],
      cons_iff.mpr ⟨before, front, core, rfl, hplaced, hcore⟩,
      getLast?_map_append (getLast?_map_append hlast front) before⟩

section Nodes

variable (hinner : n.isLeaf = false)
include hinner

/-- A node from one token to another with its children in between. -/
theorem between {o c : Token} (hspan : n.span = o.span.through c.span)
    (h : Along ts n.children) : Along (o :: (ts ++ [c])) [n] := by
  refine of_covers hinner ⟨?_, ?_⟩ ((h.extend [c]).prepend [o])
  · rw [hspan]
    rfl
  · rw [hspan, ← List.cons_append, List.getLast?_concat]
    rfl

/-- A node from a token to the end of its last child. -/
theorem from_token {o : Token} (hspan : n.span = o.span.through r.span)
    (hchildren : n.children = ns ++ [r]) (h : Along ts (ns ++ [r])) : Along (o :: ts) [n] := by
  obtain ⟨core, after, rfl, hcore, hlast⟩ := h.exists_trim_right
  have hnode : Along ([o] ++ core) [n] := by
    refine of_covers hinner ⟨?_, ?_⟩ ?_
    · rw [hspan]
      rfl
    · rw [hspan]
      exact getLast?_map_append hlast [o]
    · rw [hchildren]
      exact hcore.prepend [o]
  exact hnode.extend after

/-- A node from the beginning of its only child to a token. -/
theorem upto_token {c : Token} (hspan : n.span = l.span.through c.span)
    (hchildren : n.children = [l]) (h : Along ts [l]) : Along (ts ++ [c]) [n] := by
  obtain ⟨before, core, rfl, hcore, hhead⟩ := h.exists_trim_left
  rw [List.append_assoc]
  refine (of_covers hinner ⟨?_, ?_⟩ ?_).prepend before
  · rw [hspan]
    exact head?_map_append hhead [c]
  · rw [hspan]
    exact getLast?_map_append rfl core
  · rw [hchildren]
    exact hcore.extend [c]

/-- A node from the beginning of its first child to the end of its second one. -/
theorem operands {o : Token} (hspan : n.span = l.span.through r.span)
    (hchildren : n.children = [l, r]) (hl : Along ls [l]) (hr : Along rs [r]) :
    Along (ls ++ o :: rs) [n] := by
  obtain ⟨before, left, rfl, hleft, hhead⟩ := hl.exists_trim_left
  have hlone : Along rs ([] ++ [r]) := hr
  obtain ⟨right, after, rfl, hright, hlast⟩ := hlone.exists_trim_right
  have htokens : before ++ left ++ o :: (right ++ after) =
      before ++ ((left ++ ([o] ++ right)) ++ after) := by
    simp only [List.append_assoc, List.cons_append, List.nil_append]
  rw [htokens]
  refine ((of_covers hinner ⟨?_, ?_⟩ ?_).extend after).prepend before
  · rw [hspan]
    exact head?_map_append hhead _
  · rw [hspan]
    exact getLast?_map_append (getLast?_map_append hlast [o]) left
  · rw [hchildren]
    exact hleft.append (hright.prepend [o])

end Nodes

end Along

end IntLang
