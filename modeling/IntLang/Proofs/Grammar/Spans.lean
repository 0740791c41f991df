import IntLang.Proofs.Grammar.Parts
import IntLang.Proofs.Grammar.Placement

/-!
The spans of a tree. The tokens of a source stand in it one after the other, and none is empty. So
nodes that lie along them have spans of at least one token that do not overlap, and a node that goes
from the first of its tokens to the last one has the spans of all nodes that it consists of inside
its own. This holds of every tree that the parser makes of a source, down to its leaves.
-/
namespace IntLang

/-- Tokens as they stand in a source: one after the other, each at the place of its characters. -/
structure InSource (source file : String) (ts : List Token) : Prop where
  inOrder : ts.Pairwise fun a b => a.span.stop ≤ b.span.start
  nonempty : ∀ t ∈ ts, t.span.start < t.span.stop
  place : ∀ t ∈ ts, ∃ before chars after, source.toList = before ++ (chars ++ after) ∧
    t.span = ⟨file, byteLength before, byteLength (before ++ chars)⟩

/-- What the span of a node is among the characters and the tokens of its source. -/
structure Located (source file : String) (ts : List Token) (n : Node) : Prop where
  file_eq : n.span.file = file
  nonempty : n.span.start < n.span.stop
  inside : n.span.stop ≤ byteLength source.toList
  place : ∃ before chars after, source.toList = before ++ (chars ++ after) ∧
    n.span = ⟨file, byteLength before, byteLength (before ++ chars)⟩
  head : ∃ t ∈ ts, t.span.start = n.span.start
  last : ∃ t ∈ ts, t.span.stop = n.span.stop
  leaf : n.isLeaf = true → ∃ t ∈ ts, ∃ e, n = .expr e ∧ Leaf t e ∧ n.span = t.span
  nested : n.Nested

section Tokens

variable {source file : String} {ts core : List Token} {last t : Token} {a : Span}

theorem inSource_of_tokenize (h : tokenize source file = .ok (ts ++ [last])) :
    InSource source file ts ∧
      last.span = ⟨file, byteLength source.toList, byteLength source.toList⟩ := by
  obtain ⟨ps, w, hsource, hps, -, htokens⟩ := tokenize_eq_ok_iff_split.mp h
  obtain ⟨rfl, hlast⟩ := List.append_inj' htokens rfl
  rw [List.singleton_inj.mp hlast]
  refine ⟨⟨pairwise_tokensAt 0, fun t ht => lt_of_mem_tokensAt hps ht, fun t ht => ?_⟩, rfl⟩
  have hplace : t ∈ tokensAt file (byteLength []) ps := ht
  rw [hsource]
  exact exists_of_mem_tokensAt hplace

theorem InSource.sublist (h : InSource source file ts) (hcore : core.Sublist ts) :
    InSource source file core where
  inOrder := h.inOrder.sublist hcore
  nonempty t ht := h.nonempty t (hcore.subset ht)
  place t ht := h.place t (hcore.subset ht)

theorem Covers.exists_head (h : Covers ts a) :
    ∃ t us, ts = t :: us ∧ t.span.file = a.file ∧ t.span.start = a.start := by
  have hhead := h.head
  cases ts with
  | nil => cases hhead
  | cons t us =>
    obtain ⟨hfile, hstart⟩ := (Position.mk.injEq ..).mp (Option.some.inj hhead)
    exact ⟨t, us, rfl, hfile, hstart⟩

theorem Covers.exists_last (h : Covers ts a) :
    ∃ t us, ts = us ++ [t] ∧ t.span.stop = a.stop := by
  obtain ⟨t, ht, hstop⟩ := Option.map_eq_some_iff.mp h.last
  obtain ⟨us, rfl⟩ := List.getLast?_eq_some_iff.mp ht
  exact ⟨t, us, rfl, hstop⟩

/-- The tokens that a span covers lie inside it. -/
theorem Covers.le_of_mem (h : Covers ts a) (hts : InSource source file ts) (ht : t ∈ ts) :
    a.start ≤ t.span.start ∧ t.span.stop ≤ a.stop := by
  constructor
  · obtain ⟨x, us, rfl, -, hstart⟩ := h.exists_head
    rcases List.mem_cons.mp ht with rfl | ht
    · exact Nat.le_of_eq hstart.symm
    · have hbehind := (List.pairwise_cons.mp hts.inOrder).1 t ht
      have hne := hts.nonempty x (List.mem_cons_self ..)
      omega
  · obtain ⟨x, us, rfl, hstop⟩ := h.exists_last
    rcases List.mem_append.mp ht with ht | ht
    · have hbefore := (List.pairwise_append.mp hts.inOrder).2.2 t ht x (List.mem_singleton_self x)
      have hne := hts.nonempty x (by simp)
      omega
    · rw [List.mem_singleton.mp ht, hstop]

/-- Two beginnings of one text, of which the first one is shorter. -/
theorem exists_append_of_byteLength_lt {xs ys vs ws : List Char} (h : xs ++ vs = ys ++ ws)
    (hlt : byteLength xs < byteLength ys) : ∃ zs, ys = xs ++ zs := by
  rcases List.append_eq_append_iff.mp h with ⟨zs, rfl, -⟩ | ⟨zs, rfl, -⟩
  · exact ⟨zs, rfl⟩
  · rw [byteLength_append] at hlt
    omega

/-- A span from token to token begins and ends between characters. -/
theorem Covers.place (h : Covers ts a) (hts : InSource source file ts) :
    a.start < a.stop ∧ ∃ before chars after, source.toList = before ++ (chars ++ after) ∧
      a = ⟨file, byteLength before, byteLength (before ++ chars)⟩ := by
  obtain ⟨x, us, rfl, hfile, hstart⟩ := h.exists_head
  obtain ⟨y, vs, hlast, hstop⟩ := h.exists_last
  have hx := h.le_of_mem hts (List.mem_cons_self ..)
  have hne := hts.nonempty x (List.mem_cons_self ..)
  have hlt : a.start < a.stop := by omega
  obtain ⟨before, l, rest, hsource, hxspan⟩ := hts.place x (List.mem_cons_self ..)
  obtain ⟨front, r, after, hsource', hyspan⟩ := hts.place y (by rw [hlast]; simp)
  rw [hxspan] at hfile hstart
  rw [hyspan] at hstop
  dsimp only at hfile hstart hstop
  have hsame : before ++ (l ++ rest) = (front ++ r) ++ after := by
    rw [← hsource, hsource', List.append_assoc]
  obtain ⟨chars, hchars⟩ := exists_append_of_byteLength_lt hsame (by omega)
  refine ⟨hlt, before, chars, after, ?_, ?_⟩
  · rw [← List.append_assoc, ← hchars, hsource', List.append_assoc]
  · rw [← hchars, hstart, hstop, hfile]

end Tokens

section Nodes

variable {source file : String} {ts core : List Token} {n m : Node} {ns : List Node}

theorem Along.exists_placed (h : Along ts ns) (hn : n ∈ ns) :
    ∃ core, core.Sublist ts ∧ Placed core n := by
  induction ns generalizing ts with
  | nil => cases hn
  | cons m ns ih =>
    obtain ⟨before, core, after, rfl, hplaced, hns⟩ := Along.cons_iff.mp h
    have hafter : (core ++ after).Sublist (before ++ (core ++ after)) :=
      List.sublist_append_right ..
    rcases List.mem_cons.mp hn with rfl | hn
    · exact ⟨core, (List.sublist_append_left core after).trans hafter, hplaced⟩
    · obtain ⟨core', hcore', hplaced'⟩ := ih hns hn
      exact ⟨core', (hcore'.trans (List.sublist_append_right core after)).trans hafter, hplaced'⟩

/-- Every node inside a node has tokens of its own among those of that node. -/
theorem Placed.exists_placed (h : Placed core n) (hm : n.Contains m) :
    ∃ core', core'.Sublist core ∧ Placed core' m := by
  induction hm with
  | refl => exact ⟨core, List.Sublist.refl core, h⟩
  | tail _ hchild ih =>
    obtain ⟨us, hus, hplaced⟩ := ih
    obtain ⟨core', hcore', hplaced'⟩ := hplaced.children.exists_placed hchild
    exact ⟨core', hcore'.trans hus, hplaced'⟩

/-- Nodes along the tokens of a source do not overlap. -/
theorem Along.inOrder (h : Along ts ns) (hts : InSource source file ts) :
    ns.Pairwise fun a b => a.span.stop ≤ b.span.start := by
  induction ns generalizing ts with
  | nil => exact .nil
  | cons n ns ih =>
    obtain ⟨before, core, after, rfl, hplaced, hns⟩ := Along.cons_iff.mp h
    have hrest := hts.sublist (List.sublist_append_right ..)
    have hafter := hrest.sublist (List.sublist_append_right ..)
    refine .cons (fun m hm => ?_) (ih hns hafter)
    obtain ⟨core', hcore', hplaced'⟩ := hns.exists_placed hm
    obtain ⟨x, us, rfl, hstop⟩ := hplaced.span.exists_last
    obtain ⟨y, vs, rfl, -, hstart⟩ := hplaced'.span.exists_head
    have hy : y ∈ after := hcore'.subset (List.mem_cons_self ..)
    rw [← hstop, ← hstart]
    exact (List.pairwise_append.mp hrest.inOrder).2.2 x (by simp) y hy

/-- The nodes that a node consists of lie inside it, since their tokens do. -/
theorem Placed.nested (h : Placed core n) (hcore : InSource source file core) : n.Nested where
  inside m hm := by
    obtain ⟨core', hcore', hplaced⟩ := h.children.exists_placed hm
    obtain ⟨x, us, rfl, -, hstart⟩ := hplaced.span.exists_head
    obtain ⟨y, vs, hlast, hstop⟩ := hplaced.span.exists_last
    have hx := h.span.le_of_mem hcore (hcore'.subset (List.mem_cons_self ..))
    have hy := h.span.le_of_mem hcore (hcore'.subset (by rw [hlast]; simp : y ∈ x :: us))
    rw [← hstop, ← hstart]
    exact ⟨hx.1, hy.2⟩
  inOrder := h.children.inOrder hcore

theorem Placed.located (h : Placed core n) (hts : InSource source file ts)
    (hcore : core.Sublist ts) : Located source file ts n := by
  obtain ⟨hlt, hplace⟩ := h.span.place (hts.sublist hcore)
  obtain ⟨x, us, hx, -, hstart⟩ := h.span.exists_head
  obtain ⟨y, vs, hy, hstop⟩ := h.span.exists_last
  refine ⟨?_, hlt, ?_, hplace, ⟨x, hcore.subset (by rw [hx]; simp), hstart⟩,
    ⟨y, hcore.subset (by rw [hy]; simp), hstop⟩, fun hleaf => ?_, h.nested (hts.sublist hcore)⟩
  · obtain ⟨before, chars, after, -, hspan⟩ := hplace
    rw [hspan]
  · obtain ⟨before, chars, after, hsource, hspan⟩ := hplace
    rw [hspan, hsource, ← List.append_assoc, byteLength_append (before ++ chars)]
    exact Nat.le_add_right _ _
  · obtain ⟨t, e, rfl, rfl, hte⟩ := h.leaf hleaf
    refine ⟨t, hcore.subset (List.mem_singleton_self t), e, rfl, hte, ?_⟩
    cases hte <;> rfl

/-- All nodes of trees along the tokens of a source are located there. -/
theorem Along.located (h : Along ts ns) (hts : InSource source file ts) (hn : n ∈ ns)
    (hm : n.Contains m) : Located source file ts m := by
  obtain ⟨core, hcore, hplaced⟩ := h.exists_placed hn
  obtain ⟨core', hcore', hplaced'⟩ := hplaced.exists_placed hm
  exact hplaced'.located hts (hcore'.trans hcore)

end Nodes

namespace Grammar

open Parse TokenStream

/-- Spans are well nested. The span of every node goes from the beginning of a token of the source
to the end of one, and for a number, a string or a variable that is the same token, the one it was
read from; the nodes that a node consists of have their spans inside its own and in the order of the
source, so that they do not overlap. A program goes from the beginning of its source to the end
token and may be empty. -/
theorem spans_wellNested (source file : String) :
    (∀ b, parseProgram source file = .ok b →
      ∃ ts last, tokenize source file = .ok (ts ++ [last]) ∧ last.kind = .endOfSource ∧
        b.span = ⟨file, 0, last.span.start⟩ ∧ last.span.start = byteLength source.toList ∧
        (Node.block b).Nested ∧
        ∀ n ∈ (Node.block b).children, ∀ m, n.Contains m → Located source file ts m) ∧
      ∀ e, parseExpr source file = .ok e →
        ∃ ts last, tokenize source file = .ok (ts ++ [last]) ∧ last.kind = .endOfSource ∧
          ∀ m, (Node.expr e).Contains m → Located source file ts m := by
  constructor
  · intro b h
    obtain ⟨s, u, hstream, hbody, hspan⟩ := exists_read_of_parseProgram h
    have hproper := (proper_of_ofCursor hstream).1
    obtain ⟨-, -, -, -, hstop⟩ := statements_of_stmtsUntil (readsStmt_stmt maxDepth) (by decide)
      hproper s.length_pending_le hbody
    have hend : u.current.kind = .endOfSource := of_decide_eq_true hstop
    obtain ⟨ts, hts, halong⟩ := along_of_stmtsUntil (placesStmt_stmt maxDepth) hproper hbody
    have htokens := tokenize_of_behind hstream hts hend
    obtain ⟨hin, hlast⟩ := inSource_of_tokenize htokens
    have hlocated : ∀ n ∈ (Node.block b).children, ∀ m, n.Contains m → Located source file ts m :=
      fun n hn m hm => halong.located hin hn hm
    refine ⟨ts, u.current, htokens, hend, ?_, ?_, ⟨fun n hn => ?_, halong.inOrder hin⟩, hlocated⟩
    · rw [hspan, hlast]
    · rw [hlast]
    · -- the root has no token of its own, it goes from end to end
      have hinside := (hlocated n hn n .refl).inside
      rw [Node.span, hspan, hlast]
      exact ⟨Nat.zero_le _, hinside⟩
  · intro e h
    obtain ⟨s, u, hstream, hread, hend⟩ := exists_read_of_parseExpr h
    obtain ⟨ts, hts, halong⟩ :=
      placesExpr_expr maxDepth _ _ _ _ (proper_of_ofCursor hstream).1 hread
    have htokens := tokenize_of_behind hstream hts hend
    obtain ⟨hin, -⟩ := inSource_of_tokenize htokens
    exact ⟨ts, u.current, htokens, hend, fun m hm =>
      halong.located hin (List.mem_singleton_self _) hm⟩

/-- The first statement begins behind the parenthesis, and its string has more bytes than
characters. -/
theorem spans_wellNested_parenthesis :
    ∃ b ts last, parseProgram "(1 + x) * f(\"é\"); if (x) y = 2;" "f" = .ok b ∧
      tokenize "(1 + x) * f(\"é\"); if (x) y = 2;" "f" = .ok (ts ++ [last]) ∧
      b.span = ⟨"f", 0, 32⟩ ∧ b.body.map Stmt.span = [⟨"f", 1, 18⟩, ⟨"f", 19, 32⟩] ∧
      ∀ n ∈ (Node.block b).children, ∀ m, n.Contains m →
        Located "(1 + x) * f(\"é\"); if (x) y = 2;" "f" ts m := by
  have hread : (parseProgram "(1 + x) * f(\"é\"); if (x) y = 2;" "f").toOption.map
      (fun b => (b.span, b.body.map Stmt.span)) =
        some (⟨"f", 0, 32⟩, [⟨"f", 1, 18⟩, ⟨"f", 19, 32⟩]) := by decide +kernel
  cases h : parseProgram "(1 + x) * f(\"é\"); if (x) y = 2;" "f" with
  | error e =>
    rw [h] at hread
    cases hread
  | ok b =>
    rw [h] at hread
    obtain ⟨hspan, hspans⟩ := (Prod.mk.injEq ..).mp (Option.some.inj hread)
    obtain ⟨ts, last, htokens, -, -, -, -, hlocated⟩ := (spans_wellNested _ _).1 b h
    exact ⟨b, ts, last, rfl, htokens, hspan, hspans, hlocated⟩

end Grammar

end IntLang
