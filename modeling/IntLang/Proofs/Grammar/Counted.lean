import IntLang.Grammar.Parser
import IntLang.Grammar.Program
import IntLang.Proofs.Grammar.Related
import IntLang.Proofs.Token.Successive

/-!
Counting nesting levels. Every statement and every expression closes the level that it has opened,
so a reader gives back the count as it has found it, whether it succeeds or fails. That makes the
count a matter of where a reader stands and not of what was read before: a parser that counts its
levels and reads its tokens one by one does what the steps on the stream of its tokens do with the
number of levels that it may still open.
-/
namespace IntLang

open Parse

theorem eq_of_forall₂_eq {α : Type} {as bs : List α} (h : List.Forall₂ Eq as bs) : as = bs := by
  rwa [← List.forall₂_eq_eq_eq]

def Likeness.same : Likeness where
  place := Eq
  span := Eq
  expr := Eq
  stmt := Eq
  position h := congrArg _ h
  through h h' := by rw [h, h']
  span_expr h := congrArg _ h
  span_stmt h := congrArg _ h
  number h := congrArg _ h
  string h := congrArg _ h
  var h := congrArg _ h
  binary hl hr h := by rw [hl, hr, h]
  call hes h := by rw [eq_of_forall₂_eq hes, h]
  expression he h := by rw [he, h]
  assign he h := by rw [he, h]
  block hss h := by rw [eq_of_forall₂_eq hss, h]
  ifThen he hs h := by rw [he, hs, h]
  ifElse he hs ht h := by rw [he, hs, ht, h]
  loop he hs h := by rw [he, hs, h]
  ret he h := by rw [he, h]
  function hss hb h := by rw [eq_of_forall₂_eq hss, hb, h]

theorem Likeness.same_tokens (t : Token) : same.Tokens t t := ⟨rfl, rfl, rfl⟩

theorem Likeness.same_errors (e : Error) : same.Errors e e := ⟨rfl, rfl⟩

section Nested

variable {σ : Type} [LevelCount σ] {α : Type} {x : ParseOn σ α} {s : σ}

open LevelCount

theorem nested_of_full (h : maxDepth ≤ depth s) : nested x s = tooDeep s := by
  change EStateM.bind descend _ s = _
  simp only [EStateM.bind, descend, if_pos h]
  rfl

theorem nested_of_room (h : depth s < maxDepth) :
    nested x s = closing x (setDepth s (depth s + 1)) := by
  change EStateM.bind descend _ s = _
  simp only [EStateM.bind, descend, if_neg (Nat.not_le.mpr h)]

end Nested

structure LevelCorrespondence (σ σ' : Type) [LevelCount σ] [LevelCount σ'] extends Likeness where
  state : Nat → σ → σ' → Prop
  current : ∀ {d s s'}, state d s s' →
    toLikeness.Tokens (TokenSource.current s) (TokenSource.current s')
  ahead : ∀ {d s s'}, state d s s' → TokenSource.ahead s = TokenSource.ahead s'
  take : ∀ {d s s'}, state d s s' →
    ResultsRelated (state d) toLikeness.Errors toLikeness.Tokens (TokenSource.take s)
      (TokenSource.take s')
  depth : ∀ {d s s'}, state d s s' → LevelCount.depth s = d ∧ LevelCount.depth s' = d
  setDepth : ∀ {d s s'}, state d s s' → ∀ k,
    state k (LevelCount.setDepth s k) (LevelCount.setDepth s' k)

namespace LevelCorrespondence

variable {σ σ' : Type} [LevelCount σ] [LevelCount σ'] (C : LevelCorrespondence σ σ')

def atDepth (d : Nat) : Correspondence σ σ' where
  toLikeness := C.toLikeness
  state := C.state d
  current := C.current
  ahead := C.ahead
  take := C.take

variable {C} {α β : Type} {R : α → β → Prop} {d : Nat}

theorem ascend {s : σ} {s' : σ'} (h : C.state (d + 1) s s') :
    C.state d (ascend s) (Parse.ascend s') := by
  obtain ⟨hdepth, hdepth'⟩ := C.depth h
  unfold Parse.ascend
  rw [hdepth, hdepth', Nat.add_sub_cancel]
  exact C.setDepth h d

theorem rel_closing {x : ParseOn σ α} {y : ParseOn σ' β} (h : (C.atDepth (d + 1)).Rel R x y)
    {s : σ} {s' : σ'} (hs : C.state (d + 1) s s') :
    ResultsRelated (C.state d) C.Errors R (closing x s) (closing y s') := by
  have hxy := h s s' hs
  unfold closing
  generalize x s = first, y s' = second at hxy
  cases hxy with
  | ok hab hu => exact .ok hab (ascend hu)
  | error he hu => exact .error he (ascend hu)

/-- A level that is opened is closed again. -/
theorem rel_nested {x : ParseOn σ α} {y : ParseOn σ' β} (h : ∀ d, (C.atDepth d).Rel R x y)
    (d : Nat) : (C.atDepth d).Rel R (nested x) (nested y) := by
  intro s s' hs
  obtain ⟨hdepth, hdepth'⟩ := C.depth hs
  by_cases hroom : d < maxDepth
  · rw [nested_of_room (by rwa [hdepth]), nested_of_room (by rwa [hdepth']), hdepth, hdepth']
    exact rel_closing (h (d + 1)) (C.setDepth hs (d + 1))
  · have hfull : maxDepth ≤ d := Nat.not_lt.mp hroom
    rw [nested_of_full (by rwa [hdepth]), nested_of_full (by rwa [hdepth'])]
    exact Correspondence.Rel.tooDeep s s' hs

theorem rel_countedExpr (rules : Rules) (bound d : Nat) (p : BindingPower) :
    (C.atDepth d).Rel C.expr (countedExpr rules bound p) (countedExpr rules bound p) := by
  induction bound generalizing d p with
  | zero => exact .tooDeep
  | succ bound ih => exact rel_nested (fun k => Correspondence.rel_chain (ih k) rules p) d

theorem rel_countedStmt (rules : Rules) (bound d : Nat) :
    (C.atDepth d).Rel C.stmt (countedStmt rules bound) (countedStmt rules bound) := by
  induction bound generalizing d with
  | zero => exact .tooDeep
  | succ bound ih =>
    refine rel_nested (fun k => ?_) d
    exact Correspondence.rel_stmtHere (rel_countedExpr rules bound k) (ih k) rules

end LevelCorrespondence

namespace Parser

variable {α : Type}

/-- The stream of a parser is that of the cursor in front of its current token. -/
theorem ofCursor_eq_stream {c d : Cursor} {t : Token} (h : c.next = (.ok t, d)) (rules : Rules)
    (depth : Nat) : TokenStream.ofCursor c = .ok (stream ⟨rules, d, t, depth⟩) := by
  by_cases hkind : t.kind = .endOfSource
  · have hlast := Cursor.tokens_of_end (Cursor.next_of_end h hkind) hkind
    simp only [TokenStream.ofCursor, Cursor.tokens_of_end h hkind, stream, hlast]
  · simp only [TokenStream.ofCursor, Cursor.tokens_of_token h hkind, stream]

theorem take_related (p : Parser) :
    ResultsRelated (fun q s => q.stream = s ∧ q.depth = p.depth) Likeness.same.Errors
      Likeness.same.Tokens p.take p.stream.take := by
  unfold take TokenStream.take stream
  rcases h : p.cursor.next with ⟨e | t, c⟩
  · rw [Cursor.tokens_of_error h]
    refine .error (Likeness.same_errors e) ⟨?_, rfl⟩
    rw [Cursor.tokens_of_error (Cursor.next_of_error h)]
  · by_cases hkind : t.kind = .endOfSource
    · rw [Cursor.tokens_of_end h hkind]
      refine .ok (Likeness.same_tokens _) ⟨?_, rfl⟩
      rw [Cursor.tokens_of_end (Cursor.next_of_end h hkind) hkind]
    · rw [Cursor.tokens_of_token h hkind]
      exact .ok (Likeness.same_tokens _) ⟨rfl, rfl⟩

/-- A parser that has some levels open, and the stream of its tokens. -/
def onStream (depth : Nat) : Correspondence Parser TokenStream where
  toLikeness := .same
  state p s := p.stream = s ∧ p.depth = depth
  current := by
    rintro p s ⟨rfl, -⟩
    exact Likeness.same_tokens _
  ahead := by
    rintro p s ⟨rfl, -⟩
    rfl
  take := by
    rintro p s ⟨rfl, rfl⟩
    exact take_related p

variable {R : α → α → Prop}

theorem closing_onStream {d : Nat} {x : ParseOn Parser α} {y : Parse α}
    (h : (onStream (d + 1)).Rel R x y) {p : Parser} (hp : p.depth = d) :
    ResultsRelated (onStream d).state Likeness.same.Errors R
      (closing x { p with depth := p.depth + 1 }) (y p.stream) := by
  have hxy := h { p with depth := p.depth + 1 } p.stream ⟨rfl, congrArg (· + 1) hp⟩
  unfold closing
  generalize x { p with depth := p.depth + 1 } = first, y p.stream = second at hxy
  cases hxy with
  | ok hab hu => exact .ok hab ⟨hu.1, congrArg (· - 1) hu.2⟩
  | error he hu => exact .error he ⟨hu.1, congrArg (· - 1) hu.2⟩

/-- A level further in there is room for one level less. -/
theorem nested_onStream {d : Nat} {x : ParseOn Parser α} {y : Nat → Parse α}
    (hfull : y 0 = tooDeep)
    (h : d < maxDepth → (onStream (d + 1)).Rel R x (y (maxDepth - (d + 1) + 1))) :
    (onStream d).Rel R (nested x) (y (maxDepth - d)) := by
  rintro p s ⟨rfl, hp⟩
  have hdepth : LevelCount.depth p = d := hp
  by_cases hroom : d < maxDepth
  · have hless : maxDepth - (d + 1) + 1 = maxDepth - d := by omega
    rw [nested_of_room (by rwa [hdepth]), ← hless]
    exact closing_onStream (h hroom) hp
  · have hnone : maxDepth ≤ d := Nat.not_lt.mp hroom
    rw [nested_of_full (by rwa [hdepth]), Nat.sub_eq_zero_of_le hnone, hfull]
    exact Correspondence.Rel.tooDeep (C := onStream d) p p.stream ⟨rfl, hp⟩

variable {rules : Rules}

/-- The levels that may still be opened are those that the bound and the count both leave. -/
theorem countedExpr_onStream_min (bound d : Nat) (power : BindingPower) :
    (onStream d).Rel Eq (countedExpr rules bound power)
      (Parse.expr rules (min bound (maxDepth - d)) power) := by
  induction bound generalizing d power with
  | zero =>
    rw [Nat.zero_min]
    exact .tooDeep
  | succ bound ih =>
    refine nested_onStream (y := fun room => Parse.expr rules (min (bound + 1) room) power)
      (by rw [Nat.min_zero]; rfl) fun _ => ?_
    rw [Nat.add_min_add_right]
    exact Correspondence.rel_chain (C := onStream (d + 1)) (ih (d + 1)) rules power

theorem countedStmt_onStream_min (bound d : Nat) :
    (onStream d).Rel Eq (countedStmt rules bound)
      (Parse.stmt rules (min bound (maxDepth - d))) := by
  induction bound generalizing d with
  | zero =>
    rw [Nat.zero_min]
    exact .tooDeep
  | succ bound ih =>
    refine nested_onStream (y := fun room => Parse.stmt rules (min (bound + 1) room))
      (by rw [Nat.min_zero]; rfl) fun _ => ?_
    rw [Nat.add_min_add_right]
    exact Correspondence.rel_stmtHere (C := onStream (d + 1))
      (countedExpr_onStream_min bound (d + 1)) (ih (d + 1)) rules

theorem countedExpr_onStream {bound d : Nat} (h : maxDepth - d < bound) (power : BindingPower) :
    (onStream d).Rel Eq (countedExpr rules bound power)
      (Parse.expr rules (maxDepth - d) power) := by
  rw [← Nat.min_eq_right (Nat.le_of_lt h)]
  exact countedExpr_onStream_min bound d power

theorem countedStmt_onStream {bound d : Nat} (h : maxDepth - d < bound) :
    (onStream d).Rel Eq (countedStmt rules bound) (Parse.stmt rules (maxDepth - d)) := by
  rw [← Nat.min_eq_right (Nat.le_of_lt h)]
  exact countedStmt_onStream_min bound d

/-- A step on the stream of a source is one on a new parser. -/
theorem onSource_eq {x : ParseOn Parser α} {y : Parse α} (h : (onStream 0).Rel Eq x y)
    (source file : String) :
    y.onSource source file = (ofSource source file).bind fun p => (p.run x).1 := by
  unfold Parse.onSource ofSource
  rcases hnext : (Cursor.start source file).next with ⟨e | t, c⟩
  · rw [TokenStream.ofCursor, Cursor.tokens_of_error hnext]
    rfl
  · rw [ofCursor_eq_stream hnext .standard 0]
    have hxy := h ⟨.standard, c, t, 0⟩ _ ⟨rfl, rfl⟩
    simp only [Except.bind, run]
    generalize x _ = first, y _ = second at hxy
    cases hxy with
    | ok hab _ => exact congrArg _ hab.symm
    | error he _ => exact congrArg _ (congrArg₂ Error.mk he.cause he.position).symm

end Parser

/-- A program is what a parser reads that counts its levels and takes its tokens one by one. -/
theorem parseProgram_eq (source file : String) :
    parseProgram source file = (Parser.ofSource source file).bind fun p => (p.run do
      let body ← stmtsUntil (· = .endOfSource) (countedStmt .standard (maxDepth + 1)) (← rounds)
      let last ← peek
      pure ⟨body, ⟨last.span.file, 0, last.span.start⟩⟩).1 := by
  refine Parser.onSource_eq (.bind .rounds fun n n' hn => ?_) source file
  subst hn
  have hinner : (Parser.onStream 0).Rel Eq (countedStmt .standard (maxDepth + 1))
      (Parse.stmt .standard maxDepth) := Parser.countedStmt_onStream (Nat.lt_succ_self maxDepth)
  refine (Correspondence.rel_stmtsUntil hinner _ n).bind fun body body' hbody => ?_
  refine .bind .peek fun last last' hlast => .pure ?_
  rw [eq_of_forall₂_eq hbody, show last.span = last'.span from hlast.span]

end IntLang
