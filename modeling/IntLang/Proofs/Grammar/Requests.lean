import IntLang.Proofs.Grammar.Counted

/-!
What is asked of a parser, in any order and as often as one likes, also after errors. The tokens that
it takes are recorded; recording changes nothing else. At every point the tokens taken, the current
token and the tokens that the cursor has still to yield are together the tokens of the source: a
request that fails loses none, and a failure to read the next token can be asked about again. The
rules may be changed between two requests; a rule that makes no progress, such as the chain of
operators as the rule of a single operator, is not among them, as a request that runs into it is
never answered.
-/
namespace IntLang

open Parse

inductive Registration where
  | operator (kind : TokenKind) (power : BindingPower)
  | operand (kind : TokenKind) (rule : OperandRule)
  | stmt (kind : TokenKind) (rule : StmtRule)

def Registration.change (rules : Rules) : Registration → Rules
  | .operator kind power => rules.setOperator kind power
  | .operand kind rule => rules.setOperand kind rule
  | .stmt kind rule => rules.setStmt kind rule

inductive Request where
  | register (registration : Registration)
  | advance
  | expect (kind : TokenKind)
  | expectOr (kind : TokenKind) (complaint : Error)
  | expr (power : BindingPower)
  | operand (rule : OperandRule)
  | operators (left : Expr) (power : BindingPower)
  | binary (left : Expr) (power : BindingPower)
  | call (callee : Token)
  | symbolTail (name : Token)
  | stmt (rule : StmtRule)

namespace Parse

variable {σ : Type}

def left (x : ParseOn σ α) (s : σ) : σ :=
  match x s with
  | .ok _ u => u
  | .error _ u => u

theorem left_of_forget (x : ParseOn σ α) (s : σ) : left (x >>= fun _ => pure ()) s = left x s := by
  simp only [left, bind, EStateM.bind, pure, EStateM.pure]
  cases x s <;> rfl

end Parse

theorem Correspondence.Rel.left {σ σ' α β : Type} [TokenSource σ] [TokenSource σ']
    {C : Correspondence σ σ'} {R : α → β → Prop} {x : ParseOn σ α} {y : ParseOn σ' β}
    (h : C.Rel R x y) {s : σ} {s' : σ'} (hs : C.state s s') :
    C.state (Parse.left x s) (Parse.left y s') := by
  have hxy := h s s' hs
  unfold Parse.left
  generalize x s = first, y s' = second at hxy
  cases hxy with
  | ok _ hu => exact hu
  | error _ hu => exact hu

def Request.step {σ : Type} [LevelCount σ] (rules : Rules) (request : Request) : ParseOn σ Unit :=
  let sub : BindingPower → ParseOn σ Expr := countedExpr rules (maxDepth + 1)
  match request with
  | register _ => pure ()
  | advance => do let _ ← Parse.advance
  | expect kind => do let _ ← Parse.expect kind
  | expectOr kind complaint => do let _ ← Parse.expectOr kind complaint
  | expr power => do let _ ← sub power
  | operand rule => do let _ ← operandBy sub rule
  | operators left power => do let _ ← Parse.operators rules sub power left
  | binary left power => do let _ ← Parse.binary sub left power
  | call callee => do let _ ← Parse.call sub callee
  | symbolTail name => do let _ ← Parse.symbolTail sub name
  | stmt rule => do let _ ← stmtBy rules sub (countedStmt rules (maxDepth + 1)) rule

namespace Parser

def perform (p : Parser) : Request → Parser
  | .register registration => { p with rules := registration.change p.rules }
  | .advance => p.advance.2
  | .expect kind => (p.expect kind).2
  | .expectOr kind complaint => (p.run (Parse.expectOr kind complaint)).2
  | .expr power => (p.expr power).2
  | .operand rule => (p.operand rule).2
  | .operators left power => (p.operators left power).2
  | .binary left power => (p.binary left power).2
  | .call callee => (p.call callee).2
  | .symbolTail name => (p.symbolTail name).2
  | .stmt rule => (p.stmt rule).2

def opens (p : Parser) : Nat → Bool
  | 0 => true
  | n + 1 =>
    match p.descend with
    | (.ok (), q) => q.opens n
    | (.error _, _) => false

theorem descend_of_full {p : Parser} (h : maxDepth ≤ p.depth) :
    p.descend = (.error ⟨.nestingTooDeep maxDepth, p.current.position⟩, p) := by
  have hfull : maxDepth ≤ LevelCount.depth p := h
  simp only [descend, run, Parse.descend, if_pos hfull, tooDeep]
  rfl

theorem descend_of_room {p : Parser} (h : p.depth < maxDepth) :
    p.descend = (.ok (), { p with depth := p.depth + 1 }) := by
  have hroom : ¬maxDepth ≤ LevelCount.depth p := Nat.not_le.mpr h
  simp only [descend, run, Parse.descend, if_neg hroom]
  rfl

/-- How many levels can be opened depends on the number of levels open. -/
theorem opens_eq (p : Parser) (n : Nat) : p.opens n = decide (n ≤ maxDepth - p.depth) := by
  induction n generalizing p with
  | zero => simp only [opens, Nat.zero_le, decide_true]
  | succ n ih =>
    unfold opens
    by_cases hfull : maxDepth ≤ p.depth
    · rw [descend_of_full hfull, Nat.sub_eq_zero_of_le hfull]
      rfl
    · rw [descend_of_room (Nat.not_le.mp hfull)]
      simp only [ih]
      congr 1
      exact propext ⟨fun _ => by omega, fun _ => by omega⟩

theorem left_eq_run (x : ParseOn Parser α) (p : Parser) : left x p = (p.run x).2 := by
  unfold left run
  cases x p <;> rfl

/-- A parser does what the steps asked for do. -/
theorem left_step (p : Parser) {request : Request}
    (h : ∀ registration, request ≠ .register registration) :
    left (request.step p.rules) p = p.perform request := by
  cases request with
  | register registration => exact absurd rfl (h registration)
  | advance | expect | expectOr | expr | operand | operators | binary | call | symbolTail | stmt =>
    exact (left_of_forget _ p).trans (left_eq_run _ p)

/-- A parser and the tokens that have been taken from it. -/
structure Recorded where
  parser : Parser
  taken : List Token

namespace Recorded

def take (r : Recorded) : EStateM.Result Error Recorded Token :=
  match r.parser.take with
  | .ok t p => .ok t ⟨p, r.taken ++ [t]⟩
  | .error e p => .error e ⟨p, r.taken⟩

instance : LevelCount Recorded where
  current r := r.parser.current
  take := take
  ahead r := TokenSource.ahead r.parser
  depth r := r.parser.depth
  setDepth r depth := { r with parser := LevelCount.setDepth r.parser depth }

def perform (r : Recorded) (request : Request) : Recorded :=
  match request with
  | .register registration => { r with parser := r.parser.perform (.register registration) }
  | request => left (request.step r.parser.rules) r

/-- The tokens taken, the current token and those that the cursor has still to yield. -/
def tokenAt (r : Recorded) (i : Nat) : Except Error Token :=
  match (r.taken ++ [r.parser.current])[i]? with
  | some t => .ok t
  | none => r.parser.cursor.tokenAt (i - (r.taken.length + 1))

variable {r : Recorded} {t : Token} {e : Error} {c : Cursor}

theorem tokenAt_of_getElem? {i : Nat} (h : (r.taken ++ [r.parser.current])[i]? = some t) :
    r.tokenAt i = .ok t := by
  simp only [tokenAt, h]

theorem tokenAt_behind (i : Nat) :
    r.tokenAt (r.taken.length + 1 + i) = r.parser.cursor.tokenAt i := by
  have hnone : (r.taken ++ [r.parser.current])[r.taken.length + 1 + i]? = none := by
    rw [List.getElem?_eq_none_iff, List.length_append, List.length_singleton]
    omega
  simp only [tokenAt, hnone, Nat.add_sub_cancel_left]

/-- A token that is read leaves the tokens as they are and passes one of them. -/
theorem tokenAt_of_next (h : r.parser.cursor.next = (.ok t, c)) :
    tokenAt ⟨{ r.parser with cursor := c, current := t }, r.taken ++ [r.parser.current]⟩ =
      r.tokenAt := by
  have hshift : ∀ i, r.taken.length + 1 < i →
      i - (r.taken.length + 1) = i - ((r.taken ++ [r.parser.current]).length + 1) + 1 := by
    intro i hi
    rw [List.length_append, List.length_singleton]
    omega
  funext i
  rcases Nat.lt_trichotomy i (r.taken.length + 1) with hi | rfl | hi
  · have hlt : i < (r.taken ++ [r.parser.current]).length := by
      rwa [List.length_append, List.length_singleton]
    simp only [tokenAt, List.getElem?_append_left hlt, List.getElem?_eq_getElem hlt]
  · rw [tokenAt_behind 0, Cursor.tokenAt_zero h]
    refine tokenAt_of_getElem? ?_
    rw [← List.length_singleton (a := r.parser.current), ← List.length_append]
    exact List.getElem?_concat_length
  · obtain ⟨k, rfl⟩ := Nat.exists_eq_add_of_lt hi
    have hnew := tokenAt_behind
      (r := ⟨{ r.parser with cursor := c, current := t }, r.taken ++ [r.parser.current]⟩) k
    have hindex : r.taken.length + 1 + k + 1 = (r.taken ++ [r.parser.current]).length + 1 + k := by
      rw [List.length_append, List.length_singleton]
      omega
    rw [hindex, hnew, ← hindex, Nat.add_assoc _ k 1, tokenAt_behind, Cursor.tokenAt_succ h]

/-- A token that cannot be read leaves the tokens as they are. -/
theorem tokenAt_of_next_error (h : r.parser.cursor.next = (.error e, c)) :
    tokenAt ⟨{ r.parser with cursor := c }, r.taken⟩ = r.tokenAt := by
  funext i
  simp only [tokenAt, Cursor.tokenAt_of_error h, Cursor.tokenAt_of_error (Cursor.next_of_error h)]

/-- A record, the parser alone, and what neither a token taken nor one that cannot be read changes:
the parser is that of the record, the tokens are the given ones, and those taken stay taken. -/
def correspondence (source : Nat → Except Error Token) (before : List Token) :
    LevelCorrespondence Recorded Parser where
  toLikeness := .same
  state d r p := r.parser = p ∧ p.depth = d ∧ r.tokenAt = source ∧ before <+: r.taken
  current := by
    rintro d r p ⟨rfl, -⟩
    exact Likeness.same_tokens _
  ahead := by
    rintro d r p ⟨rfl, -⟩
    rfl
  take := by
    rintro d r p ⟨rfl, hdepth, hsource, hbefore⟩
    change ResultsRelated _ _ _ r.take r.parser.take
    unfold take Parser.take
    rcases hnext : r.parser.cursor.next with ⟨e | t, c⟩
    · refine .error (Likeness.same_errors _) ⟨rfl, hdepth, ?_, hbefore⟩
      rwa [tokenAt_of_next_error hnext]
    · refine .ok (Likeness.same_tokens _) ⟨rfl, hdepth, ?_, hbefore.trans (List.prefix_append _ _)⟩
      rwa [tokenAt_of_next hnext]
  depth := by
    rintro d r p ⟨rfl, hdepth, -⟩
    exact ⟨hdepth, hdepth⟩
  setDepth := by
    rintro d r p ⟨rfl, -, hsource, hbefore⟩ k
    exact ⟨rfl, rfl, hsource, hbefore⟩

theorem rel_step (source : Nat → Except Error Token) (before : List Token) (d : Nat)
    (rules : Rules) (request : Request) :
    ((correspondence source before).atDepth d).Rel (fun _ _ => True) (request.step rules)
      (request.step rules) := by
  have hsub : ∀ power, ((correspondence source before).atDepth d).Rel Likeness.same.expr
      (countedExpr rules (maxDepth + 1) power) (countedExpr rules (maxDepth + 1) power) :=
    LevelCorrespondence.rel_countedExpr rules _ d
  cases request with
  | register registration => exact .pure trivial
  | advance => exact .bind .advance fun _ _ _ => .pure trivial
  | expect kind => exact .bind (.expect kind) fun _ _ _ => .pure trivial
  | expectOr kind complaint =>
    exact .bind (.expectOr kind (Likeness.same_errors complaint)) fun _ _ _ => .pure trivial
  | expr power => exact (hsub power).bind fun _ _ _ => .pure trivial
  | operand rule =>
    exact (Correspondence.rel_operandBy hsub rule).bind fun _ _ _ => .pure trivial
  | operators left power =>
    exact (Correspondence.rel_operators hsub rules power rfl).bind fun _ _ _ => .pure trivial
  | binary left power =>
    exact (Correspondence.rel_binary hsub rfl power).bind fun _ _ _ => .pure trivial
  | call callee =>
    exact (Correspondence.rel_call hsub (Likeness.same_tokens callee)).bind fun _ _ _ =>
      .pure trivial
  | symbolTail name =>
    exact (Correspondence.rel_symbolTail hsub (Likeness.same_tokens name)).bind fun _ _ _ =>
      .pure trivial
  | stmt rule =>
    have hinner := LevelCorrespondence.rel_countedStmt (C := correspondence source before) rules
      (maxDepth + 1) d
    exact (Correspondence.rel_stmtBy hsub hinner rules rule).bind fun _ _ _ => .pure trivial

/-- A request does to the parser of a record what it does to the parser alone. It gives back the
levels that it opens, leaves the tokens as they are and keeps those taken. -/
theorem perform_spec (r : Recorded) (request : Request) :
    (r.perform request).parser = r.parser.perform request ∧
      (r.parser.perform request).depth = r.parser.depth ∧
        (r.perform request).tokenAt = r.tokenAt ∧ r.taken <+: (r.perform request).taken := by
  have hsame : (correspondence r.tokenAt r.taken).state r.parser.depth r r.parser :=
    ⟨rfl, rfl, rfl, List.prefix_rfl⟩
  have hstate :=
    (rel_step r.tokenAt r.taken r.parser.depth r.parser.rules request).left hsame
  cases request with
  | register registration => exact ⟨rfl, rfl, rfl, List.prefix_rfl⟩
  | advance | expect | expectOr | expr | operand | operators | binary | call | symbolTail | stmt =>
    rw [left_step r.parser (by rintro _ ⟨⟩)] at hstate
    exact hstate

def performs (r : Recorded) (requests : List Request) : Recorded := requests.foldl perform r

theorem performs_spec (r : Recorded) (requests : List Request) :
    (r.performs requests).parser = requests.foldl Parser.perform r.parser ∧
      (r.performs requests).parser.depth = r.parser.depth ∧
        (r.performs requests).tokenAt = r.tokenAt := by
  induction requests generalizing r with
  | nil => exact ⟨rfl, rfl, rfl⟩
  | cons request requests ih =>
    obtain ⟨hparser, hdepth, hsource, -⟩ := r.perform_spec request
    obtain ⟨hparsers, hdepths, hsources⟩ := ih (r.perform request)
    rw [hparser] at hparsers hdepths
    exact ⟨hparsers, hdepths.trans hdepth, hsources.trans hsource⟩

/-- What a parser answers when it is asked to take the current token. -/
theorem advance_eq (r : Recorded) :
    r.parser.advance.1 = (r.tokenAt (r.taken.length + 1)).map fun _ => r.parser.current := by
  have hnext := tokenAt_behind (r := r) 0
  rw [Nat.add_zero] at hnext
  rw [hnext]
  change (r.parser.run Parser.take).1 = _
  unfold run Parser.take
  rcases h : r.parser.cursor.next with ⟨e | t, c⟩
  · rw [Cursor.tokenAt_of_error h]
    rfl
  · rw [Cursor.tokenAt_zero h]
    rfl

end Recorded

/-- The tokens from a new parser on are those of its source. -/
theorem tokenAt_of_ofSource {source file : String} {p : Parser} (h : ofSource source file = .ok p) :
    Recorded.tokenAt ⟨p, []⟩ = (Cursor.start source file).tokenAt := by
  unfold ofSource at h
  rcases hnext : (Cursor.start source file).next with ⟨e | t, c⟩ <;> rw [hnext] at h <;> cases h
  funext i
  cases i with
  | zero => exact (Cursor.tokenAt_zero hnext).symm
  | succ i => exact (Cursor.tokenAt_succ hnext i).symm

/-- A parser loses no token and leaks no level. Whatever it is asked for, with whatever success and
under whatever rules, the tokens taken and the current one are the first tokens of its source, and
taking the next one succeeds or fails as the source has it; what is taken stays taken. Each request
leaves the number of levels open as it was, and so the number of those that can be opened. -/
theorem keeps_tokens_and_levels (source file : String) (p : Parser)
    (h : ofSource source file = .ok p) (requests : List Request) :
    let tokenAt := (Cursor.start source file).tokenAt
    let r := Recorded.performs ⟨p, []⟩ requests
    r.parser = requests.foldl perform p ∧
      (∀ i t, (r.taken ++ [r.parser.current])[i]? = some t → tokenAt i = .ok t) ∧
      r.parser.advance.1 = (tokenAt (r.taken.length + 1)).map (fun _ => r.parser.current) ∧
      (∀ request, r.taken <+: (r.perform request).taken) ∧
      (∀ n, r.parser.opens n = p.opens n) ∧
      ∀ (q : Parser) request, (q.perform request).depth = q.depth ∧
        ∀ n, (q.perform request).opens n = q.opens n := by
  intro tokenAt r
  obtain ⟨hparser, hdepth, htokens⟩ := Recorded.performs_spec ⟨p, []⟩ requests
  have hsource : r.tokenAt = tokenAt := htokens.trans (tokenAt_of_ofSource h)
  refine ⟨hparser, fun i t ht => ?_, ?_, fun request => (r.perform_spec request).2.2.2,
    fun n => ?_, fun q request => ?_⟩
  · rw [← hsource]
    exact Recorded.tokenAt_of_getElem? ht
  · rw [← hsource]
    exact r.advance_eq
  · rw [opens_eq, opens_eq, hdepth]
  · have hkept : (q.perform request).depth = q.depth :=
      (Recorded.perform_spec ⟨q, []⟩ request).2.1
    exact ⟨hkept, fun n => by rw [opens_eq, opens_eq, hkept]⟩

/-- In front of a character that begins no token a sum stays unread, however often one asks, and all
levels can still be opened. -/
theorem keeps_tokens_and_levels_unread :
    ∃ p, ofSource "(1 + $" "f" = .ok p ∧
      let r := Recorded.performs ⟨p, []⟩ [.stmt .any, .advance, .expr .lowest, .advance]
      r.taken.map Token.text = ["(", "1"] ∧ r.parser.current.text = "+" ∧
        r.parser.advance.1 = .error ⟨.unrecognisedCharacter "$", ⟨"f", 5⟩⟩ ∧
        r.parser.opens maxDepth = true := by
  have hnext : (Cursor.start "(1 + $" "f").next =
      (.ok ⟨.openParen, "(", ⟨"f", 0, 1⟩⟩, ⟨"f", 1, "1 + $".toList⟩) := by decide +kernel
  have hp : ofSource "(1 + $" "f" =
      .ok ⟨.standard, ⟨"f", 1, "1 + $".toList⟩, ⟨.openParen, "(", ⟨"f", 0, 1⟩⟩, 0⟩ := by
    simp only [ofSource, hnext]
  obtain ⟨-, -, hadvance, -, hopens, -⟩ := keeps_tokens_and_levels _ _ _ hp
    [.stmt .any, .advance, .expr .lowest, .advance]
  refine ⟨_, hp, by decide +kernel, by decide +kernel, ?_, ?_⟩
  · rw [hadvance]
    decide +kernel
  · rw [hopens]
    decide +kernel

end Parser

end IntLang
