import IntLang.Proofs.Grammar.Nodes
import IntLang.Proofs.Grammar.Related
import IntLang.Proofs.Token.Successive

/-!
Where tokens, nodes and errors begin. Blanks and comments are skipped in front of a token, so it
begins with a character that is not blank, or is the end token at the end of the source; and so does
an error in reading the source. The parser reports its errors at tokens, and the nodes that it reads
begin with tokens. So all of these begin at places that stand out of the blanks.
-/
namespace IntLang

/-- A byte offset of a text in front of a character that is not blank, or at the end. -/
def StandsOut (cs : List Char) (offset : Nat) : Prop :=
  ∃ before after, cs = before ++ after ∧ byteLength before = offset ∧
    ∀ c ∈ after.head?, isBlank c = false

namespace Cursor

variable {cs before : List Char} {c d : Cursor} {t : Token} {e : Error}

theorem position_of_next_ok (h : c.next = (.ok t, d)) :
    t.position = c.afterTrivia.position := by
  unfold next readHere at h
  split at h
  · cases h
    rfl
  · split at h <;> cases h
    rfl

theorem position_of_next_error (h : c.next = (.error e, d)) :
    e.position = c.afterTrivia.position := by
  unfold next readHere at h
  split at h
  · cases h
  · split at h <;> cases h
    rfl

theorem isBlank_of_mem_afterTrivia {a : Char} (h : a ∈ c.afterTrivia.rest.head?) :
    isBlank a = false := by
  have hrest := c.not_startsTrivia_afterTrivia
  obtain ⟨more, hcons⟩ := List.head?_eq_some_iff.mp h
  rw [hcons] at hrest
  exact Bool.eq_false_iff.mpr (not_or.mp hrest).1

theorem standsOut_afterTrivia (hrest : cs = before ++ c.rest)
    (hoffset : byteLength before = c.offset) : StandsOut cs c.afterTrivia.offset := by
  obtain ⟨skipped, hskipped, hbehind⟩ := c.afterTrivia_split
  refine ⟨before ++ skipped, c.afterTrivia.rest, ?_, ?_, fun a => isBlank_of_mem_afterTrivia⟩
  · rw [List.append_assoc, ← hskipped, hrest]
  · rw [byteLength_append, hoffset, hbehind]

/-- The tokens from a cursor on stand out of its text, and so does the end of them. -/
theorem standsOut_tokens (c : Cursor) (hrest : cs = before ++ c.rest)
    (hoffset : byteLength before = c.offset) :
    (∀ t ∈ c.tokens.1, StandsOut cs t.position.offset) ∧
      (∀ t, c.tokens.2 = .ok t → StandsOut cs t.position.offset) ∧
        ∀ e, c.tokens.2 = .error e → StandsOut cs e.position.offset := by
  fun_induction tokens c generalizing before with
  | case1 c e d hnext =>
    refine ⟨fun t ht => absurd ht List.not_mem_nil, fun t ht => ?_, fun e' he => ?_⟩
    · cases ht
    · cases he
      rw [position_of_next_error hnext]
      exact standsOut_afterTrivia hrest hoffset
  | case2 c t d hnext hkind =>
    refine ⟨fun t ht => absurd ht List.not_mem_nil, fun t' ht => ?_, fun e he => ?_⟩
    · cases ht
      rw [position_of_next_ok hnext]
      exact standsOut_afterTrivia hrest hoffset
    · cases he
  | case3 c t d hnext hkind ts ending htokens ih =>
    obtain ⟨passed, hpassed, hbehind⟩ := c.next_split
    rw [hnext] at hpassed hbehind
    have hrest' : cs = (before ++ passed) ++ d.rest := by rw [hrest, hpassed, List.append_assoc]
    have hoffset' : byteLength (before ++ passed) = d.offset := by
      rw [byteLength_append, hoffset, hbehind]
    obtain ⟨hts, hending⟩ := ih hrest' hoffset'
    rw [htokens] at hts hending
    refine ⟨fun u hu => ?_, hending⟩
    rcases List.mem_cons.mp hu with rfl | hu
    · rw [position_of_next_ok hnext]
      exact standsOut_afterTrivia hrest hoffset
    · exact hts u hu

end Cursor

section Nodes

variable {P : Position → Prop} {n m : Node}

def Node.Begins (P : Position → Prop) (n : Node) : Prop :=
  ∀ m, n.Contains m → (∀ b, m ≠ .block b) → P m.span.position

theorem Node.Begins.of_contains (h : m.Begins P) (hn : m.Contains n) : n.Begins P :=
  fun k hk => h k (hn.trans hk)

theorem Node.begins_of_children (hself : (∀ b, n ≠ .block b) → P n.span.position)
    (hchildren : ∀ m ∈ n.children, m.Begins P) : n.Begins P := by
  intro k hk
  rcases Relation.ReflTransGen.cases_head hk with rfl | ⟨m, hm, hmk⟩
  · exact hself
  · exact hchildren m hm k hmk

theorem Node.begins_of_forall₂ {α : Type} {f : α → Node} {as as' : List α}
    (h : List.Forall₂ (fun a _ => (f a).Begins P) as as') : ∀ n ∈ as.map f, n.Begins P := by
  have hboth : List.Forall₂ (fun a _ => (f a).Begins P ∧ True) as as' :=
    h.imp fun _ _ ha => ⟨ha, trivial⟩
  exact List.forall_mem_map.mpr ((List.forall₂_and_left as as').mp hboth).1

def Likeness.beginning (P : Position → Prop) : Likeness where
  place p _ := P p
  span a _ := P a.position
  expr e _ := (Node.expr e).Begins P
  stmt s _ := (Node.stmt s).Begins P
  position h := h
  through h _ := h
  span_expr h := h _ .refl nofun
  span_stmt h := h _ .refl nofun
  number h := Node.begins_of_children (fun _ => h) nofun
  string h := Node.begins_of_children (fun _ => h) nofun
  var h := Node.begins_of_children (fun _ => h) nofun
  binary hl hr h := Node.begins_of_children (fun _ => h)
    (List.forall_mem_cons.mpr ⟨hl, List.forall_mem_singleton.mpr hr⟩)
  call hes h := Node.begins_of_children (fun _ => h) (Node.begins_of_forall₂ hes)
  expression he h := Node.begins_of_children (fun _ => h) (List.forall_mem_singleton.mpr he)
  assign he h := Node.begins_of_children (fun _ => h) (List.forall_mem_singleton.mpr he)
  block hss h := Node.begins_of_children (fun _ => h) (Node.begins_of_forall₂ hss)
  ifThen he hs h := Node.begins_of_children (fun _ => h)
    (List.forall_mem_cons.mpr ⟨he, List.forall_mem_singleton.mpr hs⟩)
  ifElse he hs ht h := Node.begins_of_children (fun _ => h)
    (List.forall_mem_cons.mpr ⟨he, List.forall_mem_cons.mpr ⟨hs, List.forall_mem_singleton.mpr ht⟩⟩)
  loop he hs h := Node.begins_of_children (fun _ => h)
    (List.forall_mem_cons.mpr ⟨he, List.forall_mem_singleton.mpr hs⟩)
  ret he h := Node.begins_of_children (fun _ => h) (List.forall_mem_singleton.mpr he)
  function hss _ h := Node.begins_of_children (fun _ => h) (List.forall_mem_singleton.mpr
    (Node.begins_of_children (fun hne => absurd rfl (hne _)) (Node.begins_of_forall₂ hss)))

end Nodes

section Sources

variable {source file : String} {e : Error}

def Position.StandsOutOf (source : String) (p : Position) : Prop := StandsOut source.toList p.offset

/-- The stream of a source is like itself in that all of it stands out. -/
theorem standsOut_of_ofCursor (source file : String) :
    (∀ s, TokenStream.ofCursor (.start source file) = .ok s →
      (Likeness.beginning (·.StandsOutOf source)).Streams s s) ∧
      ∀ e, TokenStream.ofCursor (.start source file) = .error e →
        e.position.StandsOutOf source := by
  have hstart : source.toList = [] ++ (Cursor.start source file).rest := rfl
  obtain ⟨hts, hlast, herror⟩ := Cursor.standsOut_tokens _ hstart rfl
  have hself {t : Token} (ht : t.position.StandsOutOf source) :
      (Likeness.beginning (·.StandsOutOf source)).Tokens t t := ⟨rfl, rfl, ht⟩
  unfold TokenStream.ofCursor
  generalize (Cursor.start source file).tokens = read at hts hlast herror
  obtain ⟨ts, ending⟩ := read
  have hending : (Likeness.beginning (·.StandsOutOf source)).Endings ending ending := by
    cases ending with
    | ok t => exact .ok (hself (hlast t rfl))
    | error e => exact .error ⟨rfl, herror e rfl⟩
  cases ts with
  | nil =>
    cases ending with
    | ok t =>
      refine ⟨fun s hs => ?_, nofun⟩
      cases hs
      exact ⟨hself (hlast t rfl), .nil, hending⟩
    | error e =>
      refine ⟨fun s hs => ?_, fun e' he => ?_⟩
      · cases hs
      · cases he
        exact herror e rfl
  | cons t ts =>
    refine ⟨fun s hs => ?_, nofun⟩
    cases hs
    obtain ⟨ht, hts⟩ := List.forall_mem_cons.mp hts
    exact ⟨hself ht, List.forall₂_same.mpr fun u hu => hself (hts u hu), hending⟩

/-- What a step on a source yields begins at places that stand out, and so do its errors. -/
theorem standsOut_of_onSource {step : Parse α} {R : α → α → Prop}
    (hstep : (Likeness.beginning (·.StandsOutOf source)).onStreams.Rel R step step) :
    (∀ a, step.onSource source file = .ok a → R a a) ∧
      ∀ e, step.onSource source file = .error e → e.position.StandsOutOf source := by
  obtain ⟨hstreams, herrors⟩ := standsOut_of_ofCursor source file
  unfold Parse.onSource
  cases hstream : TokenStream.ofCursor (.start source file) with
  | error e =>
    refine ⟨nofun, fun e' he => ?_⟩
    cases he
    exact herrors e hstream
  | ok s =>
    have hresults := hstep s s (hstreams s hstream)
    dsimp only
    generalize step s = result at hresults
    cases hresults with
    | ok ha _ =>
      refine ⟨fun b hb => ?_, nofun⟩
      cases hb
      exact ha
    | error he _ =>
      refine ⟨nofun, fun e' he' => ?_⟩
      cases he'
      exact he.position

theorem begins_of_parseProgram {b : Block} (h : parseProgram source file = .ok b) :
    (Node.block b).Begins (·.StandsOutOf source) :=
  Node.begins_of_children (fun hne => absurd rfl (hne b))
    (Node.begins_of_forall₂ ((standsOut_of_onSource Likeness.rel_program).1 b h))

theorem standsOut_of_parseProgram_error (h : parseProgram source file = .error e) :
    e.position.StandsOutOf source :=
  (standsOut_of_onSource Likeness.rel_program).2 e h

theorem begins_of_parseExpr {x : Expr} (h : parseExpr source file = .ok x) :
    (Node.expr x).Begins (·.StandsOutOf source) :=
  (standsOut_of_onSource Likeness.rel_wholeExpr).1 x h

theorem standsOut_of_parseExpr_error (h : parseExpr source file = .error e) :
    e.position.StandsOutOf source :=
  (standsOut_of_onSource Likeness.rel_wholeExpr).2 e h

end Sources

end IntLang
