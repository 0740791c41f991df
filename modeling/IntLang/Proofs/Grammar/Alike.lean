import IntLang.Proofs.Eval.Alike
import IntLang.Proofs.Grammar.Program
import IntLang.Proofs.Grammar.Related

/-!
What the parser reads from two sources that say the same. Their tokens have the same kinds and texts
at positions that may stand for each other. A step on the one source and the same step on the other
then take equally many tokens and yield trees that are alike, or fail for the same cause at
positions that may stand for each other.
-/
namespace IntLang

/-- Lists of expressions that differ in nothing but positions, one by one. -/
theorem Expr.AllAlike.of_forall₂ {place : Position → Position → Prop} {es es' : List Expr}
    (h : List.Forall₂ (Expr.Alike place) es es') : Expr.AllAlike place es es' := by
  induction h with
  | nil => exact .nil
  | cons he _ ih => exact .cons he ih

/-- Lists of statements that differ only as far as they may, one by one. -/
theorem Stmt.AllAlike.of_forall₂ {L : Leeway} {ss ss' : List Stmt}
    (h : List.Forall₂ (Stmt.Alike L) ss ss') : Stmt.AllAlike L ss ss' := by
  induction h with
  | nil => exact .nil
  | cons hs _ ih => exact .cons hs ih

/-- Trees that are alike, as a relation that follows from one between the starts of their spans. -/
def Leeway.likeness (L : Leeway) : Likeness where
  place := L.place
  span a a' := L.place a.position a'.position
  expr := Expr.Alike L.place
  stmt := Stmt.Alike L
  position h := h
  through h _ := h
  span_expr h := h.position
  span_stmt h := h.position
  number h := .number h
  string h := .string h
  var h := .var h
  binary hl hr h := .binary hl hr h
  call hes h := .call (.of_forall₂ hes) h
  expression he h := .expression he h
  assign he h := .assign he h
  block hss h := .block (.of_forall₂ hss) h
  ifThen he hs h := .ifThen he hs h
  ifElse he hs ht h := .ifElse he hs ht h
  loop he hs h := .loop he hs h
  ret he h := .ret he h
  function hss hb h := .function (.of_forall₂ hss) hb h

namespace Parse

variable {L : Leeway}

/-- From streams that are alike programs are read that are alike. -/
theorem alike_program :
    L.likeness.onStreams.Rel (fun b b' => Stmt.AllAlike L b.body b'.body) program program :=
  Likeness.rel_program.mono fun _ _ hss => .of_forall₂ hss

end Parse

def Token.word (t : Token) : TokenKind × String := (t.kind, t.text)

def SameIndex (ts ts' : List Token) (p p' : Position) : Prop :=
  ∃ (i : Nat) (t t' : Token), ts[i]? = some t ∧ ts'[i]? = some t' ∧
    p = t.position ∧ p' = t'.position

section Sources

variable {ts ts' : List Token}

/-- Tokens that say the same are alike, each being placed where its counterpart is. -/
theorem forall₂_alike_of_word_eq (h : ts.map Token.word = ts'.map Token.word) :
    List.Forall₂ (Leeway.likeness ⟨SameIndex ts ts', False⟩).Tokens ts ts' := by
  have hlength : ts.length = ts'.length := by simpa using congrArg List.length h
  refine List.forall₂_iff_get.mpr ⟨hlength, fun i hi hi' => ?_⟩
  have hget : ts[i].word = ts'[i].word := by
    have hmap := List.getElem_of_eq h (i := i) (by simpa using hi)
    simpa only [List.getElem_map] using hmap
  obtain ⟨hkind, htext⟩ := Prod.mk.inj hget
  exact ⟨hkind, htext, i, _, _, List.getElem?_eq_getElem hi, List.getElem?_eq_getElem hi', rfl, rfl⟩

/-- The tokens of a source end with one more token than the cursor finds before the end. -/
theorem exists_of_tokenize {source file : String} (h : tokenize source file = .ok ts) :
    ∃ us last, ts = us ++ [last] ∧ (Cursor.start source file).tokens = (us, .ok last) := by
  unfold tokenize at h
  split at h
  · next us last htokens =>
    cases h
    exact ⟨us, last, rfl, htokens⟩
  · cases h

/-- Sources that say the same have streams that are alike. -/
theorem exists_stream_alike {source source' file file' : String}
    (h : tokenize source file = .ok ts) (h' : tokenize source' file' = .ok ts')
    (hwords : ts.map Token.word = ts'.map Token.word) :
    ∃ s s', TokenStream.ofCursor (.start source file) = .ok s ∧
      TokenStream.ofCursor (.start source' file') = .ok s' ∧
        (Leeway.likeness ⟨SameIndex ts ts', False⟩).Streams s s' := by
  have halike := forall₂_alike_of_word_eq hwords
  obtain ⟨us, last, rfl, htokens⟩ := exists_of_tokenize h
  obtain ⟨us', last', rfl, htokens'⟩ := exists_of_tokenize h'
  refine ⟨_, _, TokenStream.ofCursor_eq_front htokens, TokenStream.ofCursor_eq_front htokens', ?_⟩
  generalize Leeway.likeness ⟨SameIndex (us ++ [last]) (us' ++ [last']), False⟩ = L at halike ⊢
  have hlength : us'.length = us.length := by simpa using halike.length_eq.symm
  have hus := List.forall₂_take_append _ us' _ halike
  have hlast := List.forall₂_drop_append _ us' _ halike
  rw [hlength, List.take_left] at hus
  rw [hlength, List.drop_left] at hlast
  cases hlast with
  | cons hlast _ => exact Likeness.streams_front hus hlast

end Sources

/-- Programs of sources that say the same are alike, or the same is wrong with both of them. -/
theorem parseProgram_alike {source source' file file' : String} {ts ts' : List Token}
    (h : tokenize source file = .ok ts) (h' : tokenize source' file' = .ok ts')
    (hwords : ts.map Token.word = ts'.map Token.word) :
    (∃ b b', parseProgram source file = .ok b ∧ parseProgram source' file' = .ok b' ∧
        Stmt.AllAlike ⟨SameIndex ts ts', False⟩ b.body b'.body) ∨
      ∃ e e', parseProgram source file = .error e ∧ parseProgram source' file' = .error e' ∧
        e.Alike (SameIndex ts ts') e' := by
  obtain ⟨s, s', hs, hs', halike⟩ := exists_stream_alike h h' hwords
  have hresults := Parse.alike_program (L := ⟨SameIndex ts ts', False⟩) s s' halike
  unfold parseProgram Parse.onSource
  simp only [hs, hs']
  generalize Parse.program s = first, Parse.program s' = second at hresults
  cases hresults with
  | ok hbody _ => exact Or.inl ⟨_, _, rfl, rfl, hbody⟩
  | error he _ => exact Or.inr ⟨_, _, rfl, rfl, he.cause, he.position⟩

end IntLang
