import IntLang.Proofs.Token.Successive
import IntLang.Token.Lexer

/-!
Where reading comes to a standstill. Asked for one token after the other, a lexer goes from one
boundary between characters to another, never back and never past the end of its source. When it
yields the end token it stands at the end, and when it fails it stands on the character that begins
no token; nothing is left there to skip, and reading fails before it moves. So every further request
is answered alike and leaves the lexer as it is.
-/
namespace IntLang

namespace Cursor

/-- What a cursor yields and where it then stands: behind a token, at the end of the source, or in
front of a character at which nothing begins. -/
theorem next_cases (c : Cursor) :
    (∃ t, c.next.1 = .ok t ∧ t.kind ≠ .endOfSource) ∨
      (c.next.2.rest = [] ∧ c.next.1 = .ok c.next.2.endToken) ∨
        ∃ first more, c.next.2.rest = first :: more ∧ StartsNothing first more ∧
          c.next.1 = .error ⟨if first = '"' then .unterminatedString
            else .unrecognisedCharacter (String.singleton first), c.next.2.position⟩ := by
  have htrivia := c.not_startsTrivia_afterTrivia
  unfold next
  generalize c.afterTrivia = d at htrivia
  unfold readHere
  split
  · next hrest => exact Or.inr (Or.inl ⟨hrest, rfl⟩)
  · next first more hrest =>
    rw [hrest] at htrivia
    split
    · next cause hread =>
      have hnothing := Lexeme.startsNothing_of_read htrivia hread
      have hcause := hread.symm.trans (Lexeme.read_of_startsNothing hnothing)
      refine Or.inr (Or.inr ⟨first, more, hrest, hnothing, ?_⟩)
      rw [Except.error.inj hcause]
    · next l hread =>
      exact Or.inl ⟨d.tokenOf l, rfl, (Lexeme.spells_of_read htrivia hread).kind_ne_end⟩

end Cursor

namespace Lexer

variable {l m : Lexer} {answer : Except Error Token}

/-- The answers to a number of requests for a token, and the lexer that they leave. -/
def reads : Nat → Lexer → Option (List (Except Error Token) × Lexer)
  | 0, l => some ([], l)
  | n + 1, l => l.next?.bind fun (answer, m) =>
    (reads n m).map fun (answers, k) => (answer :: answers, k)

/-- A lexer between two characters of its source or at one of its ends. -/
def AtBoundary (l : Lexer) : Prop :=
  ∃ before after, l.source = before ++ after ∧ byteLength before = l.offset

/-- Where a lexer stands that reads no further, and what it answers there: the end token at the end
of its source, and on a character at which nothing begins the error about that character. -/
inductive StandsStill (l : Lexer) : Except Error Token → Prop
  | atEnd (h : l.offset = byteLength l.source) :
      StandsStill l (.ok ⟨.endOfSource, "EOF", l.span 0⟩)
  | onCharacter {before c after} (hsource : l.source = before ++ c :: after)
      (hoffset : l.offset = byteLength before) (hnothing : StartsNothing c after) :
      StandsStill l (.error ⟨if c = '"' then .unterminatedString
        else .unrecognisedCharacter (String.singleton c), l.position⟩)

theorem reads_succ (h : l.next? = some (answer, m)) (n : Nat) :
    l.reads (n + 1) = (m.reads n).map fun (answers, k) => (answer :: answers, k) := by
  rw [reads, h, Option.bind_some]

theorem atBoundary_of_cursor? {c : Cursor} (h : l.cursor? = some c) : l.AtBoundary := by
  obtain ⟨-, -, before, hsource, hlength⟩ := cursor?_eq_some_iff.mp h
  exact ⟨before, c.rest, hsource, hlength⟩

theorem AtBoundary.exists_cursor? (h : l.AtBoundary) : ∃ c, l.cursor? = some c := by
  obtain ⟨before, after, hsource, hlength⟩ := h
  exact ⟨⟨l.file, l.offset, after⟩, cursor?_eq_some_iff.mpr ⟨rfl, rfl, before, hsource, hlength⟩⟩

theorem AtBoundary.offset_le (h : l.AtBoundary) : l.offset ≤ byteLength l.source := by
  obtain ⟨before, after, hsource, hlength⟩ := h
  rw [hsource, byteLength_append]
  omega

theorem next?_of_cursor? {c : Cursor} (h : l.cursor? = some c) :
    l.next? = some (c.next.1, { l with offset := c.next.2.offset }) := by
  rw [next?, h]
  rfl

/-- Reading on from a boundary leads to a boundary that is no earlier. -/
theorem AtBoundary.exists_next? (h : l.AtBoundary) :
    ∃ answer m, l.next? = some (answer, m) ∧ m.file = l.file ∧ m.source = l.source ∧
      m.AtBoundary ∧ l.offset ≤ m.offset := by
  obtain ⟨c, hc⟩ := h.exists_cursor?
  obtain ⟨-, hoffset, -⟩ := cursor?_eq_some_iff.mp hc
  obtain ⟨passed, -, hpassed⟩ := c.next_split
  refine ⟨_, _, next?_of_cursor? hc, rfl, rfl, atBoundary_of_cursor? (cursor?_next hc), ?_⟩
  rw [← hoffset, hpassed]
  exact Nat.le_add_right _ _

/-- An answer that is not a token of the source says where the lexer stands. -/
theorem standsStill_of_next? (h : l.next? = some (answer, m)) :
    (∃ t, answer = .ok t ∧ t.kind ≠ .endOfSource) ∨ m.StandsStill answer := by
  obtain ⟨c, hc, hnext⟩ := Option.map_eq_some_iff.mp h
  obtain ⟨rfl, rfl⟩ := Prod.mk.inj hnext
  obtain ⟨hfile, -, before, hsource, hlength⟩ := cursor?_eq_some_iff.mp (cursor?_next hc)
  rcases c.next_cases with htoken | ⟨hrest, hanswer⟩ | ⟨first, more, hrest, hnothing, hanswer⟩
  · exact Or.inl htoken
  · right
    rw [hrest, List.append_nil] at hsource
    have hend : c.next.2.offset = byteLength l.source := by
      rw [hsource]
      exact hlength.symm
    rw [hanswer, Cursor.endToken, Cursor.span, hfile]
    exact .atEnd hend
  · right
    rw [hrest] at hsource
    rw [hanswer, Cursor.position, hfile]
    exact .onCharacter hsource hlength.symm hnothing

/-- A lexer that has answered with the end token or an error answers so again and stays. -/
theorem next?_again (h : l.next? = some (answer, m))
    (hend : ∀ t, answer = .ok t → t.kind = .endOfSource) : m.next? = some (answer, m) := by
  obtain ⟨c, hc, hnext⟩ := Option.map_eq_some_iff.mp h
  obtain ⟨rfl, rfl⟩ := Prod.mk.inj hnext
  have hagain : c.next.2.next = c.next := by
    rcases hresult : c.next with ⟨e | t, d⟩
    · exact Cursor.next_of_error hresult
    · exact Cursor.next_of_end hresult (hend t (congrArg Prod.fst hresult))
  rw [next?_of_cursor? (cursor?_next hc), hagain]

/-- What is answered without moving is answered to every further request. -/
theorem reads_of_next? (h : l.next? = some (answer, l)) (n : Nat) :
    l.reads n = some (List.replicate n answer, l) := by
  induction n with
  | zero => rfl
  | succ n ih =>
    rw [reads_succ h, ih]
    rfl

/-- From a boundary every number of requests is answered, and the lexer comes to a boundary. -/
theorem AtBoundary.exists_reads (h : l.AtBoundary) (n : Nat) :
    ∃ answers m, l.reads n = some (answers, m) ∧ answers.length = n ∧ m.file = l.file ∧
      m.source = l.source ∧ m.AtBoundary ∧ l.offset ≤ m.offset := by
  induction n generalizing l with
  | zero => exact ⟨[], l, rfl, rfl, rfl, rfl, h, Nat.le_refl _⟩
  | succ n ih =>
    obtain ⟨answer, m, hnext, hfile, hsource, hm, hforward⟩ := h.exists_next?
    obtain ⟨answers, k, hreads, hlength, hfiles, hsources, hk, hforwards⟩ := ih hm
    have hall : l.reads (n + 1) = some (answer :: answers, k) := by
      rw [reads_succ hnext, hreads]
      rfl
    exact ⟨answer :: answers, k, hall, congrArg (· + 1) hlength, hfiles.trans hfile,
      hsources.trans hsource, hk, Nat.le_trans hforward hforwards⟩

/-- However often one reads from the beginning of a source, the lexer stands between two characters
or at the end, and reading on does not move it back. Once it has answered with the end token or an
error it stands still: at the end of the source, or on the character that the error is about, a
quote if a string literal is not closed. It then answers every further request alike and stays as it
is. -/
theorem reading_ends_at_standstill (source file : String) (n : Nat) :
    ∃ answers l, (ofSource source file).reads n = some (answers, l) ∧ answers.length = n ∧
      l.file = file ∧ l.source = source.toList ∧ l.AtBoundary ∧
      l.offset ≤ byteLength source.toList ∧
      ∃ answer m, l.next? = some (answer, m) ∧ l.offset ≤ m.offset ∧
        ((∃ t, answer = .ok t ∧ t.kind ≠ .endOfSource) ∨
          m.StandsStill answer ∧ ∀ k, m.reads k = some (List.replicate k answer, m)) := by
  have hstart : (ofSource source file).AtBoundary := ⟨[], source.toList, rfl, rfl⟩
  obtain ⟨answers, l, hreads, hlength, hfile, hsource, hl, -⟩ := hstart.exists_reads n
  obtain ⟨answer, m, hnext, -, -, -, hforward⟩ := hl.exists_next?
  have hwithin : l.offset ≤ byteLength source.toList := by
    have hle := hl.offset_le
    rwa [hsource] at hle
  refine ⟨answers, l, hreads, hlength, hfile, hsource, hl, hwithin, answer, m, hnext, hforward, ?_⟩
  rcases standsStill_of_next? hnext with htoken | hstands
  · exact Or.inl htoken
  · have hend : ∀ t, answer = .ok t → t.kind = .endOfSource := by
      rintro t rfl
      cases hstands
      rfl
    exact Or.inr ⟨hstands, reads_of_next? (next?_again hnext hend)⟩

/-- Behind a name an open literal is refused at its quote, again and again. -/
example : (ofSource "a \"b" "f").reads 3 =
    some ([.ok ⟨.identifier, "a", ⟨"f", 0, 1⟩⟩, .error ⟨.unterminatedString, ⟨"f", 2⟩⟩,
      .error ⟨.unterminatedString, ⟨"f", 2⟩⟩], (ofSource "a \"b" "f").advance 2) := by
  decide +kernel

end Lexer

end IntLang
