import IntLang.Proofs.Loop.Basic
import IntLang.Proofs.Token.Shift
import IntLang.Proofs.Token.Successive

/-!
Reading a source in rounds. Blanks and comments are skipped pass by pass, first the blanks and then
a comment, until a pass finds nothing; each pass before it skips at least a byte. The tokens are
read one by one until the end token or an error; each token before it takes at least a byte. So both
loops end, and the bytes in front of them bound their rounds.
-/
namespace IntLang

namespace Loop

def leaving {σ β : Type} (s : σ) : Except Error β → EStateM.Result Error σ β
  | .ok b => .ok b s
  | .error e => .error e s

end Loop

namespace Cursor

variable {c d : Cursor} {t : Token}

def behindRun (c : Cursor) (p : Char → Bool) : Cursor :=
  { c with offset := c.offset + byteLength (c.rest.takeWhile p), rest := c.rest.dropWhile p }

def behindComment (c : Cursor) : Cursor :=
  match c.rest with
  | '/' :: '/' :: _ => c.behindRun (· != '\n')
  | _ => c

def pass (c : Cursor) : Cursor := (c.behindRun isBlank).behindComment

/-- The loop that skips blanks and comments. It goes on as long as a pass has moved the cursor. -/
def triviaLoop : Loop Cursor Bool Unit where
  goesOn moved _ := moved
  round _ := fun c => .ok (c.pass != c) c.pass
  value _ := ()

def tokenLoop : Loop Cursor (Bool × List Token) (List Token) where
  goesOn gathered _ := gathered.1
  round gathered := fun c =>
    match c.next with
    | (.ok t, d) => .ok (t.kind != .endOfSource, gathered.2 ++ [t]) d
    | (.error e, d) => .error e d
  value := Prod.snd

def Skips (c d : Cursor) : Prop :=
  ∃ w rest, Trivia w rest ∧ c.rest = w ++ rest ∧ d = ⟨c.file, c.offset + byteLength w, rest⟩

section Skipping

theorem Skips.refl (c : Cursor) : c.Skips c := ⟨[], c.rest, .nil, rfl, rfl⟩

theorem Skips.trans {e : Cursor} (hcd : c.Skips d) (hde : d.Skips e) : c.Skips e := by
  obtain ⟨v, rest, hv, hsource, rfl⟩ := hcd
  obtain ⟨w, rest', hw, hsource', rfl⟩ := hde
  change rest = w ++ rest' at hsource'
  subst hsource'
  refine ⟨v ++ w, rest', hv.append hw, ?_, ?_⟩
  · rw [hsource, List.append_assoc]
  · rw [byteLength_append, ← Nat.add_assoc]

theorem trivia_of_blank {w : List Char} (h : ∀ a ∈ w, isBlank a = true) (rest : List Char) :
    Trivia w rest := by
  induction w with
  | nil => exact .nil
  | cons a w ih =>
    obtain ⟨ha, hw⟩ := List.forall_mem_cons.mp h
    exact .blank ha (ih hw)

theorem skips_behindRun (c : Cursor) : c.Skips (c.behindRun isBlank) := by
  have hblank := trivia_of_blank (longestRun_takeWhile isBlank c.rest).all
  exact ⟨_, _, hblank _, List.takeWhile_append_dropWhile.symm, rfl⟩

theorem skips_behindComment (c : Cursor) : c.Skips c.behindComment := by
  unfold behindComment
  split
  · next more hmore =>
    -- both slashes belong to the run, and the newline that ends it stays
    have hrun := longestRun_takeWhile (· != '\n') more
    have hbody : '\n' ∉ more.takeWhile (· != '\n') := fun hmem =>
      absurd (hrun.all _ hmem) (by decide)
    have hends : ∀ a ∈ ([] ++ more.dropWhile (· != '\n')).head?, a = '\n' := fun a ha => by
      simpa using hrun.ends a ha
    have hcomment := Trivia.comment hbody hends .nil
    rw [List.append_nil] at hcomment
    refine ⟨_, _, hcomment, ?_, ?_⟩
    · rw [hmore, List.cons_append, List.cons_append, List.takeWhile_append_dropWhile]
    · rw [behindRun, hmore]
      rfl
  · exact .refl c

theorem skips_pass (c : Cursor) : c.Skips c.pass :=
  c.skips_behindRun.trans (skips_behindComment _)

/-- Behind blanks and comments what is left to skip is the same. -/
theorem Skips.afterTrivia_eq (h : c.Skips d) : d.afterTrivia = c.afterTrivia := by
  obtain ⟨w, rest, hw, hsource, rfl⟩ := h
  obtain ⟨file, offset, all⟩ := c
  obtain ⟨v, rest, rfl, hv, hrest⟩ := exists_trivia rest
  change all = w ++ (v ++ rest) at hsource
  subst hsource
  rw [afterTrivia_of_trivia hv hrest, ← List.append_assoc,
    afterTrivia_of_trivia (hw.append hv) hrest, byteLength_append, Nat.add_assoc]

/-- A cursor that skips something leaves a byte or more behind. -/
theorem Skips.eq_or_lt (h : c.Skips d) :
    d = c ∨ byteLength d.rest < byteLength c.rest ∧ d.rest.length < c.rest.length := by
  obtain ⟨w, rest, -, hsource, rfl⟩ := h
  cases w with
  | nil =>
    left
    change c.rest = rest at hsource
    rw [← hsource]
    rfl
  | cons a w =>
    right
    have hpos := a.utf8Size_pos
    simp only [hsource, byteLength_append, byteLength_cons, List.length_append, List.length_cons]
    omega

theorem length_behindRun_lt {p : Char → Bool} {a : Char} {more : List Char}
    (hrest : c.rest = a :: more) (ha : p a = true) :
    (c.behindRun p).rest.length < c.rest.length := by
  have hle := (List.dropWhile_sublist (l := more) p).length_le
  simp only [behindRun, hrest, List.dropWhile_cons_of_pos ha, List.length_cons]
  omega

theorem behindRun_of_neg {p : Char → Bool} {a : Char} {more : List Char}
    (hrest : c.rest = a :: more) (ha : p a = false) : c.behindRun p = c := by
  have hnot : ¬p a = true := Bool.eq_false_iff.mp ha
  rw [behindRun, hrest, List.takeWhile_cons_of_neg hnot, List.dropWhile_cons_of_neg hnot, ← hrest]
  rfl

/-- A pass that finds nothing leaves nothing to skip. -/
theorem not_startsTrivia_of_pass_eq (h : c.pass = c) : ¬StartsTrivia c.rest := by
  intro hstarts
  have hless : c.pass.rest.length < c.rest.length := by
    cases hrest : c.rest with
    | nil =>
      rw [hrest] at hstarts
      exact absurd hstarts id
    | cons a more =>
      rw [hrest] at hstarts
      rw [← hrest]
      rcases hstarts with hblank | ⟨rfl, hslash⟩
      · have hrun := length_behindRun_lt hrest hblank
        rcases (skips_behindComment (c.behindRun isBlank)).eq_or_lt with hsame | ⟨-, hshorter⟩
        · rwa [pass, hsame]
        · exact Nat.lt_trans hshorter hrun
      · obtain ⟨more, rfl⟩ := List.head?_eq_some_iff.mp hslash
        have hnone : c.behindRun isBlank = c := behindRun_of_neg hrest rfl
        have hcomment : c.behindComment = c.behindRun (· != '\n') := by
          simp only [behindComment, hrest]
        rw [pass, hnone, hcomment]
        exact length_behindRun_lt hrest rfl
  rw [h] at hless
  exact Nat.lt_irrefl _ hless

/-- The passes end where nothing is left to skip. All but the last skip something. -/
theorem ends_triviaLoop (c : Cursor) :
    ∃ n, triviaLoop.Ends (n + 1) true c (.ok () c.afterTrivia) ∧
      n + byteLength c.afterTrivia.rest ≤ byteLength c.rest := by
  induction hlength : c.rest.length using Nat.strong_induction_on generalizing c with
  | _ k ih =>
    subst hlength
    rcases c.skips_pass.eq_or_lt with hsame | ⟨hbytes, hshorter⟩
    · have hafter : c.afterTrivia = c :=
        afterTrivia_of_trivia .nil (not_startsTrivia_of_pass_eq hsame) c.file c.offset
      have hround : triviaLoop.round true c = .ok false c := by
        simp only [triviaLoop, hsame, bne_self_eq_false]
      rw [hafter]
      exact ⟨0, .again rfl hround (.stopped rfl), Nat.le_of_eq (Nat.zero_add _)⟩
    · have hround : triviaLoop.round true c = .ok true c.pass := by
        have hmoved : (c.pass != c) = true := by
          rw [bne_iff_ne]
          rintro hsame
          rw [hsame] at hbytes
          exact Nat.lt_irrefl _ hbytes
        simp only [triviaLoop, hmoved]
      obtain ⟨n, hends, hmore⟩ := ih _ hshorter c.pass rfl
      rw [c.skips_pass.afterTrivia_eq] at hends hmore
      exact ⟨n + 1, .again rfl hround hends, by omega⟩

end Skipping

section Reading

/-- A token that is read takes a byte or more. -/
theorem exists_of_next (h : c.next = (.ok t, d)) (hkind : t.kind ≠ .endOfSource) :
    ∃ passed, c.rest = passed ++ d.rest ∧ d.offset = c.offset + byteLength passed ∧
      0 < byteLength passed := by
  have hshorter := next_length_lt h hkind
  obtain ⟨passed, hrest, hoffset⟩ : ∃ passed, c.rest = passed ++ d.rest ∧
      d.offset = c.offset + byteLength passed := by simpa only [h] using c.next_split
  have hbytes := length_le_byteLength passed
  rw [hrest, List.length_append] at hshorter
  exact ⟨passed, hrest, hoffset, by omega⟩

/-- There are no more tokens than bytes. -/
theorem length_tokens_le (c : Cursor) : c.tokens.1.length ≤ byteLength c.rest := by
  induction hlength : c.rest.length using Nat.strong_induction_on generalizing c with
  | _ k ih =>
    subst hlength
    rcases hnext : c.next with ⟨e | t, d⟩
    · rw [tokens_of_error hnext]
      exact Nat.zero_le _
    · by_cases hkind : t.kind = .endOfSource
      · rw [tokens_of_end hnext hkind]
        exact Nat.zero_le _
      · obtain ⟨passed, hrest, -, hbytes⟩ := exists_of_next hnext hkind
        have hmore := ih _ (next_length_lt hnext hkind) d rfl
        rw [tokens_of_token hnext hkind, hrest, byteLength_append, List.length_cons]
        omega

/-- The loop reads the tokens of a source, and the end token or the error that ends them. -/
theorem ends_tokenLoop (c : Cursor) (ts : List Token) :
    ∃ d, tokenLoop.Ends (c.tokens.1.length + 1) (true, ts) c
      (Loop.leaving d (c.tokens.2.map fun last => ts ++ c.tokens.1 ++ [last])) := by
  induction hlength : c.rest.length using Nat.strong_induction_on generalizing c ts with
  | _ k ih =>
    subst hlength
    rcases hnext : c.next with ⟨e | t, d⟩
    · rw [tokens_of_error hnext]
      have hround : tokenLoop.round (true, ts) c = .error e d := by
        simp only [tokenLoop, hnext]
      exact ⟨d, .failed rfl hround⟩
    · have hround : tokenLoop.round (true, ts) c = .ok (t.kind != .endOfSource, ts ++ [t]) d := by
        simp only [tokenLoop, hnext]
      by_cases hkind : t.kind = .endOfSource
      · rw [tokens_of_end hnext hkind, List.append_nil]
        rw [hkind] at hround
        exact ⟨d, .again rfl hround (.stopped rfl)⟩
      · rw [tokens_of_token hnext hkind]
        have hmore : (t.kind != .endOfSource) = true := bne_iff_ne.mpr hkind
        rw [hmore] at hround
        obtain ⟨d', hends⟩ := ih _ (next_length_lt hnext hkind) d (ts ++ [t]) rfl
        refine ⟨d', .again rfl hround ?_⟩
        rwa [List.append_assoc ts, List.singleton_append] at hends

end Reading

end Cursor

end IntLang
