import IntLang.Proofs.Grammar.Alike
import IntLang.Proofs.Grammar.StmtPrefix
import IntLang.Proofs.Token.Tokenize

/-!
Where the parser stops. If a token does not fit, the error stands at that token: the tokens in front
of it begin some program, and no program begins with them and the token. If the source cannot be
read up to there, the error is the one that reading it ends with. The depth to which a program may
be nested plays no part here: a source that is nested too deep fails for that reason alone.
-/
namespace IntLang

open Parse TokenStream Grammar

/-- Whether the tokens of a source are a program of the grammar, however many levels it opens. -/
def IsProgram (source file : String) : Prop :=
  ∃ ts last n body, tokenize source file = .ok (ts ++ [last]) ∧ Program n ts body

/-- The tokens of a source, the end token last, or those in front of the first character at which
nothing begins. -/
def sourceTokens (source file : String) : List Token :=
  (Cursor.start source file).tokens.1 ++ (Cursor.start source file).tokens.2.toOption.toList

variable {source file : String} {ts ts' : List Token}

section Positions

/-- A source is pieces and a rest, its tokens are those of the pieces, and the end token, if there is
one, begins behind them. -/
theorem exists_pieces_sourceTokens (source file : String) :
    ∃ ps rest, source.toList = sourceOf ps ++ rest ∧ Split ps rest ∧
      (Cursor.start source file).tokens.1 = tokensAt file 0 ps ∧
      ∀ last, (Cursor.start source file).tokens.2 = .ok last →
        byteLength (sourceOf ps) ≤ last.span.start := by
  obtain ⟨ps, w, rest, hsource, hps, hw, rfl | ⟨c, more, rfl, hnothing⟩⟩ :=
    exists_split source.toList
  · rw [List.append_nil] at hsource hps
    have htokens := tokenize_eq_ok_iff.mp (tokenize_of_split hsource hps hw file)
    refine ⟨ps, w, hsource, hps, by rw [htokens], fun last hlast => ?_⟩
    rw [htokens] at hlast
    cases hlast
    rw [hsource, byteLength_append]
    exact Nat.le_add_right ..
  · have htokens := Cursor.tokens_of_split hps file 0
    rw [Cursor.tokens_of_startsNothing hw hnothing, ← hsource, List.append_nil] at htokens
    refine ⟨ps, w ++ c :: more, hsource, hps, by rw [Cursor.start, htokens], fun last hlast => ?_⟩
    rw [Cursor.start, htokens] at hlast
    cases hlast

/-- No two tokens of a source begin at the same place. -/
theorem nodup_position_sourceTokens (source file : String) :
    ((sourceTokens source file).map Token.position).Nodup := by
  obtain ⟨ps, rest, -, hps, htokens, hlast⟩ := exists_pieces_sourceTokens source file
  have hstarts : (sourceTokens source file).Pairwise fun a b => a.span.start < b.span.start := by
    unfold sourceTokens
    rw [htokens]
    refine List.pairwise_append.mpr ⟨?_, ?_, fun a ha b hb => ?_⟩
    · refine List.Pairwise.imp_of_mem ?_ (pairwise_tokensAt 0)
      intro a b ha _ hle
      exact Nat.lt_of_lt_of_le (lt_of_mem_tokensAt hps ha) hle
    · cases (Cursor.start source file).tokens.2.toOption with
      | none => exact .nil
      | some last => exact List.pairwise_singleton ..
    · have hstop := (le_of_mem_tokensAt ha).2
      have hlt := lt_of_mem_tokensAt hps ha
      have hend : (Cursor.start source file).tokens.2 = .ok b := by
        cases hending : (Cursor.start source file).tokens.2 with
        | error e =>
          rw [hending] at hb
          cases hb
        | ok last =>
          rw [hending] at hb
          rw [List.mem_singleton.mp hb]
      have hbehind := hlast b hend
      omega
  refine List.pairwise_map.mpr (hstarts.imp fun hlt heq => ?_)
  exact Nat.ne_of_lt hlt (congrArg Position.offset heq)

/-- A token is found by its position. -/
theorem eq_of_position_eq {us vs us' vs' : List Token} {t t' : Token}
    (hnodup : ((us ++ t :: vs).map Token.position).Nodup) (h : us ++ t :: vs = us' ++ t' :: vs')
    (hposition : t.position = t'.position) : us = us' ∧ t = t' := by
  have hshorter {ks ls ls' : List Token} {a b : Token}
      (hnodup : ((a :: ls).map Token.position).Nodup) (h : a :: ls = ks ++ b :: ls')
      (hposition : a.position = b.position) : ks = [] := by
    cases ks with
    | nil => rfl
    | cons c ks =>
      obtain ⟨rfl, rfl⟩ := List.cons.inj h
      rw [List.map_cons, List.nodup_cons] at hnodup
      exact absurd (List.mem_map.mpr ⟨b, by simp, hposition.symm⟩) hnodup.1
  have hnodup' := hnodup
  rw [h] at hnodup'
  rw [List.map_append] at hnodup hnodup'
  rcases List.append_eq_append_iff.mp h with ⟨ks, rfl, htail⟩ | ⟨ks, rfl, htail⟩
  · obtain rfl := hshorter (List.nodup_append.mp hnodup).2.1 htail hposition
    exact ⟨(List.append_nil us).symm, (List.cons.inj htail).1⟩
  · obtain rfl := hshorter (List.nodup_append.mp hnodup').2.1 htail hposition.symm
    exact ⟨List.append_nil us', (List.cons.inj htail).1.symm⟩

end Positions

section Words

/-- What the grammar derives is a matter of the kinds and texts of the tokens. -/
theorem Grammar.Phrase.of_words (h : Phrase Statements ts)
    (hwords : ts.map Token.word = ts'.map Token.word)
    (hkinds : ∀ t ∈ ts', t.kind ≠ .endOfSource) : Phrase Statements ts' := by
  obtain ⟨n, ss, hss⟩ := h
  obtain ⟨m, body, hbody, hnear⟩ := Statements.exists_elsesNearest hss
  let last : Token := ⟨.endOfSource, "", .blank⟩
  have hlast : last.kind = .endOfSource := rfl
  obtain ⟨body', -, hread⟩ := Program.reads_front hbody hnear hlast (Nat.le_refl _)
  let anywhere : Likeness := Leeway.likeness ⟨fun _ _ => True, False⟩
  have htokens : List.Forall₂ anywhere.Tokens ts ts' :=
    (forall₂_alike_of_word_eq hwords).imp fun t t' h => ⟨h.kind, h.text, trivial⟩
  have hend : anywhere.Tokens last last := ⟨rfl, rfl, trivial⟩
  have hinner : anywhere.onStreams.Rel anywhere.stmt (stmt .standard m) (stmt .standard m) :=
    Correspondence.rel_stmt .standard m
  have hresults := Correspondence.rel_stmtsUntil hinner (· = .endOfSource) ts.length _ _
    (Likeness.streams_front htokens hend)
  rw [hread] at hresults
  generalize hsecond : stmtsUntil _ _ _ (front last ts') = second at hresults
  cases hresults with
  | ok _ _ =>
    have hlength : (front last ts').pending.length ≤ ts.length := by
      rw [pending_front hkinds hlast, htokens.length_eq]
    obtain ⟨us, hus, hstatements, -, hstop⟩ :=
      statements_of_stmtsUntil (readsStmt_stmt m) rfl (proper_front hkinds hlast) hlength hsecond
    have hpending := hus.pending
    rw [pending_front hkinds hlast, pending_eq_nil_iff.mpr (of_decide_eq_true hstop),
      List.append_nil] at hpending
    exact ⟨m, _, hpending ▸ hstatements⟩

end Words

section Completion

theorem map_word_tokensAt (file : String) (offset : Nat) (ps : List Piece) :
    (tokensAt file offset ps).map Token.word = ps.map fun p => (p.kind, p.text) := by
  induction ps generalizing offset with
  | nil => rfl
  | cons p ps ih => simp only [tokensAt, List.map_cons, ih, Token.word]

/-- Legible tokens can be spelled with a blank in front of each. -/
theorem exists_pieces_of_legible {us : List Token} (h : ∀ u ∈ us, u.Legible) :
    ∃ qs, Split qs [] ∧ (∀ c ∈ (sourceOf qs).head?, c = ' ') ∧
      (qs.map fun p => (p.kind, p.text)) = us.map Token.word := by
  induction us with
  | nil => exact ⟨[], .nil, nofun, rfl⟩
  | cons u us ih =>
    obtain ⟨l, hl⟩ := h u (List.mem_cons_self ..)
    obtain ⟨qs, hqs, hblank, hwords⟩ := ih fun v hv => h v (List.mem_cons_of_mem _ hv)
    have hspells : Spells u.kind u.text l (sourceOf qs ++ []) :=
      hl _ (by rwa [List.append_nil])
    refine ⟨⟨[' '], u.kind, u.text, l⟩ :: qs, .cons (.blank rfl .nil) hspells hqs, ?_, ?_⟩
    · rintro c ⟨⟩
      rfl
    · rw [List.map_cons, hwords]
      rfl

/-- Tokens at the beginning of a source that can be completed to a program begin the tokens of some
program. -/
theorem exists_isProgram_of_completable {before after : List Token}
    (htokens : (Cursor.start source file).tokens.1 = before ++ after)
    (h : Completable (Phrase Statements) before) :
    ∃ source' ts, tokenize source' file = .ok (before ++ ts) ∧ IsProgram source' file := by
  obtain ⟨us, hus, hphrase⟩ := h
  obtain ⟨ps, rest, -, hps, hpieces, -⟩ := exists_pieces_sourceTokens source file
  obtain ⟨qs, hqs, hblank, hwords⟩ := exists_pieces_of_legible hus
  rw [hpieces] at htokens
  -- the pieces of the tokens in front, and those of the completion behind them
  have hfirst : tokensAt file 0 (ps.take before.length) = before := by
    rw [← tokensAt_take, htokens, List.take_left]
  have hfront : Split (ps.take before.length) (sourceOf qs ++ []) := by
    rw [← List.take_append_drop before.length ps] at hps
    refine hps.of_append.of_head fun c hc => Or.inl ?_
    rw [List.append_nil] at hc
    rw [hblank c hc]
    rfl
  have hall := hfront.append hqs
  let source' := String.ofList (sourceOf (ps.take before.length ++ qs))
  have hsource : source'.toList = sourceOf (ps.take before.length ++ qs) ++ [] := by
    rw [String.toList_ofList, List.append_nil]
  have htokens' := tokenize_of_split hsource hall .nil file
  rw [tokensAt_append, hfirst] at htokens'
  have hkinds := (Cursor.start source' file).kind_tokens.1
  rw [tokenize_eq_ok_iff.mp htokens'] at hkinds
  obtain ⟨n, body, hbody⟩ := hphrase.of_words (by
    rw [List.map_append, List.map_append, map_word_tokensAt, hwords]) hkinds
  exact ⟨source', _, by rw [htokens', List.append_assoc], _, _, n, body, htokens', hbody⟩

end Completion

section Refusal

theorem tokens_front {last : Token} (hkinds : ∀ t ∈ ts, t.kind ≠ .endOfSource)
    (hlast : last.kind = .endOfSource) : (front last ts).tokens = ts ++ [last] := by
  unfold TokenStream.tokens
  rw [pending_front hkinds hlast, ending_front]
  rfl

/-- If the reader of programs refuses all streams that open with some tokens, whatever their length
and however many levels there are, no program begins with these tokens. -/
theorem not_isProgram_of_refused {first : List Token} {shortest : Nat}
    (hrefused : ∀ n more, shortest < n → maxDepth ≤ more → ∀ s : TokenStream, s.Opens n first →
      ∀ body u, stmtsUntil (· = .endOfSource) (stmt .standard more) n s ≠ .ok body u)
    (htokens : tokenize source file = .ok ts)
    (hwords : first.map Token.word <+: ts.map Token.word) : ¬IsProgram source file := by
  rintro ⟨vs, last, n, body, htokens', hbody⟩
  obtain rfl : ts = vs ++ [last] := Except.ok.inj (htokens.symm.trans htokens')
  have hread := tokenize_eq_ok_iff.mp htokens'
  obtain ⟨hkinds, hend⟩ := (Cursor.start source file).kind_tokens
  rw [hread] at hkinds hend
  -- the tokens of the program, those in front replaced by the given ones, which say the same
  obtain ⟨more, hmore⟩ := hwords
  have hsame : (first ++ (vs ++ [last]).drop first.length).map Token.word =
      vs.map Token.word ++ [last.word] := by
    rw [List.map_append, List.map_drop, ← hmore, List.drop_left' (List.length_map ..), hmore,
      List.map_append]
    rfl
  obtain ⟨ws, ends, happend, hws, hends⟩ := List.map_eq_append_iff.mp hsame
  obtain ⟨last', rfl, hlast'⟩ := List.map_eq_singleton_iff.mp hends
  have hlast : last'.kind = .endOfSource :=
    (congrArg Prod.fst hlast').trans (hend last rfl)
  have hkinds' : ∀ t ∈ ws, t.kind ≠ .endOfSource := by
    intro t ht
    have hmem : t.word ∈ vs.map Token.word := hws ▸ List.mem_map_of_mem ht
    obtain ⟨t', ht', hword⟩ := List.mem_map.mp hmem
    have hkind : t'.kind = t.kind := congrArg Prod.fst hword
    exact hkind ▸ hkinds t' ht'
  have hphrase : Phrase Statements ws := Phrase.of_words ⟨n, body, hbody⟩ hws.symm hkinds'
  obtain ⟨m, body', hbody'⟩ := hphrase
  obtain ⟨k, body'', hnearest, hnear⟩ := Statements.exists_elsesNearest hbody'
  have hwide : Program (max maxDepth k) ws body'' := hnearest.mono (Nat.le_max_right ..)
  obtain ⟨_, -, hok⟩ := hwide.reads_front (m := max shortest ws.length + 1) hnear hlast (by omega)
  refine hrefused _ _ (by omega) (Nat.le_max_left ..) _ ⟨proper_front hkinds' hlast, ?_, ?_⟩ _ _ hok
  · rw [pending_front hkinds' hlast]
    omega
  · rw [tokens_front hkinds' hlast, ← happend]
    exact List.prefix_append ..

end Refusal

section Stop

variable {s u : TokenStream} {e : Error}

theorem stage_of_misfit {cause : Cause} (h : cause.misfit = true) : cause.stage = .parsing := by
  cases cause <;> first | rfl | cases h

/-- The reader of programs fails because the source cannot be read on, because it is nested too deep,
or at a token that does not fit, in front of which the tokens can be completed. -/
theorem outcome_of_program (hs : s.Proper) (h : Parse.program s = .error e u) {n more : Nat}
    (hn : s.pending.length < n) (hle : maxDepth ≤ more) :
    s.ending = .error e ∨ e.cause = .nestingTooDeep maxDepth ∨
      ∃ ts v, s.Behind ts v ∧ e.Blames v.current ∧ Completable (Phrase Statements) ts ∧
        ∀ s' : TokenStream, s'.Opens n (ts ++ [v.current]) → ∀ body u',
          stmtsUntil (· = .endOfSource) (stmt .standard more) n s' ≠ .ok body u' := by
  have hends : decide (TokenKind.endOfSource = .endOfSource) = true := rfl
  have hahead : OneAhead (Completable (Phrase Statements)) n
      (stmtsUntil (· = .endOfSource) (stmt .standard maxDepth) n)
      (stmtsUntil (· = .endOfSource) (stmt .standard more) n) s :=
    ahead_stmtsUntil (readsStmt_stmt maxDepth) (ahead_stmt hle) hends hs hn
  have hloop : ∃ u', stmtsUntil (· = .endOfSource) (stmt .standard maxDepth) n s = .error e u' := by
    have hsettled : Settled (stmtsUntil (· = .endOfSource) (stmt .standard maxDepth)) :=
      settled_stmtsUntil (readsStmt_stmt maxDepth) hends
    rw [← hsettled s (s.upcoming.length + 1) n hs s.length_pending_le (Nat.le_of_lt hn)
      (Nat.succ_pos _) (Nat.zero_lt_of_lt hn)]
    rw [Parse.program, rounds_bind] at h
    cases hresult : stmtsUntil (· = .endOfSource) (stmt .standard maxDepth)
        (s.upcoming.length + 1) s with
    | ok body v =>
      rw [bind_of_ok hresult] at h
      cases h
    | error e' v =>
      rw [bind_of_error hresult] at h
      cases h
      exact ⟨_, rfl⟩
  obtain ⟨u', hloop⟩ := hloop
  unfold OneAhead at hahead
  rw [hloop] at hahead
  cases hahead with
  | unread h => exact Or.inl h
  | tooDeep => exact Or.inr (Or.inl rfl)
  | stuck hv hblames hviable hfails => exact Or.inr (Or.inr ⟨_, _, hv, hblames, hviable, hfails⟩)

/-- The token that does not fit is the same whatever the program is compared with. -/
theorem stuck_of_program (hs : s.Proper) (hnodup : (s.tokens.map Token.position).Nodup)
    (h : Parse.program s = .error e u) :
    s.ending = .error e ∨ e.cause = .nestingTooDeep maxDepth ∨
      ∃ ts v, s.Behind ts v ∧ e.Blames v.current ∧ Completable (Phrase Statements) ts ∧
        ∀ n more, s.pending.length < n → maxDepth ≤ more →
          ∀ s' : TokenStream, s'.Opens n (ts ++ [v.current]) → ∀ body u',
            stmtsUntil (· = .endOfSource) (stmt .standard more) n s' ≠ .ok body u' := by
  by_cases hending : s.ending = .error e
  · exact Or.inl hending
  by_cases hdeep : e.cause = .nestingTooDeep maxDepth
  · exact Or.inr (Or.inl hdeep)
  have hstuck {n more : Nat} (hn : s.pending.length < n) (hle : maxDepth ≤ more) :=
    ((outcome_of_program hs h hn hle).resolve_left hending).resolve_left hdeep
  obtain ⟨ts, v, hv, hblames, hviable, -⟩ := hstuck (Nat.lt_succ_self _) (Nat.le_refl _)
  refine Or.inr (Or.inr ⟨ts, v, hv, hblames, hviable, fun n more hn hle => ?_⟩)
  obtain ⟨ts', v', hv', hblames', -, hfails⟩ := hstuck hn hle
  have hsplit := hv.tokens
  have hsplit' := hv'.tokens
  obtain ⟨after, hafter⟩ := hv.proper.exists_tokens
  obtain ⟨after', hafter'⟩ := hv'.proper.exists_tokens
  rw [hafter] at hsplit
  rw [hafter'] at hsplit'
  rw [hsplit] at hnodup hsplit'
  obtain ⟨rfl, hcurrent⟩ :=
    eq_of_position_eq hnodup hsplit' (hblames.position.symm.trans hblames'.position)
  rwa [hcurrent]

/-- A source of which no token can be read fails at once. -/
theorem tokenize_of_ofCursor_error (h : ofCursor (.start source file) = .error e) :
    tokenize source file = .error e := by
  unfold ofCursor at h
  unfold tokenize
  generalize (Cursor.start source file).tokens = read at h ⊢
  obtain ⟨ts, ending⟩ := read
  cases ts <;> cases ending <;> cases h
  rfl

/-- An error that the parser reports for a source is the one that reading the source ends with, or
it says that the source is nested too deep, or it blames a token of the source. -/
theorem cases_of_parseProgram_error (h : parseProgram source file = .error e) :
    tokenize source file = .error e ∨ e.cause = .nestingTooDeep maxDepth ∨
      ∃ before t after more, sourceTokens source file = before ++ t :: after ∧
        (Cursor.start source file).tokens.1 = before ++ more ∧ e.Blames t ∧
        Completable (Phrase Statements) before ∧
        ∃ shortest, ∀ n more, shortest < n → maxDepth ≤ more →
          ∀ s : TokenStream, s.Opens n (before ++ [t]) → ∀ body u,
            stmtsUntil (· = .endOfSource) (stmt .standard more) n s ≠ .ok body u := by
  unfold parseProgram onSource at h
  cases hstream : ofCursor (.start source file) with
  | error e' =>
    simp only [hstream, Except.error.injEq] at h
    subst h
    exact Or.inl (tokenize_of_ofCursor_error hstream)
  | ok s =>
    obtain ⟨hproper, htokens⟩ := proper_of_ofCursor hstream
    cases hresult : Parse.program s with
    | ok b u => simp only [hstream, hresult, reduceCtorEq] at h
    | error e' u =>
      simp only [hstream, hresult, Except.error.injEq] at h
      subst h
      have hsource : sourceTokens source file = s.tokens := by
        unfold sourceTokens
        rw [htokens]
        rfl
      have hnodup := nodup_position_sourceTokens source file
      rw [hsource] at hnodup ⊢
      rcases stuck_of_program hproper hnodup hresult with
        hending | hdeep | ⟨ts, v, hv, hblames, hviable, hfails⟩
      · refine Or.inl ?_
        unfold tokenize
        rw [htokens, hending]
      · exact Or.inr (Or.inl hdeep)
      · obtain ⟨after, hafter⟩ := hv.proper.exists_tokens
        have hsplit := hv.tokens
        rw [hafter] at hsplit
        refine Or.inr (Or.inr ⟨ts, v.current, after, v.pending, hsplit, ?_, hblames, hviable,
          s.pending.length, hfails⟩)
        rw [htokens, hv.pending]

theorem stage_of_tokenize_error (h : tokenize source file = .error e) : e.stage = .lexing := by
  obtain ⟨ps, w, rest, hsource, hps, hw, rfl | ⟨c, more, rfl, hnothing⟩⟩ :=
    exists_split source.toList
  · rw [List.append_nil] at hsource hps
    rw [tokenize_of_split hsource hps hw] at h
    cases h
  · rw [tokenize_of_startsNothing hsource hps hw hnothing] at h
    cases h
    unfold Error.stage
    dsimp only
    split <;> rfl

/-- An error that the parser reports is none of running. -/
theorem stage_of_parseProgram_error (h : parseProgram source file = .error e) :
    e.stage ≠ .running := by
  rcases cases_of_parseProgram_error h with hread | hdeep | ⟨_, _, _, _, -, -, hblames, -⟩
  · rw [stage_of_tokenize_error hread]
    decide
  · rw [Error.stage, hdeep]
    exact nofun
  · rw [Error.stage, stage_of_misfit hblames.misfit]
    decide

/-- The reader of whole expressions fails for the same reasons as the one of programs. -/
theorem cases_of_wholeExpr_error (hs : s.Proper) (h : wholeExpr s = .error e u) :
    s.ending = .error e ∨ e.cause = .nestingTooDeep maxDepth ∨ e.cause.misfit = true := by
  unfold wholeExpr at h
  cases hread : expr .standard maxDepth .lowest s with
  | error e' v =>
    rw [bind_of_error hread] at h
    cases h
    have hahead : OneAhead _ (s.pending.length + 1) (expr .standard maxDepth .lowest)
        (expr .standard maxDepth .lowest) s :=
      ahead_expr (Nat.le_refl maxDepth) .lowest _ s hs (Nat.lt_succ_self _)
    unfold OneAhead at hahead
    rw [hread] at hahead
    cases hahead with
    | unread hending => exact Or.inl hending
    | tooDeep => exact Or.inr (Or.inl rfl)
    | stuck _ hblames => exact Or.inr (Or.inr hblames.misfit)
  | ok e' v =>
    rw [bind_of_ok hread, peek_bind] at h
    by_cases hend : v.current.kind = .endOfSource
    · rw [if_pos hend] at h
      cases h
    · rw [if_neg hend] at h
      cases h
      exact Or.inr (Or.inr (Token.blames_unexpected _).misfit)

theorem stage_of_parseExpr_error (h : parseExpr source file = .error e) : e.stage ≠ .running := by
  unfold parseExpr onSource at h
  cases hstream : ofCursor (.start source file) with
  | error e' =>
    simp only [hstream, Except.error.injEq] at h
    subst h
    rw [stage_of_tokenize_error (tokenize_of_ofCursor_error hstream)]
    decide
  | ok s =>
    obtain ⟨hproper, htokens⟩ := proper_of_ofCursor hstream
    cases hresult : wholeExpr s with
    | ok e' u => simp only [hstream, hresult, reduceCtorEq] at h
    | error e' u =>
      simp only [hstream, hresult, Except.error.injEq] at h
      subst h
      rcases cases_of_wholeExpr_error hproper hresult with hending | hdeep | hmisfit
      · have htokenize : tokenize source file = .error e' := by
          unfold tokenize
          rw [htokens, hending]
        rw [stage_of_tokenize_error htokenize]
        decide
      · rw [Error.stage, hdeep]
        exact nofun
      · rw [Error.stage, stage_of_misfit hmisfit]
        decide

/-- A source that cannot be read is not accepted. -/
theorem exists_parseProgram_error (h : tokenize source file = .error e) :
    ∃ e', parseProgram source file = .error e' := by
  cases hparse : parseProgram source file with
  | error e' => exact ⟨e', rfl⟩
  | ok b =>
    obtain ⟨ts, last, htokens, -⟩ := program_of_parseProgram hparse
    rw [h] at htokens
    cases htokens

end Stop

/-- Errors of the parser stand at the first token that no program goes on with. If a token does not
fit, the error is at the start of a token, which is the end token just if the source has ended; the
tokens in front of it are those that some program begins with, and no program begins with them and
the token. An error in reading the source is the one that reading all of it ends with, and a source
that cannot be read is not accepted. -/
theorem parseProgram_correctPrefix (source file : String) :
    (∀ e, parseProgram source file = .error e →
      (e.cause.misfit = true →
        ∃ before t after, sourceTokens source file = before ++ t :: after ∧
          e.position = t.position ∧ (e.cause = .unexpectedEnd ↔ t.kind = .endOfSource) ∧
          (∃ source' ts, tokenize source' file = .ok (before ++ ts) ∧ IsProgram source' file) ∧
          ∀ source' file' ts, tokenize source' file' = .ok ts →
            (before ++ [t]).map Token.word <+: ts.map Token.word → ¬IsProgram source' file') ∧
      (e.stage = .lexing → tokenize source file = .error e)) ∧
    ∀ e, tokenize source file = .error e → ∃ e', parseProgram source file = .error e' := by
  refine ⟨fun e h => ⟨fun hmisfit => ?_, fun hstage => ?_⟩,
    fun e he => exists_parseProgram_error he⟩
  · rcases cases_of_parseProgram_error h with
      hread | hdeep | ⟨before, t, after, more, htokens, hpieces, hblames, hviable, k, hfails⟩
    · have hstage := stage_of_tokenize_error hread
      rw [Error.stage, stage_of_misfit hmisfit] at hstage
      cases hstage
    · rw [hdeep] at hmisfit
      cases hmisfit
    · exact ⟨before, t, after, htokens, hblames.position, hblames.ended,
        exists_isProgram_of_completable hpieces hviable,
        fun source' file' ts hok hwords => not_isProgram_of_refused hfails hok hwords⟩
  · rcases cases_of_parseProgram_error h with
      hread | hdeep | ⟨_, _, _, _, -, -, hblames, -⟩
    · exact hread
    · rw [Error.stage, hdeep] at hstage
      cases hstage
    · rw [Error.stage, stage_of_misfit hblames.misfit] at hstage
      cases hstage

/-- Two operands in a row are refused at the second one, also in front of a character that begins no
token; only without the second operand is that character what stops the parser. -/
theorem parseProgram_correctPrefix_twoOperands :
    (∃ before t after, sourceTokens "1 2 $" "f" = before ++ t :: after ∧
      t.position = ⟨"f", 2⟩ ∧ t.kind ≠ .endOfSource ∧
      (∃ source' ts, tokenize source' "f" = .ok (before ++ ts) ∧ IsProgram source' "f") ∧
      ∀ source' file' ts, tokenize source' file' = .ok ts →
        (before ++ [t]).map Token.word <+: ts.map Token.word → ¬IsProgram source' file') ∧
    tokenize "1 $" "f" = .error ⟨.unrecognisedCharacter "$", ⟨"f", 2⟩⟩ ∧
    ∃ e, parseProgram "1 2 $" "f" = .error e := by
  have hstops : (parseProgram "1 2 $" "f").map (fun _ => ()) =
      .error ⟨.unexpectedToken "2", ⟨"f", 2⟩⟩ := by decide +kernel
  have hreads : (parseProgram "1 $" "f").map (fun _ => ()) =
      .error ⟨.unrecognisedCharacter "$", ⟨"f", 2⟩⟩ := by decide +kernel
  have hfails : tokenize "1 2 $" "f" = .error ⟨.unrecognisedCharacter "$", ⟨"f", 4⟩⟩ := by
    decide +kernel
  refine ⟨?_, ?_, (parseProgram_correctPrefix "1 2 $" "f").2 _ hfails⟩
  · cases h : parseProgram "1 2 $" "f" with
    | ok b =>
      rw [h] at hstops
      cases hstops
    | error e =>
      rw [h] at hstops
      obtain rfl := Except.error.inj hstops
      obtain ⟨before, t, after, htokens, hposition, hended, hviable, hrefused⟩ :=
        ((parseProgram_correctPrefix "1 2 $" "f").1 _ h).1 rfl
      exact ⟨before, t, after, htokens, hposition.symm,
        fun hend => Cause.noConfusion (hended.mpr hend), hviable, hrefused⟩
  · cases h : parseProgram "1 $" "f" with
    | ok b =>
      rw [h] at hreads
      cases hreads
    | error e =>
      rw [h] at hreads
      obtain rfl := Except.error.inj hreads
      exact ((parseProgram_correctPrefix "1 $" "f").1 _ h).2 rfl

end IntLang
