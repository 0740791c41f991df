import IntLang.Proofs.Grammar.Rounds

/-!
How far a step looks ahead. What a step does depends on the tokens it takes and on the one behind
them: on every stream that opens with these tokens it takes the same ones and yields the same. If it
fails at a token, it fails on every stream that has the same tokens up to and with that one. Steps
hand this on from their parts, and along with it a property of the tokens in front of the failure.
-/
namespace IntLang

def Cause.misfit : Cause → Bool
  | .unexpectedToken _ | .misplacedToken _ _ | .unexpectedEnd | .numberOutOfRange _ => true
  | _ => false

/-- An error that says of a token that it does not fit. It says that the source has ended just if
the token is the end token. -/
structure Error.Blames (e : Error) (t : Token) : Prop where
  misfit : e.cause.misfit = true
  position : e.position = t.position
  ended : e.cause = .unexpectedEnd ↔ t.kind = .endOfSource

theorem Token.blames_unexpected (t : Token) : t.unexpected.Blames t := by
  unfold Token.unexpected
  by_cases hend : t.kind = .endOfSource
  · simp only [hend]
    exact ⟨rfl, rfl, fun _ => hend, fun _ => rfl⟩
  · split
    · exact absurd ‹_› hend
    · exact ⟨rfl, rfl, nofun, fun h => absurd h hend⟩

/-- An error about a token that is not the end token. -/
theorem Error.Blames.of_ne {cause : Cause} {t : Token} (hmisfit : cause.misfit = true)
    (hcause : cause ≠ .unexpectedEnd) (hkind : t.kind ≠ .endOfSource) :
    Error.Blames ⟨cause, t.position⟩ t :=
  ⟨hmisfit, rfl, fun h => absurd h hcause, fun h => absurd h hkind⟩

namespace TokenStream

variable {s s' u : TokenStream} {ts us : List Token} {n : Nat}

/-- The tokens from the current one on, with the end token if the stream comes to it. -/
def tokens (s : TokenStream) : List Token := s.pending ++ s.ending.toOption.toList

theorem Proper.exists_tokens (h : s.Proper) : ∃ more, s.tokens = s.current :: more := by
  unfold tokens
  by_cases hend : s.current.kind = .endOfSource
  · rw [pending_eq_nil_iff.mpr hend, (h.current hend).2]
    exact ⟨[], rfl⟩
  · rw [pending_of_ne hend]
    exact ⟨_, rfl⟩

theorem Behind.tokens (h : s.Behind ts u) : s.tokens = ts ++ u.tokens := by
  unfold TokenStream.tokens
  rw [h.pending, h.ending, List.append_assoc]

theorem Behind.unique (h : s.Behind ts u) (h' : s.Behind us u) : ts = us :=
  List.append_cancel_right (h.pending.symm.trans h'.pending)

/-- The tokens taken and the one behind them open the stream. -/
theorem Behind.prefix_tokens (h : s.Behind ts u) : ts ++ [u.current] <+: s.tokens := by
  obtain ⟨more, hmore⟩ := h.proper.exists_tokens
  rw [h.tokens, hmore]
  exact ⟨more, by rw [List.append_assoc, List.singleton_append]⟩

/-- A stream of fewer than `n` tokens that opens with the given ones. -/
structure Opens (s : TokenStream) (n : Nat) (ts : List Token) : Prop where
  proper : s.Proper
  length : s.pending.length < n
  tokens : ts <+: s.tokens

theorem eq_of_prefix_cons {a b : Token} {ms ks : List Token} (hne : ts ≠ [])
    (h : ts <+: a :: ms) (h' : ts <+: b :: ks) : a = b := by
  obtain ⟨t, ts, rfl⟩ := List.exists_cons_of_ne_nil hne
  exact (List.cons_prefix_cons.mp h).1.symm.trans (List.cons_prefix_cons.mp h').1

/-- Two streams that open with the same tokens stand at the same token. -/
theorem Opens.current_eq (hs : s.Proper) (hu : s.Behind ts u)
    (h : s'.Opens n (ts ++ [u.current])) : s'.current = s.current := by
  obtain ⟨more, hmore⟩ := hs.exists_tokens
  obtain ⟨more', hmore'⟩ := h.proper.exists_tokens
  have hopens := h.tokens
  have htokens := hu.prefix_tokens
  rw [hmore'] at hopens
  rw [hmore] at htokens
  exact eq_of_prefix_cons (by simp) hopens htokens

theorem Opens.behind {k : Nat} (h : s.Opens n (ts ++ us)) (hu : s.Behind ts u)
    (hk : n ≤ ts.length + k) : u.Opens k us where
  proper := hu.proper
  length := by
    have hlength := hu.length
    have hshort := h.length
    omega
  tokens := by
    have hopens := h.tokens
    rw [hu.tokens] at hopens
    exact (List.prefix_append_right_inj ts).mp hopens

theorem Opens.of_prefix (h : s.Opens n us) (hshorter : ts <+: us) : s.Opens n ts :=
  ⟨h.proper, h.length, hshorter.trans h.tokens⟩

/-- Behind the first of some tokens the stream stands at the next of them. -/
theorem Behind.prefix_of_behind {m : TokenStream} (hm : s.Behind ts m) (hu : m.Behind us u) :
    ts ++ [m.current] <+: ts ++ us ++ [u.current] := by
  obtain ⟨more, hmore⟩ := hm.proper.exists_tokens
  have hopens := hu.prefix_tokens
  rw [hmore] at hopens
  rw [List.append_assoc]
  refine (List.prefix_append_right_inj ts).mpr ?_
  cases us with
  | nil =>
    rw [List.nil_append] at hopens ⊢
    obtain ⟨hcurrent, -⟩ := List.cons_prefix_cons.mp hopens
    exact hcurrent ▸ List.prefix_rfl
  | cons t us =>
    rw [List.cons_append] at hopens ⊢
    rw [(List.cons_prefix_cons.mp hopens).1]
    exact ⟨us ++ [u.current], rfl⟩

end TokenStream

namespace Parse

open TokenStream Grammar

/-- The ways in which a step may end on a stream when it looks at no token behind the one that it
stops at. The second step is the one taken on the other streams, of fewer than `n` tokens, that open
with the same tokens. If the step stops at a token that does not fit, the tokens before have the
given property. -/
inductive Outcome (viable : List Token → Prop) (n : Nat) (y : Parse α) (s : TokenStream) :
    EStateM.Result Error TokenStream α → Prop
  | done {a u ts} (hu : s.Behind ts u)
      (hsame : ∀ s', s'.Opens n (ts ++ [u.current]) → ∃ u', y s' = .ok a u' ∧ s'.Behind ts u') :
      Outcome viable n y s (.ok a u)
  | unread {e u} (h : s.ending = .error e) : Outcome viable n y s (.error e u)
  | tooDeep {p u} : Outcome viable n y s (.error ⟨.nestingTooDeep maxDepth, p⟩ u)
  | stuck {e u ts v} (hv : s.Behind ts v) (hblames : e.Blames v.current) (hviable : viable ts)
      (hfails : ∀ s', s'.Opens n (ts ++ [v.current]) → ∀ a u', y s' ≠ .ok a u') :
      Outcome viable n y s (.error e u)

/-- The first step looks at most one token ahead, and the second one does the same wherever the
tokens are the same. -/
def OneAhead (viable : List Token → Prop) (n : Nat) (x y : Parse α) (s : TokenStream) : Prop :=
  Outcome viable n y s (x s)

namespace OneAhead

variable {viable viable' : List Token → Prop} {n : Nat} {s : TokenStream} {x y x' y' : Parse α}

theorem pure (hs : s.Proper) (a : α) :
    OneAhead viable n (Pure.pure a : Parse α) (Pure.pure a) s :=
  .done (.refl hs) fun s' h => ⟨s', rfl, .refl h.proper⟩

theorem unexpected (hs : s.Proper) (hviable : viable []) :
    OneAhead viable n (Parse.unexpected : Parse α) Parse.unexpected s :=
  .stuck (.refl hs) s.current.blames_unexpected hviable fun s' _ a u' => unexpected_ne_ok a s' u'

theorem tooDeep (y : Parse α) : OneAhead viable n Parse.tooDeep y s := Outcome.tooDeep

/-- A step fails at the current token, whatever comes behind it. -/
theorem fail {e e' : Error} (hs : s.Proper) (hblames : e.Blames s.current) (hviable : viable []) :
    OneAhead viable n (throw e : Parse α) (throw e') s :=
  .stuck (.refl hs) hblames hviable fun s' _ a u' => throw_ne_ok e' a s' u'

theorem mono (h : OneAhead viable n x y s) (hviable : ∀ ts, viable ts → viable' ts) :
    OneAhead viable' n x y s := by
  unfold OneAhead at h ⊢
  generalize x s = result at h
  cases h with
  | done hu hsame => exact .done hu hsame
  | unread h => exact .unread h
  | tooDeep => exact .tooDeep
  | stuck hv hblames hts hfails => exact .stuck hv hblames (hviable _ hts) hfails

/-- What the current token decides may be decided first. -/
theorem of_eq (hs : s.Proper) (hx : x s = x' s)
    (hy : ∀ s' : TokenStream, s'.Proper → s'.pending.length < n → s'.current = s.current →
      y s' = y' s')
    (h : OneAhead viable n x' y' s) : OneAhead viable n x y s := by
  unfold OneAhead at h ⊢
  rw [hx]
  generalize x' s = result at h
  cases h with
  | done hu hsame =>
    refine .done hu fun s' h => ?_
    rw [hy s' h.proper h.length (h.current_eq hs hu)]
    exact hsame s' h
  | unread h => exact .unread h
  | tooDeep => exact .tooDeep
  | stuck hv hblames hviable hfails =>
    refine .stuck hv hblames hviable fun s' h => ?_
    rw [hy s' h.proper h.length (h.current_eq hs hv)]
    exact hfails s' h

theorem peek_bind {f g : Token → Parse α} (hs : s.Proper)
    (h : OneAhead viable n (f s.current) (g s.current) s) :
    OneAhead viable n (peek >>= f) (peek >>= g) s :=
  of_eq hs rfl (fun s' _ _ heq => congrArg (g · s') heq) h

/-- A loop may have the same number of rounds on all streams. -/
theorem rounds_bind {f g : Nat → Parse α} (hs : s.Proper) (hn : s.pending.length < n)
    (hf : Settled f) (hg : Settled g) (h : OneAhead viable n (f n) (g n) s) :
    OneAhead viable n (rounds >>= f) (rounds >>= g) s := by
  refine of_eq hs ?_ (fun s' hs' hn' _ => ?_) h
  · exact hf s _ n hs s.length_pending_le (Nat.le_of_lt hn) (Nat.succ_pos _) (Nat.zero_lt_of_lt hn)
  · exact hg s' _ n hs' s'.length_pending_le (Nat.le_of_lt hn') (Nat.succ_pos _)
      (Nat.zero_lt_of_lt hn')

/-- The first tokens are taken by one step and those behind them by the next, in front of which
fewer tokens are left. -/
theorem bind_of_le {x y : Parse α} {f g : α → Parse β} (h : OneAhead viable n x y s)
    (hviable : ∀ ts, viable ts → viable' ts)
    (hf : ∀ a m, x s = .ok a m → ∃ ts k, s.Behind ts m ∧ n ≤ ts.length + k ∧
      OneAhead (fun us => viable' (ts ++ us)) k (f a) (g a) m) :
    OneAhead viable' n (x >>= f) (y >>= g) s := by
  unfold OneAhead at h ⊢
  change Outcome viable' n _ s (EStateM.bind x f s)
  unfold EStateM.bind
  cases hx : x s with
  | error e u =>
    rw [hx] at h
    have hfirst : ∀ s' : TokenStream, (∀ a u', y s' ≠ .ok a u') →
        ∀ b u', (y >>= g) s' ≠ .ok b u' := by
      intro s' hfails b u' hok
      obtain ⟨a, t, hy, -⟩ := bind_eq_ok_iff.mp hok
      exact hfails a t hy
    cases h with
    | unread h => exact .unread h
    | tooDeep => exact .tooDeep
    | stuck hv hblames hts hfails =>
      exact .stuck hv hblames (hviable _ hts) fun s' h => hfirst s' (hfails s' h)
  | ok a m =>
    rw [hx] at h
    obtain ⟨ts, k, hts, hk, hnext⟩ := hf a m hx
    cases h with
    | @done _ _ taken hm hsame =>
      obtain rfl := hm.unique hts
      -- on another stream the first step takes the same tokens
      have hfirst : ∀ {us v} {s' : TokenStream}, m.Behind us v →
          s'.Opens n (taken ++ us ++ [v.current]) →
            ∃ m', y s' = .ok a m' ∧ s'.Behind taken m' ∧ m'.Opens k (us ++ [v.current]) := by
        intro us v s' hv h
        obtain ⟨m', hy, hm'⟩ := hsame s' (h.of_prefix (hm.prefix_of_behind hv))
        rw [List.append_assoc] at h
        exact ⟨m', hy, hm', h.behind hm' hk⟩
      unfold OneAhead at hnext
      dsimp only
      generalize f a m = result at hnext
      cases hnext with
      | done hu hsame' =>
        refine .done (hm.trans hu) fun s' h => ?_
        obtain ⟨m', hy, hm', hopens⟩ := hfirst hu h
        obtain ⟨u', hg, hu'⟩ := hsame' m' hopens
        exact ⟨u', (bind_of_ok hy g).trans hg, hm'.trans hu'⟩
      | unread h => exact .unread (hm.ending ▸ h)
      | tooDeep => exact .tooDeep
      | stuck hv hblames hus hfails =>
        refine .stuck (hm.trans hv) hblames hus fun s' h b u' hok => ?_
        obtain ⟨m', hy, hm', hopens⟩ := hfirst hv h
        rw [bind_of_ok hy] at hok
        exact hfails m' hopens b u' hok

theorem bind {x y : Parse α} {f g : α → Parse β} (h : OneAhead viable n x y s)
    (hviable : ∀ ts, viable ts → viable' ts)
    (hf : ∀ a m, x s = .ok a m →
      ∃ ts, s.Behind ts m ∧ OneAhead (fun us => viable' (ts ++ us)) n (f a) (g a) m) :
    OneAhead viable' n (x >>= f) (y >>= g) s := by
  refine h.bind_of_le hviable fun a m hok => ?_
  obtain ⟨ts, hts, hnext⟩ := hf a m hok
  exact ⟨ts, n, hts, Nat.le_add_left .., hnext⟩

theorem exhausted_of_advance {e : Error} {u : TokenStream} (h : Parse.advance s = .error e u) :
    s.upcoming = [] ∧ s.ending = .error e := by
  change s.take = .error e u at h
  unfold TokenStream.take at h
  split at h
  · cases h
  · cases h
  · next hupcoming hending =>
    cases h
    exact ⟨hupcoming, hending⟩

theorem advance (hs : s.Proper) (hkind : s.current.kind ≠ .endOfSource) :
    OneAhead viable n advance advance s := by
  unfold OneAhead
  cases hadvance : Parse.advance s with
  | error e u => exact .unread (exhausted_of_advance hadvance).2
  | ok t u =>
    obtain ⟨rfl, hu⟩ := behind_of_advance hs hkind hadvance
    refine .done hu fun s' h => ?_
    have hcurrent := h.current_eq hs hu
    have hkind' : s'.current.kind ≠ .endOfSource := by rwa [hcurrent]
    cases hadvance' : Parse.advance s' with
    | ok t u' =>
      obtain ⟨rfl, hu'⟩ := behind_of_advance h.proper hkind' hadvance'
      rw [hcurrent] at hu' ⊢
      exact ⟨u', rfl, hu'⟩
    | error e u' =>
      -- a token stands behind the current one, so it can be taken
      obtain ⟨hupcoming, hending⟩ := exhausted_of_advance hadvance'
      have hlength := h.tokens.length_le
      unfold TokenStream.tokens at hlength
      rw [pending_of_ne hkind', hupcoming, hending] at hlength
      simp [Except.toOption] at hlength

theorem advance_bind {f g : Token → Parse α} (hs : s.Proper)
    (hkind : s.current.kind ≠ .endOfSource)
    (hf : ∀ m, s.Behind [s.current] m →
      OneAhead (fun us => viable (s.current :: us)) n (f s.current) (g s.current) m) :
    OneAhead viable n (Parse.advance >>= f) (Parse.advance >>= g) s := by
  have hfirst : OneAhead (fun _ => False) n Parse.advance Parse.advance s := advance hs hkind
  refine hfirst.bind (fun _ => False.elim) fun t m hadvance => ?_
  obtain ⟨rfl, hm⟩ := behind_of_advance hs hkind hadvance
  exact ⟨[s.current], hm, hf m hm⟩

/-- A step that takes the current token and then fails because of it. -/
theorem advance_fail {f g : Token → Parse α} (e e' : Error) (hs : s.Proper)
    (hblames : e.Blames s.current) (hviable : viable []) (hf : f s.current = throw e)
    (hg : g s.current = throw e') (hkind : s.current.kind ≠ .endOfSource) :
    OneAhead viable n (Parse.advance >>= f) (Parse.advance >>= g) s := by
  unfold OneAhead
  cases hadvance : Parse.advance s with
  | error e u =>
    rw [bind_of_error hadvance]
    exact .unread (exhausted_of_advance hadvance).2
  | ok t u =>
    obtain ⟨rfl, hu⟩ := behind_of_advance hs hkind hadvance
    rw [bind_of_ok hadvance, hf]
    refine .stuck (.refl hs) hblames hviable fun s' h a u' hok => ?_
    obtain ⟨t, v, hadvance', hok⟩ := bind_eq_ok_iff.mp hok
    have hcurrent := h.current_eq hs (.refl hs)
    obtain ⟨rfl, -⟩ := behind_of_advance h.proper (by rwa [hcurrent]) hadvance'
    rw [hcurrent, hg] at hok
    exact throw_ne_ok _ _ _ _ hok

/-- A token of a given kind is taken if it is there. -/
theorem expect_bind_of_advance {kind : TokenKind} {f g : Token → Parse α} (hs : s.Proper)
    (hviable : viable [])
    (h : s.current.kind = kind →
      OneAhead viable n (Parse.advance >>= f) (Parse.advance >>= g) s) :
    OneAhead viable n (expect kind >>= f) (expect kind >>= g) s := by
  by_cases hcurrent : s.current.kind = kind
  · refine of_eq hs (expect_bind_of_eq hcurrent f) (fun s' _ _ heq => ?_) (h hcurrent)
    exact expect_bind_of_eq (by rwa [heq]) g
  · refine of_eq hs (expect_bind_of_ne hcurrent f) (fun s' _ _ heq => ?_)
      (unexpected hs hviable)
    exact expect_bind_of_ne (by rwa [heq]) g

theorem expect_bind {kind : TokenKind} {f g : Token → Parse α} (hs : s.Proper)
    (hkind : kind ≠ .endOfSource) (hviable : viable [])
    (hf : ∀ t m, t.kind = kind → s.Behind [t] m →
      OneAhead (fun us => viable (t :: us)) n (f t) (g t) m) :
    OneAhead viable n (expect kind >>= f) (expect kind >>= g) s :=
  expect_bind_of_advance hs hviable fun hcurrent =>
    advance_bind hs (by rwa [hcurrent]) fun m hm => hf _ m hcurrent hm

theorem expectOr_bind {kind : TokenKind} {complaint : Error} {f g : Token → Parse α}
    (hs : s.Proper) (hkind : kind ≠ .endOfSource)
    (hblames : s.current.kind ≠ .endOfSource → complaint.Blames s.current) (hviable : viable [])
    (hf : ∀ t m, t.kind = kind → s.Behind [t] m →
      OneAhead (fun us => viable (t :: us)) n (f t) (g t) m) :
    OneAhead viable n (expectOr kind complaint >>= f) (expectOr kind complaint >>= g) s := by
  by_cases hcurrent : s.current.kind = kind
  · have htakes (s' : TokenStream) (hs' : s'.current = s.current) (h : Token → Parse α) :
        (expectOr kind complaint >>= h) s' = (Parse.advance >>= h) s' :=
      bind_congr_first (by rw [expectOr, Parse.peek_bind, hs', if_pos hcurrent]) h
    exact of_eq hs (htakes s rfl f) (fun s' _ _ heq => htakes s' heq g)
      (advance_bind hs (by rwa [hcurrent]) fun m hm => hf _ m hcurrent hm)
  by_cases hend : s.current.kind = .endOfSource
  · have hends (s' : TokenStream) (hs' : s'.current = s.current) (h : Token → Parse α) :
        (expectOr kind complaint >>= h) s' = (Parse.unexpected : Parse α) s' :=
      bind_of_error (by
        rw [expectOr, Parse.peek_bind, hs', if_neg hcurrent, if_pos hend]
        rfl) h
    exact of_eq hs (hends s rfl f) (fun s' _ _ heq => hends s' heq g) (unexpected hs hviable)
  · have hcomplains (s' : TokenStream) (hs' : s'.current = s.current) (h : Token → Parse α) :
        (expectOr kind complaint >>= h) s' = (throw complaint : Parse α) s' :=
      bind_of_error (by
        rw [expectOr, Parse.peek_bind, hs', if_neg hcurrent, if_neg hend]
        rfl) h
    exact of_eq hs (hcomplains s rfl f) (fun s' _ _ heq => hcomplains s' heq g)
      (fail hs (hblames hend) hviable)

end OneAhead

end Parse

end IntLang
