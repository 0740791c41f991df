import IntLang.Grammar.Parse

/-!
Steps on a token stream, seen from their results. A step that succeeds leaves the stream behind the
tokens it took; this is what soundness needs. On the stream in front of given tokens the steps that
take a token reduce by equations; this is what completeness needs.
-/
namespace IntLang

namespace Parse

theorem bind_eq_ok_iff {σ : Type} {x : ParseOn σ α} {f : α → ParseOn σ β} {s u : σ} {b : β} :
    (x >>= f) s = .ok b u ↔ ∃ a t, x s = .ok a t ∧ f a t = .ok b u := by
  change EStateM.bind x f s = _ ↔ _
  unfold EStateM.bind
  cases x s with
  | ok a t =>
    constructor
    · intro h
      exact ⟨a, t, rfl, h⟩
    · rintro ⟨a', t', hx, h⟩
      cases hx
      exact h
  | error e t =>
    constructor
    · intro h
      cases h
    · rintro ⟨a', t', hx, -⟩
      cases hx

theorem bind_of_ok {σ : Type} {x : ParseOn σ α} {s t : σ} {a : α} (h : x s = .ok a t)
    (f : α → ParseOn σ β) : (x >>= f) s = f a t := by
  change EStateM.bind x f s = f a t
  unfold EStateM.bind
  rw [h]

theorem bind_of_error {σ : Type} {x : ParseOn σ α} {s t : σ} {e : Error} (h : x s = .error e t)
    (f : α → ParseOn σ β) : (x >>= f) s = .error e t := by
  change EStateM.bind x f s = .error e t
  unfold EStateM.bind
  rw [h]

theorem bind_congr_first {x y : Parse α} {s u : TokenStream} (h : x s = y u) (f : α → Parse β) :
    (x >>= f) s = (y >>= f) u := by
  change EStateM.bind x f s = EStateM.bind y f u
  unfold EStateM.bind
  rw [h]

theorem peek_bind (f : Token → Parse β) (s : TokenStream) : (peek >>= f) s = f s.current s := rfl

theorem rounds_bind (f : Nat → Parse β) (s : TokenStream) :
    (rounds >>= f) s = f (s.upcoming.length + 1) s := rfl

theorem pure_eq_ok_iff {σ : Type} {a b : α} {s t : σ} :
    (pure a : ParseOn σ α) s = .ok b t ↔ a = b ∧ s = t := by
  change EStateM.Result.ok a s = .ok b t ↔ _
  simp only [EStateM.Result.ok.injEq]

theorem throw_ne_ok {σ : Type} (e : Error) (a : α) (s t : σ) :
    (throw e : ParseOn σ α) s ≠ .ok a t := nofun

theorem unexpected_ne_ok {σ : Type} [TokenSource σ] (a : α) (s t : σ) :
    (unexpected : ParseOn σ α) s ≠ .ok a t := nofun

theorem tooDeep_ne_ok (a : α) (s t : TokenStream) : (tooDeep : Parse α) s ≠ .ok a t := nofun

end Parse

namespace TokenStream

/-- The tokens from the current one on, without the end token. -/
def pending (s : TokenStream) : List Token :=
  if s.current.kind = .endOfSource then [] else s.current :: s.upcoming

structure Proper (s : TokenStream) : Prop where
  upcoming : ∀ t ∈ s.upcoming, t.kind ≠ .endOfSource
  ending : ∀ t, s.ending = .ok t → t.kind = .endOfSource
  current : s.current.kind = .endOfSource → s.upcoming = [] ∧ s.ending = .ok s.current

/-- The last stream is the first one behind the given tokens. -/
structure Behind (s : TokenStream) (ts : List Token) (u : TokenStream) : Prop where
  proper : u.Proper
  pending : s.pending = ts ++ u.pending
  ending : u.ending = s.ending

variable {s t u : TokenStream} {ts us : List Token}

theorem Behind.refl (h : s.Proper) : s.Behind [] s := ⟨h, rfl, rfl⟩

theorem Behind.trans (hst : s.Behind ts t) (htu : t.Behind us u) : s.Behind (ts ++ us) u where
  proper := htu.proper
  pending := by rw [hst.pending, htu.pending, List.append_assoc]
  ending := htu.ending.trans hst.ending

theorem pending_eq_nil_iff : s.pending = [] ↔ s.current.kind = .endOfSource := by
  unfold pending
  by_cases h : s.current.kind = .endOfSource
  · simp only [h, if_true]
  · simp only [h, if_false, reduceCtorEq]

theorem pending_of_ne (h : s.current.kind ≠ .endOfSource) :
    s.pending = s.current :: s.upcoming := by
  unfold pending
  rw [if_neg h]

theorem length_pending_le (s : TokenStream) : s.pending.length ≤ s.upcoming.length + 1 := by
  unfold pending
  split
  · exact Nat.zero_le _
  · exact Nat.le_refl _

theorem Behind.length (h : s.Behind ts u) :
    s.pending.length = ts.length + u.pending.length := by
  rw [h.pending, List.length_append]

theorem Behind.length_lt (h : s.Behind ts u) {n : Nat} (hn : s.pending.length < n) :
    u.pending.length < n := by
  have hlength := h.length
  omega

end TokenStream

namespace Parse

open TokenStream

variable {s u : TokenStream} {t : Token} {kind : TokenKind}

/-- Taking a token that is not the end token leaves the stream behind it. -/
theorem behind_of_advance (hs : s.Proper) (hkind : s.current.kind ≠ .endOfSource)
    (h : advance s = .ok t u) : t = s.current ∧ s.Behind [t] u := by
  obtain ⟨current, upcoming, ending⟩ := s
  cases upcoming with
  | cons next rest =>
    cases h
    have hnext : next.kind ≠ .endOfSource := hs.upcoming next (List.mem_cons_self ..)
    refine ⟨rfl, ⟨fun a ha => hs.upcoming a (List.mem_cons_of_mem _ ha), hs.ending,
      fun hend => absurd hend hnext⟩, ?_, rfl⟩
    rw [pending_of_ne hkind, pending_of_ne hnext]
    rfl
  | nil =>
    cases ending with
    | error e => cases h
    | ok last =>
      cases h
      have hlast : last.kind = .endOfSource := hs.ending last rfl
      refine ⟨rfl, ⟨fun a ha => absurd ha (by simp), hs.ending, fun _ => ⟨rfl, rfl⟩⟩, ?_, rfl⟩
      rw [pending_of_ne hkind, pending_eq_nil_iff.mpr hlast]
      rfl

theorem behind_of_expect (hs : s.Proper) (hkind : kind ≠ .endOfSource)
    (h : expect kind s = .ok t u) : t.kind = kind ∧ s.Behind [t] u := by
  unfold expect at h
  rw [peek_bind] at h
  by_cases hcurrent : s.current.kind = kind
  · rw [if_pos hcurrent] at h
    have hne : s.current.kind ≠ .endOfSource := by rwa [hcurrent]
    obtain ⟨rfl, hbehind⟩ := behind_of_advance hs hne h
    exact ⟨hcurrent, hbehind⟩
  · rw [if_neg hcurrent] at h
    exact absurd h (unexpected_ne_ok _ _ _)

theorem expect_bind_of_eq (h : s.current.kind = kind) (f : Token → Parse β) :
    (expect kind >>= f) s = (advance >>= f) s := by
  refine bind_congr_first ?_ f
  unfold expect
  rw [peek_bind, if_pos h]

theorem expect_bind_of_ne (h : s.current.kind ≠ kind) (f : Token → Parse β) :
    (expect kind >>= f) s = (unexpected : Parse β) s := by
  refine bind_of_error ?_ f
  unfold expect
  rw [peek_bind, if_neg h]
  rfl

theorem behind_of_expectOr {complaint : Error} (hs : s.Proper) (hkind : kind ≠ .endOfSource)
    (h : expectOr kind complaint s = .ok t u) : t.kind = kind ∧ s.Behind [t] u := by
  unfold expectOr at h
  rw [peek_bind] at h
  by_cases hcurrent : s.current.kind = kind
  · rw [if_pos hcurrent] at h
    have hne : s.current.kind ≠ .endOfSource := by rwa [hcurrent]
    obtain ⟨rfl, hbehind⟩ := behind_of_advance hs hne h
    exact ⟨hcurrent, hbehind⟩
  · rw [if_neg hcurrent] at h
    split at h
    · exact absurd h (unexpected_ne_ok _ _ _)
    · exact absurd h (throw_ne_ok _ _ _ _)

end Parse

def TokenStream.front (last : Token) : List Token → TokenStream
  | [] => ⟨last, [], .ok last⟩
  | t :: ts => ⟨t, ts, .ok last⟩

namespace Parse

open TokenStream

variable {last : Token}

section Front

variable {ts : List Token} (hts : ∀ t ∈ ts, t.kind ≠ .endOfSource)
variable (hlast : last.kind = .endOfSource)
include hts hlast

theorem pending_front : (front last ts).pending = ts := by
  cases ts with
  | nil => exact pending_eq_nil_iff.mpr hlast
  | cons t ts => exact pending_of_ne (hts t (List.mem_cons_self ..))

theorem proper_front : (front last ts).Proper := by
  cases ts with
  | nil => exact ⟨nofun, fun t ht => by cases ht; exact hlast, fun _ => ⟨rfl, rfl⟩⟩
  | cons t ts =>
    refine ⟨fun u hu => hts u (List.mem_cons_of_mem _ hu), fun u hu => ?_, fun hend => ?_⟩
    · cases hu
      exact hlast
    · exact absurd hend (hts t (List.mem_cons_self ..))

end Front

theorem ending_front (ts : List Token) : (front last ts).ending = .ok last := by
  cases ts <;> rfl

@[simp] theorem current_front_cons (t : Token) (ts : List Token) :
    (front last (t :: ts)).current = t := rfl

theorem advance_front (t : Token) (ts : List Token) :
    advance (front last (t :: ts)) = .ok t (front last ts) := by
  cases ts <;> rfl

theorem advance_bind_front (f : Token → Parse β) (t : Token) (ts : List Token) :
    (advance >>= f) (front last (t :: ts)) = f t (front last ts) :=
  bind_of_ok (advance_front t ts) f

theorem expect_bind_front {kind : TokenKind} {t : Token} (h : t.kind = kind)
    (f : Token → Parse β) (ts : List Token) :
    (expect kind >>= f) (front last (t :: ts)) = f t (front last ts) := by
  refine bind_of_ok ?_ f
  unfold expect
  rw [peek_bind, current_front_cons, if_pos h, advance_front]

theorem expectOr_bind_front {kind : TokenKind} {t : Token} (h : t.kind = kind) (complaint : Error)
    (f : Token → Parse β) (ts : List Token) :
    (expectOr kind complaint >>= f) (front last (t :: ts)) = f t (front last ts) := by
  refine bind_of_ok ?_ f
  unfold expectOr
  rw [peek_bind, current_front_cons, if_pos h, advance_front]

theorem length_le_rounds_front (last : Token) (ts : List Token) :
    ts.length ≤ (front last ts).upcoming.length + 1 := by
  cases ts with
  | nil => exact Nat.zero_le _
  | cons t ts => exact Nat.le_refl _

end Parse

end IntLang
