import IntLang.Proofs.Grammar.StmtSound
import IntLang.Proofs.Token.Lexeme

/-!
Tokens that can be completed. Some tokens are a phrase if the grammar derives them with any number
of levels, and they can be completed to a phrase if further tokens can be put behind them that are
legible, which means that they can be spelled with a blank behind them. A number, a fresh name and
a few signs complete everything that a reader may have taken of a phrase.
-/
namespace IntLang

/-- A token that is read from some spelling of it, if nothing or a blank follows. -/
def Token.Legible (t : Token) : Prop :=
  ∃ l, ∀ rest : List Char, (∀ c ∈ rest.head?, c = ' ') → Spells t.kind t.text l rest

def Token.ofSign (kind : TokenKind) (c : Char) : Token := ⟨kind, String.singleton c, .blank⟩

theorem Token.legible_ofSign {kind : TokenKind} {c : Char} (hsign : sign? c = some kind) :
    (Token.ofSign kind c).Legible := by
  refine ⟨[c], fun rest hrest => .sign hsign fun _ hslash => ?_⟩
  exact absurd (hrest _ hslash) (by decide)

namespace Grammar

open Parse TokenStream

/-- Tokens that the grammar derives with some number of levels. -/
def Phrase (R : Nat → List Token → α → Prop) (ts : List Token) : Prop := ∃ n a, R n ts a

/-- Tokens behind which legible ones can be put so that they become as wanted. -/
def Completable (P : List Token → Prop) (ts : List Token) : Prop :=
  ∃ us, (∀ u ∈ us, u.Legible) ∧ P (ts ++ us)

section Completable

variable {P Q : List Token → Prop} {ts : List Token}

theorem Completable.of (h : P ts) : Completable P ts :=
  ⟨[], nofun, by rwa [List.append_nil]⟩

theorem Completable.of_append (post : List Token) (hpost : ∀ u ∈ post, u.Legible)
    (h : P (ts ++ post)) :
    Completable P ts :=
  ⟨post, hpost, h⟩

/-- What can be completed to a part of a phrase can be completed to the phrase. -/
theorem Completable.within (h : Completable P ts) (pre post : List Token)
    (hpost : ∀ u ∈ post, u.Legible) (hPQ : ∀ us, P us → Q (pre ++ (us ++ post))) :
    Completable Q (pre ++ ts) := by
  obtain ⟨us, hus, hP⟩ := h
  refine ⟨us ++ post, fun u hu => ?_, ?_⟩
  · exact (List.mem_append.mp hu).elim (hus u) (hpost u)
  · have hQ := hPQ _ hP
    rwa [List.append_assoc] at hQ ⊢

theorem Completable.behind (h : Completable P ts) (pre : List Token)
    (hPQ : ∀ us, P us → Q (pre ++ us)) : Completable Q (pre ++ ts) :=
  h.within pre [] nofun fun us hus => by rw [List.append_nil]; exact hPQ us hus

theorem Completable.imp (h : Completable P ts) (hPQ : ∀ us, P us → Q us) : Completable Q ts :=
  h.behind [] hPQ

end Completable

section Signs

def zero : Token := ⟨.number, String.ofList ['0'], .blank⟩

def openParen : Token := .ofSign .openParen '('

def closeParen : Token := .ofSign .closeParen ')'

def openCurly : Token := .ofSign .openCurly '{'

def closeCurly : Token := .ofSign .closeCurly '}'

def semicolon : Token := .ofSign .semicolon ';'

@[simp] theorem legible_zero : zero.Legible := by
  refine ⟨['0'], fun rest hrest => .number (List.cons_ne_nil _ _)
    ⟨List.forall_mem_singleton.mpr rfl, fun c hc => ?_⟩⟩
  rw [hrest c hc]
  rfl

@[simp] theorem legible_openParen : openParen.Legible := Token.legible_ofSign rfl

@[simp] theorem legible_closeParen : closeParen.Legible := Token.legible_ofSign rfl

@[simp] theorem legible_openCurly : openCurly.Legible := Token.legible_ofSign rfl

@[simp] theorem legible_closeCurly : closeCurly.Legible := Token.legible_ofSign rfl

@[simp] theorem legible_semicolon : semicolon.Legible := Token.legible_ofSign rfl

end Signs

/-- A name that is not among the given ones: it is longer than all of them together. -/
def freshName (names : List String) : Token :=
  ⟨.identifier,
    String.ofList (List.replicate ((names.flatMap String.toList).length + 1) 'a'), .blank⟩

@[simp] theorem legible_freshName (names : List String) : (freshName names).Legible := by
  refine ⟨List.replicate ((names.flatMap String.toList).length + 1) 'a', fun rest hrest => ?_⟩
  refine .identifier rfl ⟨fun c hc => ?_, fun c hc => ?_⟩ ?_
  · rw [List.eq_of_mem_replicate hc]
    rfl
  · rw [hrest c hc]
    rfl
  · -- no reserved word begins with the letter
    unfold keyword?
    split
    all_goals first
      | rfl
      | next hword =>
        have hhead := congrArg (fun text => text.toList.head?) hword
        rw [String.toList_ofList] at hhead
        exact absurd (Option.some.inj hhead) (by decide)

theorem freshName_not_mem (names : List String) : (freshName names).text ∉ names := by
  intro hmem
  obtain ⟨before, after, hnames⟩ := List.append_of_mem hmem
  have hlength := congrArg (fun names => (names.flatMap String.toList).length) hnames
  simp only [List.flatMap_append, List.flatMap_cons, List.length_append, freshName,
    String.toList_ofList, List.length_replicate] at hlength
  omega

theorem Derives.mono {p : BindingPower} {n m : Nat} {ts : List Token} {e : Expr} (hle : n ≤ m)
    (h : Derives p n ts e) : Derives p m ts e := by
  cases p with
  | lowest => exact Expression.mono hle h
  | additive => exact Term.mono hle h
  | multiplicative | primary => exact Factor.mono hle h

def SomeArguments (n : Nat) (ts : List Token) (es : List Expr) : Prop := Arguments n ts es ∧ es ≠ []

namespace Phrase

variable {o c w t x s : Token} {ts us cs bs ps : List Token} {p : BindingPower}

theorem derives (h : Phrase Factor ts) : Phrase (Derives p) ts := by
  obtain ⟨n, e, he⟩ := h
  exact ⟨n, e, derives_of_factor he⟩

theorem factor_zero : Phrase Factor [zero] :=
  ⟨0, .number _ .blank, .number rfl (by decide)⟩

theorem var (hkind : t.kind = .identifier) : Phrase Factor [t] :=
  ⟨0, .var _ .blank, .var hkind⟩

theorem group (hopen : o.kind = .openParen) (he : Phrase Expression ts)
    (hclose : c.kind = .closeParen) : Phrase Factor (o :: (ts ++ [c])) := by
  obtain ⟨n, e, he⟩ := he
  exact ⟨n + 1, e, .group hopen he hclose⟩

theorem call (hkind : t.kind = .identifier) (hopen : o.kind = .openParen)
    (hargs : Phrase Arguments ts) (hclose : c.kind = .closeParen) :
    Phrase Factor (t :: o :: (ts ++ [c])) := by
  obtain ⟨n, es, hes⟩ := hargs
  exact ⟨n, .call _ es .blank, .call hkind hopen hes hclose⟩

theorem argument (he : Phrase Expression ts) : Phrase SomeArguments ts := by
  obtain ⟨n, e, he⟩ := he
  exact ⟨n + 1, [e], .one he, by simp⟩

theorem argument_cons (he : Phrase Expression ts) (hcomma : s.kind = .comma)
    (hes : Phrase SomeArguments us) : Phrase SomeArguments (ts ++ s :: us) := by
  obtain ⟨n, e, he⟩ := he
  obtain ⟨m, es, hes, hne⟩ := hes
  obtain ⟨f, fs, rfl⟩ := List.exists_cons_of_ne_nil hne
  refine ⟨max n m + 1, e :: f :: fs, .more (he.mono (by omega)) hcomma (hes.mono (by omega)), ?_⟩
  simp

/-- An operand behind an operator makes a phrase with the phrase in front of it. At the lowest power
the left operand of a product is a term, and then so is the product. -/
theorem join (htight : (Rules.standard.power s.kind).tighter p = true)
    (hjoins : Rules.standard.joins s.kind = true) (hleft : Phrase (Derives p) us)
    (hterm : p = .lowest → Rules.standard.power s.kind = .multiplicative → Phrase Term us)
    (hright : Phrase (Derives (Rules.standard.power s.kind)) ts) :
    Phrase (Derives p) (us ++ s :: ts) ∧
      (p = .lowest → Rules.standard.power s.kind = .multiplicative →
        Phrase Term (us ++ s :: ts)) := by
  obtain ⟨operator, -, hsign⟩ := sign_cases hjoins
  obtain ⟨m, b, hb⟩ := hright
  have hjoin {n : Nat} {a : Expr} (ha : Derives p n us a)
      (hterm : p = .lowest → Rules.standard.power s.kind = .multiplicative → Term n us a) :
      Phrase (Derives p) (us ++ s :: ts) ∧
        (p = .lowest → Rules.standard.power s.kind = .multiplicative →
          Phrase Term (us ++ s :: ts)) := by
    obtain ⟨hjoined, hproduct⟩ := Derives.join (n := max n m) .blank htight hsign
      (ha.mono (by omega)) (fun hp hmult => (hterm hp hmult).mono (by omega)) (hb.mono (by omega))
    exact ⟨⟨_, _, hjoined⟩, fun hp hmult => ⟨_, _, hproduct hp hmult⟩⟩
  by_cases hmult : p = .lowest ∧ Rules.standard.power s.kind = .multiplicative
  · obtain ⟨rfl, hpower⟩ := hmult
    obtain ⟨n, a, ha⟩ := hterm rfl hpower
    exact hjoin (Expression.term ha) fun _ _ => ha
  · obtain ⟨n, a, ha⟩ := hleft
    exact hjoin ha fun hp hpower => absurd ⟨hp, hpower⟩ hmult

theorem condition (hopen : o.kind = .openParen) (he : Phrase Expression ts)
    (hclose : c.kind = .closeParen) : Phrase Condition (o :: (ts ++ [c])) := by
  obtain ⟨n, e, he⟩ := he
  exact ⟨n + 1, e, .mk hopen he hclose⟩

theorem ifThen (hword : w.kind = .ifWord) (htest : Phrase Condition cs)
    (hthen : Phrase Statement ts) : Phrase Statement (w :: (cs ++ ts)) := by
  obtain ⟨n, e, he⟩ := htest
  obtain ⟨m, s, hs⟩ := hthen
  exact ⟨max n m + 1, .ifThen e s .blank,
    .ifThen hword (he.mono (by omega)) (hs.mono (by omega))⟩

theorem ifElse (hword : w.kind = .ifWord) (htest : Phrase Condition cs)
    (hthen : Phrase Statement ts) (helse : x.kind = .elseWord) (hrest : Phrase Statement us) :
    Phrase Statement (w :: (cs ++ (ts ++ x :: us))) := by
  obtain ⟨n, e, he⟩ := htest
  obtain ⟨m, s, hs⟩ := hthen
  obtain ⟨k, r, hr⟩ := hrest
  exact ⟨max n (max m k) + 1, .ifElse e s r .blank,
    .ifElse hword (he.mono (by omega)) (hs.mono (by omega)) helse (hr.mono (by omega))⟩

theorem loop (hword : w.kind = .whileWord) (htest : Phrase Condition cs)
    (hbody : Phrase Statement ts) : Phrase Statement (w :: (cs ++ ts)) := by
  obtain ⟨n, e, he⟩ := htest
  obtain ⟨m, s, hs⟩ := hbody
  exact ⟨max n m + 1, .loop e s .blank,
    .loop hword (he.mono (by omega)) (hs.mono (by omega))⟩

theorem ret (hword : w.kind = .returnWord) (he : Phrase Expression ts)
    (hclose : c.kind = .semicolon) : Phrase Statement (w :: (ts ++ [c])) := by
  obtain ⟨n, e, he⟩ := he
  exact ⟨n + 1, .ret e .blank, .ret hword he hclose⟩

theorem assign (hname : t.kind = .identifier) (hassign : s.kind = .assign)
    (he : Phrase Expression ts) (hclose : c.kind = .semicolon) :
    Phrase Statement (t :: s :: (ts ++ [c])) := by
  obtain ⟨n, e, he⟩ := he
  exact ⟨n + 1, .assign _ e .blank, .assign hname hassign he hclose⟩

theorem expression (he : Phrase Expression ts) (hclose : c.kind = .semicolon) :
    Phrase Statement (ts ++ [c]) := by
  obtain ⟨n, e, he⟩ := he
  by_cases hnamed : BeginsWithIdentifier ts
  · exact ⟨n, .expression e .blank, .expressionNamed he hnamed hclose⟩
  · exact ⟨n + 1, .expression e .blank, .expression he hnamed hclose⟩

theorem block (hopen : o.kind = .openCurly) (hbody : Phrase Statements ts)
    (hclose : c.kind = .closeCurly) : Phrase Block (o :: (ts ++ [c])) := by
  obtain ⟨n, body, hbody⟩ := hbody
  exact ⟨n, body, .mk hopen hbody hclose⟩

theorem blockStatement (h : Phrase Block ts) : Phrase Statement ts := by
  obtain ⟨n, body, hbody⟩ := h
  exact ⟨n, .block body .blank, .block hbody⟩

theorem function {names : List String} (hword : w.kind = .functionWord)
    (hname : t.kind = .identifier) (hopen : o.kind = .openParen) (hnames : Parameters ps names)
    (hnodup : names.Nodup) (hclose : c.kind = .closeParen) (hbody : Phrase Block bs) :
    Phrase Statement (w :: t :: o :: (ps ++ c :: bs)) := by
  obtain ⟨n, body, hbody⟩ := hbody
  exact ⟨n, .function _ names body .blank .blank,
    .function hword hname hopen hnames hnodup hclose hbody⟩

theorem nil : Phrase Statements [] := ⟨0, [], .nil⟩

theorem cons (hs : Phrase Statement ts) (hss : Phrase Statements us) :
    Phrase Statements (ts ++ us) := by
  obtain ⟨n, s, hs⟩ := hs
  obtain ⟨m, ss, hss⟩ := hss
  exact ⟨max n m + 1, s :: ss, .cons (hs.mono (by omega)) (hss.mono (by omega))⟩

theorem block_empty : Phrase Block [openCurly, closeCurly] := block rfl nil rfl

end Phrase

end Grammar

end IntLang
