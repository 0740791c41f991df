import IntLang.Proofs.Grammar.Program
import IntLang.Proofs.Grammar.Related
import IntLang.Proofs.Token.Shift

/-!
Sources on lines one after the other. What is read further on in a source is what is read at its
beginning with all spans moved. As no statement begins with an `else`, a program that is complete
stays as it is when another one comes behind it. So the program of two sources with a newline
between them is that of the first one and, moved behind it, that of the second one.
-/
namespace IntLang

namespace Expr

mutual

def shift (bytes : Nat) : Expr → Expr
  | number value span => .number value (span.shift bytes)
  | string text span => .string text (span.shift bytes)
  | var name span => .var name (span.shift bytes)
  | binary operator left right span =>
    .binary operator (left.shift bytes) (right.shift bytes) (span.shift bytes)
  | call callee arguments span => .call callee (shiftList bytes arguments) (span.shift bytes)

def shiftList (bytes : Nat) : List Expr → List Expr
  | [] => []
  | e :: es => e.shift bytes :: shiftList bytes es

end

theorem span_shift (bytes : Nat) (e : Expr) : (e.shift bytes).span = e.span.shift bytes := by
  cases e <;> rfl

theorem eq_shiftList {bytes : Nat} {es es' : List Expr}
    (h : List.Forall₂ (fun e e' => e' = e.shift bytes) es es') : es' = shiftList bytes es := by
  induction h with
  | nil => rfl
  | cons he _ ih => rw [shiftList, he, ih]

end Expr

namespace Stmt

mutual

def shift (bytes : Nat) : Stmt → Stmt
  | expression value span => .expression (value.shift bytes) (span.shift bytes)
  | assign name value span => .assign name (value.shift bytes) (span.shift bytes)
  | block body span => .block (shiftList bytes body) (span.shift bytes)
  | ifThen test thenBranch span =>
    .ifThen (test.shift bytes) (thenBranch.shift bytes) (span.shift bytes)
  | ifElse test thenBranch elseBranch span =>
    .ifElse (test.shift bytes) (thenBranch.shift bytes) (elseBranch.shift bytes) (span.shift bytes)
  | loop test body span => .loop (test.shift bytes) (body.shift bytes) (span.shift bytes)
  | ret value span => .ret (value.shift bytes) (span.shift bytes)
  | function name parameters body bodySpan span =>
    .function name parameters (shiftList bytes body) (bodySpan.shift bytes) (span.shift bytes)

def shiftList (bytes : Nat) : List Stmt → List Stmt
  | [] => []
  | s :: ss => s.shift bytes :: shiftList bytes ss

end

theorem span_shift (bytes : Nat) (s : Stmt) : (s.shift bytes).span = s.span.shift bytes := by
  cases s <;> rfl

theorem shiftList_eq_map (bytes : Nat) (ss : List Stmt) :
    shiftList bytes ss = ss.map (shift bytes) := by
  induction ss with
  | nil => rfl
  | cons s ss ih => rw [shiftList, ih, List.map_cons]

theorem eq_shiftList {bytes : Nat} {ss ss' : List Stmt}
    (h : List.Forall₂ (fun s s' => s' = s.shift bytes) ss ss') : ss' = shiftList bytes ss := by
  induction h with
  | nil => rfl
  | cons hs _ ih => rw [shiftList, hs, ih]

end Stmt

def Likeness.shifted (bytes : Nat) : Likeness where
  place p p' := p' = p.shift bytes
  span a a' := a' = a.shift bytes
  expr e e' := e' = e.shift bytes
  stmt s s' := s' = s.shift bytes
  position := by
    rintro a _ rfl
    rfl
  through := by
    rintro a _ b _ rfl rfl
    rfl
  span_expr := by
    rintro e _ rfl
    exact e.span_shift bytes
  span_stmt := by
    rintro s _ rfl
    exact s.span_shift bytes
  number h := by rw [Expr.shift, h]
  string h := by rw [Expr.shift, h]
  var h := by rw [Expr.shift, h]
  binary hl hr h := by rw [Expr.shift, hl, hr, h]
  call hes h := by rw [Expr.shift, Expr.eq_shiftList hes, h]
  expression he h := by rw [Stmt.shift, he, h]
  assign he h := by rw [Stmt.shift, he, h]
  block hss h := by rw [Stmt.shift, Stmt.eq_shiftList hss, h]
  ifThen he hs h := by rw [Stmt.shift, he, hs, h]
  ifElse he hs ht h := by rw [Stmt.shift, he, hs, ht, h]
  loop he hs h := by rw [Stmt.shift, he, hs, h]
  ret he h := by rw [Stmt.shift, he, h]
  function hss hb h := by rw [Stmt.shift, Stmt.eq_shiftList hss, hb, h]

theorem Likeness.shifted_tokens (bytes : Nat) (t : Token) :
    (shifted bytes).Tokens t (t.shift bytes) := ⟨rfl, rfl, rfl⟩

theorem Likeness.shifted_streams (bytes : Nat) (last : Token) (ts : List Token) :
    (shifted bytes).Streams (.front last ts)
      (.front (last.shift bytes) (ts.map (Token.shift bytes))) :=
  streams_front (List.forall₂_map_right_iff.mpr (List.forall₂_same.mpr fun t _ =>
    shifted_tokens bytes t)) (shifted_tokens bytes last)

namespace Grammar

open Parse TokenStream

variable {source more file : String} {ts us : List Token} {last last' : Token}
variable {body body' : List Stmt}

/-- A loop over the statements of a program, further on in a source, reads them moved. -/
theorem stmtsUntil_shift {bytes m : Nat}
    (h : stmtsUntil (· = .endOfSource) (stmt .standard maxDepth) m (front last ts) =
      .ok body (front last [])) :
    ∃ u, stmtsUntil (· = .endOfSource) (stmt .standard maxDepth) m
        (front (last.shift bytes) (ts.map (Token.shift bytes))) =
          .ok (Stmt.shiftList bytes body) u ∧ u.current.span = last.span.shift bytes := by
  have hrel := Correspondence.rel_stmtsUntil
    (C := (Likeness.shifted bytes).onStreams) (Correspondence.rel_stmt .standard maxDepth)
    (· = .endOfSource) m _ _ (Likeness.shifted_streams bytes last ts)
  rw [h] at hrel
  generalize hshifted : stmtsUntil _ _ m (front (last.shift bytes) _) = result at hrel
  cases hrel with
  | ok hbody hu => exact ⟨_, by rw [Stmt.eq_shiftList hbody], hu.current.span⟩

/-- The statements of a program are read also in front of what does not begin with an `else`, and
reading goes on behind them. -/
theorem exists_readsOn_of_parseProgram {b : IntLang.Block} (h : parseProgram source file = .ok b) :
    ∃ ts last, tokenize source file = .ok (ts ++ [last]) ∧ last.kind = .endOfSource ∧
      b.span = ⟨last.span.file, 0, last.span.start⟩ ∧
      (front last ts).current.kind ≠ .elseWord ∧
      ∀ last rest m, (front last rest).current.kind ≠ .elseWord → (ts ++ rest).length ≤ m →
        ∃ k, rest.length ≤ k ∧
          stmtsUntil (· = .endOfSource) (stmt .standard maxDepth) m (front last (ts ++ rest)) =
            (stmtsUntil (· = .endOfSource) (stmt .standard maxDepth) k >>= fun more =>
              pure (b.body ++ more)) (front last rest) := by
  obtain ⟨ts, last, htokens, hlast, hprogram, hnear⟩ := program_of_parseProgram h
  obtain ⟨body, -, hreads⟩ := Statements.readsOn hprogram hnear
  have hfront : (front last []).current.kind = .endOfSource := hlast
  have helse : (front last []).current.kind ≠ .elseWord := by
    rw [hfront]
    decide
  have hends : ∀ kind, decide (kind = TokenKind.endOfSource) = true →
      beginsStatement kind = false := by
    decide
  -- in front of its end it is the whole program
  have hbody : b = ⟨body, ⟨last.span.file, 0, last.span.start⟩⟩ := by
    have hrounds : (ts ++ []).length ≤ (front last ts).upcoming.length + 1 := by
      rw [List.append_nil]
      exact length_le_rounds_front last ts
    obtain ⟨k, -, hread⟩ := hreads last [] helse _ hends _ hrounds
    rw [bind_of_ok (stmtsUntil_of_ends (decide_eq_true hfront) _ k), List.append_nil,
      List.append_nil] at hread
    exact Except.ok.inj (h.symm.trans (parseProgram_of_body htokens hread))
  subst hbody
  have hhead := hprogram.front_ne_else helse
  rw [List.append_nil] at hhead
  exact ⟨ts, last, htokens, hlast, rfl, hhead, fun last rest m hrest =>
    hreads last rest hrest _ hends m⟩

theorem file_of_tokenize (h : tokenize source file = .ok (ts ++ [last])) :
    last.span.file = file := by
  obtain ⟨ps, w, -, -, -, htokens⟩ := tokenize_eq_ok_iff_split.mp h
  obtain ⟨-, hlast⟩ := List.append_inj' htokens rfl
  rw [List.singleton_inj.mp hlast]

/-- The program of two sources with a newline between them. -/
theorem parseProgram_append_line {b b' : IntLang.Block} (h : parseProgram source file = .ok b)
    (h' : parseProgram more file = .ok b') :
    parseProgram (source ++ "\n" ++ more) file =
      .ok ⟨b.body ++ Stmt.shiftList (byteLength source.toList + 1) b'.body,
        b.span.through (b'.span.shift (byteLength source.toList + 1))⟩ := by
  obtain ⟨ts, last, htokens, -, hspan, -, hreads⟩ := exists_readsOn_of_parseProgram h
  obtain ⟨us, last', htokens', hlast', hspan', hhead, hreads'⟩ := exists_readsOn_of_parseProgram h'
  generalize hbytes : byteLength source.toList + 1 = bytes
  have hjoined : tokenize (source ++ "\n" ++ more) file = _ := tokenize_append_line htokens
  rw [htokens', hbytes] at hjoined
  simp only [List.map_append, List.map_singleton, ← List.append_assoc] at hjoined
  -- the first program goes on with the tokens of the second one
  have hmoved : (front (last'.shift bytes) (us.map (Token.shift bytes))).current.kind ≠
      .elseWord := by
    rwa [← (Likeness.shifted_streams bytes last' us).current.kind]
  obtain ⟨k, hk, hread⟩ := hreads _ _ _ hmoved (length_le_rounds_front _ _)
  rw [List.length_map] at hk
  -- which are read as at the beginning of their own source
  have hfront : (front last' []).current.kind = .endOfSource := hlast'
  obtain ⟨j, -, hread'⟩ := hreads' last' [] k (by rw [hfront]; decide) (by rwa [List.append_nil])
  rw [bind_of_ok (stmtsUntil_of_ends (decide_eq_true hfront) _ j), List.append_nil,
    List.append_nil] at hread'
  obtain ⟨u, hshift, hu⟩ := stmtsUntil_shift hread'
  rw [bind_of_ok hshift] at hread
  have hfile : last.span.file = last'.span.file :=
    (file_of_tokenize htokens).trans (file_of_tokenize htokens').symm
  rw [parseProgram_of_body hjoined hread, hu, hspan, hspan']
  simp only [Span.through, Span.shift, hfile]

/-- Sources are read one after the other. Behind a newline a source has the tokens that it has on its
own, or the error, at the places to which it has moved, and in front of the newline a source keeps
all its tokens but the end token. If both are programs, so are they together: the statements of the
first one and, moved likewise, those of the second one. -/
theorem append_line (source more file : String) :
    (∀ ts, tokenize source file = .ok ts → tokenize (source ++ "\n" ++ more) file =
      match tokenize more file with
      | .ok us => .ok (ts.dropLast ++ us.map (Token.shift (byteLength source.toList + 1)))
      | .error e => .error (e.shift (byteLength source.toList + 1))) ∧
      ∀ b b', parseProgram source file = .ok b → parseProgram more file = .ok b' →
        parseProgram (source ++ "\n" ++ more) file =
          .ok ⟨b.body ++ b'.body.map (Stmt.shift (byteLength source.toList + 1)),
            b.span.through (b'.span.shift (byteLength source.toList + 1))⟩ := by
  refine ⟨fun ts hts => ?_, fun b b' h h' => ?_⟩
  · obtain ⟨ps, w, -, -, -, rfl⟩ := tokenize_eq_ok_iff_split.mp hts
    rw [List.dropLast_concat]
    exact tokenize_append_line hts
  · rw [parseProgram_append_line h h', Stmt.shiftList_eq_map]

/-- A conditional with a comment of more bytes than characters behind it, and on the next line a
loop. -/
theorem append_line_comment :
    ∃ b b', parseProgram "if (a) x = 1; // é" "f" = .ok b ∧
      parseProgram "while (b) y = 2;" "f" = .ok b' ∧
        tokenize "if (a) x = 1; // é\n\"" "f" = .error ⟨.unterminatedString, ⟨"f", 20⟩⟩ ∧
          parseProgram "if (a) x = 1; // é\nwhile (b) y = 2;" "f" =
            .ok ⟨b.body ++ b'.body.map (Stmt.shift 20), b.span.through (b'.span.shift 20)⟩ := by
  have haccepts : (parseProgram "if (a) x = 1; // é" "f").toBool = true := by decide +kernel
  have haccepts' : (parseProgram "while (b) y = 2;" "f").toBool = true := by decide +kernel
  have htokens : (tokenize "if (a) x = 1; // é" "f").toBool = true := by decide +kernel
  have hunread : tokenize "\"" "f" = .error ⟨.unterminatedString, ⟨"f", 0⟩⟩ := by decide +kernel
  rcases hts : tokenize "if (a) x = 1; // é" "f" with e | ts
  · rw [hts] at htokens
    cases htokens
  rcases h : parseProgram "if (a) x = 1; // é" "f" with e | b
  · rw [h] at haccepts
    cases haccepts
  rcases h' : parseProgram "while (b) y = 2;" "f" with e | b'
  · rw [h'] at haccepts'
    cases haccepts'
  have hbytes : byteLength "if (a) x = 1; // é".toList + 1 = 20 := by decide +kernel
  have herror := (append_line "if (a) x = 1; // é" "\"" "f").1 ts hts
  rw [hunread, hbytes] at herror
  have hprogram := (append_line "if (a) x = 1; // é" "while (b) y = 2;" "f").2 b b' h h'
  rw [hbytes] at hprogram
  exact ⟨b, b', rfl, rfl, herror, hprogram⟩

end Grammar

end IntLang
