import IntLang.Proofs.Token.Quoted

/-!
Quoted text tells where it ends and what was quoted. The quoted form of a character is the character
itself, a backslash with a letter, or a code point in curly brackets; none of these is the beginning
of another one or of the closing quote, so a quoted text can be taken apart in one way only. It has
no line breaks.
-/
namespace IntLang

section Hexadecimal

theorem digitChar_inj :
    ∀ d < (16 : Nat), ∀ d' < (16 : Nat), d.digitChar = d'.digitChar → d = d' := by
  decide

theorem digitChar_ne : ∀ d < (16 : Nat), d.digitChar ≠ '}' ∧ d.digitChar ≠ '"' ∧
    d.digitChar ≠ '\\' ∧ d.digitChar ≠ '\n' := by
  decide

theorem length_toDigits_of_le {n : Nat} (h : 16 ≤ n) : 1 < (Nat.toDigits 16 n).length := by
  rw [Nat.toDigits_of_base_le (by decide) h, List.length_append, List.length_singleton]
  have hpos := List.length_pos_iff.mpr (Nat.toDigits_ne_nil (b := 16) (n := n / 16))
  omega

/-- Hexadecimal numerals of the same digits are of the same number. -/
theorem toDigits_inj {m n : Nat} (h : Nat.toDigits 16 m = Nat.toDigits 16 n) : m = n := by
  induction m using Nat.strong_induction_on generalizing n with
  | _ m ih =>
    have hlength := congrArg List.length h
    by_cases hm : m < 16 <;> by_cases hn : n < 16
    · rw [Nat.toDigits_of_lt_base hm, Nat.toDigits_of_lt_base hn] at h
      exact digitChar_inj _ hm _ hn (List.singleton_inj.mp h)
    · have hlong := length_toDigits_of_le (Nat.not_lt.mp hn)
      rw [Nat.toDigits_of_lt_base hm] at hlength
      exact absurd hlength (Nat.ne_of_lt hlong)
    · have hlong := length_toDigits_of_le (Nat.not_lt.mp hm)
      rw [Nat.toDigits_of_lt_base hn] at hlength
      exact absurd hlength.symm (Nat.ne_of_lt hlong)
    · rw [Nat.toDigits_of_base_le (by decide) (Nat.not_lt.mp hm),
        Nat.toDigits_of_base_le (by decide) (Nat.not_lt.mp hn)] at h
      obtain ⟨hfront, hlast⟩ := List.append_inj' h rfl
      have hquotient := ih (m / 16) (by omega) hfront
      have hremainder := digitChar_inj (m % 16) (by omega) (n % 16) (by omega)
        (List.singleton_inj.mp hlast)
      omega

theorem exists_digit_of_mem_toDigits {n : Nat} {c : Char} (h : c ∈ Nat.toDigits 16 n) :
    ∃ d < (16 : Nat), c = d.digitChar := by
  induction n using Nat.strong_induction_on with
  | _ n ih =>
    by_cases hn : n < 16
    · rw [Nat.toDigits_of_lt_base hn] at h
      exact ⟨n, hn, List.mem_singleton.mp h⟩
    · rw [Nat.toDigits_of_base_le (by decide) (Nat.not_lt.mp hn)] at h
      rcases List.mem_append.mp h with h | h
      · exact ih (n / 16) (by omega) h
      · exact ⟨n % 16, Nat.mod_lt _ (by decide), List.mem_singleton.mp h⟩

end Hexadecimal

variable {a b c : Char} {rest rest' : List Char}

/-- A run of a class of characters ends where the class ends. -/
theorem LongestRun.append_inj {p : Char → Bool} {run run' : List Char} (h : LongestRun p run rest)
    (h' : LongestRun p run' rest') (happend : run ++ rest = run' ++ rest') :
    run = run' ∧ rest = rest' := by
  have hrun : run = run' := by rw [← h.takeWhile_eq, happend, h'.takeWhile_eq]
  subst hrun
  exact ⟨rfl, List.append_cancel_left happend⟩

theorem quoteChar_of_writtenByCode (h : WrittenByCode c) :
    quoteChar c = '\\' :: 'u' :: '{' :: (Nat.toDigits 16 c.toNat ++ ['}']) := by
  rcases quoteChar_forms c with ⟨hself, -, -⟩ | ⟨a, hescape, -, -⟩ | hcode
  · rw [WrittenByCode, hself] at h
    exact absurd h.length_le (by simp only [List.length_cons]; decide)
  · rw [WrittenByCode, hescape] at h
    exact absurd h.length_le (by simp only [List.length_cons]; decide)
  · exact hcode

/-- A code point is told from the other forms by the letter behind the backslash. -/
theorem code_ne_other (ha : WrittenByCode a) (hb : ¬WrittenByCode b) :
    quoteChar a ++ rest ≠ quoteChar b ++ rest' := by
  rw [quoteChar_of_writtenByCode ha]
  rcases quoteChar_cases hb with ⟨hb, -, hplain⟩ | ⟨x, hb, -, hx⟩
  · rw [hb]
    exact fun h => hplain (List.cons.inj h).1.symm
  · rw [hb]
    intro h
    obtain rfl : 'u' = x := (List.cons.inj (List.cons.inj h).2).1
    cases hx

/-- No quoted character is the beginning of another one. -/
theorem quoteChar_append_inj (h : quoteChar a ++ rest = quoteChar b ++ rest') :
    a = b ∧ rest = rest' := by
  by_cases ha : WrittenByCode a <;> by_cases hb : WrittenByCode b
  · rw [quoteChar_of_writtenByCode ha, quoteChar_of_writtenByCode hb] at h
    simp only [List.cons_append, List.append_assoc, List.cons.injEq, true_and,
      List.nil_append] at h
    have hbrace : ∀ n, ∀ c ∈ Nat.toDigits 16 n, (c != '}') = true := by
      intro n c hc
      obtain ⟨d, hd, rfl⟩ := exists_digit_of_mem_toDigits hc
      exact bne_iff_ne.mpr (digitChar_ne d hd).1
    have hrun : ∀ n rest, LongestRun (· != '}') (Nat.toDigits 16 n) ('}' :: rest) := by
      refine fun n rest => ⟨hbrace n, ?_⟩
      rintro c ⟨⟩
      decide
    obtain ⟨hdigits, hrest⟩ := (hrun _ _).append_inj (hrun _ _) h
    exact ⟨Char.toNat_inj.mp (toDigits_inj hdigits), (List.cons.inj hrest).2⟩
  · exact absurd h (code_ne_other ha hb)
  · exact absurd h.symm (code_ne_other hb ha)
  · rcases quoteChar_cases ha with ⟨ha, -, hplain⟩ | ⟨x, ha, -, hx⟩ <;>
      rcases quoteChar_cases hb with ⟨hb, -, hplain'⟩ | ⟨y, hb, -, hy⟩ <;>
      rw [ha, hb] at h
    · simpa using h
    · exact absurd (List.cons.inj h).1 hplain
    · exact absurd (List.cons.inj h).1.symm hplain'
    · simp only [List.cons_append, List.nil_append, List.cons.injEq, true_and] at h
      obtain ⟨rfl, hrest⟩ := h
      exact ⟨Option.some.inj (hx.symm.trans hy), hrest⟩

theorem quoteChar_eq_cons (c : Char) : ∃ d ds, quoteChar c = d :: ds ∧ d ≠ '"' := by
  by_cases hc : WrittenByCode c
  · exact ⟨'\\', _, quoteChar_of_writtenByCode hc, by decide⟩
  · rcases quoteChar_cases hc with ⟨hc, hquote, -⟩ | ⟨a, hc, -, -⟩
    · exact ⟨c, [], hc, hquote⟩
    · exact ⟨'\\', [a], hc, by decide⟩

/-- The closing quote shows where the characters end. -/
theorem flatMap_quoteChar_inj {cs ds : List Char}
    (h : cs.flatMap quoteChar ++ '"' :: rest = ds.flatMap quoteChar ++ '"' :: rest') :
    cs = ds ∧ rest = rest' := by
  induction cs generalizing ds with
  | nil =>
    cases ds with
    | nil => exact ⟨rfl, (List.cons.inj h).2⟩
    | cons d ds =>
      obtain ⟨a, as, hd, hquote⟩ := quoteChar_eq_cons d
      rw [List.flatMap_cons, hd] at h
      exact absurd (List.cons.inj h).1.symm hquote
  | cons c cs ih =>
    rw [List.flatMap_cons, List.append_assoc] at h
    cases ds with
    | nil =>
      obtain ⟨a, as, hc, hquote⟩ := quoteChar_eq_cons c
      rw [hc] at h
      exact absurd (List.cons.inj h).1 hquote
    | cons d ds =>
      rw [List.flatMap_cons, List.append_assoc] at h
      obtain ⟨rfl, hmore⟩ := quoteChar_append_inj h
      obtain ⟨rfl, hrest⟩ := ih hmore
      exact ⟨rfl, hrest⟩

theorem toList_quote (s : String) :
    (quote s).toList = '"' :: (s.toList.flatMap quoteChar ++ ['"']) := by
  rw [quote, String.toList_ofList, List.cons_append]

/-- No quoted text is the beginning of another one. -/
theorem quote_append_inj {s t : String}
    (h : (quote s).toList ++ rest = (quote t).toList ++ rest') : s = t ∧ rest = rest' := by
  rw [toList_quote, toList_quote] at h
  simp only [List.cons_append, List.append_assoc, List.cons.injEq, true_and, List.nil_append] at h
  obtain ⟨hsame, hrest⟩ := flatMap_quoteChar_inj h
  exact ⟨String.toList_inj.mp hsame, hrest⟩

/-- The quoted characters of any text are the contents of a string literal. -/
theorem contents_flatMap_quoteChar (cs : List Char) : Contents (cs.flatMap quoteChar) := by
  induction cs with
  | nil => exact .nil
  | cons c cs ih =>
    rw [List.flatMap_cons]
    by_cases hc : WrittenByCode c
    · have hdigits : ∀ ds : List Char, (∀ d ∈ ds, d ≠ '"' ∧ d ≠ '\\') →
          Contents (ds ++ cs.flatMap quoteChar) := by
        intro ds hds
        induction ds with
        | nil => exact ih
        | cons d ds ihds =>
          obtain ⟨⟨hquote, hbackslash⟩, hds⟩ := List.forall_mem_cons.mp hds
          exact .plain hquote hbackslash (ihds hds)
      rw [quoteChar_of_writtenByCode hc]
      refine .escape (.plain (by decide) (by decide) (hdigits _ fun d hd => ?_))
      rcases List.mem_append.mp hd with hd | hd
      · obtain ⟨k, hk, rfl⟩ := exists_digit_of_mem_toDigits hd
        exact ⟨(digitChar_ne k hk).2.1, (digitChar_ne k hk).2.2.1⟩
      · rw [List.mem_singleton.mp hd]
        decide
    · rcases quoteChar_cases hc with ⟨heq, hquote, hbackslash⟩ | ⟨a, heq, -, -⟩
      · rw [heq]
        exact .plain hquote hbackslash ih
      · rw [heq]
        exact .escape ih

theorem newline_notMem_quoteChar (c : Char) : '\n' ∉ quoteChar c := by
  by_cases hc : WrittenByCode c
  · rw [quoteChar_of_writtenByCode hc]
    simp only [List.mem_cons, List.mem_append, List.not_mem_nil, or_false, not_or]
    refine ⟨by decide, by decide, by decide, fun hmem => ?_, by decide⟩
    obtain ⟨d, hd, hdigit⟩ := exists_digit_of_mem_toDigits hmem
    exact (digitChar_ne d hd).2.2.2 hdigit.symm
  · rcases quoteChar_cases hc with ⟨heq, -, -⟩ | ⟨a, heq, -, ha⟩
    · rw [heq, List.mem_singleton]
      rintro rfl
      exact absurd heq (by decide)
    · rw [heq]
      simp only [List.mem_cons, List.not_mem_nil, or_false, not_or]
      refine ⟨by decide, ?_⟩
      rintro rfl
      cases ha

/-- Quoted text stands on one line. -/
theorem newline_notMem_quote (s : String) : '\n' ∉ (quote s).toList := by
  rw [toList_quote]
  simp only [List.mem_cons, List.mem_append, List.mem_flatMap, List.not_mem_nil, or_false, not_or]
  refine ⟨by decide, ?_, by decide⟩
  rintro ⟨c, -, hc⟩
  exact newline_notMem_quoteChar c hc

end IntLang
