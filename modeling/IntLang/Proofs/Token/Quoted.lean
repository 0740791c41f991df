import IntLang.Proofs.Token.Lexeme
import IntLang.Text.Quoted

/-!
Quoted text as a string literal. Every escape of a quoted text is one that literals have, except for
the characters that are written by their code point. So the quoted form of a string without such
characters is a literal, and the string that it spells is the string that was quoted.
-/
namespace IntLang

def WrittenByCode (c : Char) : Prop := ['\\', 'u', '{'] <+: quoteChar c

section Characters

variable {c a : Char}

/-- A quoted character is written as itself, as an escape of literals or by its code point. -/
theorem quoteChar_forms (c : Char) :
    (quoteChar c = [c] ∧ c ≠ '"' ∧ c ≠ '\\') ∨
      (∃ a, quoteChar c = ['\\', a] ∧ a ≠ 'x' ∧ escape? a = some c) ∨
        quoteChar c = '\\' :: 'u' :: '{' :: (Nat.toDigits 16 c.toNat ++ ['}']) := by
  by_cases hescape : c ∈ ['\x00', '\t', '\r', '\n', '\\', '"']
  · simp only [List.mem_cons, List.not_mem_nil, or_false] at hescape
    refine Or.inr (Or.inl ?_)
    rcases hescape with rfl | rfl | rfl | rfl | rfl | rfl
    · exact ⟨'0', rfl, by decide, rfl⟩
    · exact ⟨'t', rfl, by decide, rfl⟩
    · exact ⟨'r', rfl, by decide, rfl⟩
    · exact ⟨'n', rfl, by decide, rfl⟩
    · exact ⟨'\\', rfl, by decide, rfl⟩
    · exact ⟨'"', rfl, by decide, rfl⟩
  · simp only [List.mem_cons, List.not_mem_nil, or_false, not_or] at hescape
    obtain ⟨h₁, h₂, h₃, h₄, hbackslash, hquote⟩ := hescape
    by_cases hinvisible : isInvisible c = true
    · refine Or.inr (Or.inr ?_)
      simp [quoteChar, h₁, h₂, h₃, h₄, hbackslash, hquote, hinvisible]
    · refine Or.inl ⟨?_, hquote, hbackslash⟩
      simp [quoteChar, h₁, h₂, h₃, h₄, hbackslash, hquote, hinvisible]

theorem quoteChar_cases (h : ¬WrittenByCode c) :
    (quoteChar c = [c] ∧ c ≠ '"' ∧ c ≠ '\\') ∨
      ∃ a, quoteChar c = ['\\', a] ∧ a ≠ 'x' ∧ escape? a = some c := by
  rcases quoteChar_forms c with hself | hescape | hcode
  · exact Or.inl hself
  · exact Or.inr hescape
  · rw [WrittenByCode, hcode] at h
    exact absurd (List.prefix_append _ _) h

theorem unescape_plain (h : c ≠ '\\') (cs : List Char) : unescape (c :: cs) = c :: unescape cs := by
  rw [unescape]
  all_goals simp [h]

theorem unescape_escape (ha : a ≠ 'x') (h : escape? a = some c) (cs : List Char) :
    unescape ('\\' :: a :: cs) = c :: unescape cs := by
  rw [unescape, h]
  all_goals simp [ha]

end Characters

section Quote

variable {cs : List Char} (h : ∀ c ∈ cs, ¬WrittenByCode c)
include h

theorem contents_quote : Contents (cs.flatMap quoteChar) := by
  induction cs with
  | nil => exact .nil
  | cons c cs ih =>
    obtain ⟨hc, hcs⟩ := List.forall_mem_cons.mp h
    rw [List.flatMap_cons]
    rcases quoteChar_cases hc with ⟨heq, hquote, hbackslash⟩ | ⟨a, heq, -, -⟩
    · rw [heq]
      exact .plain hquote hbackslash (ih hcs)
    · rw [heq]
      exact .escape (ih hcs)

theorem unescape_quote : unescape (cs.flatMap quoteChar) = cs := by
  induction cs with
  | nil => rfl
  | cons c cs ih =>
    obtain ⟨hc, hcs⟩ := List.forall_mem_cons.mp h
    rw [List.flatMap_cons]
    rcases quoteChar_cases hc with ⟨heq, -, hbackslash⟩ | ⟨a, heq, ha, hescape⟩
    · rw [heq, List.singleton_append, unescape_plain hbackslash, ih hcs]
    · rw [heq, List.cons_append, List.singleton_append, unescape_escape ha hescape, ih hcs]

end Quote

/-- The quoted form of a string is a literal for it. -/
theorem spells_quote {text : String} (h : ∀ c ∈ text.toList, ¬WrittenByCode c) (rest : List Char) :
    Spells .string text (quote text).toList rest := by
  have hspells : Spells .string _ _ rest := .string (contents_quote h)
  rw [unescape_quote h, String.ofList_toList] at hspells
  rw [quote, String.toList_ofList]
  exact hspells

end IntLang
