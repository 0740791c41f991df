/-!
Positions in a source count the bytes of its UTF-8 form. This module measures a list of characters
in bytes and takes the characters behind a byte offset. There are such characters just if the offset
is the length of a beginning of the list: not inside a character and not past the end.
-/
namespace IntLang

/-- The number of bytes in the UTF-8 form of a list of characters. -/
def byteLength : List Char → Nat
  | [] => 0
  | c :: cs => c.utf8Size + byteLength cs

@[simp] theorem byteLength_nil : byteLength [] = 0 := rfl

@[simp] theorem byteLength_cons (c : Char) (cs : List Char) :
    byteLength (c :: cs) = c.utf8Size + byteLength cs := rfl

@[simp] theorem byteLength_append (cs ds : List Char) :
    byteLength (cs ++ ds) = byteLength cs + byteLength ds := by
  induction cs with
  | nil => simp
  | cons c cs ih => simp [ih, Nat.add_assoc]

theorem length_le_byteLength (cs : List Char) : cs.length ≤ byteLength cs := by
  induction cs with
  | nil => exact Nat.le_refl 0
  | cons c cs ih =>
    have hpos := c.utf8Size_pos
    rw [List.length_cons, byteLength_cons]
    omega

/-- A text takes as many bytes as it has characters just if each of them takes one. -/
theorem byteLength_eq_length_iff {cs : List Char} :
    byteLength cs = cs.length ↔ ∀ c ∈ cs, c.utf8Size = 1 := by
  induction cs with
  | nil => exact ⟨nofun, fun _ => rfl⟩
  | cons c cs ih =>
    have hpos := c.utf8Size_pos
    have hle := length_le_byteLength cs
    rw [List.forall_mem_cons, ← ih, byteLength_cons, List.length_cons]
    omega

/-- The characters behind the first `bytes` bytes, unless these end inside a character or are more
than there are. -/
def dropBytes? : Nat → List Char → Option (List Char)
  | 0, cs => some cs
  | _ + 1, [] => none
  | bytes + 1, c :: cs =>
    if c.utf8Size ≤ bytes + 1 then dropBytes? (bytes + 1 - c.utf8Size) cs else none

@[simp] theorem dropBytes?_zero (cs : List Char) : dropBytes? 0 cs = some cs := by
  cases cs <;> rfl

/-- The characters behind an offset are what follows a beginning of that length. -/
theorem dropBytes?_eq_some_iff {bytes : Nat} {cs rest : List Char} :
    dropBytes? bytes cs = some rest ↔
      ∃ before, cs = before ++ rest ∧ byteLength before = bytes := by
  induction cs generalizing bytes with
  | nil =>
    cases bytes with
    | zero =>
      simp only [dropBytes?, Option.some.injEq, List.nil_eq, List.append_eq_nil_iff]
      constructor
      · rintro rfl
        exact ⟨[], ⟨rfl, rfl⟩, rfl⟩
      · rintro ⟨before, ⟨-, rfl⟩, -⟩
        rfl
    | succ bytes =>
      simp only [dropBytes?, reduceCtorEq, List.nil_eq, List.append_eq_nil_iff, false_iff]
      rintro ⟨before, ⟨rfl, -⟩, h⟩
      cases h
  | cons c cs ih =>
    have hpos := c.utf8Size_pos
    cases bytes with
    | zero =>
      simp only [dropBytes?, Option.some.injEq]
      constructor
      · rintro rfl
        exact ⟨[], rfl, rfl⟩
      · rintro ⟨before, happend, hlength⟩
        cases before with
        | nil => exact happend
        | cons b before =>
          have hb := b.utf8Size_pos
          rw [byteLength_cons] at hlength
          omega
    | succ bytes =>
      by_cases hle : c.utf8Size ≤ bytes + 1
      · rw [dropBytes?, if_pos hle, ih]
        constructor
        · rintro ⟨before, rfl, hlength⟩
          refine ⟨c :: before, rfl, ?_⟩
          rw [byteLength_cons]
          omega
        · rintro ⟨before, happend, hlength⟩
          cases before with
          | nil => cases hlength
          | cons b before =>
            obtain ⟨rfl, rfl⟩ := List.cons.inj happend
            refine ⟨before, rfl, ?_⟩
            rw [byteLength_cons] at hlength
            omega
      · rw [dropBytes?, if_neg hle]
        simp only [reduceCtorEq, false_iff]
        rintro ⟨before, happend, hlength⟩
        cases before with
        | nil => cases hlength
        | cons b before =>
          obtain ⟨rfl, rfl⟩ := List.cons.inj happend
          rw [byteLength_cons] at hlength
          omega

end IntLang
