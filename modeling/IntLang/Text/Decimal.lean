/-!
Decimal numerals as numbers. Only the ASCII digits count as digits.
-/
namespace IntLang

/-- The number that a list of decimal digits writes, the most significant first. -/
def decimalValue (digits : List Char) : Nat :=
  digits.foldl (fun n c => 10 * n + (c.toNat - '0'.toNat)) 0

def integerBound : Nat := Int64.size / 2

def integer? (digits : List Char) : Option Int64 :=
  let n := decimalValue digits
  if n < integerBound then some (Int64.ofNat n) else none

theorem integer?_eq_some_iff {digits : List Char} {value : Int64} :
    integer? digits = some value ↔
      decimalValue digits < integerBound ∧ value = Int64.ofNat (decimalValue digits) := by
  rw [eq_comm (a := value)]
  simp only [integer?, Option.ite_none_right_eq_some, Option.some.injEq]

theorem toList_toString (n : Nat) : (toString n).toList = Nat.toDigits 10 n := by
  rw [← String.toList_ofList (l := Nat.toDigits 10 n), ← Nat.repr_eq_ofList_toDigits]
  rfl

theorem isDigit_of_mem_toString {c : Char} {n : Nat} (h : c ∈ (toString n).toList) :
    c.isDigit = true := by
  rw [toList_toString] at h
  exact Nat.isDigit_of_mem_toDigits (by decide) (by decide) h

end IntLang
