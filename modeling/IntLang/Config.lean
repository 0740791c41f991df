import IntLang.Error.Basic

/-!
The limits of evaluation. They may be set to anything, but the nesting limit in force never exceeds
a fixed ceiling.
-/
namespace IntLang

/-- How deep calls and evaluation may nest, and how many variables a scope may hold. -/
structure Config where
  maxCallDepth : Nat
  maxNestingDepth : Nat
  maxVariables : Option Nat
deriving DecidableEq, Repr

namespace Config

def standard : Config := ⟨128, 2048, none⟩

def callDepthCeiling : Nat := 4096

def nestingDepthCeiling : Nat := 8192

def withMaxCallDepth (c : Config) (depth : Nat) : Config :=
  { c with maxCallDepth := min depth callDepthCeiling }

def withMaxNestingDepth (c : Config) (depth : Nat) : Config :=
  { c with maxNestingDepth := min depth nestingDepthCeiling }

def withMaxVariables (c : Config) (count : Nat) : Config :=
  { c with maxVariables := some count }

def nestingLimit (c : Config) : Nat := min c.maxNestingDepth nestingDepthCeiling

/-- The levels that are open after one more has been opened on behalf of a position. -/
def descend (c : Config) (levels : Nat) (position : Position) : Except Error Nat :=
  if c.nestingLimit ≤ levels then .error ⟨.recursionLimit c.nestingLimit, position⟩
  else .ok (levels + 1)

theorem descend_of_limit {c : Config} {levels : Nat} (h : c.nestingLimit ≤ levels)
    (position : Position) :
    c.descend levels position = .error ⟨.recursionLimit c.nestingLimit, position⟩ :=
  if_pos h

theorem descend_of_room {c : Config} {levels : Nat} (h : ¬c.nestingLimit ≤ levels)
    (position : Position) : c.descend levels position = .ok (levels + 1) :=
  if_neg h

/-- The bytes of stack set aside for evaluation: one mebibyte, and sixteen kibibytes for each
nesting level. -/
def stackBytes (c : Config) : Nat := 1024 * 1024 + c.nestingLimit * (16 * 1024)

end Config

end IntLang
