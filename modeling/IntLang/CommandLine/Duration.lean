/-!
Durations in words: a number of nanoseconds in the largest unit that does not exceed it, from
seconds down to nanoseconds, with the digits after the point that it needs.
-/
namespace IntLang.CommandLine

/-- The first `places` decimals of a fraction `n / 10^places`, without zeros at the end. -/
def decimals (places n : Nat) : List Char :=
  let digits := Nat.toDigits 10 n
  ((List.replicate (places - digits.length) '0' ++ digits).reverse.dropWhile (· == '0')).reverse

/-- A number of nanoseconds in a unit of `10^places` of them. -/
def inUnit (nanoseconds places : Nat) (unit : String) : String :=
  let scale := Nat.pow 10 places
  let whole := nanoseconds / scale
  match decimals places (nanoseconds % scale) with
  | [] => toString whole ++ unit
  | ds => toString whole ++ "." ++ String.ofList ds ++ unit

def showDuration (nanoseconds : Nat) : String :=
  if 1000000000 ≤ nanoseconds then inUnit nanoseconds 9 "s"
  else if 1000000 ≤ nanoseconds then inUnit nanoseconds 6 "ms"
  else if 1000 ≤ nanoseconds then inUnit nanoseconds 3 "µs"
  else toString nanoseconds ++ "ns"

end IntLang.CommandLine
