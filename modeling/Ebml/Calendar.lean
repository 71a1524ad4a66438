/-!
# Dates

A date is a number of nanoseconds since midnight on the first of January 2001, which is also where a
400-year cycle of the calendar starts. Text has the year, month and day, the time of day, and as many
groups of three decimals of a second as are needed.
-/

namespace Ebml.Calendar

/-- A day of the calendar. -/
structure Day where
  year : Int
  month : Nat
  day : Nat
  deriving DecidableEq, Repr

def isLeap (year : Int) : Bool :=
  year % 4 == 0 && (year % 100 != 0 || year % 400 == 0)

/-- The lengths of the months of a year. -/
def monthLengths (year : Int) : List Nat :=
  [31, if isLeap year then 29 else 28, 31, 30, 31, 30, 31, 31, 30, 31, 30, 31]

/-- The month and the day in it that is `n` days after the first day of `month`, given the lengths of
the months from there on. -/
def dayOfMonth (month n : Nat) : List Nat → Nat × Nat
  | [] => (month, n + 1)
  | length :: rest => if n < length then (month, n + 1) else dayOfMonth (month + 1) (n - length) rest

/-- The day that is `n` days after the first of January 2001. -/
def dayOfNumber (n : Int) : Day :=
  let cycle := n / 146097
  let inCycle := (n % 146097).toNat
  let century := min 3 (inCycle / 36524)
  let inCentury := inCycle - century * 36524
  let quad := inCentury / 1461
  let inQuad := inCentury % 1461
  let single := min 3 (inQuad / 365)
  let inYear := inQuad - single * 365
  let year : Int := 2001 + 400 * cycle + (100 * century + 4 * quad + single : Nat)
  let (month, day) := dayOfMonth 1 inYear (monthLengths year)
  ⟨year, month, day⟩

/-- `n` in decimal, filled up with zeros to at least `width` digits. -/
def padded (width n : Nat) : String :=
  let digits := toString n
  String.ofList (List.replicate (width - digits.length) '0') ++ digits

/-- The decimals of a second: none, or the fewest of 3, 6 and 9 that lose nothing. -/
def fraction (nanoseconds : Nat) : String :=
  if nanoseconds = 0 then ""
  else if nanoseconds % 1000000 = 0 then "." ++ padded 3 (nanoseconds / 1000000)
  else if nanoseconds % 1000 = 0 then "." ++ padded 6 (nanoseconds / 1000)
  else "." ++ padded 9 nanoseconds

/-- The moment `nanoseconds` after the start of 2001, in universal time. -/
def timestamp (nanoseconds : Int) : String :=
  let seconds := nanoseconds / 1000000000
  let rest := (nanoseconds % 1000000000).toNat
  let d := dayOfNumber (seconds / 86400)
  let ofDay := (seconds % 86400).toNat
  padded 4 d.year.toNat ++ "-" ++ padded 2 d.month ++ "-" ++ padded 2 d.day ++ "T" ++
    padded 2 (ofDay / 3600) ++ ":" ++ padded 2 (ofDay / 60 % 60) ++ ":" ++ padded 2 (ofDay % 60) ++
    fraction rest ++ "+00:00"

end Ebml.Calendar
