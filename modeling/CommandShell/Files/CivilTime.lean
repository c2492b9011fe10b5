/-
# CommandShell.Files.CivilTime -- moments as calendar dates

A moment is a number of seconds since the start of 1970 and nanoseconds that count forward from
there. Dates are those of the proleptic Gregorian calendar. Days are counted in eras of 400 years
that start on the first of March, so the leap day is the last day of its year.
-/

namespace CommandShell.Files

/-- A moment. -/
structure Moment where
  seconds : Int
  nanoseconds : Nat
  deriving DecidableEq, Repr

/-- A calendar date. -/
structure Date where
  year : Int
  month : Nat
  day : Nat
  deriving DecidableEq, Repr

/-- The date of the day that lies the given number of days after the start of 1970. -/
def Date.ofDays (days : Int) : Date :=
  let shifted := days + 719468
  let era := shifted.fdiv 146097
  let dayOfEra := (shifted - era * 146097).toNat
  let yearOfEra := (dayOfEra - dayOfEra / 1460 + dayOfEra / 36524 - dayOfEra / 146096) / 365
  let dayOfYear := dayOfEra - (365 * yearOfEra + yearOfEra / 4 - yearOfEra / 100)
  let month := (5 * dayOfYear + 2) / 153
  let calendarMonth := if month < 10 then month + 3 else month - 9
  { year := yearOfEra + era * 400 + (if calendarMonth ≤ 2 then 1 else 0)
    month := calendarMonth
    day := dayOfYear - (153 * month + 2) / 5 + 1 }

/-- A number with at least the given count of digits. -/
def padded (count n : Nat) : String :=
  let digits := Nat.toDigits 10 n
  String.ofList (List.replicate (count - digits.length) '0' ++ digits)

/-- Years of four digits are written bare, all others with their sign. -/
def yearText (year : Int) : String :=
  if year < 0 then "-" ++ padded 4 year.natAbs
  else if 9999 < year then "+" ++ padded 4 year.natAbs
  else padded 4 year.natAbs

/-- A moment in local time, cut to microseconds. It is given how many seconds local time is ahead of
universal time. -/
def Moment.text (t : Moment) (ahead : Int) : String :=
  let days := (t.seconds + ahead).fdiv 86400
  let second := (t.seconds + ahead - days * 86400).toNat
  let date := Date.ofDays days
  yearText date.year ++ "-" ++ padded 2 date.month ++ "-" ++ padded 2 date.day ++ " " ++
    padded 2 (second / 3600) ++ ":" ++ padded 2 (second / 60 % 60) ++ ":" ++
    padded 2 (second % 60) ++ "." ++ padded 6 (t.nanoseconds / 1000)

example : Moment.text ⟨-1, 500000000⟩ 0 = "1969-12-31 23:59:59.500000" := by decide
example : Moment.text ⟨951868799, 999999499⟩ 3600 = "2000-03-01 00:59:59.999999" := by decide

end CommandShell.Files
