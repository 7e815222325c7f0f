/-!
# Timestamps

Instants of the wall clock as text: `2001-09-09T01:46:40+00:00`, with milliseconds where they are
not zero. Instants count milliseconds since 1970, in the Gregorian calendar and in UTC.

Days are numbered so that each year begins in March; then a leap day is the last of its year, and
the months before it follow a fixed pattern.
-/

namespace LayeredCache.Http.Timestamp

/-- A day of the calendar. -/
structure Date where
  year : Nat
  month : Nat
  day : Nat
  deriving DecidableEq, Repr

/-- The date of a day counted from 1970-01-01. -/
def dateOf (days : Nat) : Date :=
  let z := days + 719468
  let era := z / 146097
  let dayOfEra := z % 146097
  let yearOfEra := (dayOfEra - dayOfEra / 1460 + dayOfEra / 36524 - dayOfEra / 146096) / 365
  let dayOfYear := dayOfEra - (365 * yearOfEra + yearOfEra / 4 - yearOfEra / 100)
  let fromMarch := (5 * dayOfYear + 2) / 153
  let month := if fromMarch < 10 then fromMarch + 3 else fromMarch - 9
  ⟨yearOfEra + era * 400 + (if month ≤ 2 then 1 else 0), month,
    dayOfYear - (153 * fromMarch + 2) / 5 + 1⟩

/-- A number with at least `width` digits. -/
def padded (width n : Nat) : String :=
  let ds := Nat.toDigits 10 n
  String.ofList (List.replicate (width - ds.length) '0' ++ ds)

/-- The text of an instant. -/
def text (millis : Nat) : String :=
  let secs := millis / 1000
  let d := dateOf (secs / 86400)
  let s := secs % 86400
  let fraction := if millis % 1000 = 0 then "" else "." ++ padded 3 (millis % 1000)
  padded 4 d.year ++ "-" ++ padded 2 d.month ++ "-" ++ padded 2 d.day ++ "T" ++
    padded 2 (s / 3600) ++ ":" ++ padded 2 (s / 60 % 60) ++ ":" ++ padded 2 (s % 60) ++ fraction ++
    "+00:00"

/-- The instant at which the clock of a session shows zero: 2001-09-09T01:46:40. -/
def epoch : Nat := 1000000000 * 1000

end LayeredCache.Http.Timestamp
