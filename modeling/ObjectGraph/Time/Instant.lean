import ObjectGraph.Time.Calendar

/-! # Instants

An instant is a count of seconds since 1970-01-01T00:00:00Z and a count of nanoseconds.  A leap
second is held as the 59th second with a further thousand million nanoseconds, so that its
milliseconds run on into the next minute while it prints as second 60.

`Instant.ofMillis?` and `Instant.millis` go to and from epoch milliseconds, the latter rounding
down; `Instant.text` prints with milliseconds, `2023-11-14T22:13:20.000Z`. -/

namespace ObjectGraph

namespace Time

/-- An instant: whole seconds since the epoch and nanoseconds, those of a leap second from
`10 ^ 9` on. -/
structure Instant where
  second : Int
  nano : Nat
deriving DecidableEq, Repr

namespace Instant

/-- Epoch milliseconds, rounded down. -/
def millis (t : Instant) : Int := t.second * 1000 + (t.nano / 1000000 : Nat)

/-- The instants whose year can be represented, in epoch milliseconds. -/
def millisBounds : Int × Int := (-8334601228800000, 8210266876799999)

/-- The instant of epoch milliseconds whose year can be represented. -/
def ofMillis? (n : Int) : Option Instant :=
  if millisBounds.1 ≤ n ∧ n ≤ millisBounds.2 then
    some ⟨n / 1000, (n % 1000).toNat * 1000000⟩
  else none

/-- The instant at a time of day of a date, in UTC. -/
def ofDateTime (date : Date) (secondOfDay : Int) (nano : Nat) : Instant :=
  ⟨date.dayNumber * 86400 + secondOfDay, nano⟩

/-- A number with at least that many digits. -/
def padded (width n : Nat) : String :=
  let digits := toString n
  String.ofList (List.replicate (width - digits.length) '0') ++ digits

/-- Years from 0 to 9999 have four digits; others have a sign and at least four digits. -/
def yearText (year : Int) : String :=
  if 0 ≤ year ∧ year ≤ 9999 then padded 4 year.toNat
  else (if year < 0 then "-" else "+") ++ padded 4 year.natAbs

/-- The text with milliseconds and the zone `Z`. -/
def text (t : Instant) : String :=
  let date := Date.ofDayNumber (t.second / 86400)
  let secondOfDay := (t.second % 86400).toNat
  let (leap, nano) := if 1000000000 ≤ t.nano then (1, t.nano - 1000000000) else (0, t.nano)
  yearText date.year ++ "-" ++ padded 2 date.month ++ "-" ++ padded 2 date.day ++ "T" ++
    padded 2 (secondOfDay / 3600) ++ ":" ++ padded 2 (secondOfDay / 60 % 60) ++ ":" ++
    padded 2 (secondOfDay % 60 + leap) ++ "." ++ padded 3 (nano / 1000000) ++ "Z"

end Instant

end Time

end ObjectGraph
