import ObjectGraph.Json.Basic
import ObjectGraph.Text.Blank
import ObjectGraph.Time.Instant

/-! # Stored timestamps

A stored timestamp is an integer of epoch milliseconds or a text in one of three forms, tried in
turn:

* `zoned`: `2024-01-01T10:00:00.5+05:30`, every field of fixed width, the separator one of `T`,
  `t` and a blank, the zone `Z`, `z` or a signed offset below 24 hours, whose minus may also be
  U+2212;
* `dateTime`: `2024-01-01 10:00:00.5`, taken as UTC, with white space allowed before each number and
  any amount of it, even none, between date and time;
* `dateOnly`: `2024-01-01`, midnight UTC, read as leniently.

Second 60 is accepted in the first two.  `Timestamp.ofJson?` reads a stored value. -/

namespace ObjectGraph

namespace Time

namespace Timestamp

/-- A reading of the front of a text. -/
abbrev Scan := StateT (List Char) Option

/-- The value of an ASCII digit. -/
def digit? (c : Char) : Option Nat :=
  if '0' ≤ c ∧ c ≤ '9' then some (c.toNat - '0'.toNat) else none

/-- Read one character for which `f` answers. -/
def one {α : Type} (f : Char → Option α) : Scan α
  | [] => none
  | c :: rest => (f c).map fun x => (x, rest)

/-- Read one of the given characters. -/
def oneOf (cs : List Char) : Scan Char := one fun c => if c ∈ cs then some c else none

/-- Drop white space. -/
def blanks : Scan Unit := fun text => some ((), Text.trimStart text)

/-- The digits at the front, at most `width` of them. -/
def leadingDigits (width : Nat) (text : List Char) : List Nat :=
  ((text.take width).takeWhile fun c => (digit? c).isSome).filterMap digit?

/-- The number that digits denote. -/
def value (digits : List Nat) : Nat := digits.foldl (fun n d => n * 10 + d) 0

/-- Read a number of at least one digit and at most `width`. -/
def number (width : Nat) : Scan Nat := fun text =>
  let digits := leadingDigits width text
  if digits.isEmpty then none else some (value digits, text.drop digits.length)

/-- Read a number of exactly `width` digits. -/
def fixedNumber (width : Nat) : Scan Nat := fun text =>
  let digits := leadingDigits width text
  if digits.length = width then some (value digits, text.drop width) else none

/-- Read an optional fraction of a second, in nanoseconds; digits after the ninth are dropped. -/
def fraction : Scan Nat := fun text =>
  match text with
  | '.' :: rest =>
    let digits := leadingDigits 9 rest
    if digits.isEmpty then none
    else
      some (value digits * Nat.pow 10 (9 - digits.length),
        rest.dropWhile fun c => (digit? c).isSome)
  | _ => some (0, text)

/-- The second of the day and the nanosecond of a time of day; second 60 is a leap second. -/
def timeOfDay? (hour minute second nano : Nat) : Option (Int × Nat) :=
  if hour ≤ 23 ∧ minute ≤ 59 ∧ second ≤ 60 then
    if second = 60 then some (hour * 3600 + minute * 60 + 59, nano + 1000000000)
    else some (hour * 3600 + minute * 60 + second, nano)
  else none

/-- A date that exists. -/
def date? (year : Int) (month day : Nat) : Option Date :=
  let date : Date := ⟨year, month, day⟩
  if date.isValid then some date else none

/-- Read a zone, as an offset from UTC in seconds; the minus is the one of ASCII or U+2212. -/
def zone : Scan Int := do
  let sign ← oneOf ['Z', 'z', '+', '-', '\u2212']
  if sign = 'Z' ∨ sign = 'z' then pure 0
  else
    let hours ← fixedNumber 2
    let _ ← oneOf [':']
    let minutes ← fixedNumber 2
    if minutes ≤ 59 ∧ hours ≤ 23 then
      let offset : Int := hours * 3600 + minutes * 60
      pure (if sign = '+' then offset else -offset)
    else failure

/-- A date and a time with its zone, every field of fixed width. -/
def zoned : Scan Instant := do
  let year ← fixedNumber 4
  let _ ← oneOf ['-']
  let month ← fixedNumber 2
  let _ ← oneOf ['-']
  let day ← fixedNumber 2
  let _ ← oneOf ['T', 't', ' ']
  let hour ← fixedNumber 2
  let _ ← oneOf [':']
  let minute ← fixedNumber 2
  let _ ← oneOf [':']
  let second ← fixedNumber 2
  let nano ← fraction
  let offset ← zone
  let date ← StateT.lift (date? year month day)
  let (secondOfDay, nano) ← StateT.lift (timeOfDay? hour minute second nano)
  pure (Instant.ofDateTime date (secondOfDay - offset) nano)

/-- A year after white space: up to four digits, or a sign and any number of digits. -/
def lenientYear : Scan Int := do
  blanks
  let text ← get
  match text with
  | '-' :: rest => do
    set rest
    let n ← number rest.length
    pure (-(n : Int))
  | '+' :: rest => do
    set rest
    let n ← number rest.length
    pure n
  | _ => do
    let n ← number 4
    pure n

/-- A number of one or two digits after white space. -/
def lenientField : Scan Nat := do
  blanks
  number 2

/-- A date whose fields may be short and preceded by white space. -/
def lenientDate : Scan Date := do
  let year ← lenientYear
  let _ ← oneOf ['-']
  let month ← lenientField
  let _ ← oneOf ['-']
  let day ← lenientField
  StateT.lift (date? year month day)

/-- A date and a time in UTC. -/
def dateTime : Scan Instant := do
  let date ← lenientDate
  let hour ← lenientField
  let _ ← oneOf [':']
  let minute ← lenientField
  let _ ← oneOf [':']
  let second ← lenientField
  let nano ← fraction
  let (secondOfDay, nano) ← StateT.lift (timeOfDay? hour minute second nano)
  pure (Instant.ofDateTime date secondOfDay nano)

/-- A date alone: its midnight in UTC. -/
def dateOnly : Scan Instant := do
  let date ← lenientDate
  pure (Instant.ofDateTime date 0 0)

/-- What a reading makes of a whole text. -/
def whole {α : Type} (scan : Scan α) (text : List Char) : Option α :=
  match scan text with
  | some (x, []) => some x
  | _ => none

/-- The instant of a text, by the first form that reads all of it. -/
def ofText? (text : String) : Option Instant :=
  let chars := text.toList
  (whole zoned chars <|> whole dateTime chars) <|> whole dateOnly chars

/-- The instant of a stored value; only integers of a signed 64-bit word count as milliseconds. -/
def ofJson? : Json → Option Instant
  | .num (.int n) => if -2 ^ 63 ≤ n ∧ n < 2 ^ 63 then Instant.ofMillis? n else none
  | .str text => ofText? text
  | _ => none

end Timestamp

end Time

end ObjectGraph
