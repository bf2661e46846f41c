import ObjectGraph.Proofs.Time.Scans

/-! # Timestamps as they are written

A date and a time of day are written field by field, each with zeros in front (`Date.text`,
`TimeOfDay.text`), a zone as a letter or an offset (`Zone.text`).  Such a text is read as what its
fields say: with a zone by the form that asks for one (`ofText?_zoned`), without one as UTC
(`ofText?_dateTime`), and a date alone as its midnight (`ofText?_date`).  The forms that are tried
before fail on it, since they ask for a field that is missing at its end.

Years of four digits have no sign.  A year with one is not of fixed width, and the other forms know
no zone, so no form reads it with a time and a zone (`ofText?_sign`). -/

namespace ObjectGraph

namespace Time

open Text (Numeral)
open Instant (padded)

/-! ### Padded numbers -/

theorem numeral_padded (width n : Nat) : Numeral (padded width n).toList n := by
  unfold padded
  rw [String.toList_append, String.toList_ofList]
  exact (Text.numeral_toString n).zeros _

theorem length_padded {width n : Nat} (hpos : 0 < width) (h : n < 10 ^ width) :
    (padded width n).toList.length = width := by
  have hdigits : (toString n).toList = Nat.toDigits 10 n := String.toList_ofList
  have hlength : (toString n).toList.length ≤ width := by
    rw [hdigits]
    exact (Nat.length_toDigits_le_iff (by decide) hpos).2 h
  unfold padded
  rw [String.toList_append, String.toList_ofList, List.length_append, List.length_replicate,
    ← String.length_toList]
  omega

theorem padded_ne_nil (width n : Nat) : (padded width n).toList ≠ [] := by
  unfold padded
  rw [String.toList_append]
  exact List.append_ne_nil_of_right_ne_nil _ (Text.toString_ne_nil n)

/-! ### Texts -/

/-- A date as it is written: `2024-02-29`. -/
def Date.text (d : Date) : String :=
  Instant.yearText d.year ++ "-" ++ padded 2 d.month ++ "-" ++ padded 2 d.day

/-- A time of day with the digits of its fraction of a second; second 60 is a leap second. -/
structure TimeOfDay where
  hour : Nat
  minute : Nat
  second : Nat
  fraction : List Char

namespace TimeOfDay

/-- A time of day as it is written: `10:00:00.5`. -/
def text (t : TimeOfDay) : String :=
  padded 2 t.hour ++ ":" ++ padded 2 t.minute ++ ":" ++ padded 2 t.second ++
    String.ofList (Timestamp.fractionText t.fraction)

/-- The fields are those of a clock. -/
structure Valid (t : TimeOfDay) : Prop where
  hour : t.hour ≤ 23
  minute : t.minute ≤ 59
  second : t.second ≤ 60
  fraction : ∀ c ∈ t.fraction, c.isDigit = true

/-- The second of the day; a leap second is within the one before. -/
def secondOfDay (t : TimeOfDay) : Int := t.hour * 3600 + t.minute * 60 + min t.second 59

/-- The nanosecond, from a thousand million on in a leap second. -/
def nano (t : TimeOfDay) : Nat :=
  Timestamp.nanos t.fraction + if t.second = 60 then 1000000000 else 0

theorem Valid.timeOfDay?_eq {t : TimeOfDay} (h : t.Valid) :
    Timestamp.timeOfDay? t.hour t.minute t.second (Timestamp.nanos t.fraction) =
      some (t.secondOfDay, t.nano) := by
  have hsecond := h.second
  unfold Timestamp.timeOfDay? secondOfDay nano
  rw [if_pos ⟨h.hour, h.minute, hsecond⟩]
  by_cases hleap : t.second = 60
  · rw [if_pos hleap, if_pos hleap, hleap]
    rfl
  · rw [if_neg hleap, if_neg hleap, Nat.min_eq_left (by omega)]
    rfl

end TimeOfDay

/-- A zone: a letter that stands for UTC, or a sign with hours and minutes. -/
inductive Zone
  | utc (letter : Char)
  | offset (sign : Char) (hours minutes : Nat)

namespace Zone

/-- A zone as it is written: `Z`, `+05:30`. -/
def text : Zone → String
  | utc letter => String.singleton letter
  | offset sign hours minutes =>
    String.singleton sign ++ padded 2 hours ++ ":" ++ padded 2 minutes

/-- What the clocks of the zone are ahead of UTC, in seconds. -/
def seconds : Zone → Int
  | utc _ => 0
  | offset sign hours minutes =>
    if sign = '+' then hours * 3600 + minutes * 60 else -(hours * 3600 + minutes * 60)

/-- The letter is one of UTC; an offset has a sign and is below 24 hours. -/
def Valid : Zone → Prop
  | utc letter => letter ∈ ['Z', 'z']
  | offset sign hours minutes => sign ∈ ['+', '-', '\u2212'] ∧ hours ≤ 23 ∧ minutes ≤ 59

instance : DecidablePred Valid
  | utc letter => inferInstanceAs (Decidable (letter ∈ ['Z', 'z']))
  | offset sign hours minutes =>
    inferInstanceAs (Decidable (sign ∈ ['+', '-', '\u2212'] ∧ hours ≤ 23 ∧ minutes ≤ 59))

end Zone

/-- A date and a time of day in a zone, with the character between them. -/
structure ZonedTime where
  date : Date
  separator : Char
  time : TimeOfDay
  zone : Zone

namespace ZonedTime

/-- The text as it is written: `2024-01-01T10:00:00.5+05:30`. -/
def text (w : ZonedTime) : String :=
  w.date.text ++ String.singleton w.separator ++ w.time.text ++ w.zone.text

/-- The date exists in a year of four digits, and the other fields are valid. -/
structure Valid (w : ZonedTime) : Prop where
  year : 0 ≤ w.date.year ∧ w.date.year ≤ 9999
  date : w.date.Exists
  separator : w.separator ∈ ['T', 't', ' ']
  time : w.time.Valid
  zone : w.zone.Valid

/-- The instant of the date and the time of day, shifted by the offset of the zone. -/
def instant (w : ZonedTime) : Instant :=
  Instant.ofDateTime w.date (w.time.secondOfDay - w.zone.seconds) w.time.nano

end ZonedTime

/-! ### Characters of the fields -/

theorem Date.toList_text (d : Date) : d.text.toList =
    (Instant.yearText d.year).toList ++ (['-'] ++ ((padded 2 d.month).toList ++
      (['-'] ++ (padded 2 d.day).toList))) := by
  unfold Date.text
  simp only [String.toList_append, List.append_assoc]
  rfl

theorem TimeOfDay.toList_text (t : TimeOfDay) : t.text.toList =
    (padded 2 t.hour).toList ++ ([':'] ++ ((padded 2 t.minute).toList ++ ([':'] ++
      ((padded 2 t.second).toList ++ Timestamp.fractionText t.fraction)))) := by
  unfold TimeOfDay.text
  simp only [String.toList_append, String.toList_ofList, List.append_assoc]
  rfl

theorem ZonedTime.toList_text (w : ZonedTime) : w.text.toList =
    w.date.text.toList ++ ([w.separator] ++ (w.time.text.toList ++ w.zone.text.toList)) := by
  unfold ZonedTime.text
  simp only [String.toList_append, String.toList_singleton, List.append_assoc]

theorem toList_yearText {year : Int} (h : 0 ≤ year ∧ year ≤ 9999) :
    (Instant.yearText year).toList = (padded 4 year.toNat).toList := by
  unfold Instant.yearText
  rw [if_pos h]

theorem toList_yearText_sign {year : Int} (h : ¬(0 ≤ year ∧ year ≤ 9999)) :
    (Instant.yearText year).toList =
      (if decide (year < 0) then '-' else '+') :: (padded 4 year.natAbs).toList := by
  unfold Instant.yearText
  rw [if_neg h, String.toList_append]
  by_cases hneg : year < 0
  · rw [if_pos hneg, decide_eq_true hneg]
    rfl
  · rw [if_neg hneg, decide_eq_false hneg]
    rfl

/-- A date that exists in a year of four digits is valid. -/
theorem Date.Exists.isValid {d : Date} (h : d.Exists) (hyear : 0 ≤ d.year ∧ d.year ≤ 9999) :
    d.isValid = true := by
  refine Date.isValid_iff.2 ⟨?_, h⟩
  unfold Date.yearBounds
  dsimp only
  omega

theorem Date.Exists.month_lt {d : Date} (h : d.Exists) : d.month < 100 := by
  have hmonth := h.month_le
  omega

theorem Date.Exists.day_lt {d : Date} (h : d.Exists) : d.day < 100 := by
  have hday := h.day_le
  have hmonth : daysInMonth d.year d.month ≤ 31 := by
    unfold daysInMonth
    split_ifs <;> decide
  omega

namespace Timestamp

variable {α : Type} {field : Scan Nat} {d : Date} {time : TimeOfDay} {rest : List Char}

/-- The field reads any number of two digits. -/
def ReadsTwo (field : Scan Nat) : Prop :=
  ∀ n < 100, ∀ rest, Reads field (padded 2 n).toList n rest

theorem readsTwo_fixedNumber : ReadsTwo (fixedNumber 2) := fun n hn rest =>
  reads_fixedNumber (numeral_padded 2 n) (length_padded (by decide) hn) rest

theorem readsTwo_lenientField : ReadsTwo lenientField := fun n hn rest =>
  reads_lenientField (numeral_padded 2 n) (length_padded (by decide) hn) rest

/-! ### Fields one after another -/

/-- The month and the day of a date are read after its year. -/
theorem month_day_bind (hfield : ReadsTwo field) (hd : d.Exists) (g : Nat → Nat → Scan α)
    (rest : List Char) :
    (do
      let _ ← oneOf ['-']
      let month ← field
      let _ ← oneOf ['-']
      let day ← field
      g month day : Scan α) (['-'] ++ ((padded 2 d.month).toList ++ (['-'] ++
        ((padded 2 d.day).toList ++ rest)))) = g d.month d.day rest := by
  rw [(reads_oneOf List.mem_cons_self _).bind_eq, (hfield d.month hd.month_lt _).bind_eq,
    (reads_oneOf List.mem_cons_self _).bind_eq, (hfield d.day hd.day_lt _).bind_eq]

/-- A time of day is read up to its fraction, if none of the fraction's characters follow. -/
theorem time_bind (hfield : ReadsTwo field) (ht : time.Valid) (hstops : Stops rest)
    (hpoint : ∀ cs, rest ≠ '.' :: cs) (g : Nat → Nat → Nat → Nat → Scan α) :
    (do
      let hour ← field
      let _ ← oneOf [':']
      let minute ← field
      let _ ← oneOf [':']
      let second ← field
      let nano ← fraction
      g hour minute second nano : Scan α) (time.text.toList ++ rest) =
        g time.hour time.minute time.second (nanos time.fraction) rest := by
  have hhour := ht.hour
  have hminute := ht.minute
  have hsecond := ht.second
  rw [TimeOfDay.toList_text]
  simp only [List.append_assoc]
  rw [(hfield time.hour (by omega) _).bind_eq, (reads_oneOf List.mem_cons_self _).bind_eq,
    (hfield time.minute (by omega) _).bind_eq, (reads_oneOf List.mem_cons_self _).bind_eq,
    (hfield time.second (by omega) _).bind_eq,
    (reads_fraction ht.fraction hstops hpoint).bind_eq]

/-- What a valid zone begins with is no digit and no point. -/
theorem zone_stops {z : Zone} (h : z.Valid) :
    Stops z.text.toList ∧ ∀ cs, z.text.toList ≠ '.' :: cs := by
  have hsign : ∀ c ∈ ['Z', 'z', '+', '-', '\u2212'], c.isDigit = false ∧ c ≠ '.' := by
    intro c hc
    simp only [List.mem_cons, List.not_mem_nil, or_false] at hc
    rcases hc with rfl | rfl | rfl | rfl | rfl <;> decide
  have hfirst : ∀ c cs, z.text.toList = c :: cs → c ∈ ['Z', 'z', '+', '-', '\u2212'] := by
    intro c cs hcs
    cases z with
    | utc letter =>
      rw [Zone.text, String.toList_singleton] at hcs
      cases hcs
      exact List.mem_append_left _ h
    | offset sign hours minutes =>
      rw [Zone.text, String.toList_append, String.toList_append, String.toList_append,
        String.toList_singleton] at hcs
      cases hcs
      exact List.mem_append_right ['Z', 'z'] h.1
  refine ⟨fun c cs hcs => (hsign c (hfirst c cs hcs)).1, fun cs hcs => ?_⟩
  exact (hsign '.' (hfirst '.' cs hcs)).2 rfl

theorem reads_zone {z : Zone} (h : z.Valid) (rest : List Char) :
    Reads zone z.text.toList z.seconds rest := by
  cases z with
  | utc letter =>
    have hmem : letter ∈ ['Z', 'z', '+', '-', '\u2212'] := List.mem_append_left _ h
    have hletter : letter = 'Z' ∨ letter = 'z' := by simpa [Zone.Valid] using h
    unfold Reads zone
    rw [Zone.text, String.toList_singleton, (reads_oneOf hmem rest).bind_eq, if_pos hletter]
    rfl
  | offset sign hours minutes =>
    obtain ⟨hsign, hhours, hminutes⟩ := h
    have hmem : sign ∈ ['Z', 'z', '+', '-', '\u2212'] := List.mem_append_right ['Z', 'z'] hsign
    have hletter : ¬(sign = 'Z' ∨ sign = 'z') := by
      simp only [List.mem_cons, List.not_mem_nil, or_false] at hsign
      rcases hsign with rfl | rfl | rfl <;> decide
    unfold Reads zone
    simp only [Zone.text, String.toList_append, String.toList_singleton, List.append_assoc]
    rw [(reads_oneOf hmem _).bind_eq, if_neg hletter,
      (readsTwo_fixedNumber hours (by omega) _).bind_eq]
    change (oneOf [':'] >>= _) ([':'] ++ _) = _
    rw [(reads_oneOf List.mem_cons_self _).bind_eq,
      (readsTwo_fixedNumber minutes (by omega) _).bind_eq, if_pos ⟨hminutes, hhours⟩]
    rfl

/-! ### Dates -/

theorem date?_eq (hyear : 0 ≤ d.year ∧ d.year ≤ 9999) (hd : d.Exists) :
    date? d.year d.month d.day = some d := if_pos (hd.isValid hyear)

/-- A date of fixed width is read field by field. -/
theorem fixedDate_bind (hyear : 0 ≤ d.year ∧ d.year ≤ 9999) (hd : d.Exists)
    (g : Nat → Nat → Nat → Scan α) (rest : List Char) :
    (do
      let year ← fixedNumber 4
      let _ ← oneOf ['-']
      let month ← fixedNumber 2
      let _ ← oneOf ['-']
      let day ← fixedNumber 2
      g year month day : Scan α) (d.text.toList ++ rest) = g d.year.toNat d.month d.day rest := by
  have hwidth : (padded 4 d.year.toNat).toList.length = 4 := length_padded (by decide) (by omega)
  rw [Date.toList_text, toList_yearText hyear]
  simp only [List.append_assoc]
  rw [(reads_fixedNumber (numeral_padded 4 _) hwidth _).bind_eq,
    month_day_bind readsTwo_fixedNumber hd]

theorem reads_lenientDate (hyear : 0 ≤ d.year ∧ d.year ≤ 9999) (hd : d.Exists)
    (rest : List Char) : Reads lenientDate d.text.toList d rest := by
  have hwidth : (padded 4 d.year.toNat).toList.length = 4 := length_padded (by decide) (by omega)
  have hcast : (d.year.toNat : Int) = d.year := Int.toNat_of_nonneg hyear.1
  unfold Reads lenientDate
  rw [Date.toList_text, toList_yearText hyear]
  simp only [List.append_assoc]
  rw [(reads_lenientYear (numeral_padded 4 _) hwidth _).bind_eq,
    month_day_bind readsTwo_lenientField hd, hcast, date?_eq hyear hd]
  rfl

/-- A date in a year with a sign is read up to its day, whatever becomes of it then. -/
theorem lenientDate_sign (hyear : ¬(0 ≤ d.year ∧ d.year ≤ 9999)) (hd : d.Exists)
    (rest : List Char) :
    lenientDate (d.text.toList ++ rest) = (date? d.year d.month d.day).map fun d => (d, rest) := by
  have hsign : (if decide (d.year < 0) = true then -(d.year.natAbs : Int) else d.year.natAbs) =
      d.year := by
    by_cases hneg : d.year < 0
    · rw [if_pos (decide_eq_true hneg)]
      omega
    · rw [if_neg (by simpa using hneg)]
      omega
  have hstops : ∀ cs, Stops (['-'] ++ cs) := by
    intro cs c cs' hc
    cases hc
    rfl
  unfold lenientDate
  rw [Date.toList_text, toList_yearText_sign hyear]
  simp only [List.append_assoc]
  rw [(reads_lenientYear_sign _ (numeral_padded 4 _) (padded_ne_nil 4 _) (hstops _)).bind_eq,
    month_day_bind readsTwo_lenientField hd, hsign]
  cases date? d.year d.month d.day <;> rfl

/-! ### Forms -/

theorem stops_nil : Stops [] := nofun

theorem whole_eq_some {scan : Scan α} {text : List Char} {x : α} (h : scan text = some (x, [])) :
    whole scan text = some x := by
  unfold whole
  rw [h]

theorem whole_eq_none {scan : Scan α} {text : List Char} (h : scan text = none) :
    whole scan text = none := by
  unfold whole
  rw [h]

theorem ofText?_eq (text : String) : ofText? text =
    ((whole zoned text.toList).or (whole dateTime text.toList)).or
      (whole dateOnly text.toList) := by
  unfold ofText?
  simp only [Option.orElse_eq_orElse, Option.orElse_eq_or]

/-- A date and a time in front of a zone are read by the form that asks for one. -/
theorem zoned_append {separator : Char} (hyear : 0 ≤ d.year ∧ d.year ≤ 9999) (hd : d.Exists)
    (hseparator : separator ∈ ['T', 't', ' ']) (ht : time.Valid) (hstops : Stops rest)
    (hpoint : ∀ cs, rest ≠ '.' :: cs) :
    zoned (d.text.toList ++ ([separator] ++ (time.text.toList ++ rest))) =
      (zone rest).map fun p =>
        (Instant.ofDateTime d (time.secondOfDay - p.1) time.nano, p.2) := by
  have hcast : (d.year.toNat : Int) = d.year := Int.toNat_of_nonneg hyear.1
  unfold zoned
  rw [fixedDate_bind hyear hd, (reads_oneOf hseparator _).bind_eq,
    time_bind readsTwo_fixedNumber ht hstops hpoint, hcast, date?_eq hyear hd, ht.timeOfDay?_eq,
    bind_apply]
  cases zone rest <;> rfl

/-- A date and a time with a zone stand for the instant that they name. -/
theorem ofText?_zoned {w : ZonedTime} (h : w.Valid) : ofText? w.text = some w.instant := by
  obtain ⟨hstops, hpoint⟩ := zone_stops h.zone
  have hzone : zone w.zone.text.toList = some (w.zone.seconds, []) := by
    have hread := reads_zone h.zone []
    unfold Reads at hread
    rw [List.append_nil] at hread
    exact hread
  have hzoned : zoned w.text.toList = some (w.instant, []) := by
    rw [ZonedTime.toList_text, zoned_append h.year h.date h.separator h.time hstops hpoint, hzone]
    rfl
  rw [ofText?_eq, whole_eq_some hzoned, Option.some_or, Option.some_or]

/-- A date and a time without a zone stand for the instant that they name in UTC. -/
theorem ofText?_dateTime (hyear : 0 ≤ d.year ∧ d.year ≤ 9999) (hd : d.Exists) (ht : time.Valid) :
    ofText? (d.text ++ " " ++ time.text) =
      some (Instant.ofDateTime d time.secondOfDay time.nano) := by
  have htext : (d.text ++ " " ++ time.text).toList =
      d.text.toList ++ ([' '] ++ (time.text.toList ++ [])) := by
    rw [String.toList_append, String.toList_append, List.append_assoc, List.append_nil]
    rfl
  -- a blank would do between date and time, but there is no zone
  have hzoned : zoned (d.text.toList ++ ([' '] ++ (time.text.toList ++ []))) = none :=
    zoned_append hyear hd (by decide) ht stops_nil nofun
  have hdateTime : dateTime (d.text.toList ++ ([' '] ++ (time.text.toList ++ []))) =
      some (Instant.ofDateTime d time.secondOfDay time.nano, []) := by
    unfold dateTime
    rw [(reads_lenientDate hyear hd _).bind_eq, List.singleton_append,
      lenientField_blank (by decide), time_bind readsTwo_lenientField ht stops_nil nofun,
      ht.timeOfDay?_eq]
    rfl
  rw [ofText?_eq, htext, whole_eq_none hzoned, Option.none_or, whole_eq_some hdateTime,
    Option.some_or]

/-- A date alone stands for its midnight in UTC. -/
theorem ofText?_date (hyear : 0 ≤ d.year ∧ d.year ≤ 9999) (hd : d.Exists) :
    ofText? d.text = some (Instant.ofDateTime d 0 0) := by
  have hzoned : zoned (d.text.toList ++ []) = none := by
    unfold zoned
    rw [fixedDate_bind hyear hd]
    rfl
  have hdateTime : dateTime (d.text.toList ++ []) = none := by
    unfold dateTime
    rw [(reads_lenientDate hyear hd []).bind_eq]
    rfl
  have hdateOnly : dateOnly (d.text.toList ++ []) = some (Instant.ofDateTime d 0 0, []) := by
    unfold dateOnly
    rw [(reads_lenientDate hyear hd []).bind_eq]
    rfl
  rw [List.append_nil] at hzoned hdateTime hdateOnly
  rw [ofText?_eq, whole_eq_none hzoned, whole_eq_none hdateTime, whole_eq_some hdateOnly,
    Option.none_or, Option.none_or]

/-- No form reads a date in a year with a sign and a time after the letter `T`. -/
theorem ofText?_sign {w : ZonedTime} (hyear : ¬(0 ≤ w.date.year ∧ w.date.year ≤ 9999))
    (hd : w.date.Exists) (hseparator : w.separator = 'T') : ofText? w.text = none := by
  have hzoned : zoned w.text.toList = none := by
    have hsign : ∀ (negative : Bool) text,
        zoned ((if negative then '-' else '+') :: text) = none := by
      intro negative text
      cases negative <;> rfl
    rw [ZonedTime.toList_text, Date.toList_text, toList_yearText_sign hyear, List.append_assoc,
      List.cons_append, hsign]
  -- if its year can be represented the date is read, and the letter stops both other forms
  have hdate : ∀ g : Date → Scan Instant, (lenientDate >>= g) w.text.toList =
      (date? w.date.year w.date.month w.date.day).bind fun d =>
        g d ('T' :: (w.time.text.toList ++ w.zone.text.toList)) := by
    intro g
    rw [ZonedTime.toList_text, bind_apply, lenientDate_sign hyear hd, hseparator, Option.bind_map,
      List.singleton_append]
    rfl
  have hdateTime : dateTime w.text.toList = none := by
    unfold dateTime
    rw [hdate]
    simp only [bind_apply, lenientField_letter, Option.bind_none, Option.bind_fun_none]
  have hdateOnly : whole dateOnly w.text.toList = none := by
    unfold whole dateOnly
    rw [hdate]
    cases date? w.date.year w.date.month w.date.day <;> rfl
  rw [ofText?_eq, whole_eq_none hzoned, whole_eq_none hdateTime, hdateOnly, Option.none_or,
    Option.none_or]

end Timestamp

end Time

end ObjectGraph
