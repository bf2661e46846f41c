import ObjectGraph.Proofs.Time.Readings
import ObjectGraph.Proofs.Time.Written

/-! # Printed and stored instants

An instant is printed as a date and a time of day with the zone `Z` (`Instant.text_eq`).  If its
year has four digits the text is read back as the instant rounded down to a millisecond
(`Instant.OnClock.ofText?_text`), and otherwise not at all (`Instant.ofText?_text_sign`).

A column holds an instant as epoch milliseconds, as a date and a time in UTC, as a date alone or as
a date and a time in any zone (`StoredForm`).  All of these are read as the same instant
(`StoredForm.ofJson?_eq`). -/

namespace ObjectGraph

namespace Time

open Text (Numeral)
open Instant (padded)

/-- A fraction of whole milliseconds, however many digits it has. -/
theorem Timestamp.nanos_eq {ds : List Char} {f ms : Nat} (h : Numeral ds f)
    (hms : f * 1000 = ms * 10 ^ ds.length) : Timestamp.nanos ds = ms * 1000000 := by
  unfold Timestamp.nanos
  rcases Nat.le_total ds.length 9 with hle | hge
  · have hscale : 10 ^ ds.length * 10 ^ (9 - ds.length) = 10 ^ 9 := by
      rw [← Nat.pow_add, Nat.add_sub_cancel' hle]
    rw [List.take_of_length_le hle, h.value]
    refine Nat.eq_of_mul_eq_mul_right (by decide : 0 < 1000) ?_
    calc f * 10 ^ (9 - ds.length) * 1000
        = f * 1000 * 10 ^ (9 - ds.length) := Nat.mul_right_comm _ _ _
      _ = ms * (10 ^ ds.length * 10 ^ (9 - ds.length)) := by rw [hms, Nat.mul_assoc]
      _ = ms * 1000000 * 1000 := by rw [hscale, Nat.mul_assoc]
  · -- the digits that do not count are zeros, since the whole fraction is milliseconds
    have hlength : (ds.take 9).length = 9 := List.length_take_of_le hge
    have hdrop : (ds.drop 9).length = ds.length - 9 := List.length_drop
    have hwhole : ds.take 9 ++ ds.drop 9 = ds := List.take_append_drop 9 ds
    rw [← hwhole] at h
    have hlead := h.of_append
    rw [hdrop] at hlead
    have hscale : 10 ^ ds.length = 1000 * (1000000 * 10 ^ (ds.length - 9)) := by
      have hsum : ds.length = 3 + (6 + (ds.length - 9)) := by omega
      rw [← Nat.pow_add 10 6, ← Nat.pow_add 10 3, ← hsum]
    have hf : f = ms * 1000000 * 10 ^ (ds.length - 9) := by
      refine Nat.eq_of_mul_eq_mul_right (by decide : 0 < 1000) ?_
      rw [hms, hscale, Nat.mul_assoc ms, Nat.mul_comm 1000, Nat.mul_assoc ms]
    rw [hlead.value, hlength, hf, Nat.mul_div_cancel _ (Nat.pow_pos (by decide)), Nat.sub_self,
      Nat.pow_zero, Nat.mul_one]

/-! ### Printed instants -/

namespace Instant

/-- The date of an instant in UTC. -/
def date (t : Instant) : Date := Date.ofDayNumber (t.second / 86400)

/-- One in a leap second. -/
def leapSecond (t : Instant) : Nat := if 1000000000 ≤ t.nano then 1 else 0

/-- The millisecond of the second that a clock shows. -/
def milli (t : Instant) : Nat := (t.nano - t.leapSecond * 1000000000) / 1000000

/-- The time of day of an instant in UTC, with milliseconds. -/
def time (t : Instant) : TimeOfDay :=
  let secondOfDay := (t.second % 86400).toNat
  ⟨secondOfDay / 3600, secondOfDay / 60 % 60, secondOfDay % 60 + t.leapSecond,
    (padded 3 t.milli).toList⟩

/-- The instant as a time in UTC. -/
def zonedTime (t : Instant) : ZonedTime := ⟨t.date, 'T', t.time, .utc 'Z'⟩

/-- The instant rounded down to a millisecond. -/
def rounded (t : Instant) : Instant := ⟨t.second, t.nano / 1000000 * 1000000⟩

theorem fractionText_padded (width n : Nat) :
    String.ofList (Timestamp.fractionText (padded width n).toList) = "." ++ padded width n := by
  obtain ⟨c, cs, hcs⟩ := List.exists_cons_of_ne_nil (padded_ne_nil width n)
  rw [← String.toList_inj, String.toList_ofList, String.toList_append, hcs]
  rfl

theorem text_eq (t : Instant) : t.text = t.zonedTime.text := by
  have hseparator : String.singleton 'T' = "T" := by decide
  have hzone : String.singleton 'Z' = "Z" := by decide
  unfold text zonedTime ZonedTime.text Date.text TimeOfDay.text date time milli leapSecond Zone.text
  by_cases hleap : 1000000000 ≤ t.nano
  · simp only [if_pos hleap, Nat.one_mul, fractionText_padded, String.append_assoc, hseparator,
      hzone]
  · simp only [if_neg hleap, Nat.zero_mul, Nat.sub_zero, fractionText_padded, String.append_assoc,
      hseparator, hzone]

theorem millis_rounded (t : Instant) : t.rounded.millis = t.millis := by
  unfold rounded millis
  rw [Nat.mul_div_cancel _ (by decide)]

theorem leapSecond_rounded (t : Instant) : t.rounded.leapSecond = t.leapSecond := by
  unfold leapSecond rounded
  dsimp only
  split <;> split <;> omega

theorem milli_rounded (t : Instant) : t.rounded.milli = t.milli := by
  unfold milli
  rw [leapSecond_rounded]
  dsimp only [rounded]
  omega

theorem text_rounded (t : Instant) : t.rounded.text = t.text := by
  have hdate : t.rounded.date = t.date := rfl
  have htime : t.rounded.time = t.time := by
    unfold time
    rw [leapSecond_rounded, milli_rounded]
    rfl
  rw [text_eq, text_eq, zonedTime, zonedTime, hdate, htime]

section

variable {t : Instant}

theorem exists_date (t : Instant) : t.date.Exists := Date.ofDayNumber_exists _

theorem time_fraction (t : Instant) : t.time.fraction = (padded 3 t.milli).toList := by
  dsimp only [time]

theorem leapSecond_cases (h : t.OnClock) : t.leapSecond = 0 ∧ t.nano < 1000000000 ∨
    t.leapSecond = 1 ∧ 1000000000 ≤ t.nano ∧ t.second % 60 = 59 := by
  unfold leapSecond
  split
  · next hnano => exact .inr ⟨rfl, hnano, h.leap hnano⟩
  · exact .inl ⟨rfl, by omega⟩

/-- The fields that an instant is printed with are those of a clock. -/
theorem OnClock.time_valid (h : t.OnClock) : t.time.Valid := by
  have hleap := leapSecond_cases h
  constructor
  · dsimp only [time]
    omega
  · dsimp only [time]
    omega
  · dsimp only [time]
    omega
  · rw [time_fraction]
    exact (numeral_padded 3 t.milli).isDigit

theorem OnClock.secondOfDay_time (h : t.OnClock) : t.time.secondOfDay = t.second % 86400 := by
  have hleap := leapSecond_cases h
  unfold TimeOfDay.secondOfDay
  dsimp only [time]
  omega

/-- What is finer than a millisecond is not printed. -/
theorem OnClock.nano_time (h : t.OnClock) : t.time.nano = t.nano / 1000000 * 1000000 := by
  have hleap := leapSecond_cases h
  have hnano := h.nano_lt
  have hmilli : t.milli < 10 ^ 3 := by
    unfold milli
    omega
  have hfraction : Timestamp.nanos t.time.fraction = t.milli * 1000000 := by
    have hlength : (padded 3 t.milli).toList.length = 3 := length_padded (by decide) hmilli
    have hthousand : 10 ^ 3 = 1000 := by decide
    rw [time_fraction]
    exact Timestamp.nanos_eq (numeral_padded 3 t.milli) (by rw [hlength, hthousand])
  have hsecond : t.time.second = (t.second % 86400).toNat % 60 + t.leapSecond := rfl
  unfold TimeOfDay.nano
  rw [hfraction]
  unfold milli
  split <;> omega

theorem OnClock.ofDateTime_eq (h : t.OnClock) :
    ofDateTime t.date t.time.secondOfDay t.time.nano = t.rounded := by
  have hday : t.date.dayNumber = t.second / 86400 := Date.dayNumber_ofDayNumber _
  have hwhole : t.second / 86400 * 86400 + t.second % 86400 = t.second := by omega
  rw [ofDateTime, hday, h.secondOfDay_time, h.nano_time, hwhole]
  rfl

/-- A printed instant whose year has four digits is read as the instant to the millisecond. -/
theorem OnClock.ofText?_text (h : t.OnClock) (hyear : 0 ≤ t.date.year ∧ t.date.year ≤ 9999) :
    Timestamp.ofText? t.text = some t.rounded := by
  have hvalid : t.zonedTime.Valid :=
    ⟨hyear, exists_date t, List.mem_cons_self, h.time_valid, List.mem_cons_self⟩
  rw [text_eq, Timestamp.ofText?_zoned hvalid, ← h.ofDateTime_eq]
  unfold ZonedTime.instant
  exact congrArg (fun second => some (ofDateTime t.date second t.time.nano)) (Int.sub_zero _)

/-- A printed instant whose year has a sign is not read. -/
theorem ofText?_text_sign (hyear : ¬(0 ≤ t.date.year ∧ t.date.year ≤ 9999)) :
    Timestamp.ofText? t.text = none := by
  rw [text_eq]
  exact Timestamp.ofText?_sign hyear (exists_date t) rfl

/-! ### Milliseconds -/

/-- The instant of epoch milliseconds. -/
def ofMillis (n : Int) : Instant := ⟨n / 1000, (n % 1000).toNat * 1000000⟩

/-- An instant as a date and a time in UTC without a zone: `2023-11-14 22:13:20.000`. -/
def dateTimeText (t : Instant) : String := t.date.text ++ " " ++ t.time.text

example : (ofMillis 1700000000123).dateTimeText = "2023-11-14 22:13:20.123" := by decide

theorem millis_ofMillis (n : Int) : (ofMillis n).millis = n := by
  unfold millis ofMillis
  dsimp only
  omega

theorem rounded_ofMillis (n : Int) : (ofMillis n).rounded = ofMillis n := by
  unfold rounded ofMillis
  rw [Nat.mul_div_cancel _ (by decide)]

theorem onClock_ofMillis {n : Int}
    (hyear : 0 ≤ (ofMillis n).date.year ∧ (ofMillis n).date.year ≤ 9999) :
    (ofMillis n).OnClock := by
  have hnano : (ofMillis n).nano < 1000000000 := by
    dsimp only [ofMillis]
    omega
  exact ⟨⟨(exists_date _).isValid hyear, by omega⟩, fun h => by omega⟩

end

end Instant

/-! ### Forms of one instant -/

/-- A time in a zone is `n` milliseconds after the epoch: its second and the digits of its fraction
make that many.  Milliseconds count no leap seconds, so the time is in none. -/
structure ZonedTime.Denotes (w : ZonedTime) (n : Int) : Prop where
  second : w.time.second ≤ 59
  millis : ((w.date.dayNumber * 86400 + w.time.secondOfDay - w.zone.seconds) *
    10 ^ w.time.fraction.length + Nat.ofDigitChars 10 w.time.fraction 0) * 1000 =
      n * 10 ^ w.time.fraction.length

/-- What a column can hold for the instant `n` milliseconds after the epoch. -/
inductive StoredForm (n : Int) : Json → Prop
  | millis : StoredForm n (.num (.int n))
  | dateTime : StoredForm n (.str (Instant.ofMillis n).dateTimeText)
  | date (midnight : n % 86400000 = 0) : StoredForm n (.str (Instant.ofMillis n).date.text)
  | zoned (w : ZonedTime) (valid : w.Valid) (denotes : w.Denotes n) : StoredForm n (.str w.text)

/-- What is less than one of `scale` parts of a second makes up the milliseconds of a count. -/
theorem exists_milliseconds {seconds n : Int} {f scale : Nat} (hlt : f < scale)
    (h : (seconds * scale + f) * 1000 = n * scale) :
    ∃ ms : Nat, n = seconds * 1000 + ms ∧ ms < 1000 ∧ f * 1000 = ms * scale := by
  have hrest : (scale : Int) * (n - seconds * 1000) = f * 1000 := by grind
  have hnonneg : 0 ≤ n - seconds * 1000 := by
    refine Int.le_of_mul_le_mul_left (a := (scale : Int)) ?_ (by omega)
    rw [hrest, Int.mul_zero]
    omega
  have hless : n - seconds * 1000 < 1000 := by
    refine Int.lt_of_mul_lt_mul_left (a := (scale : Int)) ?_ (by omega)
    rw [hrest]
    omega
  obtain ⟨ms, hms⟩ := Int.eq_ofNat_of_zero_le hnonneg
  rw [hms] at hrest
  refine ⟨ms, by omega, by omega, ?_⟩
  have hcast : ((scale * ms : Nat) : Int) = ((f * 1000 : Nat) : Int) := by
    rw [Int.natCast_mul, Int.natCast_mul]
    exact hrest
  rw [Nat.mul_comm ms]
  exact (Int.ofNat.inj hcast).symm

theorem ZonedTime.Denotes.instant_eq {w : ZonedTime} {n : Int} (h : w.Denotes n) (hw : w.Valid) :
    w.instant = Instant.ofMillis n := by
  have hdigits : Numeral w.time.fraction (Nat.ofDigitChars 10 w.time.fraction 0) :=
    ⟨hw.time.fraction, rfl⟩
  have hscale : ((10 ^ w.time.fraction.length : Nat) : Int) = 10 ^ w.time.fraction.length :=
    Int.natCast_pow 10 _
  have hmillis := h.millis
  rw [← hscale] at hmillis
  obtain ⟨ms, hn, hms, hf⟩ := exists_milliseconds hdigits.lt_pow hmillis
  have hnano : w.time.nano = ms * 1000000 := by
    have hsecond := h.second
    unfold TimeOfDay.nano
    rw [Timestamp.nanos_eq hdigits hf, if_neg (by omega), Nat.add_zero]
  unfold ZonedTime.instant Instant.ofDateTime Instant.ofMillis
  rw [hnano, Instant.mk.injEq]
  omega

theorem StoredForm.ofJson?_eq {n : Int} {v : Json} (h : StoredForm n v)
    (hyear : 0 ≤ (Instant.ofMillis n).date.year ∧ (Instant.ofMillis n).date.year ≤ 9999) :
    Timestamp.ofJson? v = some (Instant.ofMillis n) := by
  have hclock := Instant.onClock_ofMillis hyear
  have hexists := Instant.exists_date (Instant.ofMillis n)
  cases h with
  | millis =>
    have hday := (Date.isValid_iff_mem _).1 hclock.date
    unfold Date.dayBounds Instant.ofMillis at hday
    dsimp only at hday
    have hword : -2 ^ 63 ≤ n ∧ n < 2 ^ 63 := by omega
    have hbounds : Instant.millisBounds.1 ≤ n ∧ n ≤ Instant.millisBounds.2 := by
      unfold Instant.millisBounds
      dsimp only
      omega
    unfold Timestamp.ofJson? Instant.ofMillis?
    dsimp only
    rw [if_pos hword, if_pos hbounds]
    rfl
  | dateTime =>
    change Timestamp.ofText? _ = _
    rw [Instant.dateTimeText, Timestamp.ofText?_dateTime hyear hexists hclock.time_valid,
      hclock.ofDateTime_eq, Instant.rounded_ofMillis]
  | date midnight =>
    have hmidnight : Instant.ofDateTime (Instant.ofMillis n).date 0 0 = Instant.ofMillis n := by
      rw [Instant.ofDateTime, Instant.date, Date.dayNumber_ofDayNumber]
      unfold Instant.ofMillis
      rw [Instant.mk.injEq]
      dsimp only
      omega
    change Timestamp.ofText? _ = _
    rw [Timestamp.ofText?_date hyear hexists, hmidnight]
  | zoned w valid denotes =>
    change Timestamp.ofText? _ = _
    rw [Timestamp.ofText?_zoned valid, denotes.instant_eq valid]

end Time

end ObjectGraph
