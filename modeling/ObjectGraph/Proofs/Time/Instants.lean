import ObjectGraph.Proofs.Time.Calendar
import ObjectGraph.Time.Instant

/-! # Instants that can be represented

The year of an instant has bounds, and so has its count of nanoseconds (`Instant.Representable`).
The days of these years are an interval (`Date.isValid_iff_mem`), so that an instant is
representable by its second, and its milliseconds fit a signed word
(`Instant.Representable.millis_mem`).

Clocks in whole minutes from UTC show a leap second as the last of a minute (`Instant.OnClock`).
Every count of milliseconds within the bounds is one of such an instant
(`Instant.onClock_of_ofMillis?`). -/

namespace ObjectGraph

namespace Time

namespace Date

/-- The first day that can be represented, and the first one after the last. -/
def dayBounds : Int × Int := (-96465292, 95026237)

theorem isValid_iff_mem (n : Int) :
    (ofDayNumber n).isValid = true ↔ dayBounds.1 ≤ n ∧ n < dayBounds.2 := by
  have hexists := ofDayNumber_exists n
  have hmem := hexists.dayNumber_mem
  rw [dayNumber_ofDayNumber] at hmem
  have hfirst : marchStart (yearBounds.1 - 1) + 306 = dayBounds.1 := by decide
  have hlast : marchStart yearBounds.2 + 306 = dayBounds.2 := by decide
  rw [isValid_iff, ← hfirst, ← hlast]
  constructor
  · rintro ⟨⟨hlow, hhigh⟩, -⟩
    have hstart : marchStart (yearBounds.1 - 1) ≤ marchStart ((ofDayNumber n).year - 1) :=
      marchStart_mono (by omega)
    have hend : marchStart (ofDayNumber n).year ≤ marchStart yearBounds.2 := marchStart_mono hhigh
    omega
  · rintro ⟨hlow, hhigh⟩
    refine ⟨⟨?_, ?_⟩, hexists⟩
    · by_contra hlt
      have hend : marchStart (ofDayNumber n).year ≤ marchStart (yearBounds.1 - 1) :=
        marchStart_mono (by omega)
      omega
    · by_contra hlt
      have hstart : marchStart yearBounds.2 ≤ marchStart ((ofDayNumber n).year - 1) :=
        marchStart_mono (by omega)
      omega

/-- The numbers of valid dates are within the bounds. -/
theorem dayNumber_mem_bounds {d : Date} (h : d.isValid = true) :
    dayBounds.1 ≤ d.dayNumber ∧ d.dayNumber < dayBounds.2 := by
  have hfirst : marchStart (yearBounds.1 - 1) + 306 = dayBounds.1 := by decide
  have hlast : marchStart yearBounds.2 + 306 = dayBounds.2 := by decide
  obtain ⟨⟨hlow, hhigh⟩, hexists⟩ := isValid_iff.1 h
  have hmem := hexists.dayNumber_mem
  have hstart : marchStart (yearBounds.1 - 1) ≤ marchStart (d.year - 1) :=
    marchStart_mono (by omega)
  have hend : marchStart d.year ≤ marchStart yearBounds.2 := marchStart_mono hhigh
  omega

end Date

namespace Instant

/-- The year can be represented, and the nanoseconds are those of a second or of a leap second. -/
structure Representable (t : Instant) : Prop where
  date : (Date.ofDayNumber (t.second / 86400)).isValid = true
  nano_lt : t.nano < 2000000000

instance (t : Instant) : Decidable t.Representable :=
  decidable_of_iff ((Date.ofDayNumber (t.second / 86400)).isValid = true ∧ t.nano < 2000000000)
    ⟨fun h => ⟨h.1, h.2⟩, fun h => ⟨h.date, h.nano_lt⟩⟩

/-- A representable instant that is in a leap second only at the end of a minute. -/
structure OnClock (t : Instant) : Prop extends Representable t where
  leap : 1000000000 ≤ t.nano → t.second % 60 = 59

/-- The milliseconds are those of all nanoseconds since the epoch, rounded down. -/
theorem millis_eq (t : Instant) : t.millis = (t.second * 1000000000 + t.nano) / 1000000 := by
  unfold millis
  omega

theorem Representable.millis_mem {t : Instant} (h : t.Representable) :
    millisBounds.1 ≤ t.millis ∧ t.millis ≤ millisBounds.2 + 1000 := by
  have hday := (Date.isValid_iff_mem _).1 h.date
  have hnano := h.nano_lt
  unfold Date.dayBounds at hday
  unfold millis millisBounds
  dsimp only at hday ⊢
  omega

theorem onClock_of_ofMillis? {n : Int} {t : Instant} (h : ofMillis? n = some t) :
    t.OnClock := by
  unfold ofMillis? at h
  split at h
  · next hmem =>
    cases h
    unfold millisBounds at hmem
    dsimp only at hmem
    refine ⟨⟨(Date.isValid_iff_mem _).2 ?_, ?_⟩, ?_⟩
    · unfold Date.dayBounds
      dsimp only
      omega
    · dsimp only
      omega
    · dsimp only
      omega
  · cases h

end Instant

end Time

end ObjectGraph
