import Mathlib.Data.List.Induction
import ObjectGraph.Proofs.Time.Scans

/-! # What readings give

A predicate holds of all that a reading can give if the readings it is put together from keep it
(`Yields.bind`): a fraction is less than a second, an offset is whole minutes and less than a day, a
date exists.  So every stored timestamp stands for an instant that a clock in UTC shows
(`ofJson?_onClock`), whichever of its forms it has. -/

namespace ObjectGraph

namespace Time

theorem Instant.onClock_ofDateTime {date : Date} {second : Int} {nano : Nat}
    (hlow : Date.dayBounds.1 ≤ date.dayNumber + second / 86400)
    (hhigh : date.dayNumber + second / 86400 < Date.dayBounds.2) (hnano : nano < 2000000000)
    (hleap : 1000000000 ≤ nano → second % 60 = 59) :
    (Instant.ofDateTime date second nano).OnClock := by
  have hday : (date.dayNumber * 86400 + second) / 86400 = date.dayNumber + second / 86400 := by
    omega
  refine ⟨⟨?_, hnano⟩, fun h => ?_⟩
  · rw [Instant.ofDateTime, hday]
    exact (Date.isValid_iff_mem _).2 ⟨hlow, hhigh⟩
  · have := hleap h
    dsimp only [Instant.ofDateTime]
    omega

namespace Timestamp

variable {α β : Type} {P : α → Prop} {Q : β → Prop}

/-- All values that a reading can give have a property. -/
def Yields (scan : Scan α) (P : α → Prop) : Prop :=
  ∀ text x rest, scan text = some (x, rest) → P x

theorem yields_any (scan : Scan α) : Yields scan fun _ => True := fun _ _ _ _ => trivial

theorem yields_pure {x : α} (h : P x) : Yields (pure x) P := by
  intro text y rest hy
  cases hy
  exact h

theorem yields_lift {o : Option α} (h : ∀ x, o = some x → P x) : Yields (StateT.lift o) P := by
  intro text y rest hy
  cases o with
  | none => cases hy
  | some x =>
    cases hy
    exact h _ rfl

theorem yields_failure : Yields (failure : Scan α) P := by
  intro text y rest hy
  change none = some (y, rest) at hy
  cases hy

theorem Yields.bind {f : Scan α} {g : α → Scan β} (hf : Yields f P)
    (hg : ∀ x, P x → Yields (g x) Q) : Yields (f >>= g) Q := by
  intro text y rest hy
  rw [bind_apply] at hy
  obtain ⟨⟨x, rest'⟩, hx, hy⟩ := Option.bind_eq_some_iff.1 hy
  exact hg x (hf text x rest' hx) rest' y rest hy

/-- The value of a reading that is not looked at. -/
theorem Yields.skip {f : Scan α} {g : α → Scan β} (hg : ∀ x, Yields (g x) Q) :
    Yields (f >>= g) Q :=
  (yields_any f).bind fun x _ => hg x

theorem Yields.whole {scan : Scan α} (h : Yields scan P) {text : List Char} {x : α}
    (hx : whole scan text = some x) : P x := by
  unfold Timestamp.whole at hx
  split at hx
  · next y hy =>
    cases hx
    exact h text x [] hy
  · cases hx

/-! ### Numbers -/

theorem value_lt {ds : List Nat} (h : ∀ d ∈ ds, d < 10) : value ds < 10 ^ ds.length := by
  induction ds using List.reverseRecOn with
  | nil => decide
  | append_singleton ds d ih =>
    have hinit := ih fun e he => h e (List.mem_append_left _ he)
    have hlast := h d (List.mem_append_right _ List.mem_cons_self)
    have hvalue : value (ds ++ [d]) = value ds * 10 + d := by
      unfold value
      rw [List.foldl_append]
      rfl
    rw [hvalue, List.length_append, List.length_singleton, Nat.pow_succ]
    omega

theorem leadingDigits_lt (width : Nat) (text : List Char) :
    (∀ d ∈ leadingDigits width text, d < 10) ∧ (leadingDigits width text).length ≤ width := by
  constructor
  · intro d hd
    obtain ⟨c, -, hc⟩ := List.mem_filterMap.1 hd
    unfold digit? at hc
    split at hc
    · next hdigit =>
      cases hc
      have hnine : c.toNat ≤ 57 := hdigit.2
      have hzero : '0'.toNat = 48 := rfl
      omega
    · cases hc
  · refine (List.length_filterMap_le _ _).trans ?_
    exact ((List.takeWhile_prefix _).length_le).trans (List.length_take_le _ _)

theorem fixedNumber_yields (width : Nat) : Yields (fixedNumber width) (· < 10 ^ width) := by
  intro text n rest h
  unfold fixedNumber at h
  dsimp only at h
  split at h
  · next hlength =>
    cases h
    have hvalue := value_lt (leadingDigits_lt width text).1
    rw [hlength] at hvalue
    exact hvalue
  · cases h

/-- A fraction is less than a second. -/
theorem fraction_yields : Yields fraction (· < 1000000000) := by
  intro text n rest h
  unfold fraction at h
  split at h
  · next rest' =>
    dsimp only at h
    split at h
    · cases h
    · cases h
      obtain ⟨hdigits, hlength⟩ := leadingDigits_lt 9 rest'
      have hvalue := value_lt hdigits
      have hwhole : 10 ^ (leadingDigits 9 rest').length *
          10 ^ (9 - (leadingDigits 9 rest').length) = 10 ^ 9 := by
        rw [← Nat.pow_add, Nat.add_sub_cancel' hlength]
      calc value (leadingDigits 9 rest') * 10 ^ (9 - (leadingDigits 9 rest').length)
          < 10 ^ (leadingDigits 9 rest').length * 10 ^ (9 - (leadingDigits 9 rest').length) :=
            Nat.mul_lt_mul_of_pos_right hvalue (Nat.pow_pos (by decide))
        _ = 1000000000 := hwhole
  · cases h
    decide

/-- An offset is whole minutes and less than a day. -/
theorem zone_yields :
    Yields zone fun offset => offset % 60 = 0 ∧ -86400 < offset ∧ offset < 86400 := by
  unfold zone
  refine .skip fun sign => ?_
  split
  · exact yields_pure (by decide)
  · refine .skip fun hours => .skip fun _ => .skip fun minutes => ?_
    split
    · next h =>
      refine yields_pure ?_
      split <;> omega
    · exact yields_failure

/-- A second of the day and its nanoseconds, those of a leap second only at the end of a minute. -/
theorem timeOfDay?_yields {nano : Nat} (hour minute second : Nat) (hnano : nano < 1000000000) :
    Yields (StateT.lift (timeOfDay? hour minute second nano)) fun time =>
      0 ≤ time.1 ∧ time.1 < 86400 ∧ time.2 < 2000000000 ∧
        (1000000000 ≤ time.2 → time.1 % 60 = 59) := by
  refine yields_lift fun time h => ?_
  unfold timeOfDay? at h
  split at h
  · split at h <;> cases h <;> omega
  · cases h

theorem date?_spec {year : Int} {month day : Nat} {date : Date}
    (h : date? year month day = some date) : date.isValid = true ∧ date.year = year := by
  unfold date? at h
  dsimp only at h
  split at h
  · next hvalid =>
    cases h
    exact ⟨hvalid, rfl⟩
  · cases h

/-! ### Forms -/

theorem zoned_yields : Yields zoned Instant.OnClock := by
  unfold zoned
  refine (fixedNumber_yields 4).bind fun year hyear => ?_
  refine .skip fun _ => .skip fun month => .skip fun _ => .skip fun day => .skip fun _ =>
    .skip fun hour => .skip fun _ => .skip fun minute => .skip fun _ => .skip fun second => ?_
  refine fraction_yields.bind fun nano hnano => zone_yields.bind fun offset hoffset => ?_
  refine (yields_lift fun date => date?_spec).bind fun date hdate => ?_
  refine (timeOfDay?_yields hour minute second hnano).bind fun time htime => yields_pure ?_
  -- an offset moves an instant by less than a day, and the years of four digits are far from ends
  obtain ⟨hvalid, hsame⟩ := hdate
  have hmem := (Date.isValid_iff.1 hvalid).2.dayNumber_mem
  have hfirst : marchStart (-1) ≤ marchStart (date.year - 1) := marchStart_mono (by omega)
  have hlast : marchStart date.year ≤ marchStart 9999 := marchStart_mono (by omega)
  have hfirst' : marchStart (-1) = -719834 := by decide
  have hlast' : marchStart 9999 = 2932591 := by decide
  refine Instant.onClock_ofDateTime ?_ ?_ htime.2.2.1 fun h => ?_
  · unfold Date.dayBounds
    dsimp only
    omega
  · unfold Date.dayBounds
    dsimp only
    omega
  · have := htime.2.2.2 h
    omega

theorem lenientDate_yields : Yields lenientDate fun date => date.isValid = true := by
  unfold lenientDate
  exact .skip fun year => .skip fun _ => .skip fun month => .skip fun _ => .skip fun day =>
    yields_lift fun date h => (date?_spec h).1

theorem onClock_of_isValid {date : Date} {second : Int} {nano : Nat}
    (hdate : date.isValid = true) (hlow : 0 ≤ second) (hhigh : second < 86400)
    (hnano : nano < 2000000000) (hleap : 1000000000 ≤ nano → second % 60 = 59) :
    (Instant.ofDateTime date second nano).OnClock := by
  have hbounds := Date.dayNumber_mem_bounds hdate
  have hzero : second / 86400 = 0 := by omega
  refine Instant.onClock_ofDateTime ?_ ?_ hnano hleap
  · rw [hzero, Int.add_zero]
    exact hbounds.1
  · rw [hzero, Int.add_zero]
    exact hbounds.2

theorem dateTime_yields : Yields dateTime Instant.OnClock := by
  unfold dateTime
  refine lenientDate_yields.bind fun date hdate => ?_
  refine .skip fun hour => .skip fun _ => .skip fun minute => .skip fun _ => .skip fun second => ?_
  refine fraction_yields.bind fun nano hnano => ?_
  refine (timeOfDay?_yields hour minute second hnano).bind fun time htime => yields_pure ?_
  exact onClock_of_isValid hdate htime.1 htime.2.1 htime.2.2.1 htime.2.2.2

theorem dateOnly_yields : Yields dateOnly Instant.OnClock := by
  unfold dateOnly
  exact lenientDate_yields.bind fun date hdate =>
    yields_pure (onClock_of_isValid hdate (by decide) (by decide) (by decide) (by decide))

theorem ofText?_onClock {text : String} {t : Instant} (h : ofText? text = some t) : t.OnClock := by
  unfold ofText? at h
  simp only [Option.orElse_eq_orElse, Option.orElse_eq_or, Option.or_eq_some_iff] at h
  obtain (h | ⟨-, h⟩) | ⟨-, h⟩ := h
  · exact zoned_yields.whole h
  · exact dateTime_yields.whole h
  · exact dateOnly_yields.whole h

/-- A stored timestamp stands for an instant that a clock in UTC shows. -/
theorem ofJson?_onClock {v : Json} {t : Instant} (h : ofJson? v = some t) : t.OnClock := by
  unfold ofJson? at h
  split at h
  · split at h
    · exact Instant.onClock_of_ofMillis? h
    · cases h
  · exact ofText?_onClock h
  · cases h

end Timestamp

end Time

end ObjectGraph
