import ObjectGraph.Paging.Cursor
import ObjectGraph.Proofs.Time.StoredForms
import ObjectGraph.Proofs.Transform.Redaction

/-! # Dates

`toDate` answers a stored timestamp as text with milliseconds.  In the years from 0 to 9999 that
text is a stored timestamp of the same milliseconds, which `toDate` leaves as it is, so that
stacking it changes nothing; beyond them the printed year has a sign, and no form reads the text
(`toDate_answer`).

The forms in which a column can hold an instant are all answered with one text, and objects that
differ in the form alone have one cursor (`forms_agree`). -/

namespace ObjectGraph

open Time (Instant StoredForm)
open Time.Timestamp (ofJson?)

namespace Builtin

variable {caller : Caller} {parent : Object} {v : Json} {t : Instant}

theorem toDate_apply (v : Json) : toDate.apply v caller parent = Session.ofExcept
    (coerce "timestamp" (fun v => (ofJson? v).map fun t => .str t.text) v) := rfl

theorem toDate_some (h : ofJson? v = some t) :
    toDate.apply v caller parent = pure (.str t.text) := by
  have hnull : v.isNull = false := by
    cases v with
    | null => cases h
    | _ => rfl
  rw [toDate_apply, coerce, hnull, h]
  rfl

theorem toDate_none (h : ofJson? v = none) (hv : v ≠ .null) :
    toDate.apply v caller parent = Session.ofExcept (.error (.unexpectedValue "timestamp" v)) := by
  have hnull : v.isNull = false := by
    cases v with
    | null => exact absurd rfl hv
    | _ => rfl
  rw [toDate_apply, coerce, hnull, h]
  rfl

/-- A value that is answered as it is stays so however often the transform is stacked. -/
theorem applyAll_replicate {b : Builtin} (h : b.apply v caller parent = pure v) (k : Nat) :
    applyAll caller parent (List.replicate k b) v = pure v := by
  induction k with
  | zero => rfl
  | succ k ih => rw [List.replicate_succ, applyAll, h, pure_bind, ih]

end Builtin

namespace Transform

open Builtin (applyAll)

/-- What `toDate` answers for a stored timestamp is the text of its instant.  If the year has four
digits, that is a stored timestamp of the same milliseconds, and any stack of `toDate` answers it
again; otherwise it is none, and `toDate` fails on it. -/
theorem toDate_answer {caller : Caller} {parent : Object} {storage : Storage}
    {log log' : List Sql.Statement} {v out : Json}
    (hok : (Transform.builtin .toDate).apply v caller parent storage log = (.ok out, log')) :
    (v = .null ∧ out = .null) ∨ ∃ t : Instant, ofJson? v = some t ∧ out = .str t.text ∧
      (0 ≤ t.date.year ∧ t.date.year ≤ 9999 →
        (∃ t' : Instant, ofJson? out = some t' ∧ t'.millis = t.millis ∧ t'.text = t.text) ∧
        ∀ (stack : Transform) (k : Nat), stack.builtins? = some (List.replicate k .toDate) →
          stack.apply out caller parent storage log = (.ok out, log)) ∧
      (¬(0 ≤ t.date.year ∧ t.date.year ≤ 9999) →
        ofJson? out = none ∧ (Transform.builtin .toDate).apply out caller parent storage log =
          (.error (.unexpectedValue "timestamp" out), log)) := by
  have happly : (Transform.builtin .toDate).apply v caller parent =
      Builtin.toDate.apply v caller parent := rfl
  rw [happly] at hok
  by_cases hv : v = .null
  · subst hv
    rw [Builtin.apply_null (by decide)] at hok
    cases hok
    exact .inl ⟨rfl, rfl⟩
  right
  cases ht : ofJson? v with
  | none =>
    rw [Builtin.toDate_none ht hv] at hok
    cases hok
  | some t =>
    have hclock := Time.Timestamp.ofJson?_onClock ht
    rw [Builtin.toDate_some ht] at hok
    cases hok
    refine ⟨t, rfl, rfl, fun hyear => ?_, fun hyear => ?_⟩
    · have hread : ofJson? (.str t.text) = some t.rounded := hclock.ofText?_text hyear
      have hagain : Builtin.toDate.apply (.str t.text) caller parent = pure (.str t.text) := by
        rw [Builtin.toDate_some hread, t.text_rounded]
      refine ⟨⟨t.rounded, hread, t.millis_rounded, t.text_rounded⟩, fun stack k hstack => ?_⟩
      rw [apply_eq_applyAll hstack, Builtin.applyAll_replicate hagain]
      rfl
    · have hread : ofJson? (.str t.text) = none := Instant.ofText?_text_sign hyear
      refine ⟨hread, ?_⟩
      change Builtin.toDate.apply (.str t.text) caller parent storage log = _
      rw [Builtin.toDate_none hread Json.noConfusion]
      rfl

/-- The first instant of the year 10000 is answered as a text that is no timestamp, unlike the leap
second at the end of 2016. -/
theorem toDate_answer_last_years :
    let toDate := Transform.builtin .toDate
    let storage := Storage.scripted .sqlite []
    let signed : Json := .str "+10000-01-01T00:00:00.000Z"
    let leap : Json := .str "2016-12-31T23:59:60.500Z"
    toDate.apply (.num (.int 253402300800000)) {} [] storage [] = (.ok signed, []) ∧
      toDate.apply signed {} [] storage [] =
        (.error (.unexpectedValue "timestamp" signed), []) ∧
      toDate.apply (.str "2017-01-01 00:59:60.5+01:00") {} [] storage [] = (.ok leap, []) ∧
      toDate.apply leap {} [] storage [] = (.ok leap, []) := by
  intro toDate storage signed leap
  have hsigned : toDate.apply (.num (.int 253402300800000)) {} [] storage [] =
      (.ok signed, []) := rfl
  have hleap : toDate.apply (.str "2017-01-01 00:59:60.5+01:00") {} [] storage [] =
      (.ok leap, []) := rfl
  refine ⟨hsigned, ?_, hleap, ?_⟩
  · obtain ⟨hnull, -⟩ | ⟨t, ht, -, -, hsign⟩ := toDate_answer hsigned
    · cases hnull
    · have hread : ofJson? (.num (.int 253402300800000)) = some ⟨253402300800, 0⟩ := by decide
      rw [hread] at ht
      cases ht
      exact (hsign (by decide)).2
  · obtain ⟨hnull, -⟩ | ⟨t, ht, -, hyear, -⟩ := toDate_answer hleap
    · cases hnull
    · have hread : ofJson? (.str "2017-01-01 00:59:60.5+01:00") =
          some ⟨1483228799, 1500000000⟩ := by decide
      rw [hread] at ht
      cases ht
      exact (hyear (by decide)).2 toDate 1 rfl

/-- All forms of one instant whose year has four digits are read as that instant, answered with its
text, and give an object its cursor. -/
theorem forms_agree {n : Int}
    (hyear : 0 ≤ (Instant.ofMillis n).date.year ∧ (Instant.ofMillis n).date.year ≤ 9999) :
    ∃ t : Instant, t.millis = n ∧ ∀ v, StoredForm n v →
      ofJson? v = some t ∧
      (∀ (caller : Caller) (parent : Object), (Transform.builtin .toDate).apply v caller parent =
        pure (.str t.text)) ∧
      ∀ (column : String) (o : Object), o.get? column = some v →
        Cursor.byTime column o = some (Cursor.ofInstant t) := by
  refine ⟨Instant.ofMillis n, Instant.millis_ofMillis n, fun v hv => ?_⟩
  have hread := hv.ofJson?_eq hyear
  refine ⟨hread, fun caller parent => Builtin.toDate_some hread, fun column o ho => ?_⟩
  rw [Cursor.byTime, ho, Option.bind_some, hread]
  rfl

/-- Midnight of a leap day in UTC, as a number, as a date and on the evening before at `-05:00`. -/
theorem forms_agree_leap_day :
    let n : Int := 1709164800000
    let w : Time.ZonedTime := ⟨⟨2024, 2, 28⟩, 'T', ⟨19, 0, 0, ['0']⟩, .offset '-' 5 0⟩
    (0 ≤ (Instant.ofMillis n).date.year ∧ (Instant.ofMillis n).date.year ≤ 9999) ∧
      w.text = "2024-02-28T19:00:00.0-05:00" ∧ StoredForm n (.str w.text) ∧
      StoredForm n (.str "2024-02-29") ∧ ofJson? (.str w.text) = ofJson? (.num (.int n)) ∧
      Cursor.byTime "at" [("at", .str "2024-02-29")] =
        Cursor.byTime "at" [("at", .str w.text)] := by
  intro n w
  have hyear : 0 ≤ (Instant.ofMillis n).date.year ∧ (Instant.ofMillis n).date.year ≤ 9999 := by
    decide
  have hfraction : ∀ c ∈ w.time.fraction, c.isDigit = true := by
    intro c hc
    rw [List.mem_singleton.1 hc]
    rfl
  have hvalid : w.Valid :=
    ⟨by decide, ⟨by decide, by decide, by decide, by decide⟩, by decide,
      ⟨by decide, by decide, by decide, hfraction⟩, by decide⟩
  have hzoned : StoredForm n (.str w.text) := .zoned w hvalid ⟨by decide, by decide⟩
  have hdate : StoredForm n (.str "2024-02-29") := by
    have htext : (Instant.ofMillis n).date.text = "2024-02-29" := by decide
    rw [← htext]
    exact .date rfl
  obtain ⟨t, -, hforms⟩ := forms_agree hyear
  obtain ⟨hread, -, hcursor⟩ := hforms (.str w.text) hzoned
  refine ⟨hyear, by decide, hzoned, hdate, ?_, ?_⟩
  · rw [hread, (hforms (.num (.int n)) .millis).1]
  · rw [hcursor "at" [("at", .str w.text)] rfl, (hforms _ hdate).2.2 "at" [("at", _)] rfl]

end Transform

end ObjectGraph
