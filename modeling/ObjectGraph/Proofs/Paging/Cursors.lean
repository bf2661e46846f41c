import ObjectGraph.Paging.Cursor
import ObjectGraph.Proofs.Text.Base64
import ObjectGraph.Proofs.Text.Numerals
import ObjectGraph.Proofs.Text.Utf8
import ObjectGraph.Proofs.Time.Readings

/-! # Time cursors

A time cursor goes through four layers: decimal digits with a sign, a prefix, UTF-8 and Base64.
Each is undone by its reader, so the cursor of milliseconds within a signed word decodes to them
(`millis?_ofMillis`), the cursor of an object to those of its timestamp (`millis?_byTime`), and
cursors tell instants apart by their milliseconds alone (`cursor_decodes`). -/

namespace ObjectGraph

namespace Cursor

theorem dropPrefix?_append (start text : List Char) :
    dropPrefix? start (start ++ text) = some text := by
  induction start with
  | nil => rfl
  | cons c start ih => rw [List.cons_append, dropPrefix?, if_pos rfl, ih]

/-- Milliseconds that fit a signed word are read back from their cursor. -/
theorem millis?_ofMillis {n : Int} (hlow : -2 ^ 63 ≤ n) (hhigh : n < 2 ^ 63) :
    millis? (ofMillis n) = some n := by
  have hread : Text.readInt (2 ^ 63 - 1) (toString n).toList = .ok n :=
    Text.readInt_toString (by omega) (by omega)
  unfold millis? ofMillis
  simp only [Text.Base64.decode?_encode, Text.Utf8.decode?_encode, String.toList_append,
    Option.bind_eq_bind, Option.bind_some, dropPrefix?_append, hread]
  rfl

/-- The milliseconds of an instant that can be represented fit a signed word. -/
theorem millis?_ofInstant {t : Time.Instant} (h : t.Representable) :
    millis? (ofInstant t) = some t.millis := by
  have hmem := h.millis_mem
  unfold Time.Instant.millisBounds at hmem
  dsimp only at hmem
  exact millis?_ofMillis (by omega) (by omega)

/-- The cursor of an object decodes to the milliseconds of the timestamp in its column. -/
theorem millis?_byTime {column cursor : String} {o : Object} (h : byTime column o = some cursor) :
    ∃ v t, o.get? column = some v ∧ Time.Timestamp.ofJson? v = some t ∧
      millis? cursor = some t.millis := by
  obtain ⟨t, ht, rfl⟩ := Option.map_eq_some_iff.1 h
  obtain ⟨v, hv, ht⟩ := Option.bind_eq_some_iff.1 ht
  exact ⟨v, t, hv, ht, millis?_ofInstant (Time.Timestamp.ofJson?_onClock ht).toRepresentable⟩

/-- The cursor of an instant decodes to its epoch milliseconds, those of its nanoseconds rounded
down; so two instants have one cursor exactly if they have the same milliseconds. -/
theorem cursor_decodes {t t' : Time.Instant} (h : t.Representable) (h' : t'.Representable) :
    millis? (ofInstant t) = some t.millis ∧
      t.millis = (t.second * 1000000000 + t.nano) / 1000000 ∧
      (ofInstant t = ofInstant t' ↔ t.millis = t'.millis) := by
  refine ⟨millis?_ofInstant h, t.millis_eq, ?_, ?_⟩
  · intro hsame
    have hread := millis?_ofInstant h
    rw [hsame, millis?_ofInstant h'] at hread
    exact (Option.some.inj hread).symm
  · intro hmillis
    unfold ofInstant
    rw [hmillis]

/-- Two instants within the last millisecond before the epoch. -/
theorem cursor_decodes_before_epoch :
    let t : Time.Instant := ⟨-1, 999500000⟩
    let t' : Time.Instant := ⟨-1, 999000000⟩
    t.Representable ∧ t'.Representable ∧ millis? (ofInstant t) = some (-1) ∧
      ofInstant t = ofInstant t' := by
  intro t t'
  have h : t.Representable := by decide
  have h' : t'.Representable := by decide
  have hmillis : t.millis = -1 := by decide
  obtain ⟨hread, -, hsame⟩ := cursor_decodes h h'
  rw [hmillis] at hread
  exact ⟨h, h', hread, hsame.2 (by decide)⟩

end Cursor

end ObjectGraph
