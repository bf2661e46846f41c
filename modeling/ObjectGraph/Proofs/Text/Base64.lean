import ObjectGraph.Text.Base64

/-! # Base64 read and written

Bytes are read back from their written form (`decode?_encode`), three at a time; of one or two
bytes at the end the spare bits are zero. -/

namespace ObjectGraph

namespace Text.Base64

theorem value?_pad : value? '=' = none := by decide

theorem letter_ne_pad {n : Nat} (h : n < 64) : letter n ≠ '=' := by
  intro hpad
  have hvalue := value?_letter h
  rw [hpad, value?_pad] at hvalue
  cases hvalue

theorem ofNat_eq {a : UInt8} {n : Nat} (h : n = a.toNat) : UInt8.ofNat n = a := by
  rw [h, UInt8.ofNat_toNat]

/-- Four letters that do not end in padding are one group. -/
theorem decodeLetters_group {x y z w : Nat} {rest : List Char} {bytes : List UInt8} (hx : x < 64)
    (hy : y < 64) (hz : z < 64) (hw : w < 64) (hrest : decodeLetters rest = some bytes) :
    decodeLetters (letter x :: letter y :: letter z :: letter w :: rest) =
      some (UInt8.ofNat (x * 4 + y / 16) :: UInt8.ofNat (y % 16 * 16 + z / 4) ::
        UInt8.ofNat (z % 4 * 64 + w) :: bytes) := by
  rw [decodeLetters]
  · simp only [value?_letter hx, value?_letter hy, value?_letter hz, value?_letter hw, hrest]
    rfl
  · intro hpad
    exact absurd hpad (letter_ne_pad hz)
  · intro hpad
    exact absurd hpad (letter_ne_pad hw)

theorem decodeLetters_encodeBytes (bytes : List UInt8) :
    decodeLetters (encodeBytes bytes) = some bytes := by
  fun_induction encodeBytes bytes with
  | case1 => rfl
  | case2 a =>
    have ha := a.toNat_lt
    rw [decodeLetters, value?_letter (by omega), value?_letter (by omega)]
    simp only [Option.bind_eq_bind, Option.bind_some]
    rw [if_pos (by omega), ofNat_eq (a := a) (by omega)]
  | case3 a b =>
    have ha := a.toNat_lt
    have hb := b.toNat_lt
    rw [decodeLetters]
    · rw [value?_letter (by omega), value?_letter (by omega), value?_letter (by omega)]
      simp only [Option.bind_eq_bind, Option.bind_some]
      rw [if_pos (by omega), ofNat_eq (a := a) (by omega), ofNat_eq (a := b) (by omega)]
    · exact letter_ne_pad (by omega)
  | case4 a b c rest ih =>
    have ha := a.toNat_lt
    have hb := b.toNat_lt
    have hc := c.toNat_lt
    rw [decodeLetters_group (by omega) (by omega) (by omega) (by omega) ih,
      ofNat_eq (a := a) (by omega), ofNat_eq (a := b) (by omega), ofNat_eq (a := c) (by omega)]

/-- Bytes are read back from their written form. -/
theorem decode?_encode (bytes : List UInt8) : decode? (encode bytes) = some bytes := by
  unfold decode? encode
  rw [String.toList_ofList, decodeLetters_encodeBytes]

end Text.Base64

end ObjectGraph
