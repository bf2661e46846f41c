import ObjectGraph.Text.Utf8

/-! # UTF-8 read and written

The bytes of a text are decoded to the text (`decodeLossy_encode`), character by character: the
first byte of a character tells how many follow (`scan_encodeChar`).  What is made of bytes is
written as these bytes exactly if they are well-formed (`encode_decodeLossy_iff`). -/

namespace ObjectGraph

namespace Text.Utf8

variable {rest : List UInt8}

/-- The code point of a character is not that of a surrogate. -/
theorem toNat_valid (c : Char) : c.toNat < 0xd800 ∨ 0xdfff < c.toNat ∧ c.toNat < 0x110000 :=
  c.valid

theorem toNat_byte {n : Nat} (h : n < 256) : (UInt8.ofNat n).toNat = n := by
  rw [UInt8.toNat_ofNat']
  exact Nat.mod_eq_of_lt h

theorem scan_whole {b : UInt8} {c : Char} (h : start b.toNat = .whole c) :
    scan none (b :: rest) = some c :: scan none rest := by
  rw [scan, h]

theorem scan_begun {b : UInt8} {state : Begun} (h : start b.toNat = .begun state) :
    scan none (b :: rest) = scan (some state) rest := by
  rw [scan, h]

/-- A byte that ends a character. -/
theorem scan_last {bits n low high : Nat} (hlow : low ≤ n) (hhigh : n ≤ high) (hn : n < 256) :
    scan (some ⟨bits, 1, low, high⟩) (UInt8.ofNat n :: rest) =
      some (Char.ofNat (bits * 64 + (n - 0x80))) :: scan none rest := by
  rw [scan, toNat_byte hn, if_pos ⟨hlow, hhigh⟩]
  rfl

/-- A byte that goes on with a character. -/
theorem scan_inner {bits missing n low high : Nat} (hlow : low ≤ n) (hhigh : n ≤ high)
    (hn : n < 256) :
    scan (some ⟨bits, missing + 2, low, high⟩) (UInt8.ofNat n :: rest) =
      scan (some { bits := bits * 64 + (n - 0x80), missing := missing + 1 }) rest := by
  rw [scan, toNat_byte hn, if_pos ⟨hlow, hhigh⟩]
  have hmore : ¬(missing + 2 ≤ 1) := by omega
  simp only [hmore, if_false]
  rfl

/-! ### The first byte of a character -/

theorem start_one {n : Nat} (h : n < 0x80) : start n = .whole (Char.ofNat n) := by
  rw [start, if_pos h]

theorem start_two {n : Nat} (hlow : 0xc2 ≤ n) (hhigh : n < 0xe0) :
    start n = .begun { bits := n - 0xc0, missing := 1 } := by
  unfold start
  rw [if_neg (by omega), if_neg (by omega), if_pos hhigh]

/-- The second of three bytes has a range that depends on the first. -/
theorem start_three {n : Nat} (hlow : 0xe0 ≤ n) (hhigh : n < 0xf0) :
    start n = .begun
      { bits := n - 0xe0, missing := 2
        low := if n = 0xe0 then 0xa0 else 0x80, high := if n = 0xed then 0x9f else 0xbf } := by
  unfold start
  rw [if_neg (by omega), if_neg (by omega), if_neg (by omega)]
  by_cases hfirst : n = 0xe0
  · subst hfirst
    rfl
  · by_cases hlast : n = 0xed
    · subst hlast
      rfl
    · rw [if_neg hfirst, if_neg hlast, if_pos hhigh, if_neg hfirst, if_neg hlast]

/-- So has the second of four. -/
theorem start_four {n : Nat} (hlow : 0xf0 ≤ n) (hhigh : n ≤ 0xf4) :
    start n = .begun
      { bits := n - 0xf0, missing := 3
        low := if n = 0xf0 then 0x90 else 0x80, high := if n = 0xf4 then 0x8f else 0xbf } := by
  have hcases : n = 0xf0 ∨ n = 0xf1 ∨ n = 0xf2 ∨ n = 0xf3 ∨ n = 0xf4 := by omega
  rcases hcases with rfl | rfl | rfl | rfl | rfl <;> rfl

/-! ### Characters -/

/-- The bytes of a character are read as the character, whatever follows them. -/
theorem scan_encodeChar (c : Char) :
    scan none (String.utf8EncodeChar c ++ rest) = some c :: scan none rest := by
  have hvalid := toNat_valid c
  have hback : Char.ofNat c.toNat = c := Char.ofNat_toNat c
  unfold String.utf8EncodeChar
  simp only [Char.toNat_val]
  generalize c.toNat = v at hvalid hback
  by_cases hone : v ≤ 0x7f
  · rw [if_pos hone, List.singleton_append,
      scan_whole (by rw [toNat_byte (by omega), start_one (by omega)]), hback]
  rw [if_neg hone]
  by_cases htwo : v ≤ 0x7ff
  · have hbits : (v / 64 % 32 + 192 - 0xc0) * 64 + (v % 64 + 128 - 0x80) = v := by omega
    rw [if_pos htwo, List.cons_append, List.singleton_append,
      scan_begun (by rw [toNat_byte (by omega), start_two (by omega) (by omega)]),
      scan_last (by omega) (by omega) (by omega), hbits, hback]
  rw [if_neg htwo]
  by_cases hthree : v ≤ 0xffff
  · have hbits : ((v / 4096 % 16 + 224 - 0xe0) * 64 + (v / 64 % 64 + 128 - 0x80)) * 64 +
        (v % 64 + 128 - 0x80) = v := by omega
    rw [if_pos hthree, List.cons_append, List.cons_append, List.singleton_append,
      scan_begun (by rw [toNat_byte (by omega), start_three (by omega) (by omega)]),
      scan_inner (by split <;> omega) (by split <;> omega) (by omega),
      scan_last (by omega) (by omega) (by omega), hbits, hback]
  · have hbits : (((v / 262144 % 8 + 240 - 0xf0) * 64 + (v / 4096 % 64 + 128 - 0x80)) * 64 +
        (v / 64 % 64 + 128 - 0x80)) * 64 + (v % 64 + 128 - 0x80) = v := by omega
    rw [if_neg hthree, List.cons_append, List.cons_append, List.cons_append,
      List.singleton_append,
      scan_begun (by rw [toNat_byte (by omega), start_four (by omega) (by omega)]),
      scan_inner (by split <;> omega) (by split <;> omega) (by omega),
      scan_inner (by omega) (by omega) (by omega),
      scan_last (by omega) (by omega) (by omega), hbits, hback]

theorem scan_encode (cs : List Char) :
    scan none (cs.flatMap String.utf8EncodeChar) = cs.map some := by
  induction cs with
  | nil => rfl
  | cons c cs ih => rw [List.flatMap_cons, scan_encodeChar, ih, List.map_cons]

/-- A text is read back from its bytes. -/
theorem decodeLossy_encode (text : String) : decodeLossy (encode text) = text := by
  unfold decodeLossy encode
  rw [scan_encode, List.map_map]
  exact (congrArg String.ofList (List.map_id _)).trans String.ofList_toList

/-- The bytes of a text have no fault. -/
theorem decode?_encode (text : String) : decode? (encode text) = some text := by
  have hchars : ∀ cs : List Char, (cs.map some).mapM id = some cs := by
    intro cs
    induction cs with
    | nil => rfl
    | cons c cs ih =>
      rw [List.map_cons, List.mapM_cons, ih]
      rfl
  unfold decode? encode
  rw [scan_encode, hchars, Option.map_some, String.ofList_toList]

/-! ### Well-formed bytes -/

/-- The bytes are those of a text. -/
def WellFormed (bytes : List UInt8) : Prop := ∃ text, encode text = bytes

/-- The text that is made of bytes has these bytes only if they are well-formed. -/
theorem encode_decodeLossy_iff {bytes : List UInt8} :
    encode (decodeLossy bytes) = bytes ↔ WellFormed bytes := by
  constructor
  · exact fun h => ⟨decodeLossy bytes, h⟩
  · rintro ⟨text, rfl⟩
    rw [decodeLossy_encode]

instance (bytes : List UInt8) : Decidable (WellFormed bytes) :=
  decidable_of_iff _ encode_decodeLossy_iff

end Text.Utf8

end ObjectGraph
