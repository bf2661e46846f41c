import ObjectGraph.Proofs.Text.Numerals
import ObjectGraph.Proofs.Time.Instants
import ObjectGraph.Time.Timestamp

/-! # Fields of a timestamp

A reading takes a text as a value in front of what follows (`Reads`), and what comes after it goes
on from there (`Reads.bind_eq`).  A field of fixed width reads its digits whatever follows; a
fraction reads all digits there are, so what follows must not go on with one (`reads_fraction`).

The fields of the lenient forms may stand after white space.  Their year is one of four digits or
has a sign and as many digits as there are (`reads_lenientYear`, `reads_lenientYear_sign`). -/

namespace ObjectGraph

namespace Time

namespace Timestamp

open Text (Numeral)

variable {α β : Type} {width n : Nat} {c : Char} {ds rest : List Char}

/-! ### Readings -/

/-- A text is read as a value and what follows is left. -/
def Reads (scan : Scan α) (text : List Char) (x : α) (rest : List Char) : Prop :=
  scan (text ++ rest) = some (x, rest)

theorem bind_apply (f : Scan α) (g : α → Scan β) (text : List Char) :
    (f >>= g) text = (f text).bind fun p => g p.1 p.2 := rfl

theorem Reads.bind_eq {f : Scan α} {text : List Char} {x : α} (h : Reads f text x rest)
    (g : α → Scan β) : (f >>= g) (text ++ rest) = g x rest := by
  rw [bind_apply, h, Option.bind_some]

theorem reads_oneOf {cs : List Char} (h : c ∈ cs) (rest : List Char) :
    Reads (oneOf cs) [c] c rest := by
  unfold Reads oneOf
  rw [List.singleton_append, one, if_pos h]
  rfl

/-- A text that does not go on with a digit. -/
def Stops (rest : List Char) : Prop := ∀ c cs, rest = c :: cs → c.isDigit = false

theorem isSome_digit? (c : Char) : (digit? c).isSome = c.isDigit := by
  cases h : c.isDigit with
  | true =>
    have hdigit : digit? c = some (c.toNat - 48) := Text.digit?_of_isDigit h
    rw [hdigit]
    rfl
  | false =>
    rw [Char.isDigit, Bool.and_eq_false_iff, decide_eq_false_iff_not, decide_eq_false_iff_not] at h
    have hnone : digit? c = none := if_neg fun hc => h.elim (absurd hc.1) (absurd hc.2)
    rw [hnone]
    rfl

theorem value_eq (ds : List Char) :
    value (ds.map fun c => c.toNat - 48) = Nat.ofDigitChars 10 ds 0 := by
  unfold value
  rw [List.foldl_map, Nat.ofDigitChars_eq_foldl]
  refine congrArg (fun f => List.foldl f 0 ds) ?_
  funext n c
  rw [Nat.mul_comm]
  rfl

theorem filterMap_digit? (h : ∀ c ∈ ds, c.isDigit = true) :
    ds.filterMap digit? = ds.map fun c => c.toNat - 48 := by
  induction ds with
  | nil => rfl
  | cons c ds ih =>
    have hdigit : digit? c = some (c.toNat - 48) :=
      Text.digit?_of_isDigit (h c List.mem_cons_self)
    rw [List.filterMap_cons, hdigit, ih fun d hd => h d (List.mem_cons_of_mem c hd)]
    rfl

theorem takeWhile_of_stops (h : Stops rest) (k : Nat) :
    (rest.take k).takeWhile (fun c => (digit? c).isSome) = [] := by
  cases k with
  | zero => rfl
  | succ k =>
    cases rest with
    | nil => rfl
    | cons c cs =>
      rw [List.take_succ_cons, List.takeWhile_cons, isSome_digit?, h c cs rfl]
      rfl

/-- Of digits those within the width are read, if there are enough or no more follow. -/
theorem leadingDigits_append (rest : List Char) (h : ∀ c ∈ ds, c.isDigit = true)
    (hend : width ≤ ds.length ∨ Stops rest) :
    leadingDigits width (ds ++ rest) = (ds.take width).map fun c => c.toNat - 48 := by
  have htake : ∀ c ∈ ds.take width, c.isDigit = true := fun c hc => h c (List.mem_of_mem_take hc)
  have hnone : (rest.take (width - ds.length)).takeWhile (fun c => (digit? c).isSome) = [] := by
    rcases hend with hfull | hstops
    · rw [Nat.sub_eq_zero_of_le hfull]
      rfl
    · exact takeWhile_of_stops hstops _
  unfold leadingDigits
  rw [List.take_append, List.takeWhile_append_of_pos fun c hc => by
    rw [isSome_digit?, htake c hc], hnone, List.append_nil, filterMap_digit? htake]

/-! ### Numbers -/

theorem reads_fixedNumber (h : Numeral ds n) (hwidth : ds.length = width) (rest : List Char) :
    Reads (fixedNumber width) ds n rest := by
  have hdigits := leadingDigits_append rest h.isDigit (.inl hwidth.ge)
  rw [List.take_of_length_le hwidth.le] at hdigits
  unfold Reads fixedNumber
  rw [hdigits]
  dsimp only
  rw [if_pos (by rw [List.length_map, hwidth]), value_eq, h.value, ← hwidth, List.drop_left]

theorem reads_number (h : Numeral ds n) (hpos : ds ≠ []) (hwidth : ds.length ≤ width)
    (hend : ds.length = width ∨ Stops rest) : Reads (number width) ds n rest := by
  have hdigits := leadingDigits_append rest h.isDigit (hend.imp_left Eq.ge)
  rw [List.take_of_length_le hwidth] at hdigits
  unfold Reads number
  rw [hdigits]
  dsimp only
  rw [if_neg (by simpa using hpos), value_eq, h.value, List.length_map, List.drop_left]

/-! ### Fractions -/

/-- A fraction of a second as it is written. -/
def fractionText : List Char → List Char
  | [] => []
  | ds => '.' :: ds

/-- The nanoseconds of a fraction; digits after the ninth do not count. -/
def nanos (ds : List Char) : Nat :=
  Nat.ofDigitChars 10 (ds.take 9) 0 * 10 ^ (9 - (ds.take 9).length)

theorem dropWhile_digits (h : ∀ c ∈ ds, c.isDigit = true) (hstops : Stops rest) :
    (ds ++ rest).dropWhile (fun c => (digit? c).isSome) = rest := by
  rw [List.dropWhile_append_of_pos fun c hc => by rw [isSome_digit?, h c hc]]
  cases rest with
  | nil => rfl
  | cons c cs => rw [List.dropWhile_cons, isSome_digit?, hstops c cs rfl, if_neg Bool.false_ne_true]

theorem fraction_none (hpoint : ∀ cs, rest ≠ '.' :: cs) : fraction rest = some (0, rest) := by
  unfold fraction
  split
  · next cs => exact absurd rfl (hpoint cs)
  · rfl

theorem fraction_point (text : List Char) : fraction ('.' :: text) =
    if (leadingDigits 9 text).isEmpty then none
    else some (value (leadingDigits 9 text) * 10 ^ (9 - (leadingDigits 9 text).length),
      text.dropWhile fun c => (digit? c).isSome) := rfl

theorem reads_fraction (h : ∀ c ∈ ds, c.isDigit = true) (hstops : Stops rest)
    (hpoint : ∀ cs, rest ≠ '.' :: cs) : Reads fraction (fractionText ds) (nanos ds) rest := by
  unfold Reads
  cases ds with
  | nil => exact fraction_none hpoint
  | cons c ds =>
    have hdigits : leadingDigits 9 (c :: ds ++ rest) =
        ((c :: ds).take 9).map fun c => c.toNat - 48 := leadingDigits_append rest h (.inr hstops)
    change fraction ('.' :: (c :: ds ++ rest)) = _
    rw [fraction_point, hdigits, dropWhile_digits h hstops, value_eq, List.length_map]
    rfl

/-! ### Fields after white space -/

theorem blanks_cons (hblank : Text.isBlank c = false) (cs : List Char) :
    blanks (c :: cs) = some ((), c :: cs) := by
  unfold blanks Text.trimStart
  rw [List.dropWhile_cons, hblank, if_neg Bool.false_ne_true]

theorem blanks_blank (hblank : Text.isBlank c = true) (cs : List Char) :
    blanks (c :: cs) = blanks cs := by
  unfold blanks Text.trimStart
  rw [List.dropWhile_cons, if_pos hblank]

theorem isBlank_of_isDigit (h : c.isDigit = true) : Text.isBlank c = false := by
  obtain ⟨k, hk, rfl⟩ := Text.exists_digit h
  revert k
  decide

theorem reads_lenientField (h : Numeral ds n) (hwidth : ds.length = 2) (rest : List Char) :
    Reads lenientField ds n rest := by
  obtain ⟨c, cs, rfl⟩ := List.exists_cons_of_length_eq_add_one hwidth
  have hnumber : Reads (number 2) (c :: cs) n rest :=
    reads_number h (List.cons_ne_nil c cs) hwidth.le (.inl hwidth)
  unfold Reads at hnumber ⊢
  rw [List.cons_append] at hnumber ⊢
  unfold lenientField
  rw [bind_apply, blanks_cons (isBlank_of_isDigit (h.isDigit c List.mem_cons_self)),
    Option.bind_some, hnumber]

/-- White space before a field does not matter. -/
theorem lenientField_blank (hblank : Text.isBlank c = true) (g : Nat → Scan α) (cs : List Char) :
    (lenientField >>= g) (c :: cs) = (lenientField >>= g) cs := by
  unfold lenientField
  simp only [bind_apply, blanks_blank hblank]

/-- A letter is no field. -/
theorem lenientField_letter (cs : List Char) : lenientField ('T' :: cs) = none := by
  have hdigits : leadingDigits 2 ('T' :: cs) = [] := by
    unfold leadingDigits
    rw [List.take_succ_cons, List.takeWhile_cons_of_neg (by decide)]
    rfl
  unfold lenientField number
  rw [bind_apply, blanks_cons (by decide), Option.bind_some]
  dsimp only
  rw [hdigits]
  rfl

theorem get_apply (text : List Char) : (get : Scan (List Char)) text = some (text, text) := rfl

theorem set_apply (text text' : List Char) : (set text : Scan PUnit) text' = some ((), text) := rfl

theorem lenientYear_cons (cs : List Char) (hblank : Text.isBlank c = false) (hminus : c ≠ '-')
    (hplus : c ≠ '+') :
    lenientYear (c :: cs) = (number 4 (c :: cs)).map fun p => ((p.1 : Int), p.2) := by
  unfold lenientYear
  simp only [bind_apply, blanks_cons hblank, Option.bind_some, get_apply]
  refine (congrFun (?_ : _ = (do pure (Int.ofNat (← number 4)) : Scan Int)) (c :: cs)).trans ?_
  · split
    · next heq => exact absurd (List.cons.inj heq).1 hminus
    · next heq => exact absurd (List.cons.inj heq).1 hplus
    · rfl
  · rw [bind_apply]
    cases number 4 (c :: cs) <;> rfl

theorem lenientYear_minus (cs : List Char) :
    lenientYear ('-' :: cs) = (number cs.length cs).map fun p => (-(p.1 : Int), p.2) := by
  have hblanks := blanks_cons (c := '-') (by decide) cs
  unfold lenientYear
  simp only [bind_apply, hblanks, Option.bind_some, get_apply, set_apply]
  cases number cs.length cs <;> rfl

theorem lenientYear_plus (cs : List Char) :
    lenientYear ('+' :: cs) = (number cs.length cs).map fun p => ((p.1 : Int), p.2) := by
  have hblanks := blanks_cons (c := '+') (by decide) cs
  unfold lenientYear
  simp only [bind_apply, hblanks, Option.bind_some, get_apply, set_apply]
  cases number cs.length cs <;> rfl

/-- A year of four digits. -/
theorem reads_lenientYear (h : Numeral ds n) (hwidth : ds.length = 4) (rest : List Char) :
    Reads lenientYear ds (n : Int) rest := by
  have hpos : ds ≠ [] := by
    rintro rfl
    cases hwidth
  have hnumber : number 4 (ds ++ rest) = some (n, rest) :=
    reads_number h hpos hwidth.le (.inl hwidth)
  obtain ⟨c, ds, rfl⟩ := List.exists_cons_of_ne_nil hpos
  have hdigit := h.isDigit c List.mem_cons_self
  have hsigns : c ≠ '-' ∧ c ≠ '+' := by
    constructor <;> rintro rfl <;> exact absurd hdigit (by decide)
  unfold Reads
  rw [List.cons_append] at hnumber ⊢
  rw [lenientYear_cons _ (isBlank_of_isDigit hdigit) hsigns.1 hsigns.2, hnumber]
  rfl

/-- A year with a sign, of any number of digits. -/
theorem reads_lenientYear_sign (negative : Bool) (h : Numeral ds n) (hpos : ds ≠ [])
    (hstops : Stops rest) :
    Reads lenientYear ((if negative then '-' else '+') :: ds) (if negative then -n else n : Int)
      rest := by
  have hnumber : number (ds ++ rest).length (ds ++ rest) = some (n, rest) :=
    reads_number h hpos (by rw [List.length_append]; omega) (.inr hstops)
  unfold Reads
  cases negative with
  | true =>
    change lenientYear ('-' :: (ds ++ rest)) = some (-(n : Int), rest)
    rw [lenientYear_minus, hnumber]
    rfl
  | false =>
    change lenientYear ('+' :: (ds ++ rest)) = some ((n : Int), rest)
    rw [lenientYear_plus, hnumber]
    rfl

end Timestamp

end Time

end ObjectGraph
