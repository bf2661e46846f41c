import Mathlib.Algebra.Group.Nat.Defs
import ObjectGraph.Proofs.Json.Identities
import ObjectGraph.Text.Numeral

/-! # Decimal digits

Characters denote a number in decimal if all of them are digits and their value is the number
(`Numeral`); zeros in front do not change it.  Reading gives the number back (`readDigits_numeral`),
so a printed integer is read as itself within the bound of the reader (`readInt_toString`).  Of two
numbers with as many digits the smaller one has the smaller digit where they first differ
(`Numeral.exists_lt`). -/

namespace ObjectGraph

namespace Text

/-- The characters are decimal digits that denote a number. -/
structure Numeral (cs : List Char) (n : Nat) : Prop where
  isDigit : ∀ c ∈ cs, c.isDigit = true
  value : Nat.ofDigitChars 10 cs 0 = n

/-- A digit is one of ten characters. -/
theorem exists_digit {c : Char} (h : c.isDigit = true) : ∃ k < 10, c = Char.ofNat (48 + k) := by
  have hdigit := toNat_of_isDigit h
  refine ⟨c.toNat - 48, by omega, ?_⟩
  rw [Nat.add_sub_cancel' hdigit.1, Char.ofNat_toNat]

namespace Numeral

variable {cs ds : List Char} {m n : Nat} {c : Char}

theorem append (h : Numeral cs m) (h' : Numeral ds n) :
    Numeral (cs ++ ds) (10 ^ ds.length * m + n) := by
  constructor
  · intro c hc
    exact (List.mem_append.1 hc).elim (h.isDigit c) (h'.isDigit c)
  · rw [Nat.ofDigitChars_append, h.value, Nat.ofDigitChars_eq_ofDigitChars_zero, h'.value]

theorem singleton (h : c.isDigit = true) : Numeral [c] (c.toNat - 48) := by
  constructor
  · intro d hd
    rw [List.mem_singleton.1 hd]
    exact h
  · rw [Nat.ofDigitChars_cons, Nat.ofDigitChars_nil, Nat.mul_zero, Nat.zero_add]
    rfl

theorem zeros (k : Nat) (h : Numeral cs n) : Numeral (List.replicate k '0' ++ cs) n := by
  constructor
  · intro c hc
    rcases List.mem_append.1 hc with hzero | hc
    · rw [List.eq_of_mem_replicate hzero]
      rfl
    · exact h.isDigit c hc
  · rw [Nat.ofDigitChars_append, Nat.ofDigitChars_replicate_zero, Nat.mul_zero, h.value]

/-- Digits denote some number. -/
theorem exists_of_isDigit (h : ∀ c ∈ cs, c.isDigit = true) : ∃ n, Numeral cs n := ⟨_, h, rfl⟩

/-- The first digit counts as often as the others have places. -/
theorem of_cons (h : Numeral (c :: cs) n) :
    ∃ m, Numeral cs m ∧ n = 10 ^ cs.length * (c.toNat - 48) + m := by
  obtain ⟨m, hm⟩ := exists_of_isDigit fun d hd => h.isDigit d (List.mem_cons_of_mem c hd)
  have hwhole := (singleton (h.isDigit c List.mem_cons_self)).append hm
  exact ⟨m, hm, h.value.symm.trans hwhole.value⟩

theorem lt_pow (h : Numeral cs n) : n < 10 ^ cs.length := by
  induction cs generalizing n with
  | nil =>
    rw [← h.value]
    exact Nat.one_pos
  | cons c cs ih =>
    obtain ⟨m, hm, rfl⟩ := h.of_cons
    have hrest := ih hm
    have hfirst := toNat_of_isDigit (h.isDigit c List.mem_cons_self)
    have hnine : 10 ^ cs.length * (c.toNat - 48) ≤ 10 ^ cs.length * 9 :=
      Nat.mul_le_mul_left _ (by omega)
    rw [List.length_cons, Nat.pow_succ]
    omega

/-- The leading digits denote the number without its last places. -/
theorem of_append (h : Numeral (cs ++ ds) n) : Numeral cs (n / 10 ^ ds.length) := by
  obtain ⟨m, hm⟩ := exists_of_isDigit fun c hc => h.isDigit c (List.mem_append_left ds hc)
  obtain ⟨k, hk⟩ := exists_of_isDigit fun c hc => h.isDigit c (List.mem_append_right cs hc)
  have hn : n = 10 ^ ds.length * m + k := h.value.symm.trans (hm.append hk).value
  rw [hn, Nat.mul_add_div (Nat.pow_pos (by decide)), Nat.div_eq_of_lt hk.lt_pow, Nat.add_zero]
  exact hm

/-- Of two numbers with as many digits, the smaller has the smaller first digit that differs. -/
theorem exists_lt (h : Numeral cs m) (h' : Numeral ds n) (hlength : cs.length = ds.length)
    (hlt : m < n) :
    ∃ common c d rest rest', cs = common ++ c :: rest ∧ ds = common ++ d :: rest' ∧
      c.toNat < d.toNat := by
  induction cs generalizing ds m n with
  | nil =>
    obtain rfl := List.length_eq_zero_iff.1 hlength.symm
    rw [← h.value, ← h'.value] at hlt
    exact absurd hlt (Nat.lt_irrefl _)
  | cons c cs ih =>
    obtain ⟨d, ds, rfl⟩ := List.exists_cons_of_length_eq_add_one hlength.symm
    obtain ⟨k, hk, rfl⟩ := h.of_cons
    obtain ⟨l, hl, rfl⟩ := h'.of_cons
    have hrest : cs.length = ds.length := Nat.succ.inj hlength
    by_cases hsame : c = d
    · subst hsame
      rw [hrest] at hlt
      obtain ⟨common, a, b, rest, rest', rfl, rfl, hab⟩ :=
        ih hk hl hrest (Nat.lt_of_add_lt_add_left hlt)
      exact ⟨c :: common, a, b, rest, rest', rfl, rfl, hab⟩
    · refine ⟨[], c, d, cs, ds, rfl, rfl, ?_⟩
      have hne : c.toNat ≠ d.toNat := fun h => hsame (Char.toNat_inj.1 h)
      have hlast := hl.lt_pow
      have hc := toNat_of_isDigit (h.isDigit c List.mem_cons_self)
      have hd := toNat_of_isDigit (h'.isDigit d List.mem_cons_self)
      -- were it greater, it alone would make up for all places after it
      by_contra hge
      have hmore : 10 ^ ds.length * (d.toNat - 48 + 1) ≤ 10 ^ ds.length * (c.toNat - 48) :=
        Nat.mul_le_mul_left _ (by omega)
      rw [Nat.mul_add, Nat.mul_one] at hmore
      rw [hrest] at hlt
      omega

end Numeral

/-! ### Reading -/

theorem digit?_of_isDigit {c : Char} (h : c.isDigit = true) :
    digit? c = some (c.toNat - 48) := by
  rw [Char.isDigit, Bool.and_eq_true, decide_eq_true_eq, decide_eq_true_eq] at h
  exact if_pos h

theorem readDigits_numeral {bound : Nat} {cs : List Char} {n : Nat} (overflow : NumeralError)
    (start : Nat) (h : Numeral cs n) (hbound : 10 ^ cs.length * start + n ≤ bound) :
    readDigits bound overflow start cs = .ok (10 ^ cs.length * start + n) := by
  induction cs generalizing start n with
  | nil =>
    rw [← h.value, readDigits, List.length_nil, Nat.pow_zero, Nat.one_mul]
    rfl
  | cons c cs ih =>
    obtain ⟨m, hm, rfl⟩ := h.of_cons
    have hdigit := digit?_of_isDigit (h.isDigit c List.mem_cons_self)
    have hsum : 10 ^ (c :: cs).length * start + (10 ^ cs.length * (c.toNat - 48) + m) =
        10 ^ cs.length * (start * 10 + (c.toNat - 48)) + m := by
      rw [List.length_cons, Nat.pow_succ, Nat.mul_assoc, ← Nat.add_assoc, ← Nat.mul_add,
        Nat.mul_comm 10 start]
    rw [hsum] at hbound ⊢
    have hstart : start * 10 + (c.toNat - 48) ≤ bound :=
      Nat.le_trans (Nat.le_mul_of_pos_left _ (Nat.pow_pos (by decide)))
        (Nat.le_of_add_right_le hbound)
    simp only [readDigits, hdigit]
    rw [if_neg (Nat.not_lt.2 hstart)]
    exact ih _ hm hbound

theorem readInt_minus (bound : Nat) (c : Char) (cs : List Char) :
    readInt bound ('-' :: c :: cs) =
      (readDigits (bound + 1) .tooSmall 0 (c :: cs)).map fun n => -(n : Int) := by
  simp only [readInt]

theorem readInt_digits {c : Char} (bound : Nat) (cs : List Char) (h : c.isDigit = true) :
    readInt bound (c :: cs) = (readDigits bound .tooLarge 0 (c :: cs)).map Int.ofNat := by
  have hdigit := toNat_of_isDigit h
  have hplus : c ≠ '+' := by
    rintro rfl
    exact absurd hdigit.1 (by decide)
  have hminus : c ≠ '-' := by
    rintro rfl
    exact absurd hdigit.1 (by decide)
  rw [readInt]
  all_goals simp_all

/-! ### Printed numbers -/

theorem numeral_toString (n : Nat) : Numeral (toString n).toList n := by
  have hdigits : (toString n).toList = Nat.toDigits 10 n := String.toList_ofList
  exact ⟨fun _ => isDigit_of_mem, by rw [hdigits, Nat.ofDigitChars_ten_toDigits]⟩

theorem toString_ne_nil (n : Nat) : (toString n).toList ≠ [] := by
  have hdigits : (toString n).toList = Nat.toDigits 10 n := String.toList_ofList
  rw [hdigits]
  exact Nat.toDigits_ne_nil

/-- A printed integer is its digits, after a minus where it is negative. -/
theorem toList_toString_int (n : Int) :
    (toString n).toList =
      if n < 0 then '-' :: (toString n.natAbs).toList else (toString n.natAbs).toList :=
  Number.toList_int n

/-- A printed integer is read as itself if it lies within the bound. -/
theorem readInt_toString {bound : Nat} {n : Int} (hlow : -(bound : Int) - 1 ≤ n)
    (hhigh : n ≤ bound) : readInt bound (toString n).toList = .ok n := by
  have hnumeral := numeral_toString n.natAbs
  obtain ⟨c, cs, hcs⟩ := List.exists_cons_of_ne_nil (toString_ne_nil n.natAbs)
  rw [toList_toString_int]
  rw [hcs] at hnumeral ⊢
  by_cases hneg : n < 0
  · have hread := readDigits_numeral .tooSmall 0 hnumeral (by omega : _ ≤ bound + 1)
    rw [if_pos hneg, readInt_minus, hread, Nat.mul_zero, Nat.zero_add]
    exact congrArg Except.ok (by omega : -(n.natAbs : Int) = n)
  · have hread := readDigits_numeral .tooLarge 0 hnumeral (by omega : _ ≤ bound)
    rw [if_neg hneg, readInt_digits bound cs (hnumeral.isDigit c List.mem_cons_self), hread,
      Nat.mul_zero, Nat.zero_add]
    exact congrArg Except.ok (by omega : (n.natAbs : Int) = n)

end Text

end ObjectGraph
