import Mathlib.Data.Nat.Basic
import ObjectGraph.Json.Reading

/-! # The texts of identity values

Identity values of different statements are matched by their texts (`Json.identityKey?`).  A text
that is printed, as that of everything but a string is, holds no control character
(`Json.printable_render`), so none of those can be taken for a separator.  Two values that are equal
in a database have one text exactly if their numbers are written in one form
(`Json.identityKey?_eq_iff`): an integer is never written as a double is, and the two zeros of
doubles differ in their sign. -/

namespace ObjectGraph

/-! ### Printed texts -/

/-- No character of a text is a control character. -/
def Printable (text : String) : Prop := ∀ c ∈ text.toList, 32 ≤ c.toNat

instance (text : String) : Decidable (Printable text) :=
  List.decidableBAll (fun c : Char => 32 ≤ c.toNat) text.toList

namespace Printable

theorem append {s t : String} (hs : Printable s) (ht : Printable t) : Printable (s ++ t) := by
  intro c hc
  rw [String.toList_append] at hc
  rcases List.mem_append.1 hc with hc | hc
  · exact hs c hc
  · exact ht c hc

theorem ofList {cs : List Char} (h : ∀ c ∈ cs, 32 ≤ c.toNat) : Printable (String.ofList cs) := by
  intro c hc
  rw [String.toList_ofList] at hc
  exact h c hc

theorem zeros (n : Nat) : Printable (String.ofList (List.replicate n '0')) := by
  refine ofList fun c hc => ?_
  rw [List.eq_of_mem_replicate hc]
  decide

end Printable

theorem toNat_of_isDigit {c : Char} (h : c.isDigit = true) : 48 ≤ c.toNat ∧ c.toNat ≤ 57 := by
  rw [Char.isDigit, Bool.and_eq_true, decide_eq_true_eq, decide_eq_true_eq] at h
  exact ⟨h.1, h.2⟩

theorem isDigit_of_mem {n : Nat} {c : Char} (h : c ∈ (toString n).toList) :
    c.isDigit = true := by
  have hdigits : (toString n).toList = Nat.toDigits 10 n := String.toList_ofList
  rw [hdigits] at h
  exact Nat.isDigit_of_mem_toDigits (by omega) (by omega) h

theorem printable_toString (n : Nat) : Printable (toString n) := by
  intro c hc
  have := toNat_of_isDigit (isDigit_of_mem hc)
  omega

/-! ### Texts of numbers -/

namespace Binary64

/-- What an integer is never written with: a point or an exponent. -/
def isRealMark (c : Char) : Bool := c == '.' || c == 'e'

/-- Positional and scientific forms are printable, and have a point or an exponent. -/
theorem write_spec (d : Digits) :
    Printable (jsonLayout.write d) ∧ ∃ c ∈ (jsonLayout.write d).toList, isRealMark c = true := by
  have hdigits := printable_toString d.digits
  simp only [Layout.write]
  generalize toString d.digits = digits at hdigits
  split_ifs
  · exact ⟨by decide, '.', by decide, rfl⟩
  · refine ⟨(hdigits.append (Printable.zeros _)).append (by decide), '.', ?_, rfl⟩
    rw [String.toList_append]
    exact List.mem_append_right _ (by decide)
  · refine ⟨Printable.append (Printable.append (.ofList fun c hc => ?_) (by decide))
      (.ofList fun c hc => ?_), '.', ?_, rfl⟩
    · exact hdigits c (List.mem_of_mem_take hc)
    · exact hdigits c (List.mem_of_mem_drop hc)
    · rw [String.toList_append, String.toList_append]
      exact List.mem_append_left _ (List.mem_append_right _ (by decide))
  · refine ⟨Printable.append (Printable.append (by decide) (Printable.zeros _)) hdigits, '.', ?_,
      rfl⟩
    rw [String.toList_append, String.toList_append]
    exact List.mem_append_left _ (List.mem_append_left _ (by decide))
  all_goals
    refine ⟨Printable.append (Printable.append (Printable.append ?_ (by decide)) (by decide))
      (printable_toString _), 'e', ?_, rfl⟩
    · split
      · decide
      · next c hc => exact .ofList fun c' h => hdigits c' (hc ▸ h)
      · next c rest _ hc =>
        refine .ofList fun c' h => ?_
        rcases List.mem_cons.1 h with rfl | h
        · exact hdigits c' (hc ▸ List.mem_cons_self)
        · rcases List.mem_cons.1 h with rfl | h
          · decide
          · exact hdigits c' (hc ▸ List.mem_cons_of_mem _ h)
    · rw [String.toList_append, String.toList_append, String.toList_append]
      exact List.mem_append_left _ (List.mem_append_left _ (List.mem_append_right _ (by decide)))

theorem printable_text (x : Binary64) : Printable x.text := by
  unfold text
  refine Printable.append ?_ (write_spec _).1
  split <;> decide

theorem exists_mark (x : Binary64) : ∃ c ∈ x.text.toList, isRealMark c = true := by
  obtain ⟨c, hc, hm⟩ := (write_spec x.shortest).2
  refine ⟨c, ?_, hm⟩
  unfold text
  rw [String.toList_append]
  exact List.mem_append_right _ hc

theorem text_of_isZero {x : Binary64} (h : x.isZero = true) :
    x.text = if x.negative then "-0.0" else "0.0" := by
  unfold text shortest
  rw [if_pos h]
  cases x.negative <;> decide

theorem isZero_of_units {x : Binary64} (h : x.units = 0) : x.isZero = true := by
  rcases Nat.mul_eq_zero.1 h with h | h
  · exact beq_iff_eq.2 h
  · exact absurd h (Nat.pos_iff_ne_zero.1 (Nat.two_pow_pos x.scale))

/-- The canonical form of a double is told by its sign and its magnitude. -/
theorem eq_of_units {x y : Binary64} (hnegative : x.negative = y.negative)
    (hunits : x.units = y.units) : x = y := by
  -- of two scales the greater one would leave room for another bit
  have hscale : ∀ {x y : Binary64}, x.units = y.units → ¬x.scale < y.scale := by
    intro x y hunits hlt
    obtain ⟨d, hd⟩ := Nat.exists_eq_add_of_lt hlt
    have hy : 2 ^ 52 ≤ y.significand := y.normal.resolve_left (by omega)
    have hpow : y.units = y.significand * (2 ^ d * 2) * 2 ^ x.scale := by
      change y.significand * 2 ^ y.scale = _
      rw [hd, Nat.add_assoc, Nat.add_comm x.scale, Nat.pow_add, Nat.pow_succ, ← Nat.mul_assoc]
    have hx : x.significand = y.significand * (2 ^ d * 2) :=
      Nat.eq_of_mul_eq_mul_right (Nat.two_pow_pos x.scale) (hunits.trans hpow)
    have hd' := Nat.two_pow_pos d
    have hle : 2 ^ 52 * 2 ≤ y.significand * (2 ^ d * 2) := Nat.mul_le_mul hy (by omega)
    have := x.significand_lt
    omega
  have hscales : x.scale = y.scale :=
    Nat.le_antisymm (Nat.le_of_not_lt (hscale hunits.symm)) (Nat.le_of_not_lt (hscale hunits))
  have hsignificands : x.significand = y.significand := by
    have h : x.significand * 2 ^ x.scale = y.significand * 2 ^ y.scale := hunits
    rw [hscales] at h
    exact Nat.eq_of_mul_eq_mul_right (Nat.two_pow_pos y.scale) h
  cases x
  cases y
  cases hnegative
  cases hscales
  cases hsignificands
  rfl

end Binary64

namespace Number

theorem toList_int (n : Int) :
    (Number.int n).text.toList =
      if n < 0 then '-' :: (toString n.natAbs).toList else (toString n.natAbs).toList := by
  cases n with
  | ofNat n => rfl
  | negSucc n =>
    rw [if_pos (Int.negSucc_lt_zero n)]
    exact String.toList_append

theorem mem_int_text {n : Int} {c : Char} (h : c ∈ (Number.int n).text.toList) :
    c = '-' ∨ c.isDigit = true := by
  rw [toList_int] at h
  split at h
  · rcases List.mem_cons.1 h with rfl | h
    · exact .inl rfl
    · exact .inr (isDigit_of_mem h)
  · exact .inr (isDigit_of_mem h)

theorem printable_text (x : Number) : Printable x.text := by
  cases x with
  | int n =>
    intro c hc
    rcases mem_int_text hc with rfl | hdigit
    · decide
    · have := toNat_of_isDigit hdigit
      omega
  | float x => exact x.printable_text

theorem int_text_ne_float_text (n : Int) (x : Binary64) :
    (Number.int n).text ≠ (Number.float x).text := by
  intro h
  obtain ⟨c, hc, hm⟩ := x.exists_mark
  rw [show x.text = (Number.int n).text from h.symm] at hc
  rcases mem_int_text hc with rfl | hdigit
  · exact absurd hm (by decide)
  · have hdigits := toNat_of_isDigit hdigit
    rcases Bool.or_eq_true_iff.1 hm with hpoint | hexponent
    · rw [beq_iff_eq.1 hpoint] at hdigits
      exact absurd hdigits.1 (by decide)
    · rw [beq_iff_eq.1 hexponent] at hdigits
      exact absurd hdigits.2 (by decide)

/-- The value of a number, as a multiple of `1 / 2 ^ 1074`. -/
def units : Number → Int
  | .int n => n * (Nat.pow 2 1074 : Nat)
  | .float x => if x.negative then -(x.units : Int) else x.units

/-- Numbers are written in one form: both as integers, or both as doubles of one sign. -/
def SameForm : Number → Number → Prop
  | .int _, .int _ => True
  | .float x, .float y => x.negative = y.negative
  | _, _ => False

theorem units_int_inj {n m : Int} (h : (Number.int n).units = (Number.int m).units) : n = m := by
  have hpow : ∀ k : Nat, ((Nat.pow 2 k : Nat) : Int) ≠ 0 := fun k =>
    Int.natCast_ne_zero.2 (Nat.pos_iff_ne_zero.1 (Nat.two_pow_pos k))
  exact Int.eq_of_mul_eq_mul_right (hpow _) h

/-- Doubles of one value are one double, or both are zero. -/
theorem units_float_eq {x y : Binary64} (h : (Number.float x).units = (Number.float y).units) :
    (x.negative = y.negative ∧ x = y) ∨
      (x.negative ≠ y.negative ∧ x.isZero = true ∧ y.isZero = true) := by
  change (if x.negative then -(x.units : Int) else x.units) =
    if y.negative then -(y.units : Int) else y.units at h
  by_cases hsign : x.negative = y.negative
  · refine .inl ⟨hsign, Binary64.eq_of_units hsign ?_⟩
    rw [hsign] at h
    split at h <;> omega
  · have hzeros : x.units = 0 ∧ y.units = 0 := by
      cases hx : x.negative <;> cases hy : y.negative <;> rw [hx, hy] at hsign h
      · exact absurd rfl hsign
      · have hsum : (x.units : Int) = -(y.units : Int) := h
        omega
      · have hsum : -(x.units : Int) = (y.units : Int) := h
        omega
      · exact absurd rfl hsign
    exact .inr ⟨hsign, Binary64.isZero_of_units hzeros.1, Binary64.isZero_of_units hzeros.2⟩

/-- Numbers of one value have one text exactly if they are written in one form. -/
theorem text_eq_iff {x y : Number} (h : x.units = y.units) :
    x.text = y.text ↔ x.SameForm y := by
  cases x with
  | int n =>
    cases y with
    | int m =>
      rw [units_int_inj h]
      exact iff_of_true rfl trivial
    | float y => exact iff_of_false (int_text_ne_float_text n y) id
  | float x =>
    cases y with
    | int m => exact iff_of_false (int_text_ne_float_text m x).symm id
    | float y =>
      rcases units_float_eq h with ⟨-, rfl⟩ | ⟨hsign, hx, hy⟩
      · exact iff_of_true rfl rfl
      · refine iff_of_false (fun htext => hsign ?_) hsign
        change x.text = y.text at htext
        rw [Binary64.text_of_isZero hx, Binary64.text_of_isZero hy] at htext
        revert htext
        cases x.negative <;> cases y.negative <;> decide

end Number

/-! ### Texts of values -/

namespace Json

theorem hexDigit_printable : ∀ n < 16, 32 ≤ (hexDigit n).toNat := by decide

theorem printable_escape (c : Char) : ∀ c' ∈ escape c, 32 ≤ c'.toNat := by
  unfold escape
  split_ifs
  iterate 7 next => simp
  · -- the digits of a character below U+0020
    have hhigh := hexDigit_printable (c.toNat / 16) (by omega)
    have hlow := hexDigit_printable (c.toNat % 16) (by omega)
    simp only [List.forall_mem_cons]
    exact ⟨by decide, by decide, by decide, by decide, hhigh, hlow, List.forall_mem_nil _⟩
  · intro c' hc
    rw [List.mem_singleton.1 hc]
    omega

theorem printable_quote (text : String) : Printable (quote text) := by
  refine .ofList fun c hc => ?_
  rcases List.mem_cons.1 hc with rfl | hc
  · decide
  · rcases List.mem_append.1 hc with hc | hc
    · obtain ⟨c', -, hc⟩ := List.mem_flatMap.1 hc
      exact printable_escape c' c hc
    · rw [List.mem_singleton.1 hc]
      decide

mutual

/-- What is printed of a value holds no control character. -/
theorem printable_render : (value : Json) → Printable value.render
  | .null => by decide
  | .bool true => by decide
  | .bool false => by decide
  | .num n => by
    rw [render]
    exact n.printable_text
  | .str text => by
    rw [render]
    exact printable_quote text
  | .arr [] => by decide
  | .arr (x :: xs) => by
    rw [render]
    exact ((show Printable "[" by decide).append (printable_render x)).append
      (printable_renderItems xs)
  | .obj [] => by decide
  | .obj ((key, x) :: xs) => by
    rw [render]
    exact ((((show Printable "\x7b" by decide).append (printable_quote key)).append
      (show Printable ":" by decide)).append (printable_render x)).append
      (printable_renderMembers xs)

theorem printable_renderItems : (items : List Json) → Printable (renderItems items)
  | [] => by decide
  | x :: xs => by
    rw [renderItems]
    exact ((show Printable "," by decide).append (printable_render x)).append
      (printable_renderItems xs)

theorem printable_renderMembers : (members : List (String × Json)) →
    Printable (renderMembers members)
  | [] => by decide
  | (key, x) :: xs => by
    rw [renderMembers]
    exact ((((show Printable "," by decide).append (printable_quote key)).append
      (show Printable ":" by decide)).append (printable_render x)).append
      (printable_renderMembers xs)

end

/-- Equality of values as a database has it: numbers count by what they denote, whether they are
integers or doubles, and `null` equals nothing. -/
def SqlEqual : Json → Json → Prop
  | .null, _ => False
  | .num x, .num y => x.units = y.units
  | x, y => x = y

/-- The numbers among two values are written in one form. -/
def SameForm : Json → Json → Prop
  | .num x, .num y => x.SameForm y
  | _, _ => True

/-- Values that are equal in a database have one text exactly if their numbers are written in one
form. -/
theorem identityKey?_eq_iff {x y : Json} (h : x.SqlEqual y) :
    x.identityKey? = y.identityKey? ↔ x.SameForm y := by
  cases x with
  | null => exact h.elim
  | num n =>
    cases y with
    | num m =>
      change some (render (.num n)) = some (render (.num m)) ↔ n.SameForm m
      rw [Option.some.injEq, render, render]
      exact Number.text_eq_iff h
    | _ => cases h
  | _ =>
    have heq : _ = y := h
    subst heq
    exact iff_of_true rfl trivial

end Json

end ObjectGraph
