import ObjectGraph.Sql.Dialect
import ObjectGraph.Sql.Scope

/-! # Names in statements

A quoted identifier tells its name (`quoteIdent_inj`).  An alias that a scope mints is a lower-case
identifier, whatever it is made of (`isIdentifier_numbered`), so that a column of an aliased table
tells its name as well (`qualified_inj`) and is no expression in parentheses and no call
(`qualified_ne_call`). -/

namespace ObjectGraph

namespace Sql

/-! ### Quoting -/

theorem doubled_inj {quote : Char} {s t : List Char} (h : doubled quote s = doubled quote t) :
    s = t := by
  induction s generalizing t with
  | nil =>
    cases t with
    | nil => rfl
    | cons d t => by_cases hd : d = quote <;> simp [doubled, hd] at h
  | cons c s ih =>
    cases t with
    | nil => by_cases hc : c = quote <;> simp [doubled, hc] at h
    | cons d t =>
      have hs : ∀ (c : Char) (s : List Char), doubled quote (c :: s) =
          (if c = quote then [quote, quote] else [c]) ++ doubled quote s := by
        intro c s
        rw [doubled, List.flatMap_cons]
        rfl
      rw [hs, hs] at h
      by_cases hc : c = quote
      · by_cases hd : d = quote
        · rw [if_pos hc, if_pos hd] at h
          rw [hc, hd, ih (List.append_cancel_left h)]
        · rw [if_pos hc, if_neg hd] at h
          exact absurd (List.cons.inj h).1.symm hd
      · by_cases hd : d = quote
        · rw [if_neg hc, if_pos hd] at h
          exact absurd (List.cons.inj h).1 hc
        · rw [if_neg hc, if_neg hd] at h
          obtain ⟨hcd, hst⟩ := List.cons.inj h
          rw [hcd, ih hst]

theorem enclose_inj {quote : Char} {s t : String} : enclose quote s = enclose quote t ↔ s = t := by
  constructor
  · intro h
    have hlist := String.ofList_injective h
    have hbody := List.append_cancel_right (List.cons.inj hlist).2
    exact String.toList_inj.1 (doubled_inj hbody)
  · rintro rfl
    rfl

theorem quoteIdent_inj {s t : String} : quoteIdent s = quoteIdent t ↔ s = t := enclose_inj

theorem qualified_inj {tableAlias column column' : String} :
    qualified tableAlias column = qualified tableAlias column' ↔ column = column' := by
  constructor
  · intro h
    have hlist := congrArg String.toList h
    simp only [qualified, String.toList_append] at hlist
    exact quoteIdent_inj.1 (String.toList_inj.1 (List.append_cancel_left hlist))
  · rintro rfl
    rfl

/-! ### Plain identifiers -/

/-- A text of letters, digits and underscores. -/
def IsName (s : String) : Prop := ∀ c ∈ s.toList, Token.isNameChar c = true

theorem isNameChar_of_isLower {c : Char} (h : c.isLower = true) : Token.isNameChar c = true := by
  change (c.isUpper || c.isLower || c.isDigit || decide (c = '_')) = true
  rw [h, Bool.or_true, Bool.true_or, Bool.true_or]

theorem isNameChar_of_isDigit {c : Char} (h : c.isDigit = true) : Token.isNameChar c = true := by
  change (c.isAlpha || c.isDigit || decide (c = '_')) = true
  rw [h, Bool.or_true, Bool.true_or]

/-- A character of a lower-case identifier. -/
def IsWordChar (c : Char) : Prop := c.isLower = true ∨ c.isDigit = true ∨ c = '_'

theorem IsWordChar.isNameChar {c : Char} (h : IsWordChar c) : Token.isNameChar c = true := by
  rcases h with h | h | rfl
  · exact isNameChar_of_isLower h
  · exact isNameChar_of_isDigit h
  · rfl

/-- A lower-case identifier: a text of the form `[a-z_][a-z0-9_]*`. -/
def IsIdentifier (s : String) : Prop :=
  ∃ c rest, s.toList = c :: rest ∧ (c.isLower = true ∨ c = '_') ∧ ∀ d ∈ rest, IsWordChar d

theorem IsIdentifier.isWordChar {s : String} (h : IsIdentifier s) :
    ∀ c ∈ s.toList, IsWordChar c := by
  obtain ⟨first, rest, hlist, hfirst, hrest⟩ := h
  intro c hc
  rw [hlist] at hc
  rcases List.mem_cons.1 hc with rfl | hc
  · exact hfirst.imp_right .inr
  · exact hrest c hc

theorem IsIdentifier.isName {s : String} (h : IsIdentifier s) : IsName s :=
  fun c hc => (h.isWordChar c hc).isNameChar

theorem IsWordChar.toLower_eq {c : Char} (h : IsWordChar c) : c.toLower = c := by
  refine dif_neg ?_
  rintro ⟨hA, hZ⟩
  rw [ge_iff_le, UInt32.le_iff_toNat_le] at hA
  rw [UInt32.le_iff_toNat_le] at hZ
  change 65 ≤ c.val.toNat at hA
  change c.val.toNat ≤ 90 at hZ
  rcases h with h | h | rfl
  · have ha := (Bool.and_eq_true_iff.1 h).1
    rw [decide_eq_true_eq, ge_iff_le, UInt32.le_iff_toNat_le] at ha
    change 97 ≤ c.val.toNat at ha
    omega
  · have hnine := (Bool.and_eq_true_iff.1 h).2
    rw [decide_eq_true_eq, UInt32.le_iff_toNat_le] at hnine
    change c.val.toNat ≤ 57 at hnine
    omega
  · exact absurd hZ (by decide)

theorem IsIdentifier.toLower_eq {s : String} (h : IsIdentifier s) : s.toLower = s := by
  have hchars : s.toList.map Char.toLower = s.toList :=
    (List.map_congr_left fun c hc => (h.isWordChar c hc).toLower_eq).trans (List.map_id _)
  rw [← String.toList_inj]
  exact String.toList_map.trans hchars

theorem isLower_toLower {c : Char} (h : c.isUpper = true) : c.toLower.isLower = true := by
  have hb : 'A'.val ≤ c.val ∧ c.val ≤ 'Z'.val := of_decide_eq_true h
  have hv : c.toLower.val.toNat = c.val.toNat + 32 := by
    change (dite ('A'.val ≤ c.val ∧ c.val ≤ 'Z'.val) _ _ : Char).val.toNat = _
    rw [dif_pos hb]
    obtain ⟨-, hz⟩ := hb
    rw [UInt32.le_iff_toNat_le] at hz
    change c.val.toNat ≤ 90 at hz
    change (c.val.toNat + 32) % 4294967296 = _
    omega
  rw [UInt32.le_iff_toNat_le, UInt32.le_iff_toNat_le] at hb
  change 65 ≤ _ ∧ _ ≤ 90 at hb
  change (decide ('a'.val ≤ c.toLower.val) && decide (c.toLower.val ≤ 'z'.val)) = true
  rw [Bool.and_eq_true, decide_eq_true_eq, decide_eq_true_eq, UInt32.le_iff_toNat_le,
    UInt32.le_iff_toNat_le, hv]
  change 97 ≤ _ ∧ _ ≤ 122
  omega

theorem isWordChar_snakeChars {afterLower : Bool} {s : List Char} {c : Char}
    (h : c ∈ snakeChars afterLower s) : IsWordChar c := by
  induction s generalizing afterLower with
  | nil => simp [snakeChars] at h
  | cons d s ih =>
    unfold snakeChars at h
    split at h
    · next hd =>
      split at h
      · rcases List.mem_cons.1 h with rfl | h
        · exact .inr (.inr rfl)
        · rcases List.mem_cons.1 h with rfl | h
          · exact .inl (isLower_toLower hd)
          · exact ih h
      · rcases List.mem_cons.1 h with rfl | h
        · exact .inl (isLower_toLower hd)
        · exact ih h
    · next hd =>
      split at h
      · next hword =>
        rcases List.mem_cons.1 h with rfl | h
        · change (c.isUpper || c.isLower || c.isDigit) = true at hword
          rw [Bool.eq_false_iff.2 hd, Bool.false_or, Bool.or_eq_true] at hword
          exact hword.imp_right .inl
        · exact ih h
      · rcases List.mem_cons.1 h with rfl | h
        · exact .inr (.inr rfl)
        · exact ih h

/-- Whatever a name is, its snake case is an identifier. -/
theorem isIdentifier_snakeCase (name : String) : IsIdentifier (snakeCase name) := by
  have hchars : ∀ c ∈ snakeChars false name.toList, IsWordChar c :=
    fun c hc => isWordChar_snakeChars hc
  unfold snakeCase
  split
  · exact ⟨'t', [], rfl, .inl rfl, fun d hd => absurd hd List.not_mem_nil⟩
  · next first rest heq =>
    rw [heq] at hchars
    split
    · exact ⟨'t', first :: rest, String.toList_ofList, .inl rfl, hchars⟩
    · next hdigit =>
      have hfirst := hchars first List.mem_cons_self
      exact ⟨first, rest, String.toList_ofList, hfirst.imp_right fun h => h.resolve_left hdigit,
        fun d hd => hchars d (List.mem_cons_of_mem _ hd)⟩

theorem isName_snakeCase (name : String) : IsName (snakeCase name) :=
  (isIdentifier_snakeCase name).isName

theorem isIdentifier_append {s t : String} (hs : IsIdentifier s)
    (ht : ∀ c ∈ t.toList, IsWordChar c) : IsIdentifier (s ++ t) := by
  obtain ⟨first, rest, hlist, hfirst, hrest⟩ := hs
  have happend : (s ++ t).toList = first :: (rest ++ t.toList) := by
    rw [String.toList_append, hlist, List.cons_append]
  refine ⟨first, rest ++ t.toList, happend, hfirst, fun c hc => ?_⟩
  rcases List.mem_append.1 hc with hc | hc
  · exact hrest c hc
  · exact ht c hc

theorem isName_append {s t : String} (hs : IsName s) (ht : IsName t) : IsName (s ++ t) := by
  intro c hc
  rw [String.toList_append] at hc
  rcases List.mem_append.1 hc with hc | hc
  · exact hs c hc
  · exact ht c hc

theorem isWordChar_toString (n : Nat) : ∀ c ∈ (toString n).toList, IsWordChar c := by
  intro c hc
  have hdigits : (toString n).toList = Nat.toDigits 10 n := String.toList_ofList
  rw [hdigits] at hc
  exact .inr (.inl (Nat.isDigit_of_mem_toDigits (by omega) (by omega) hc))

theorem isName_toString (n : Nat) : IsName (toString n) :=
  fun c hc => (isWordChar_toString n c hc).isNameChar

theorem isName_underscore : IsName "_" := by
  intro c hc
  rw [List.mem_singleton.1 hc]
  rfl

/-- Whatever an alias is made of, it is an identifier. -/
theorem isIdentifier_numbered (hint : String) (n : Nat) :
    IsIdentifier (snakeCase hint ++ "_" ++ toString n) := by
  refine isIdentifier_append (isIdentifier_append (isIdentifier_snakeCase hint) ?_)
    (isWordChar_toString n)
  exact fun c hc => .inr (.inr (List.mem_singleton.1 hc))

theorem isName_aliasFor (scope : Scope) (hint : String) : IsName (scope.aliasFor hint) :=
  (isIdentifier_numbered hint _).isName

/-- A name ends where the first other character stands. -/
theorem name_append_inj {s t rest rest' : List Char} {c d : Char}
    (hs : ∀ x ∈ s, Token.isNameChar x = true) (ht : ∀ x ∈ t, Token.isNameChar x = true)
    (hc : Token.isNameChar c = false) (hd : Token.isNameChar d = false)
    (h : s ++ c :: rest = t ++ d :: rest') : s = t ∧ c = d ∧ rest = rest' := by
  induction s generalizing t with
  | nil =>
    cases t with
    | nil => exact ⟨rfl, (List.cons.inj h).1, (List.cons.inj h).2⟩
    | cons x t =>
      have hx := ht x List.mem_cons_self
      rw [← (List.cons.inj h).1, hc] at hx
      cases hx
  | cons x s ih =>
    cases t with
    | nil =>
      have hx := hs x List.mem_cons_self
      rw [(List.cons.inj h).1, hd] at hx
      cases hx
    | cons y t =>
      obtain ⟨hxy, hrest⟩ := List.cons.inj h
      obtain ⟨hst, hcd, hr⟩ := ih (fun z hz => hs z (List.mem_cons_of_mem _ hz))
        (fun z hz => ht z (List.mem_cons_of_mem _ hz)) hrest
      exact ⟨by rw [hxy, hst], hcd, hr⟩

/-- A column is no call of a function and no expression in parentheses. -/
theorem qualified_ne_call {tableAlias column function body : String} (ha : IsName tableAlias)
    (hf : IsName function) : function ++ ("(" ++ body) ≠ qualified tableAlias column := by
  intro h
  have hlist := congrArg String.toList h
  simp only [qualified, String.toList_append, List.append_assoc] at hlist
  have hp : "(".toList = ['('] := rfl
  have hdot : ".".toList = ['.'] := rfl
  rw [hp, hdot, List.singleton_append, List.singleton_append] at hlist
  obtain ⟨-, hc, -⟩ := name_append_inj hf ha rfl rfl hlist
  cases hc

end Sql

end ObjectGraph
