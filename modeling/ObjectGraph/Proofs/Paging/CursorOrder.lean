import ObjectGraph.Proofs.Paging.Cursors

/-! # The order of time cursors

As texts, cursors are compared letter by letter.  The prefix fills one group of three bytes and two
bytes of the next, so every third place of the digits, from the first on, ends a group.  What ends a
group is compared by one letter: there the digits from 4 on have the letters `0` to `5`, which come
before the padding, and those up to 3 the letters `w` to `z` (`endLetter`).  At the other places the
order of the letters is that of the digits.

So a cursor comes before another exactly if, at the first place where the digits differ, what
stands there has the lower rank (`ofMillis_lt_iff`).  Later instants whose milliseconds have as many
digits have later cursors unless a group ends in a digit up to 3 for one and in a digit from 4 on
for the other (`cursors_in_order`). -/

namespace ObjectGraph

namespace Cursor

/-- The rank of what stands at a place of the digits, `none` being their end. -/
def rank (place : Nat) : Option Char → Nat
  | none => if place % 3 = 0 then 10 else 0
  | some c =>
    if place % 3 ≠ 0 then c.toNat - 47
    else if c = '-' then 11
    else if c < '4' then c.toNat - 36
    else c.toNat - 48

/-- Whether digits have the lower rank at the first place where they differ from others. -/
def precedes (place : Nat) : List Char → List Char → Bool
  | c :: cs, d :: ds =>
    if c = d then precedes (place + 1) cs ds
    else decide (rank place (some c) < rank place (some d))
  | [], d :: _ => decide (rank place none < rank place (some d))
  | c :: _, [] => decide (rank place (some c) < rank place none)
  | [], [] => false

/-- Digits, and a minus only where a group ends, as at the first place. -/
def Placed : Nat → List Char → Prop
  | _, [] => True
  | place, c :: cs => (c.isDigit = true ∨ place % 3 = 0 ∧ c = '-') ∧ Placed (place + 1) cs

open Text (exists_digit)

open Text.Base64 (letter encodeBytes)

/-- The byte of a character. -/
def byte (c : Char) : UInt8 := UInt8.ofNat c.toNat

theorem toNat_byte {c : Char} (h : c.toNat < 64) : (byte c).toNat = c.toNat :=
  Text.Utf8.toNat_byte (by omega)

theorem Placed.head {place : Nat} {c : Char} {cs : List Char} (h : Placed place (c :: cs)) :
    c.toNat < 64 := by
  rcases h.1 with hdigit | ⟨-, rfl⟩
  · have := toNat_of_isDigit hdigit
    omega
  · decide

theorem Placed.isDigit {place : Nat} {c : Char} {cs : List Char} (h : Placed place (c :: cs))
    (hplace : place % 3 ≠ 0) : c.isDigit = true :=
  h.1.resolve_right fun hminus => hplace hminus.1

theorem rank_mod (place : Nat) (o : Option Char) : rank place o = rank (place % 3) o := by
  unfold rank
  rw [Nat.mod_mod]

/-! ### Letters -/

/-- The letter of what ends a group of three bytes. -/
def endLetter : Option Char → Char
  | none => '='
  | some c => letter (c.toNat % 64)

/-- What can stand at the end of a group. -/
def marks : List (Option Char) := none :: some '-' :: "0123456789".toList.map some

theorem Placed.mem_marks {place : Nat} {cs : List Char} (h : Placed place cs) :
    cs.head? ∈ marks := by
  cases cs with
  | nil => exact List.mem_cons_self
  | cons c cs =>
    rcases h.1 with hdigit | ⟨-, rfl⟩
    · obtain ⟨k, hk, rfl⟩ := exists_digit hdigit
      have hdigits : ∀ k < 10, some (Char.ofNat (48 + k)) ∈ marks := by decide
      exact hdigits k hk
    · exact List.mem_cons_of_mem _ List.mem_cons_self

theorem endLetter_lt_iff : ∀ o ∈ marks, ∀ o' ∈ marks, o ≠ o' →
    (endLetter o < endLetter o' ↔ rank 0 o < rank 0 o') ∧ endLetter o ≠ endLetter o' := by
  decide +kernel

/-- The first two letters of a group that a digit begins; of the next byte they have the high
half. -/
theorem firstLetters_lt_iff {c d : Char} (hc : c.isDigit = true) (hd : d.isDigit = true) :
    c ≠ d → ∀ high ∈ [0, 3], ∀ high' ∈ [0, 3],
      ([letter (c.toNat / 4), letter (c.toNat % 4 * 16 + high)] <
        [letter (d.toNat / 4), letter (d.toNat % 4 * 16 + high')] ↔
          rank 1 (some c) < rank 1 (some d)) ∧
      [letter (c.toNat / 4), letter (c.toNat % 4 * 16 + high)] ≠
        [letter (d.toNat / 4), letter (d.toNat % 4 * 16 + high')] := by
  obtain ⟨k, hk, rfl⟩ := exists_digit hc
  obtain ⟨l, hl, rfl⟩ := exists_digit hd
  clear hc hd
  revert k l
  decide +kernel

/-- The letter after a digit in the middle of a group. -/
theorem middleLetter_lt_iff {c d : Char} (hc : c.isDigit = true) (hd : d.isDigit = true) :
    c ≠ d →
      (letter (c.toNat % 16 * 4) < letter (d.toNat % 16 * 4) ↔
        rank 2 (some c) < rank 2 (some d)) ∧
      letter (c.toNat % 16 * 4) ≠ letter (d.toNat % 16 * 4) := by
  obtain ⟨k, hk, rfl⟩ := exists_digit hc
  obtain ⟨l, hl, rfl⟩ := exists_digit hd
  clear hc hd
  revert k l
  decide +kernel

/-- The letter before a digit in the middle of a group, and where nothing follows. -/
theorem lastLetter_lt : ∀ low < 4, letter (low * 16) < letter (low * 16 + 3) := by
  decide +kernel

/-! ### Comparison letter by letter -/

/-- Texts are compared by their first letters if these differ. -/
theorem append_lt_iff {xs ys : List Char} (hne : xs ≠ ys) (hlength : xs.length = ys.length)
    (rest rest' : List Char) : xs ++ rest < ys ++ rest' ↔ xs < ys := by
  induction xs generalizing ys with
  | nil => exact absurd (List.length_eq_zero_iff.1 hlength.symm).symm hne
  | cons x xs ih =>
    obtain ⟨y, ys, rfl⟩ := List.exists_cons_of_length_eq_add_one hlength.symm
    rw [List.cons_append, List.cons_append, List.cons_lt_cons_iff, List.cons_lt_cons_iff]
    by_cases hxy : x = y
    · subst hxy
      have htails : xs ≠ ys := fun h => hne (congrArg (x :: ·) h)
      rw [ih htails (Nat.succ.inj hlength)]
    · simp only [hxy, false_and, or_false]

variable {place : Nat} {c : Char} {cs ds : List Char}

/-- Two bytes are in their group, and what stands at the place ends it. -/
theorem encodeBytes_end (x y : UInt8) (h : Placed place cs) :
    ∃ rest, encodeBytes (x :: y :: cs.map byte) =
      letter (x.toNat / 4) :: letter (x.toNat % 4 * 16 + y.toNat / 16) ::
        letter (y.toNat % 16 * 4) :: ([endLetter cs.head?] ++ rest) := by
  cases cs with
  | nil => exact ⟨[], rfl⟩
  | cons c cs =>
    have hhigh : c.toNat / 64 = 0 := Nat.div_eq_of_lt h.head
    refine ⟨encodeBytes (cs.map byte), ?_⟩
    rw [List.map_cons, encodeBytes, toNat_byte h.head, hhigh]
    rfl

/-- The byte at the place begins a group. -/
theorem encodeBytes_first (h : Placed place (c :: cs)) (hplace : place % 3 = 1) :
    ∃ high ∈ [0, 3], ∃ rest, encodeBytes (byte c :: cs.map byte) =
      [letter (c.toNat / 4), letter (c.toNat % 4 * 16 + high)] ++ rest := by
  cases cs with
  | nil =>
    refine ⟨0, by decide, ['=', '='], ?_⟩
    rw [List.map_nil, encodeBytes, toNat_byte h.head]
    rfl
  | cons d ds =>
    have hd := toNat_of_isDigit (Placed.isDigit h.2 (by omega))
    have hhigh : d.toNat / 16 = 3 := by omega
    refine ⟨3, by decide, ?_⟩
    cases ds with
    | nil =>
      refine ⟨[letter (d.toNat % 16 * 4), '='], ?_⟩
      rw [List.map_cons, List.map_nil, encodeBytes, toNat_byte h.head,
        toNat_byte (Placed.head h.2), hhigh]
      rfl
    | cons e es =>
      refine ⟨letter (d.toNat % 16 * 4 + (byte e).toNat / 64) :: letter ((byte e).toNat % 64) ::
        encodeBytes (es.map byte), ?_⟩
      rw [List.map_cons, List.map_cons, encodeBytes, toNat_byte h.head,
        toNat_byte (Placed.head h.2), hhigh]
      rfl

/-- One byte is in its group, and a digit follows. -/
theorem encodeBytes_middle (x : UInt8) (h : Placed place (c :: cs)) (hplace : place % 3 = 2) :
    ∃ rest, encodeBytes (x :: byte c :: cs.map byte) =
      letter (x.toNat / 4) :: letter (x.toNat % 4 * 16 + 3) ::
        ([letter (c.toNat % 16 * 4)] ++ rest) := by
  have hc := toNat_of_isDigit (h.isDigit (by omega))
  have hhigh : c.toNat / 16 = 3 := by omega
  obtain ⟨rest, hrest⟩ := encodeBytes_end x (byte c) h.2
  rw [toNat_byte h.head, hhigh] at hrest
  exact ⟨_, hrest⟩

theorem encodeBytes_end_lt_iff (x y : UInt8) (hplace : place % 3 = 0) (hcs : Placed place cs)
    (hds : Placed place ds) (hne : cs.head? ≠ ds.head?) :
    encodeBytes (x :: y :: cs.map byte) < encodeBytes (x :: y :: ds.map byte) ↔
      rank place cs.head? < rank place ds.head? := by
  obtain ⟨rest, hrest⟩ := encodeBytes_end x y hcs
  obtain ⟨rest', hrest'⟩ := encodeBytes_end x y hds
  obtain ⟨hiff, hletters⟩ := endLetter_lt_iff _ hcs.mem_marks _ hds.mem_marks hne
  rw [hrest, hrest', rank_mod place, rank_mod place, hplace, ← hiff, List.cons_lt_cons_self,
    List.cons_lt_cons_self, List.cons_lt_cons_self, List.singleton_append, List.singleton_append,
    List.cons_lt_cons_iff]
  simp only [hletters, false_and, or_false]

theorem encodeBytes_first_lt_iff (hplace : place % 3 = 1) (hcs : Placed place cs)
    (hds : Placed place ds) (hne : cs.head? ≠ ds.head?) :
    encodeBytes (cs.map byte) < encodeBytes (ds.map byte) ↔
      rank place cs.head? < rank place ds.head? := by
  have hend : ∀ {c cs}, Placed place (c :: cs) → 0 < rank 1 (some c) := by
    intro c cs h
    have hc := toNat_of_isDigit (h.isDigit (by omega))
    change 0 < c.toNat - 47
    omega
  rw [rank_mod place, rank_mod place, hplace]
  cases cs with
  | nil =>
    cases ds with
    | nil => exact absurd rfl hne
    | cons d ds =>
      obtain ⟨high, -, rest, hrest⟩ := encodeBytes_first hds hplace
      rw [List.map_cons, hrest]
      exact iff_of_true (List.nil_lt_cons _ _) (hend hds)
  | cons c cs =>
    obtain ⟨high, hhigh, rest, hrest⟩ := encodeBytes_first hcs hplace
    cases ds with
    | nil =>
      rw [List.map_cons, hrest]
      exact iff_of_false (List.not_lt_nil _) (Nat.not_lt_zero _)
    | cons d ds =>
      obtain ⟨high', hhigh', rest', hrest'⟩ := encodeBytes_first hds hplace
      have hcd : c ≠ d := fun h => hne (congrArg some h)
      obtain ⟨hiff, hletters⟩ := firstLetters_lt_iff (hcs.isDigit (by omega))
        (hds.isDigit (by omega)) hcd high hhigh high' hhigh'
      rw [List.map_cons, List.map_cons, hrest, hrest']
      exact (append_lt_iff hletters rfl rest rest').trans hiff

theorem encodeBytes_middle_lt_iff (x : UInt8) (hplace : place % 3 = 2) (hcs : Placed place cs)
    (hds : Placed place ds) (hne : cs.head? ≠ ds.head?) :
    encodeBytes (x :: cs.map byte) < encodeBytes (x :: ds.map byte) ↔
      rank place cs.head? < rank place ds.head? := by
  have hend : ∀ {c cs}, Placed place (c :: cs) → 0 < rank 2 (some c) := by
    intro c cs h
    have hc := toNat_of_isDigit (h.isDigit (by omega))
    change 0 < c.toNat - 47
    omega
  have hlast := lastLetter_lt (x.toNat % 4) (Nat.mod_lt _ (by decide))
  rw [rank_mod place, rank_mod place, hplace]
  cases cs with
  | nil =>
    cases ds with
    | nil => exact absurd rfl hne
    | cons d ds =>
      obtain ⟨rest, hrest⟩ := encodeBytes_middle x hds hplace
      rw [List.map_cons, hrest, List.map_nil, encodeBytes, List.cons_lt_cons_self,
        List.cons_lt_cons_iff]
      exact iff_of_true (.inl hlast) (hend hds)
  | cons c cs =>
    obtain ⟨rest, hrest⟩ := encodeBytes_middle x hcs hplace
    cases ds with
    | nil =>
      rw [List.map_cons, hrest, List.map_nil, encodeBytes, List.cons_lt_cons_self,
        List.cons_lt_cons_iff]
      refine iff_of_false ?_ (Nat.not_lt_zero _)
      rintro (hlt | ⟨hsame, -⟩)
      · exact Char.lt_irrefl _ (Char.lt_trans hlast hlt)
      · rw [hsame] at hlast
        exact Char.lt_irrefl _ hlast
    | cons d ds =>
      obtain ⟨rest', hrest'⟩ := encodeBytes_middle x hds hplace
      have hcd : c ≠ d := fun h => hne (congrArg some h)
      obtain ⟨hiff, hletters⟩ := middleLetter_lt_iff (hcs.isDigit (by omega))
        (hds.isDigit (by omega)) hcd
      rw [List.map_cons, List.map_cons, hrest, hrest', List.cons_lt_cons_self,
        List.cons_lt_cons_self, List.singleton_append, List.singleton_append,
        List.cons_lt_cons_iff]
      simp only [hletters, false_and, or_false]
      exact hiff

theorem precedes_of_ne (hne : cs.head? ≠ ds.head?) :
    precedes place cs ds = decide (rank place cs.head? < rank place ds.head?) := by
  cases cs with
  | nil =>
    cases ds with
    | nil => exact absurd rfl hne
    | cons d ds => rfl
  | cons c cs =>
    cases ds with
    | nil => rfl
    | cons d ds =>
      have hcd : c ≠ d := fun h => hne (congrArg some h)
      rw [precedes, if_neg hcd]
      rfl

/-- The bytes that wait for their group to be full at a place. -/
theorem waiting_cases {waiting : List UInt8} (h : waiting.length = (place + 2) % 3) :
    (place % 3 = 1 ∧ waiting = []) ∨ (place % 3 = 2 ∧ ∃ x, waiting = [x]) ∨
      place % 3 = 0 ∧ ∃ x y, waiting = [x, y] := by
  match waiting, h with
  | [], h =>
    rw [List.length_nil] at h
    exact .inl ⟨by omega, rfl⟩
  | [x], h =>
    rw [List.length_singleton] at h
    exact .inr (.inl ⟨by omega, x, rfl⟩)
  | [x, y], h =>
    change 2 = _ at h
    exact .inr (.inr ⟨by omega, x, y, rfl⟩)
  | _ :: _ :: _ :: _, h =>
    simp only [List.length_cons] at h
    omega

theorem encodeBytes_lt_iff_of_ne {waiting : List UInt8}
    (hwaiting : waiting.length = (place + 2) % 3) (hcs : Placed place cs) (hds : Placed place ds)
    (hne : cs.head? ≠ ds.head?) :
    encodeBytes (waiting ++ cs.map byte) < encodeBytes (waiting ++ ds.map byte) ↔
      precedes place cs ds = true := by
  rw [precedes_of_ne hne, decide_eq_true_iff]
  obtain ⟨hplace, rfl⟩ | ⟨hplace, x, rfl⟩ | ⟨hplace, x, y, rfl⟩ := waiting_cases hwaiting
  · exact encodeBytes_first_lt_iff hplace hcs hds hne
  · exact encodeBytes_middle_lt_iff x hplace hcs hds hne
  · exact encodeBytes_end_lt_iff x y hplace hcs hds hne

/-- Digits compare by the rank of what stands at the first place where they differ, whatever bytes
wait for their group to be full. -/
theorem encodeBytes_lt_iff {waiting : List UInt8} (hwaiting : waiting.length = (place + 2) % 3)
    (hcs : Placed place cs) (hds : Placed place ds) :
    encodeBytes (waiting ++ cs.map byte) < encodeBytes (waiting ++ ds.map byte) ↔
      precedes place cs ds = true := by
  induction cs generalizing ds place waiting with
  | nil =>
    cases ds with
    | nil => exact iff_of_false (List.lt_irrefl _) Bool.false_ne_true
    | cons d ds => exact encodeBytes_lt_iff_of_ne hwaiting hcs hds (Option.some_ne_none d).symm
  | cons c cs ih =>
    by_cases hsame : ds.head? = some c
    · obtain ⟨ds, rfl⟩ := List.head?_eq_some_iff.1 hsame
      rw [precedes, if_pos rfl]
      -- the byte joins its group, which is written once it has three
      obtain ⟨hplace, rfl⟩ | ⟨hplace, x, rfl⟩ | ⟨hplace, x, y, rfl⟩ := waiting_cases hwaiting
      · have hlength : [byte c].length = (place + 1 + 2) % 3 := by
          change 1 = _
          omega
        exact ih hlength hcs.2 hds.2
      · have hlength : [x, byte c].length = (place + 1 + 2) % 3 := by
          change 2 = _
          omega
        exact ih hlength hcs.2 hds.2
      · have hlength : ([] : List UInt8).length = (place + 1 + 2) % 3 := by
          change 0 = _
          omega
        change encodeBytes (x :: y :: byte c :: cs.map byte) <
          encodeBytes (x :: y :: byte c :: ds.map byte) ↔ _
        rw [encodeBytes, encodeBytes, List.cons_lt_cons_self, List.cons_lt_cons_self,
          List.cons_lt_cons_self, List.cons_lt_cons_self]
        exact ih hlength hcs.2 hds.2
    · exact encodeBytes_lt_iff_of_ne hwaiting hcs hds fun h => hsame h.symm

/-! ### Digits of milliseconds -/

/-- The digits of milliseconds, after a minus where they are negative. -/
def decimal (n : Int) : List Char := (toString n).toList

theorem placed_of_isDigit (place : Nat) (h : ∀ c ∈ cs, c.isDigit = true) : Placed place cs := by
  induction cs generalizing place with
  | nil => trivial
  | cons c cs ih =>
    exact ⟨.inl (h c List.mem_cons_self), ih _ fun d hd => h d (List.mem_cons_of_mem c hd)⟩

theorem placed_decimal (n : Int) : Placed 0 (decimal n) := by
  have hdigits : ∀ c ∈ (toString n.natAbs).toList, c.isDigit = true :=
    (Text.numeral_toString n.natAbs).isDigit
  unfold decimal
  rw [Text.toList_toString_int]
  split
  · exact ⟨.inr ⟨rfl, rfl⟩, placed_of_isDigit 1 hdigits⟩
  · exact placed_of_isDigit 0 hdigits

theorem flatMap_utf8EncodeChar (h : Placed place cs) :
    cs.flatMap String.utf8EncodeChar = cs.map byte := by
  induction cs generalizing place with
  | nil => rfl
  | cons c cs ih =>
    have hone : String.utf8EncodeChar c = [byte c] := by
      have hc := h.head
      unfold String.utf8EncodeChar
      rw [Char.toNat_val, if_pos (by omega)]
      rfl
    rw [List.flatMap_cons, hone, ih h.2]
    rfl

/-- The prefix fills one group, and two of its bytes wait for the digits. -/
theorem encode_timePrefix (n : Int) : Text.Utf8.encode (timePrefix ++ toString n) =
    116 :: 105 :: 109 :: ([101, 58] ++ (decimal n).map byte) := by
  have hdigits : (toString n).toList.flatMap String.utf8EncodeChar = (decimal n).map byte :=
    flatMap_utf8EncodeChar (placed_decimal n)
  unfold Text.Utf8.encode
  rw [String.toList_append, List.flatMap_append, hdigits]
  rfl

/-- A cursor comes before another exactly if its digits have the lower rank at the first place
where they differ. -/
theorem ofMillis_lt_iff (m n : Int) :
    ofMillis m < ofMillis n ↔ precedes 0 (decimal m) (decimal n) = true := by
  unfold ofMillis Text.Base64.encode
  rw [String.lt_iff, String.toList_ofList, String.toList_ofList, encode_timePrefix,
    encode_timePrefix, encodeBytes, encodeBytes, List.cons_lt_cons_self, List.cons_lt_cons_self,
    List.cons_lt_cons_self, List.cons_lt_cons_self]
  exact encodeBytes_lt_iff rfl (placed_decimal m) (placed_decimal n)

/-! ### As many digits -/

/-- Behind the same digits, a group ends in a digit up to 3 in one text and in a digit from 4 on in
the other. -/
def Crosses (cs ds : List Char) : Prop :=
  ∃ common c d rest rest', cs = common ++ c :: rest ∧ ds = common ++ d :: rest' ∧
    common.length % 3 = 0 ∧ c < '4' ∧ '4' ≤ d

theorem precedes_append {c d : Char} (place : Nat) (common rest rest' : List Char) (hne : c ≠ d) :
    precedes place (common ++ c :: rest) (common ++ d :: rest') =
      decide (rank (place + common.length) (some c) < rank (place + common.length) (some d)) := by
  induction common generalizing place with
  | nil => rw [List.nil_append, List.nil_append, precedes, if_neg hne, List.length_nil,
      Nat.add_zero]
  | cons x common ih =>
    rw [List.cons_append, List.cons_append, precedes, if_pos rfl, ih, List.length_cons,
      Nat.add_right_comm, Nat.add_assoc]

theorem lt_four_iff {c : Char} : c < '4' ↔ c.toNat < 52 := Iff.rfl

theorem rank_lt_iff {place : Nat} {c d : Char} (hc : c.isDigit = true) (hd : d.isDigit = true)
    (hlt : c.toNat < d.toNat) :
    rank place (some c) < rank place (some d) ↔ ¬(place % 3 = 0 ∧ c < '4' ∧ '4' ≤ d) := by
  have hc' := toNat_of_isDigit hc
  have hd' := toNat_of_isDigit hd
  have hcminus : c ≠ '-' := by
    rintro rfl
    exact absurd hc (by decide)
  have hdminus : d ≠ '-' := by
    rintro rfl
    exact absurd hd (by decide)
  unfold rank
  simp only [hcminus, hdminus, if_false, ← Char.not_lt, lt_four_iff]
  split_ifs <;> omega

/-- Digits that first differ in a smaller one precede the others unless a group crosses there. -/
theorem precedes_digits_iff {c d : Char} {common rest rest' : List Char}
    (hcs : ∀ e ∈ common ++ c :: rest, e.isDigit = true)
    (hds : ∀ e ∈ common ++ d :: rest', e.isDigit = true) (hlt : c.toNat < d.toNat) :
    precedes 0 (common ++ c :: rest) (common ++ d :: rest') = true ↔
      ¬(common.length % 3 = 0 ∧ c < '4' ∧ '4' ≤ d) := by
  have hc := hcs c (List.mem_append_right _ List.mem_cons_self)
  have hd := hds d (List.mem_append_right _ List.mem_cons_self)
  have hne : c ≠ d := fun h => Nat.lt_irrefl _ (h ▸ hlt)
  rw [precedes_append 0 common rest rest' hne, decide_eq_true_iff, rank_lt_iff hc hd hlt,
    Nat.zero_add]

theorem numeral_decimal {n : Int} (hpos : 0 ≤ n) : Text.Numeral (decimal n) n.natAbs := by
  unfold decimal
  rw [Text.toList_toString_int, if_neg (by omega)]
  exact Text.numeral_toString _

/-- Of two numbers with as many digits the smaller has the earlier cursor unless they cross. -/
theorem precedes_iff_not_crosses {m n : Int} (hpos : 0 ≤ m)
    (hlength : (decimal m).length = (decimal n).length) (hlt : m < n) :
    precedes 0 (decimal m) (decimal n) = true ↔ ¬Crosses (decimal m) (decimal n) := by
  have hm := numeral_decimal hpos
  have hn := numeral_decimal (by omega : 0 ≤ n)
  constructor
  · rintro hprecedes ⟨common, c, d, rest, rest', hcs, hds, hplace, hc, hd⟩
    have hcd : c.toNat < d.toNat := by
      rw [← Char.not_lt, lt_four_iff] at hd
      have := lt_four_iff.1 hc
      omega
    rw [hcs] at hm hprecedes
    rw [hds] at hn hprecedes
    exact (precedes_digits_iff hm.isDigit hn.isDigit hcd).1 hprecedes ⟨hplace, hc, hd⟩
  · intro hcrosses
    obtain ⟨common, c, d, rest, rest', hcs, hds, hcd⟩ := hm.exists_lt hn hlength (by omega)
    have hprecedes := precedes_digits_iff (hcs ▸ hm.isDigit) (hds ▸ hn.isDigit) hcd
    rw [hcs, hds, hprecedes]
    rintro ⟨hplace, hc, hd⟩
    exact hcrosses ⟨common, c, d, rest, rest', hcs, hds, hplace, hc, hd⟩

/-- Instants whose milliseconds have as many digits have their cursors in the order of time exactly
where no group of digits crosses. -/
theorem ofInstant_lt_iff {t t' : Time.Instant} (hpos : 0 ≤ t.millis) (hlt : t.millis < t'.millis)
    (hlength : (decimal t.millis).length = (decimal t'.millis).length) :
    ofInstant t < ofInstant t' ↔ ¬Crosses (decimal t.millis) (decimal t'.millis) :=
  (ofMillis_lt_iff _ _).trans (precedes_iff_not_crosses hpos hlength hlt)

/-- Cursors are ordered by the ranks of their digits.  For later instants whose milliseconds have
as many digits this is the order of time exactly where no group of digits crosses; so the cursors of
objects that are ordered by an ascending key are ordered exactly if none of them cross. -/
theorem cursors_in_order (t t' : Time.Instant) (ts : List Time.Instant) :
    (ofInstant t < ofInstant t' ↔ precedes 0 (decimal t.millis) (decimal t'.millis) = true) ∧
    (0 ≤ t.millis → t.millis < t'.millis →
      (decimal t.millis).length = (decimal t'.millis).length →
        (ofInstant t < ofInstant t' ↔ ¬Crosses (decimal t.millis) (decimal t'.millis))) ∧
    ∀ width, (∀ t ∈ ts, 0 ≤ t.millis ∧ (decimal t.millis).length = width) →
      ts.Pairwise (fun t t' => t.millis < t'.millis) →
        ((ts.map ofInstant).Pairwise (· < ·) ↔
          ts.Pairwise fun t t' => ¬Crosses (decimal t.millis) (decimal t'.millis)) := by
  refine ⟨ofMillis_lt_iff _ _, ofInstant_lt_iff, fun width hts hsorted => ?_⟩
  have hpair : ∀ t ∈ ts, ∀ t' ∈ ts, t.millis < t'.millis →
      (ofInstant t < ofInstant t' ↔ ¬Crosses (decimal t.millis) (decimal t'.millis)) := by
    intro t ht t' ht' hlt
    exact ofInstant_lt_iff (hts t ht).1 hlt ((hts t ht).2.trans (hts t' ht').2.symm)
  rw [List.pairwise_map]
  constructor
  · intro hcursors
    refine (hsorted.and hcursors).imp_of_mem fun {t t'} ht ht' h => ?_
    exact (hpair t ht t' ht' h.1).1 h.2
  · intro hcrosses
    refine (hsorted.and hcrosses).imp_of_mem fun {t t'} ht ht' h => ?_
    exact (hpair t ht t' ht' h.1).2 h.2

/-- Of three instants of one second, the first two have their cursors in order and the last two do
not: their last digits are 0, 3 and 4. -/
theorem cursors_in_order_neighbours :
    let t : Time.Instant := ⟨1700000000, 0⟩
    let t' : Time.Instant := ⟨1700000000, 3000000⟩
    let t'' : Time.Instant := ⟨1700000000, 4000000⟩
    ofInstant t < ofInstant t' ∧ t'.millis < t''.millis ∧ ¬ofInstant t' < ofInstant t'' ∧
      [t, t'].Pairwise (fun t t' => t.millis < t'.millis) ∧
      ([t, t'].map ofInstant).Pairwise (· < ·) := by
  intro t t' t''
  obtain ⟨hrank, hcross, hsorted⟩ := cursors_in_order t t' [t, t']
  have hlt : ofInstant t < ofInstant t' := hrank.2 (by decide)
  refine ⟨hlt, by decide, ?_, by decide, ?_⟩
  · rw [(cursors_in_order t' t'' []).2.1 (by decide) (by decide) (by decide), not_not]
    exact ⟨"170000000000".toList, '3', '4', [], [], by decide, by decide, by decide, by decide,
      by decide⟩
  · refine (hsorted 13 (by decide) (by decide)).2 ?_
    rw [List.pairwise_pair]
    exact (hcross (by decide) (by decide) (by decide)).1 hlt

end Cursor

end ObjectGraph
