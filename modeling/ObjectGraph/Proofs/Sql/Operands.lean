import ObjectGraph.Proofs.Sql.Reading

/-! # Operands

What keywords combine are operands, each with blanks around it.  `StandsFor` says that pieces are an
operand of some truth: a group is one of the truth of what is in it (`standsFor_group`), and an atom
is one of its own truth (`standsFor_atom`).  Operands with `AND` or `OR` between them mean what they
say (`result_and`, `result_or`, by induction on the operands).

So complete conditions can be put together: the conjunction and the disjunction that a query writes
are operands in parentheses (`truth_conjunction`, `truth_disjunction`). -/

namespace ObjectGraph

namespace Sql

/-! ### Blanks -/

/-- Only blanks. -/
def Blanks (pieces : List Piece) : Prop := ∀ piece ∈ pieces, piece.isBlank = true

/-- Pieces that begin and end outside blanks. -/
structure Solid (pieces : List Piece) : Prop where
  first : ∃ piece rest, pieces = piece :: rest ∧ piece.isBlank = false
  last : ∃ piece ∈ pieces.getLast?, piece.isBlank = false

/-- Pieces without the blanks around them. -/
def trimmed (pieces : List Piece) : List Piece :=
  (pieces.dropWhile Piece.isBlank).rdropWhile Piece.isBlank

theorem dropWhile_blanks {blanks pieces : List Piece} (hb : Blanks blanks)
    (hs : ∃ piece rest, pieces = piece :: rest ∧ piece.isBlank = false) :
    (blanks ++ pieces).dropWhile Piece.isBlank = pieces := by
  obtain ⟨piece, rest, rfl, hpiece⟩ := hs
  rw [List.dropWhile_append_of_pos hb, List.dropWhile_cons_of_neg (by rw [hpiece]; decide)]

theorem rdropWhile_blanks {blanks pieces : List Piece} (hb : Blanks blanks)
    (hs : ∃ piece ∈ pieces.getLast?, piece.isBlank = false) :
    (pieces ++ blanks).rdropWhile Piece.isBlank = pieces := by
  obtain ⟨piece, hpiece, hblank⟩ := hs
  have hreverse : ∃ first rest, pieces.reverse = first :: rest ∧ first.isBlank = false := by
    obtain ⟨init, rfl⟩ := List.getLast?_eq_some_iff.1 hpiece
    exact ⟨piece, init.reverse, by rw [List.reverse_append]; rfl, hblank⟩
  have hblanks : Blanks blanks.reverse := fun p hp => hb p (List.mem_reverse.1 hp)
  have hdrop := dropWhile_blanks hblanks hreverse
  rw [List.rdropWhile, List.reverse_append, hdrop, List.reverse_reverse]

theorem trimmed_blanks {before pieces after : List Piece} (hb : Blanks before) (ha : Blanks after)
    (hs : Solid pieces) : trimmed (before ++ (pieces ++ after)) = pieces := by
  have hfirst : ∃ piece rest, pieces ++ after = piece :: rest ∧ piece.isBlank = false := by
    obtain ⟨piece, rest, rfl, hpiece⟩ := hs.first
    exact ⟨piece, rest ++ after, rfl, hpiece⟩
  rw [trimmed, dropWhile_blanks hb hfirst, rdropWhile_blanks ha hs.last]

theorem blanks_nil : Blanks [] := fun _ h => absurd h List.not_mem_nil

theorem blanks_one : Blanks [.blank] := by
  intro piece h
  rw [List.mem_singleton.1 h]
  rfl

/-! ### Pieces that go on with an operand -/

/-- What is pending after a piece that goes on with the operand at hand; none if it ends the
operand. -/
def Piece.pend (pending : List Pending) (piece : Piece) : Option (List Pending) :=
  if piece.isKeyword "CASE" then some (.branches :: pending)
  else if piece.isKeyword "BETWEEN" then some (.between :: pending)
  else if piece.isKeyword "END" then some pending.tail
  else if piece.isKeyword "AND" then
    match pending with
    | [] => none
    | .between :: pending => some pending
    | .branches :: _ => some pending
  else if piece.isKeyword "OR" && pending.isEmpty then none
  else some pending

/-- What is pending after pieces that go on with the operand at hand. -/
def pendAll (pending : List Pending) (pieces : List Piece) : Option (List Pending) :=
  pieces.foldlM Piece.pend pending

/-- A piece that goes on with any operand, and leaves pending what is. -/
def Piece.inOperand (piece : Piece) : Bool :=
  ["CASE", "BETWEEN", "END", "AND", "OR"].all fun keyword => !piece.isKeyword keyword

/-- Pieces with their truth. -/
def valued (v : Atoms) (ps : List Piece) : List (Piece × Truth) := ps.map fun p => (p, p.truth v)

section

variable {v : Atoms} {m : Meaning} {ps : List Piece} {t : Truth} {pending : List Pending}

theorem add_pend {piece : Piece} (h : piece.pend m.pending = some pending) :
    m.add v piece t = m.keep piece t pending := by
  unfold Piece.pend at h
  unfold Meaning.add
  by_cases hcase : piece.isKeyword "CASE" = true
  · rw [if_pos hcase] at h ⊢
    cases h
    rfl
  rw [if_neg hcase] at h ⊢
  by_cases hbetween : piece.isKeyword "BETWEEN" = true
  · rw [if_pos hbetween] at h ⊢
    cases h
    rfl
  rw [if_neg hbetween] at h ⊢
  by_cases hend : piece.isKeyword "END" = true
  · rw [if_pos hend] at h ⊢
    cases h
    rfl
  rw [if_neg hend] at h ⊢
  by_cases hand : piece.isKeyword "AND" = true
  · rw [if_pos hand] at h ⊢
    cases hm : m.pending with
    | nil =>
      rw [hm] at h
      cases h
    | cons innermost outer =>
      rw [hm] at h
      cases innermost with
      | between =>
        cases h
        rfl
      | branches =>
        cases h
        rfl
  rw [if_neg hand] at h ⊢
  by_cases hor : (piece.isKeyword "OR" && m.pending.isEmpty) = true
  · rw [if_pos hor] at h
    cases h
  · rw [if_neg hor] at h ⊢
    cases h
    rfl

theorem meaning_pendAll (h : pendAll m.pending ps = some pending) (rest : List Piece) :
    meaning v m (ps ++ rest) =
      meaning v { m with operand := m.operand ++ valued v ps, pending } rest := by
  induction ps generalizing m with
  | nil =>
    cases h
    rw [List.nil_append, valued, List.map_nil, List.append_nil]
  | cons p ps ih =>
    rw [pendAll, List.foldlM_cons] at h
    obtain ⟨next, hnext, hrest⟩ := Option.bind_eq_some_iff.1 h
    rw [List.cons_append, meaning_cons, add_pend hnext, ih (by exact hrest)]
    unfold Meaning.keep valued
    rw [List.append_assoc]
    rfl

theorem pend_inOperand {piece : Piece} (h : piece.inOperand = true) (pending : List Pending) :
    piece.pend pending = some pending := by
  have hkeyword : ∀ keyword ∈ ["CASE", "BETWEEN", "END", "AND", "OR"],
      piece.isKeyword keyword = false := by
    intro keyword hk
    have hnot := List.all_eq_true.1 h keyword hk
    rwa [Bool.not_eq_true'] at hnot
  simp only [List.forall_mem_cons] at hkeyword
  obtain ⟨hcase, hbetween, hend, hand, hor, -⟩ := hkeyword
  simp [Piece.pend, hcase, hbetween, hend, hand, hor]

theorem pendAll_inOperand (h : ∀ p ∈ ps, p.inOperand = true) (pending : List Pending) :
    pendAll pending ps = some pending := by
  induction ps with
  | nil => rfl
  | cons p ps ih =>
    rw [pendAll, List.foldlM_cons, pend_inOperand (h p List.mem_cons_self)]
    exact ih fun q hq => h q (List.mem_cons_of_mem _ hq)

theorem meaning_inOperand (h : ∀ p ∈ ps, p.inOperand = true) (rest : List Piece) :
    meaning v m (ps ++ rest) =
      meaning v { m with operand := m.operand ++ valued v ps } rest :=
  meaning_pendAll (pendAll_inOperand h m.pending) rest

/-- Pieces are an operand of some truth, whatever blanks stand around them. -/
structure StandsFor (v : Atoms) (ps : List Piece) (t : Truth) : Prop where
  inOperand : ∀ p ∈ ps, p.inOperand = true
  truth : ∀ before after : List (Piece × Truth), Blanks (before.map Prod.fst) →
    Blanks (after.map Prod.fst) → operandTruth v (before ++ (valued v ps ++ after)) = t

theorem operandTruth_blanks {before after : List (Piece × Truth)}
    (hb : Blanks (before.map Prod.fst)) :
    operandTruth v (before ++ after) = operandTruth v after := by
  induction before with
  | nil => rfl
  | cons item before ih =>
    obtain ⟨piece, t⟩ := item
    have hpiece : piece.isBlank = true := hb piece List.mem_cons_self
    rw [List.cons_append, operandTruth, if_pos hpiece]
    exact ih fun p hp => hb p (List.mem_cons_of_mem _ hp)

theorem standsFor_group (ps : List Piece) :
    StandsFor v [.group ps] ((meaning v {} ps).result v) where
  inOperand p hp := by
    rw [List.mem_singleton.1 hp]
    rfl
  truth before after hb ha := by
    have hall : after.all (fun item => item.1.isBlank) = true :=
      List.all_eq_true.2 fun item hitem => ha _ (List.mem_map_of_mem hitem)
    rw [operandTruth_blanks hb, ← truth_group]
    change operandTruth v ((.group ps, (Piece.group ps).truth v) :: after) = _
    rw [operandTruth, hall]
    rfl

/-- Pieces that begin with no `NOT` and are no group alone are an atom. -/
theorem operandTruth_atom {first : Piece} {rest : List Piece} (hsolid : Solid (first :: rest))
    (hnot : first.isKeyword "NOT" = false) (hgroup : first.isGroup = false ∨ rest ≠ [])
    {before after : List (Piece × Truth)} (hb : Blanks (before.map Prod.fst))
    (ha : Blanks (after.map Prod.fst)) :
    operandTruth v (before ++ (valued v (first :: rest) ++ after)) = v (first :: rest) := by
  obtain ⟨piece, others, heq, hblank⟩ := hsolid.first
  obtain ⟨rfl, rfl⟩ := List.cons.inj heq
  have hpieces : (valued v (first :: rest) ++ after).map Prod.fst =
      (first :: rest) ++ after.map Prod.fst := by
    unfold valued
    rw [List.map_append, List.map_map]
    exact congrArg (· ++ _) (List.map_id _)
  have htrim := rdropWhile_blanks ha hsolid.last
  rw [← hpieces] at htrim
  have halone : (first.isGroup &&
      (valued v rest ++ after).all fun item => item.1.isBlank) = false := by
    rcases hgroup with hgroup | hrest
    · rw [hgroup, Bool.false_and]
    · obtain ⟨last, hlast, hsome⟩ := hsolid.last
      rw [List.getLast?_cons_of_ne_nil hrest] at hlast
      have hitem : (last, last.truth v) ∈ valued v rest ++ after :=
        List.mem_append_left _ (List.mem_map_of_mem (List.mem_of_getLast? hlast))
      rw [Bool.and_eq_false_iff]
      refine .inr (List.all_eq_false.2 ⟨_, hitem, ?_⟩)
      rw [hsome]
      decide
  rw [operandTruth_blanks hb]
  change operandTruth v ((first, first.truth v) :: (valued v rest ++ after)) = _
  rw [operandTruth, hblank, hnot, halone]
  change v (((valued v (first :: rest) ++ after).map Prod.fst).rdropWhile Piece.isBlank) = _
  rw [htrim]

/-- An atom begins with a piece that is no group and no `NOT`. -/
theorem standsFor_atom {first : Piece} {rest : List Piece}
    (hoperand : ∀ p ∈ first :: rest, p.inOperand = true) (hsolid : Solid (first :: rest))
    (hnot : first.isKeyword "NOT" = false) (hgroup : first.isGroup = false) :
    StandsFor v (first :: rest) (v (first :: rest)) where
  inOperand := hoperand
  truth _ _ hb ha := operandTruth_atom hsolid hnot (.inl hgroup) hb ha

end

/-! ### Operands with a keyword between them -/

namespace Truth

theorem or_assoc (a b c : Truth) : (a.or b).or c = a.or (b.or c) := by
  cases a <;> cases b <;> cases c <;> rfl

theorem or_no (a : Truth) : a.or no = a := by cases a <;> rfl

theorem or_eq_yes {a b : Truth} : a.or b = yes ↔ a = yes ∨ b = yes := by
  cases a <;> cases b <;> decide

theorem any_yes {truths : List Truth} : truths.foldr or no = yes ↔ ∃ t ∈ truths, t = yes := by
  induction truths with
  | nil => simp
  | cons t truths ih => rw [List.foldr_cons, or_eq_yes, ih, List.exists_mem_cons_iff]

end Truth

/-- A keyword with blanks around it. -/
def spaced (keyword : List Char) : List Piece := [.blank, .word keyword, .blank]

section

variable {v : Atoms} {m : Meaning} {ps : List Piece} {t : Truth} {operands : List (List Piece)}
  {truths : List Truth}

theorem last_standsFor (h : StandsFor v ps t) (hb : Blanks (m.operand.map Prod.fst)) :
    (meaning v m ps).disjunction = m.disjunction ∧
      (meaning v m ps).last v = m.conjunction.and t := by
  have hmeaning := meaning_inOperand (v := v) (m := m) h.inOperand []
  rw [List.append_nil, meaning] at hmeaning
  have htruth := h.truth m.operand [] hb blanks_nil
  rw [List.append_nil] at htruth
  rw [hmeaning]
  exact ⟨rfl, congrArg m.conjunction.and htruth⟩

/-- An operand with a blank and a keyword after it. -/
theorem meaning_spaced (h : StandsFor v ps t) (hb : Blanks (m.operand.map Prod.fst))
    (hp : m.pending = []) (keyword : List Char) (rest : List Piece) :
    ∃ m' : Meaning, m'.disjunction = m.disjunction ∧ m'.pending = [] ∧
      m'.last v = m.conjunction.and t ∧
      meaning v m (ps ++ spaced keyword ++ rest) =
        meaning v ((m'.add v (.word keyword) .unknown).add v .blank .unknown) rest := by
  refine ⟨({ m with operand := m.operand ++ valued v ps } : Meaning).add v .blank .unknown, rfl, hp,
    ?_, ?_⟩
  · have htruth := h.truth m.operand [(.blank, .unknown)] hb blanks_one
    rw [← List.append_assoc] at htruth
    exact congrArg m.conjunction.and htruth
  · rw [List.append_assoc, meaning_inOperand h.inOperand]
    unfold spaced
    rw [List.cons_append, List.cons_append, List.cons_append, List.nil_append, meaning_cons,
      meaning_cons, meaning_cons]
    simp only [Piece.truth]

/-- Operands with `AND` between them are conjoined. -/
theorem result_and (h : List.Forall₂ (StandsFor v) operands truths) (hne : operands ≠ [])
    (hb : Blanks (m.operand.map Prod.fst)) (hp : m.pending = []) :
    (meaning v m ((spaced ['A', 'N', 'D']).intercalate operands)).result v =
      m.disjunction.or (m.conjunction.and (truths.foldr Truth.and .yes)) := by
  induction h generalizing m with
  | nil => exact absurd rfl hne
  | @cons ps t operands truths hfirst hrest ih =>
    cases hrest with
    | nil =>
      obtain ⟨hdisjunction, hlast⟩ := last_standsFor hfirst hb
      rw [List.intercalate_singleton, Meaning.result, hdisjunction, hlast, List.foldr_cons,
        List.foldr_nil, Truth.and_yes]
    | cons hnext hrest =>
      obtain ⟨m', hdisjunction, hpending, hlast, hlink⟩ :=
        meaning_spaced hfirst hb hp ['A', 'N', 'D'] _
      rw [List.intercalate_cons_cons, hlink, add_and hpending,
        ih (List.cons_ne_nil _ _) (by exact blanks_one) (by exact hpending)]
      change m'.disjunction.or ((m'.last v).and _) = _
      rw [hdisjunction, hlast, Truth.and_assoc]
      rfl

/-- Operands with `OR` between them are disjoined. -/
theorem result_or (h : List.Forall₂ (StandsFor v) operands truths) (hne : operands ≠ [])
    (hb : Blanks (m.operand.map Prod.fst)) (hp : m.pending = []) (hc : m.conjunction = .yes) :
    (meaning v m ((spaced ['O', 'R']).intercalate operands)).result v =
      m.disjunction.or (truths.foldr Truth.or .no) := by
  induction h generalizing m with
  | nil => exact absurd rfl hne
  | @cons ps t operands truths hfirst hrest ih =>
    have hyes : m.conjunction.and t = t := by rw [hc]; rfl
    cases hrest with
    | nil =>
      obtain ⟨hdisjunction, hlast⟩ := last_standsFor hfirst hb
      rw [List.intercalate_singleton, Meaning.result, hdisjunction, hlast, hyes, List.foldr_cons,
        List.foldr_nil, Truth.or_no]
    | cons hnext hrest =>
      obtain ⟨m', hdisjunction, hpending, hlast, hlink⟩ :=
        meaning_spaced hfirst hb hp ['O', 'R'] _
      have hresult : m'.result v = m.disjunction.or t := by
        rw [Meaning.result, hdisjunction, hlast, hyes]
      rw [List.intercalate_cons_cons, hlink, add_or hpending,
        ih (List.cons_ne_nil _ _) (by exact blanks_one) rfl rfl]
      change (m'.result v).or _ = _
      rw [hresult, Truth.or_assoc]
      rfl

end

/-! ### Complete conditions -/

section

variable {v : Atoms} {conditions : List String} {a b : String}

theorem joined_eq (keyword : List Char) (groups : List (List Piece)) :
    joined keyword groups =
      (spaced keyword).intercalate (groups.map fun pieces => [.group pieces]) := by
  induction groups with
  | nil => rfl
  | cons pieces rest ih =>
    cases rest with
    | nil => rfl
    | cons next rest =>
      have hjoined : joined keyword (pieces :: next :: rest) =
          [.group pieces] ++ spaced keyword ++ joined keyword (next :: rest) := rfl
      rw [hjoined, ih, List.map_cons, List.map_cons, List.map_cons, List.intercalate_cons_cons]

/-- Groups are operands of the truth of what is in them. -/
theorem standsFor_groups (groups : List (List Piece)) :
    List.Forall₂ (StandsFor v) (groups.map fun pieces => [.group pieces])
      (groups.map fun pieces => (meaning v {} pieces).result v) := by
  rw [List.forall₂_map_left_iff, List.forall₂_map_right_iff, List.forall₂_same]
  exact fun pieces _ => standsFor_group pieces

theorem exists_read (h : ∀ c ∈ conditions, Complete c) :
    ∃ groups, List.Forall₂ (fun c pieces => read c = some pieces) conditions groups := by
  induction conditions with
  | nil => exact ⟨[], .nil⟩
  | cons c conditions ih =>
    obtain ⟨groups, hgroups⟩ := ih fun d hd => h d (List.mem_cons_of_mem _ hd)
    obtain ⟨pieces, hpieces⟩ := Option.isSome_iff_exists.1 (h c List.mem_cons_self)
    exact ⟨pieces :: groups, .cons hpieces hgroups⟩

theorem truth_of_read {text : String} {pieces : List Piece} (h : read text = some pieces) :
    truth v text = (meaning v {} pieces).result v := by
  unfold truth
  rw [h]

theorem complete_conjunction (h : ∀ c ∈ conditions, Complete c) :
    Complete (conjunction conditions) := by
  match conditions with
  | [c] => exact h c List.mem_cons_self
  | [] => exact Option.isSome_iff_exists.2 ⟨_, read_conjunction .nil (by decide)⟩
  | c :: d :: rest =>
    obtain ⟨groups, hgroups⟩ := exists_read h
    have hlength : (c :: d :: rest).length ≠ 1 := by
      rw [List.length_cons, List.length_cons]
      omega
    exact Option.isSome_iff_exists.2 ⟨_, read_conjunction hgroups hlength⟩

/-- A conjunction means the conjunction of its conditions. -/
theorem truth_conjunction (h : ∀ c ∈ conditions, Complete c) (hne : conditions ≠ []) :
    truth v (conjunction conditions) = (conditions.map (truth v)).foldr Truth.and .yes := by
  match conditions with
  | [] => exact absurd rfl hne
  | [c] => exact (Truth.and_yes _).symm
  | c :: d :: rest =>
    obtain ⟨groups, hgroups⟩ := exists_read h
    have hlength : (c :: d :: rest).length ≠ 1 := by
      rw [List.length_cons, List.length_cons]
      omega
    have hgroups_ne : groups ≠ [] := by
      rintro rfl
      cases hgroups
    have hmap : ∀ {cs : List String} {gs : List (List Piece)},
        List.Forall₂ (fun c pieces => read c = some pieces) cs gs →
          cs.map (truth v) = gs.map fun pieces => (meaning v {} pieces).result v := by
      intro cs gs hcs
      induction hcs with
      | nil => rfl
      | cons hread _ ih => rw [List.map_cons, List.map_cons, ih, truth_of_read hread]
    have hblanks : Blanks (({} : Meaning).operand.map Prod.fst) := blanks_nil
    rw [truth_of_read (read_conjunction hgroups hlength), joined_eq,
      result_and (standsFor_groups groups) (by simpa using hgroups_ne) hblanks rfl, hmap hgroups]
    rfl

theorem complete_disjunction (ha : Complete a) (hb : Complete b) :
    Complete (parenthesized a ++ " OR " ++ parenthesized b) := by
  obtain ⟨p, hp⟩ := Option.isSome_iff_exists.1 ha
  obtain ⟨q, hq⟩ := Option.isSome_iff_exists.1 hb
  exact Option.isSome_iff_exists.2 ⟨_, read_disjunction hp hq⟩

/-- A disjunction means the disjunction of its conditions. -/
theorem truth_disjunction (ha : Complete a) (hb : Complete b) :
    truth v (parenthesized a ++ " OR " ++ parenthesized b) = (truth v a).or (truth v b) := by
  obtain ⟨p, hp⟩ := Option.isSome_iff_exists.1 ha
  obtain ⟨q, hq⟩ := Option.isSome_iff_exists.1 hb
  have hblanks : Blanks (({} : Meaning).operand.map Prod.fst) := blanks_nil
  rw [truth_of_read (read_disjunction hp hq), joined_eq,
    result_or (standsFor_groups [p, q]) (by simp) hblanks rfl rfl, truth_of_read hp,
    truth_of_read hq, List.map_cons, List.map_singleton, List.foldr_cons, List.foldr_cons,
    List.foldr_nil, Truth.or_no]
  rfl

end

end Sql

end ObjectGraph
