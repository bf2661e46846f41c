import ObjectGraph.Proofs.Sql.Conditions

/-! # Conditions as trees

`Derives` is the grammar of conditions: `NOT` binds tighter than `AND`, and `AND` tighter than `OR`,
both of which associate to the left; parentheses make an operand of anything.  What is left are
atoms, the `AND` of a `BETWEEN` and the branches of a `CASE` included.  A text `Denotes` a tree that
the grammar derives from its pieces.

`truth` goes over the pieces once and builds no tree.  It gives the value of every tree that the
text denotes (`Denotes.truth_eq`, one lemma per rank of the grammar), so that all of them have one
value.

A query writes its conditions with parentheses or without, and writes what it has so far again when
it disjoins.  Nevertheless its WHERE clause denotes the left fold of what was added, and can be
read in no way that has another value (`conditions_mean_fold`). -/

namespace ObjectGraph

namespace Sql

/-! ### The grammar -/

/-- A condition as a tree. -/
inductive Formula
  | atom (pieces : List Piece)
  | not (operand : Formula)
  | and (left right : Formula)
  | or (left right : Formula)

/-- The value of a tree in a row. -/
def Formula.eval (v : Atoms) : Formula → Truth
  | .atom pieces => v pieces
  | .not operand => (operand.eval v).not
  | .and left right => (left.eval v).and (right.eval v)
  | .or left right => (left.eval v).or (right.eval v)

/-- Pieces that no keyword combines: they begin with no `NOT`, are no group alone, and have no
`AND` or `OR` but within a `BETWEEN` or a `CASE`. -/
structure IsAtom (pieces : List Piece) : Prop where
  solid : Solid pieces
  whole : pendAll [] pieces = some []
  plain : ∀ first rest, pieces = first :: rest →
    first.isKeyword "NOT" = false ∧ (first.isGroup = false ∨ rest ≠ [])

/-- How tight what combines a condition binds. -/
inductive Rank
  | operand
  | conjunction
  | disjunction

/-- The trees of the pieces of a condition, or of a part of one. -/
inductive Derives : Rank → List Piece → Formula → Prop
  | atom {ps : List Piece} : IsAtom ps → Derives .operand ps (.atom ps)
  | group {ps : List Piece} {e : Formula} : Derives .disjunction ps e →
      Derives .operand [.group ps] e
  | not {keyword : Piece} {ps : List Piece} {e : Formula} : keyword.isKeyword "NOT" = true →
      Derives .operand ps e → Derives .operand (keyword :: ps) (.not e)
  | blanks {before ps after : List Piece} {e : Formula} : Blanks before → Blanks after →
      Derives .operand ps e → Derives .operand (before ++ (ps ++ after)) e
  | operand {ps : List Piece} {e : Formula} : Derives .operand ps e → Derives .conjunction ps e
  | and {keyword : Piece} {ps qs : List Piece} {e f : Formula} : Derives .conjunction ps e →
      keyword.isKeyword "AND" = true → Derives .operand qs f →
      Derives .conjunction (ps ++ keyword :: qs) (.and e f)
  | conjunction {ps : List Piece} {e : Formula} : Derives .conjunction ps e →
      Derives .disjunction ps e
  | or {keyword : Piece} {ps qs : List Piece} {e f : Formula} : Derives .disjunction ps e →
      keyword.isKeyword "OR" = true → Derives .conjunction qs f →
      Derives .disjunction (ps ++ keyword :: qs) (.or e f)

/-- A text can be read as a tree. -/
def Denotes (text : String) (e : Formula) : Prop :=
  ∃ pieces, read text = some pieces ∧ Derives .disjunction pieces e

/-! ### The value of a tree -/

section

variable {v : Atoms} {m : Meaning} {ps : List Piece} {e : Formula}

/-- Two keywords are different ones. -/
theorem Piece.isKeyword_ne {piece : Piece} {keyword other : String}
    (h : piece.isKeyword keyword = true) (hne : keyword ≠ other) :
    piece.isKeyword other = false := by
  cases piece with
  | word text =>
    rw [isKeyword, beq_iff_eq] at h
    rw [isKeyword, h, beq_eq_false_iff_ne]
    exact fun heq => hne (String.toList_inj.1 heq)
  | _ => cases h

theorem pend_not {keyword : Piece} (h : keyword.isKeyword "NOT" = true) (pending : List Pending) :
    keyword.pend pending = some pending := by
  simp [Piece.pend, keyword.isKeyword_ne h (by decide : "NOT" ≠ "CASE"),
    keyword.isKeyword_ne h (by decide : "NOT" ≠ "BETWEEN"),
    keyword.isKeyword_ne h (by decide : "NOT" ≠ "END"),
    keyword.isKeyword_ne h (by decide : "NOT" ≠ "AND"),
    keyword.isKeyword_ne h (by decide : "NOT" ≠ "OR")]

theorem pend_blank {piece : Piece} (h : piece.isBlank = true) (pending : List Pending) :
    piece.pend pending = some pending := by
  cases piece with
  | blank => rfl
  | _ => cases h

theorem pendAll_append {pending : List Pending} {qs : List Piece} :
    pendAll pending (ps ++ qs) = (pendAll pending ps).bind fun p => pendAll p qs :=
  List.foldlM_append

theorem pendAll_blanks (h : Blanks ps) (pending : List Pending) :
    pendAll pending ps = some pending := by
  induction ps with
  | nil => rfl
  | cons p ps ih =>
    rw [pendAll, List.foldlM_cons, pend_blank (h p List.mem_cons_self)]
    exact ih fun q hq => h q (List.mem_cons_of_mem _ hq)

theorem fst_valued (v : Atoms) (ps : List Piece) : (valued v ps).map Prod.fst = ps := by
  rw [valued, List.map_map]
  exact List.map_id ps

/-- What is read of an operand: it is kept together, and has the value of its tree, whatever blanks
stand around it. -/
structure Operand (v : Atoms) (ps : List Piece) (t : Truth) : Prop where
  whole : pendAll [] ps = some []
  truth : ∀ before after : List (Piece × Truth), Blanks (before.map Prod.fst) →
    Blanks (after.map Prod.fst) → operandTruth v (before ++ (valued v ps ++ after)) = t

/-- What is read of operands with `AND` between them, after a meaning at the beginning of an
operand: the value of their tree is conjoined, whatever blanks follow. -/
structure Conjoins (v : Atoms) (m m' : Meaning) (t : Truth) : Prop where
  disjunction : m'.disjunction = m.disjunction
  pending : m'.pending = []
  last : ∀ after : List (Piece × Truth), Blanks (after.map Prod.fst) →
    m'.conjunction.and (operandTruth v (m'.operand ++ after)) = m.conjunction.and t

/-- What is read of conjunctions with `OR` between them, after a meaning at the beginning of one:
the value of their tree is disjoined. -/
structure Disjoins (v : Atoms) (m m' : Meaning) (t : Truth) : Prop where
  pending : m'.pending = []
  result : m'.result v = m.disjunction.or t

theorem meaning_append {qs : List Piece} :
    meaning v m (ps ++ qs) = meaning v (meaning v m ps) qs := by
  induction ps generalizing m with
  | nil => rw [List.nil_append, meaning]
  | cons p ps ih => rw [List.cons_append, meaning_cons, meaning_cons, ih]

theorem add_keyword_and {keyword : Piece} {t : Truth} (h : keyword.isKeyword "AND" = true)
    (hp : m.pending = []) :
    m.add v keyword t = { m with conjunction := m.last v, operand := [] } := by
  simp [Meaning.add, keyword.isKeyword_ne h (by decide : "AND" ≠ "CASE"),
    keyword.isKeyword_ne h (by decide : "AND" ≠ "BETWEEN"),
    keyword.isKeyword_ne h (by decide : "AND" ≠ "END"), h, hp]

theorem add_keyword_or {keyword : Piece} {t : Truth} (h : keyword.isKeyword "OR" = true)
    (hp : m.pending = []) : m.add v keyword t = { disjunction := m.result v } := by
  simp [Meaning.add, keyword.isKeyword_ne h (by decide : "OR" ≠ "CASE"),
    keyword.isKeyword_ne h (by decide : "OR" ≠ "BETWEEN"),
    keyword.isKeyword_ne h (by decide : "OR" ≠ "END"),
    keyword.isKeyword_ne h (by decide : "OR" ≠ "AND"), h, hp]

/-! ### Each rank of the grammar -/

theorem operand_atom (h : IsAtom ps) : Operand v ps (v ps) where
  whole := h.whole
  truth before after hb ha := by
    obtain ⟨first, rest, rfl, -⟩ := h.solid.first
    obtain ⟨hnot, hgroup⟩ := h.plain first rest rfl
    exact operandTruth_atom h.solid hnot hgroup hb ha

theorem operand_group (ps : List Piece) : Operand v [.group ps] ((meaning v {} ps).result v) where
  whole := rfl
  truth := (standsFor_group ps).truth

theorem Operand.not {keyword : Piece} {t : Truth} (h : Operand v ps t)
    (hk : keyword.isKeyword "NOT" = true) : Operand v (keyword :: ps) t.not where
  whole := by
    rw [pendAll, List.foldlM_cons, pend_not hk]
    exact h.whole
  truth before after hb ha := by
    have hblank : keyword.isBlank = false := by
      cases keyword with
      | word text => rfl
      | _ => cases hk
    have hrest := h.truth [] after blanks_nil ha
    rw [List.nil_append] at hrest
    rw [operandTruth_blanks hb]
    change operandTruth v ((keyword, keyword.truth v) :: (valued v ps ++ after)) = _
    rw [operandTruth, hblank, hk]
    exact congrArg Truth.not hrest

theorem Operand.blanks {before after : List Piece} {t : Truth} (h : Operand v ps t)
    (hb : Blanks before) (ha : Blanks after) : Operand v (before ++ (ps ++ after)) t where
  whole := by
    rw [pendAll_append, pendAll_blanks hb, Option.bind_some, pendAll_append, h.whole,
      Option.bind_some, pendAll_blanks ha]
  truth outer outer' hb' ha' := by
    have hbefore : Blanks ((outer ++ valued v before).map Prod.fst) := by
      rw [List.map_append, fst_valued]
      exact fun p hp => (List.mem_append.1 hp).elim (hb' p) (hb p)
    have hafter : Blanks ((valued v after ++ outer').map Prod.fst) := by
      rw [List.map_append, fst_valued]
      exact fun p hp => (List.mem_append.1 hp).elim (ha p) (ha' p)
    have htruth := h.truth _ _ hbefore hafter
    have hpieces : outer ++ (valued v (before ++ (ps ++ after)) ++ outer') =
        outer ++ valued v before ++ (valued v ps ++ (valued v after ++ outer')) := by
      unfold valued
      simp only [List.map_append, List.append_assoc]
    rw [hpieces]
    exact htruth

/-- An operand is read as the last of a conjunction. -/
theorem Operand.conjoins {t : Truth} (h : Operand v ps t) (hp : m.pending = [])
    (hm : Blanks (m.operand.map Prod.fst)) : Conjoins v m (meaning v m ps) t := by
  have hwhole : pendAll m.pending ps = some [] := by
    rw [hp]
    exact h.whole
  have hmeaning := meaning_pendAll (v := v) hwhole []
  rw [List.append_nil, meaning] at hmeaning
  rw [hmeaning]
  refine ⟨rfl, rfl, fun after ha => ?_⟩
  have htruth := h.truth m.operand after hm ha
  rw [← List.append_assoc] at htruth
  exact congrArg m.conjunction.and htruth

theorem Conjoins.last_eq {m' : Meaning} {t : Truth} (h : Conjoins v m m' t) :
    m'.last v = m.conjunction.and t := by
  have hlast := h.last [] blanks_nil
  rw [List.append_nil] at hlast
  exact hlast

/-- One more operand is conjoined. -/
theorem Conjoins.and {m' : Meaning} {t u : Truth} (h : Conjoins v m m' t) {keyword : Piece}
    (hk : keyword.isKeyword "AND" = true) (hps : Operand v ps u) :
    Conjoins v m (meaning v m' (keyword :: ps)) (t.and u) := by
  rw [meaning_cons, add_keyword_and hk h.pending]
  have hnext := hps.conjoins (m := { m' with conjunction := m'.last v, operand := [] }) h.pending
    blanks_nil
  refine ⟨hnext.disjunction.trans h.disjunction, hnext.pending, fun after ha => ?_⟩
  rw [hnext.last after ha, h.last_eq, Truth.and_assoc]

/-- A conjunction is read as the last of a disjunction. -/
theorem Conjoins.disjoins {m' : Meaning} {t : Truth} (h : Conjoins v m m' t)
    (hc : m.conjunction = .yes) : Disjoins v m m' t := by
  refine ⟨h.pending, ?_⟩
  rw [Meaning.result, h.disjunction, h.last_eq, hc]
  rfl

/-- What a part of a condition is read as. -/
def Reads (v : Atoms) (ps : List Piece) (t : Truth) : Rank → Prop
  | .operand => Operand v ps t
  | .conjunction => ∀ m : Meaning, m.pending = [] → Blanks (m.operand.map Prod.fst) →
    Conjoins v m (meaning v m ps) t
  | .disjunction => ∀ m : Meaning, m.pending = [] → Blanks (m.operand.map Prod.fst) →
    m.conjunction = .yes → Disjoins v m (meaning v m ps) t

/-- Every part of a condition is read as its tree says. -/
theorem Derives.reads {rank : Rank} (h : Derives rank ps e) : Reads v ps (e.eval v) rank := by
  induction h with
  | atom h => exact operand_atom h
  | @group ps e _ ih =>
    have hgroup : (meaning v {} ps).result v = e.eval v := (ih {} rfl blanks_nil rfl).result
    exact hgroup ▸ operand_group ps
  | not hk _ ih => exact Operand.not ih hk
  | blanks hb ha _ ih => exact Operand.blanks ih hb ha
  | operand _ ih => exact fun m hp hm => Operand.conjoins ih hp hm
  | and _ hk _ ih ihOperand =>
    intro m hp hm
    rw [meaning_append]
    exact (ih m hp hm).and hk ihOperand
  | conjunction _ ih => exact fun m hp hm hc => (ih m hp hm).disjoins hc
  | @or keyword ps qs e f _ hk _ ih ihConjunction =>
    intro m hp hm hc
    obtain ⟨hpending, hresult⟩ := ih m hp hm hc
    rw [meaning_append, meaning_cons, add_keyword_or hk hpending]
    have hnext := Conjoins.disjoins
      (ihConjunction { disjunction := (meaning v m ps).result v } rfl blanks_nil) rfl
    refine ⟨hnext.pending, ?_⟩
    rw [hnext.result, hresult, Truth.or_assoc]
    rfl

/-- The truth of a text is the value of the trees that it denotes. -/
theorem Denotes.truth_eq {text : String} (h : Denotes text e) : truth v text = e.eval v := by
  obtain ⟨pieces, hread, hderives⟩ := h
  rw [truth_of_read hread]
  exact (hderives.reads {} rfl blanks_nil rfl).result

end

/-! ### What is written after WHERE -/

namespace Junction

/-- The tree of conditions with one more. -/
def graft (j : Junction) (e? : Option Formula) (e : Formula) : Formula :=
  match e?, j with
  | none, _ => e
  | some e', .conjoin => .and e' e
  | some e', .disjoin => .or e' e

end Junction

/-- The left fold of additions with the trees of their conditions. -/
def foldFormula (steps : List (Addition × Formula)) : Option Formula :=
  steps.foldl (fun e? step => some (step.1.junction.graft e? step.2)) none

/-- Its value, from those of the trees. -/
def foldValue (v : Atoms) (steps : List (Addition × Formula)) : Option Truth :=
  steps.foldl (fun t? step => step.1.junction.combine t? (step.2.eval v)) none

namespace Query

/-- The text of a query before its WHERE clause. -/
def beforeWhere (q : Query) : String :=
  "SELECT " ++ itemsText q.items ++ sourceText q.source ++ String.join (q.joins.map joinText)

/-- The text of a query after its WHERE clause. -/
def afterWhere (q : Query) : String := orderingText q.ordering ++ limitText q.limit

theorem text_eq (q : Query) : q.text = q.beforeWhere ++ conditionsText q.conditions ++
    q.afterWhere := by
  unfold text beforeWhere afterWhere
  exact String.append_assoc

/-- Add a condition to a query. -/
def add (q : Query) (a : Addition) : Query :=
  match a.junction with
  | .conjoin => q.andWhere a.condition
  | .disjoin => q.orWhere a.condition

theorem add_eq (q : Query) (a : Addition) :
    q.add a = { q with conditions := extend q.conditions a } := by
  obtain ⟨items, source, joins, conditions, ordering, limit⟩ := q
  obtain ⟨junction, condition⟩ := a
  cases junction with
  | conjoin => rfl
  | disjoin => cases conditions <;> rfl

theorem foldl_add (q : Query) (additions : List Addition) :
    additions.foldl add q = { q with conditions := extendAll q.conditions additions } := by
  induction additions generalizing q with
  | nil => rfl
  | cons a additions ih =>
    rw [List.foldl_cons, ih, add_eq]
    rfl

end Query

/-- Conditions of a query denote trees, one after another, whose conjunction is a tree. -/
def Accumulated (conditions : List String) (e? : Option Formula) : Prop :=
  (conditions = [] ∧ e? = none) ∨
    ∃ first rest, List.Forall₂ Denotes conditions (first :: rest) ∧
      e? = some (rest.foldl .and first)

section

variable {conditions : List String} {e : Formula}

theorem Derives.conjunction_blanks {ps after : List Piece} (h : Derives .conjunction ps e)
    (ha : Blanks after) : Derives .conjunction (ps ++ after) e := by
  cases h with
  | operand h => exact .operand (@Derives.blanks [] _ _ _ blanks_nil ha h)
  | and h hk hq =>
    rw [List.append_assoc, List.cons_append]
    exact .and h hk (@Derives.blanks [] _ _ _ blanks_nil ha hq)

/-- Groups with `AND` between them are a conjunction, which associates to the left. -/
theorem derives_joined {groups : List (List Piece)} {trees : List Formula}
    (h : List.Forall₂ (Derives .disjunction) groups trees) {ps : List Piece}
    (hps : Derives .conjunction ps e) :
    Derives .conjunction
      (ps ++ groups.flatMap fun group => spaced ['A', 'N', 'D'] ++ [.group group])
      (trees.foldl .and e) := by
  induction h generalizing ps e with
  | nil =>
    rw [List.flatMap_nil, List.append_nil]
    exact hps
  | @cons group tree groups trees hgroup _ ih =>
    have hoperand : Derives .operand ([.blank] ++ ([.group group] ++ [])) tree :=
      .blanks blanks_one blanks_nil (.group hgroup)
    have hnext := @Derives.and (.word ['A', 'N', 'D']) _ _ _ _ (hps.conjunction_blanks blanks_one)
      rfl hoperand
    rw [List.flatMap_cons, ← List.append_assoc, List.foldl_cons]
    have hpieces : ps ++ (spaced ['A', 'N', 'D'] ++ [.group group]) =
        ps ++ [.blank] ++ .word ['A', 'N', 'D'] :: ([.blank] ++ ([.group group] ++ [])) := by
      rw [List.append_assoc]
      rfl
    rw [hpieces]
    exact ih hnext

theorem joined_cons (keyword : List Char) (group : List Piece) (groups : List (List Piece)) :
    joined keyword (group :: groups) =
      [.group group] ++ groups.flatMap fun group => spaced keyword ++ [.group group] := by
  induction groups generalizing group with
  | nil => rfl
  | cons next groups ih =>
    rw [List.flatMap_cons]
    change .group group :: .blank :: .word keyword :: .blank :: joined keyword (next :: groups) = _
    rw [ih next]
    rfl

theorem exists_groups {trees : List Formula} (h : List.Forall₂ Denotes conditions trees) :
    ∃ groups, List.Forall₂ (fun c pieces => read c = some pieces) conditions groups ∧
      List.Forall₂ (Derives .disjunction) groups trees := by
  induction h with
  | nil => exact ⟨[], .nil, .nil⟩
  | cons hfirst _ ih =>
    obtain ⟨groups, hread, hderives⟩ := ih
    obtain ⟨group, hgroup, htree⟩ := hfirst
    exact ⟨group :: groups, .cons hgroup hread, .cons htree hderives⟩

/-- The text of conditions denotes the conjunction of their trees. -/
theorem denotes_conjunction {first : Formula} {rest : List Formula}
    (h : List.Forall₂ Denotes conditions (first :: rest)) :
    Denotes (conjunction conditions) (rest.foldl .and first) := by
  match conditions, h with
  | [c], .cons hfirst .nil => exact hfirst
  | c :: d :: conditions, h =>
    have hlength : (c :: d :: conditions).length ≠ 1 := by simp
    obtain ⟨groups, hread, hderives⟩ := exists_groups h
    refine ⟨_, read_conjunction hread hlength, .conjunction ?_⟩
    cases hderives with
    | cons hfirst hrest =>
      rw [joined_cons]
      exact derives_joined hrest (.operand (.group hfirst))

/-- The text of a disjunction denotes the disjunction of the trees. -/
theorem denotes_disjunction {a b : String} {f : Formula} (ha : Denotes a e) (hb : Denotes b f) :
    Denotes (parenthesized a ++ " OR " ++ parenthesized b) (.or e f) := by
  obtain ⟨p, hp, hleft⟩ := ha
  obtain ⟨q, hq, hright⟩ := hb
  refine ⟨_, read_disjunction hp hq, ?_⟩
  have hfirst : Derives .operand ([] ++ ([.group p] ++ [.blank])) e :=
    .blanks blanks_nil blanks_one (.group hleft)
  have hsecond : Derives .operand ([.blank] ++ ([.group q] ++ [])) f :=
    .blanks blanks_one blanks_nil (.group hright)
  exact @Derives.or (.word ['O', 'R']) _ _ _ _ (.conjunction (.operand hfirst)) rfl
    (.operand hsecond)

/-- What is added becomes part of the tree. -/
theorem Accumulated.extend {e? : Option Formula} (h : Accumulated conditions e?) {a : Addition}
    (ha : Denotes a.condition e) :
    Accumulated (extend conditions a) (some (a.junction.graft e? e)) := by
  obtain ⟨junction, condition⟩ := a
  rcases h with ⟨rfl, rfl⟩ | ⟨first, rest, htrees, rfl⟩
  · cases junction
    · exact .inr ⟨e, [], .cons ha .nil, rfl⟩
    · exact .inr ⟨e, [], .cons ha .nil, rfl⟩
  · cases junction with
    | conjoin =>
      refine .inr ⟨first, rest ++ [e], ?_, ?_⟩
      · exact List.rel_append htrees (.cons ha .nil)
      · rw [List.foldl_append]
        rfl
    | disjoin =>
      cases htrees with
      | @cons c _ conditions _ hfirst hrest =>
        exact .inr ⟨.or (rest.foldl .and first) e, [],
          .cons (denotes_disjunction (denotes_conjunction (.cons hfirst hrest)) ha) .nil, rfl⟩

theorem Accumulated.extendAll {steps : List (Addition × Formula)}
    (h : ∀ step ∈ steps, Denotes step.1.condition step.2) {e? : Option Formula}
    (he : Accumulated conditions e?) :
    Accumulated (extendAll conditions (steps.map Prod.fst))
      (steps.foldl (fun e? step => some (step.1.junction.graft e? step.2)) e?) := by
  induction steps generalizing conditions e? with
  | nil => exact he
  | cons step steps ih =>
    exact ih (fun later hmem => h later (List.mem_cons_of_mem _ hmem))
      (he.extend (h step List.mem_cons_self))

/-- The value of the left fold is the left fold of the values. -/
theorem map_foldFormula (v : Atoms) (steps : List (Addition × Formula)) :
    foldValue v steps = (foldFormula steps).map (Formula.eval v) := by
  suffices hfold : ∀ e? : Option Formula,
      steps.foldl (fun t? step => step.1.junction.combine t? (step.2.eval v))
          (e?.map (Formula.eval v)) =
        (steps.foldl (fun e? step => some (step.1.junction.graft e? step.2)) e?).map
          (Formula.eval v) from hfold none
  intro e?
  induction steps generalizing e? with
  | nil => rfl
  | cons step steps ih =>
    obtain ⟨⟨junction, condition⟩, e⟩ := step
    have hstep : junction.combine (e?.map (Formula.eval v)) (e.eval v) =
        (some (junction.graft e? e)).map (Formula.eval v) := by
      cases e? with
      | none => cases junction <;> rfl
      | some e' => cases junction <;> rfl
    rw [List.foldl_cons, List.foldl_cons, hstep, ih]

/-- The WHERE clause of a query means the left fold of the steps that gave its conditions, and-steps
conjoining and or-steps disjoining what is new with all there is: its text denotes the fold of the
trees, and whatever tree it denotes has the value of the fold for any values of the atoms.  Only
without any step there is no such clause. -/
theorem conditions_mean_fold {q : Query} (hq : q.conditions = [])
    {steps : List (Addition × Formula)} (h : ∀ step ∈ steps, Denotes step.1.condition step.2) :
    (steps = [] ∧ ((steps.map Prod.fst).foldl Query.add q).text = q.beforeWhere ++ q.afterWhere) ∨
      ∃ text e, ((steps.map Prod.fst).foldl Query.add q).text =
          q.beforeWhere ++ " WHERE " ++ text ++ q.afterWhere ∧
        foldFormula steps = some e ∧ Denotes text e ∧
        ∀ f, Denotes text f → ∀ v, foldValue v steps = some (f.eval v) := by
  obtain ⟨conditions, hconditions⟩ : ∃ conditions, extendAll q.conditions (steps.map Prod.fst) =
    conditions := ⟨_, rfl⟩
  have hfold : Accumulated conditions (foldFormula steps) := by
    rw [← hconditions, hq]
    exact Accumulated.extendAll h (.inl ⟨rfl, rfl⟩)
  rcases hfold with ⟨rfl, hnone⟩ | ⟨first, rest, htrees, hsome⟩
  · refine .inl ⟨?_, ?_⟩
    · -- a last step gives a tree
      by_contra hne
      obtain ⟨before, last, rfl⟩ := List.eq_nil_or_concat steps |>.resolve_left hne
      rw [foldFormula, List.concat_eq_append, List.foldl_append] at hnone
      cases hnone
    · rw [Query.foldl_add, hconditions, Query.text_eq]
      have hclause : Query.conditionsText [] = "" := rfl
      rw [hclause, String.append_empty]
      rfl
  · have hdenotes := denotes_conjunction htrees
    have htext : Query.conditionsText conditions = " WHERE " ++ conjunction conditions := by
      cases htrees
      rfl
    refine .inr ⟨conjunction conditions, _, ?_, hsome, hdenotes, fun f hf v => ?_⟩
    · rw [Query.foldl_add, hconditions, Query.text_eq, htext, ← String.append_assoc]
      rfl
    · rw [map_foldFormula, hsome, Option.map_some, ← hdenotes.truth_eq, hf.truth_eq]

end

/-! ### Rows that are shared -/

namespace Shared

theorem isAtom_word {word : List Char} (hoperand : (Piece.word word).inOperand = true)
    (hnot : (Piece.word word).isKeyword "NOT" = false) : IsAtom [.word word] where
  solid := ⟨⟨_, _, rfl, rfl⟩, ⟨_, rfl, rfl⟩⟩
  whole := pendAll_inOperand (List.forall_mem_singleton.2 hoperand) []
  plain _ _ heq := by
    obtain ⟨rfl, rfl⟩ := List.cons.inj heq
    exact ⟨hnot, .inl rfl⟩

def owned : Formula := .atom [.word "owned".toList]

def shared : Formula := .atom [.word "shared".toList]

def hidden : Formula := .atom [.word "hidden".toList]

/-- The title of a row holds what looks like a connective. -/
def title : List Piece :=
  [.word "title".toList, .blank, .symbol '=', .blank, .quoted "') OR ('".toList]

theorem denotes_either : Denotes "owned OR shared" (.or owned shared) := by
  have hleft : Derives .operand ([] ++ ([.word "owned".toList] ++ [.blank])) owned :=
    .blanks blanks_nil blanks_one (.atom (isAtom_word rfl rfl))
  have hright : Derives .operand ([.blank] ++ ([.word "shared".toList] ++ [])) shared :=
    .blanks blanks_one blanks_nil (.atom (isAtom_word rfl rfl))
  exact ⟨_, rfl, @Derives.or (.word "OR".toList) _ _ _ _ (.conjunction (.operand hleft)) rfl
    (.operand hright)⟩

theorem denotes_visible : Denotes "NOT hidden" (.not hidden) := by
  have hhidden : Derives .operand ([.blank] ++ ([.word "hidden".toList] ++ [])) hidden :=
    .blanks blanks_one blanks_nil (.atom (isAtom_word rfl rfl))
  exact ⟨_, rfl, .conjunction (.operand (@Derives.not (.word "NOT".toList) _ _ rfl hhidden))⟩

theorem denotes_title : Denotes "title = ') OR ('" (.atom title) := by
  have hatom : IsAtom title := by
    refine ⟨⟨⟨_, _, rfl, rfl⟩, ⟨_, rfl, rfl⟩⟩, rfl, fun _ _ heq => ?_⟩
    obtain ⟨rfl, rfl⟩ := List.cons.inj heq
    exact ⟨rfl, .inl rfl⟩
  exact ⟨_, rfl, .conjunction (.operand (.atom hatom))⟩

def steps : List (Addition × Formula) :=
  [(⟨.conjoin, "owned OR shared"⟩, .or owned shared), (⟨.conjoin, "NOT hidden"⟩, .not hidden),
    (⟨.disjoin, "title = ') OR ('"⟩, .atom title)]

theorem denotes_steps : ∀ step ∈ steps, Denotes step.1.condition step.2 :=
  List.forall_mem_cons.2 ⟨denotes_either, List.forall_mem_cons.2
    ⟨denotes_visible, List.forall_mem_singleton.2 denotes_title⟩⟩

end Shared

/-- What is owned or shared, and not hidden, or else has a certain title. -/
theorem conditions_mean_fold_shared : ∃ text,
    ((Shared.steps.map Prod.fst).foldl Query.add {}).text = "SELECT 1 WHERE " ++ text ∧
      Denotes text (.or (.and (.or Shared.owned Shared.shared) (.not Shared.hidden))
        (.atom Shared.title)) := by
  have hempty : ({} : Query).conditions = [] := rfl
  obtain ⟨text, e, htext, hfold, hdenotes, -⟩ :=
    (conditions_mean_fold hempty Shared.denotes_steps).resolve_left
      fun hnone => List.cons_ne_nil _ _ hnone.1
  cases hfold
  refine ⟨text, ?_, hdenotes⟩
  have hbefore : ({} : Query).beforeWhere ++ " WHERE " = "SELECT 1 WHERE " := rfl
  have hafter : ({} : Query).afterWhere = "" := rfl
  rw [htext, hbefore, hafter, String.append_empty]

end Sql

end ObjectGraph
