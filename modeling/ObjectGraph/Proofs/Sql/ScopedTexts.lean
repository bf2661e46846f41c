import ObjectGraph.Proofs.Sql.Scoping

/-! # Parts of statements and what they refer to

`Shows visible introduces minted text` says of a part of a statement that it can be read, that it
introduces exactly the aliases `introduces`, that its references are to `visible` aliases and the
SELECTs in it fit among these, and that those introduce aliases of `minted`, in this order and each
once.  What is put together of such parts is such a part (`Shows.append`, `Shows.lead`,
`Shows.parenthesized`), a whole SELECT in parentheses included (`Shows.select`).  A query whose
clauses are such parts has a text that fits (`Query.Scoped.embedded`, `Query.Scoped.selectOf`). -/

namespace ObjectGraph

namespace Sql

/-! ### Pieces -/

/-- What pieces introduce, refer to, and hold. -/
structure PiecesShow (visible introduces minted : List String) (pieces : List Piece) : Prop where
  quiet : Quiet pieces
  inner : ∀ piece ∈ pieces, piece.isKeyword "SELECT" = false
  introduces : ∀ rest, introduced false (pieces ++ rest) = introduces ++ introduced false rest
  references : ∀ name ∈ referencesOf pieces, name ∈ visible
  fit : AllFit visible (selectsOf pieces)
  minted : (aliasesOf (selectsOf pieces)).Sublist minted

/-- What a part of a statement introduces, refers to, and holds. -/
def Shows (visible introduces minted : List String) (text : String) : Prop :=
  ∃ pieces, read text = some pieces ∧ PiecesShow visible introduces minted pieces

section

variable {visible more introduces introduces' minted minted' : List String} {ps qs : List Piece}
  {s t : String}

theorem referencesOf_append : referencesOf (ps ++ qs) = referencesOf ps ++ referencesOf qs := by
  induction ps with
  | nil => rfl
  | cons piece ps ih => rw [List.cons_append, referencesOf, referencesOf, ih, List.append_assoc]

theorem selectsOf_append : selectsOf (ps ++ qs) = selectsOf ps ++ selectsOf qs := by
  induction ps with
  | nil => rfl
  | cons piece ps ih => rw [List.cons_append, selectsOf, selectsOf, ih, List.append_assoc]

theorem aliasesOf_append {selects others : List Select} :
    aliasesOf (selects ++ others) = aliasesOf selects ++ aliasesOf others := by
  rw [aliasesOf_eq, aliasesOf_eq, aliasesOf_eq, List.flatMap_append]

theorem allFit_append {selects others : List Select} (h : AllFit visible selects)
    (h' : AllFit visible others) : AllFit visible (selects ++ others) := by
  rw [allFit_iff] at h h' ⊢
  exact fun select hs => (List.mem_append.1 hs).elim (h select) (h' select)

theorem PiecesShow.append (h : PiecesShow visible introduces minted ps)
    (h' : PiecesShow visible introduces' minted' qs) :
    PiecesShow visible (introduces ++ introduces') (minted ++ minted') (ps ++ qs) where
  quiet := h.quiet.append h'.quiet
  inner piece hp := (List.mem_append.1 hp).elim (h.inner piece) (h'.inner piece)
  introduces rest := by
    rw [List.append_assoc, h.introduces, h'.introduces, List.append_assoc]
  references name hname := by
    rw [referencesOf_append] at hname
    exact (List.mem_append.1 hname).elim (h.references name) (h'.references name)
  fit := by
    rw [selectsOf_append]
    exact allFit_append h.fit h'.fit
  minted := by
    rw [selectsOf_append, aliasesOf_append]
    exact h.minted.append h'.minted

/-- More may be visible and minted. -/
theorem PiecesShow.mono (h : PiecesShow visible introduces minted ps) (hv : visible ⊆ more)
    (hm : minted.Sublist minted') : PiecesShow more introduces minted' ps :=
  { h with
    references := fun name hname => hv (h.references name hname)
    fit := h.fit.mono hv
    minted := h.minted.trans hm }

theorem piecesShow_nil : PiecesShow visible [] [] [] where
  quiet _ h := absurd h List.not_mem_nil
  inner _ h := absurd h List.not_mem_nil
  introduces _ := rfl
  references _ h := absurd h List.not_mem_nil
  fit := trivial
  minted := List.Sublist.refl _

/-- A group that is no SELECT shows what the pieces in it show, but introduces nothing. -/
theorem PiecesShow.group (h : PiecesShow visible introduces minted ps) :
    PiecesShow visible [] minted [.group ps] := by
  have hselect : isSelect ps = false := by
    unfold isSelect
    cases hfind : ps.find? fun piece => !piece.isBlank with
    | none => rfl
    | some piece => exact h.inner piece (List.mem_of_find?_eq_some hfind)
  have hreferences : referencesOf [.group ps] = referencesOf ps := by
    rw [referencesOf, referencesOf, Piece.references, hselect, List.append_nil]
    rfl
  have hselects : selectsOf [.group ps] = selectsOf ps := by
    rw [selectsOf, selectsOf, Piece.selects, hselect, List.append_nil]
    rfl
  refine ⟨fun p hp => ?_, fun p hp => ?_, fun rest => rfl, ?_, ?_, ?_⟩
  · rw [List.mem_singleton.1 hp]
    rfl
  · rw [List.mem_singleton.1 hp]
    rfl
  · rw [hreferences]
    exact h.references
  · rw [hselects]
    exact h.fit
  · rw [hselects]
    exact h.minted

/-- A piece that nothing is to be seen in: no keyword that matters, no reference, nothing in a
group. -/
def Piece.bare : Piece → Bool
  | .word text =>
    !(Piece.word text).isKeyword "SELECT" && !(Piece.word text).isKeyword "FROM" &&
      !(Piece.word text).isKeyword "JOIN" && (qualifier? text).isNone
  | .group pieces => pieces.isEmpty
  | piece => piece.quiet

theorem piecesShow_bare {piece : Piece} (h : piece.bare = true) :
    PiecesShow visible [] [] [piece] := by
  have hone : ∀ p ∈ [piece], p = piece := fun p hp => List.mem_singleton.1 hp
  cases piece with
  | group pieces =>
    rw [List.isEmpty_iff.1 h]
    exact piecesShow_nil.group
  | word word =>
    simp only [Piece.bare, Bool.and_eq_true, Bool.not_eq_true', Option.isNone_iff_eq_none] at h
    obtain ⟨⟨⟨hselect, hfrom⟩, hjoin⟩, hqualifier⟩ := h
    refine ⟨fun p hp => ?_, fun p hp => ?_, fun rest => ?_, fun name hname => ?_, trivial,
      List.Sublist.refl _⟩
    · rw [hone p hp]
      rfl
    · rw [hone p hp]
      exact hselect
    · simp [introduced, hfrom, hjoin]
    · rw [referencesOf, Piece.references, hqualifier] at hname
      exact absurd hname List.not_mem_nil
  | blank | quoted text | symbol c =>
    refine ⟨fun p hp => ?_, fun p hp => ?_, fun rest => rfl, fun name hname => ?_, trivial,
      List.Sublist.refl _⟩
    · rw [hone p hp]
      first | rfl | exact h
    · rw [hone p hp]
      rfl
    · exact absurd hname List.not_mem_nil

theorem piecesShow_allBare (h : ∀ piece ∈ ps, piece.bare = true) :
    PiecesShow visible [] [] ps := by
  induction ps with
  | nil => exact piecesShow_nil
  | cons piece ps ih =>
    exact (piecesShow_bare (h piece List.mem_cons_self)).append
      (ih fun p hp => h p (List.mem_cons_of_mem _ hp))

/-! ### Parts -/

theorem Shows.mono (h : Shows visible introduces minted s) (hv : visible ⊆ more)
    (hm : minted.Sublist minted') : Shows more introduces minted' s := by
  obtain ⟨ps, hread, hs⟩ := h
  exact ⟨ps, hread, hs.mono hv hm⟩

/-- A part goes on with one that begins outside words. -/
theorem Shows.append (h : Shows visible introduces minted s)
    (h' : Shows visible introduces' minted' t) (hbreaks : Breaks t) :
    Shows visible (introduces ++ introduces') (minted ++ minted') (s ++ t) := by
  obtain ⟨ps, hs, hps⟩ := h
  obtain ⟨qs, ht, hqs⟩ := h'
  exact ⟨ps ++ qs, read_append hs ht hps.quiet hbreaks, hps.append hqs⟩

/-- Whether a text is bare of all that matters, and ends outside words. -/
def isLead (text : String) : Bool :=
  match ({} : Reader).run text.toList with
  | some ⟨none, [], pieces, []⟩ => pieces.all Piece.bare
  | _ => false

theorem isLead_closes (h : isLead s = true) :
    ∃ ps, Closes s ps ∧ ∀ piece ∈ ps, piece.bare = true := by
  unfold isLead at h
  split at h
  · next pieces hrun => exact ⟨pieces, hrun, List.all_eq_true.1 h⟩
  · cases h

/-- A part goes on after bare text. -/
theorem Shows.lead (h : Shows visible introduces minted t) (hs : isLead s = true) :
    Shows visible introduces minted (s ++ t) := by
  obtain ⟨ps, hcloses, hbare⟩ := isLead_closes hs
  obtain ⟨qs, ht, hqs⟩ := h
  have hps : PiecesShow visible [] [] ps := piecesShow_allBare hbare
  exact ⟨ps ++ qs, read_lead hcloses ht hps.quiet, hps.append hqs⟩

theorem shows_empty : Shows visible [] [] "" := ⟨[], rfl, piecesShow_nil⟩

/-- Whether a text is bare of all that matters. -/
def isBare (text : String) : Bool :=
  match read text with
  | some pieces => pieces.all Piece.bare
  | none => false

theorem shows_bare (hs : isBare s = true) : Shows visible [] [] s := by
  unfold isBare at hs
  split at hs
  · next pieces hread => exact ⟨pieces, hread, piecesShow_allBare (List.all_eq_true.1 hs)⟩
  · cases hs

theorem Breaks.append {w : String} (h : Breaks w) (hne : w ≠ "") (t : String) :
    Breaks (w ++ t) := by
  intro c hc
  rw [String.toList_append] at hc
  cases hchars : w.toList with
  | nil => exact absurd (String.toList_eq_nil_iff.1 hchars) hne
  | cons first rest =>
    rw [hchars] at hc
    exact h c (by rw [hchars]; exact hc)

/-- Two parts with bare text between them. -/
theorem Shows.link (h : Shows visible introduces minted s) (w : String)
    (hw : isLead w = true) (hbreaks : Breaks w) (hne : w ≠ "")
    (h' : Shows visible introduces' minted' t) :
    Shows visible (introduces ++ introduces') (minted ++ minted') (s ++ w ++ t) := by
  rw [String.append_assoc]
  exact h.append (h'.lead hw) (hbreaks.append hne t)

/-- A word that is no keyword and no qualifier. -/
theorem shows_word (hne : s ≠ "") (hword : ∀ c ∈ s.toList, role c = .word)
    (hbare : (Piece.word s.toList).bare = true) : Shows visible [] [] s :=
  ⟨_, read_word hne hword, piecesShow_bare hbare⟩

theorem Shows.parenthesized (h : Shows visible introduces minted s) :
    Shows visible [] minted (parenthesized s) := by
  obtain ⟨ps, hs, hps⟩ := h
  exact ⟨_, read_parenthesized hs, hps.group⟩

theorem breaks_parenthesized (s : String) : Breaks (parenthesized s) := by
  intro c hc
  have hopen : (Sql.parenthesized s).toList = '(' :: (s ++ ")").toList := by
    rw [Sql.parenthesized, String.append_assoc, String.toList_append]
    rfl
  rw [hopen] at hc
  cases hc
  decide

/-- A call of a function. -/
theorem Shows.call (h : Shows visible introduces minted s) {function : String}
    (hf : Shows visible [] [] function) :
    Shows visible [] minted (function ++ Sql.parenthesized s) :=
  hf.append h.parenthesized (breaks_parenthesized s)

/-! ### Words -/

/-- A word with a character that no keyword has is none. -/
theorem isKeyword_false {word : List Char} {keyword : String} {c : Char} (hc : c ∈ word)
    (hupper : c.toUpper = c) (hk : c ∉ keyword.toList) :
    (Piece.word word).isKeyword keyword = false := by
  unfold Piece.isKeyword
  rw [beq_eq_false_iff_ne]
  intro h
  have hmem := List.mem_map_of_mem (f := Char.toUpper) hc
  rw [h, hupper] at hmem
  exact hk hmem

/-- A word that does not end in a dot qualifies nothing. -/
theorem qualifier?_none {word : List Char} (h : '.' ∉ word) : qualifier? word = none := by
  unfold qualifier?
  rw [if_neg]
  exact fun hlast => h (List.mem_of_getLast? hlast)

/-- A word with a character that no keyword has, and without a dot, is bare. -/
theorem bare_word {word : List Char} {c : Char} (hc : c ∈ word) (hupper : c.toUpper = c)
    (hk : ∀ keyword ∈ ["SELECT", "FROM", "JOIN"], c ∉ keyword.toList) (hdot : '.' ∉ word) :
    (Piece.word word).bare = true := by
  have hkeyword : ∀ keyword ∈ ["SELECT", "FROM", "JOIN"],
      Piece.isKeyword keyword (.word word) = false :=
    fun keyword h => isKeyword_false hc hupper (hk keyword h)
  simp only [List.forall_mem_cons, List.not_mem_nil, false_imp_iff, implies_true,
    and_true] at hkeyword
  obtain ⟨hselect, hfrom, hjoin⟩ := hkeyword
  simp [Piece.bare, hselect, hfrom, hjoin, qualifier?_none hdot]

theorem role_of_isNameChar {c : Char} (h : Token.isNameChar c = true) : role c = .word := by
  unfold role
  rw [h]
  rfl

theorem ne_dot_of_isNameChar {c : Char} (h : Token.isNameChar c = true) : c ≠ '.' := by
  rintro rfl
  cases h

/-- A quoted text is bare. -/
theorem shows_enclose {quote : Char} (hrole : role quote = .quote) (content : String) :
    Shows visible [] [] (enclose quote content) := by
  obtain ⟨ps, hcloses, hquoted, -⟩ := closes_enclose hrole content
  refine ⟨ps, hcloses.read, piecesShow_allBare fun piece hp => ?_⟩
  obtain ⟨text, rfl⟩ := hquoted piece hp
  rfl

theorem breaks_enclose {quote : Char} (hrole : role quote = .quote) (content : String) :
    Breaks (enclose quote content) := by
  intro c hc
  rw [enclose, String.toList_ofList] at hc
  cases hc
  rw [hrole]
  exact Role.noConfusion

/-- A placeholder. -/
theorem shows_param {name : String} (hname : IsName name) : Shows visible [] [] (":" ++ name) := by
  have hchars : (":" ++ name).toList = ':' :: name.toList := by
    rw [String.toList_append]
    rfl
  refine shows_word ?_ ?_ ?_
  · intro h
    rw [h] at hchars
    cases hchars
  · intro c hc
    rw [hchars] at hc
    rcases List.mem_cons.1 hc with rfl | hc
    · rfl
    · exact role_of_isNameChar (hname c hc)
  · rw [hchars]
    refine bare_word List.mem_cons_self rfl (by decide) fun hdot => ?_
    rcases List.mem_cons.1 hdot with h | h
    · cases h
    · exact ne_dot_of_isNameChar (hname _ h) rfl

/-- The word that an alias is qualified with. -/
theorem read_qualifier {name : String} (hname : IsName name) :
    read (name ++ ".") = some [.word (name.toList ++ ['.'])] := by
  have hchars : (name ++ ".").toList = name.toList ++ ['.'] := String.toList_append
  rw [read_word, hchars]
  · intro h
    rw [h] at hchars
    exact List.append_ne_nil_of_right_ne_nil _ (List.cons_ne_nil _ _) hchars.symm
  · intro c hc
    rw [hchars] at hc
    rcases List.mem_append.1 hc with hc | hc
    · exact role_of_isNameChar (hname c hc)
    · rw [List.mem_singleton.1 hc]
      rfl

/-- A column of an aliased table refers to the alias. -/
theorem shows_qualified {name : String} (hname : IsName name) (hvisible : name ∈ visible)
    (column : String) : Shows visible [] [] (qualified name column) := by
  have hdot : '.' ∈ name.toList ++ ['.'] := List.mem_append_right _ List.mem_cons_self
  have hword : PiecesShow visible [] [] [.word (name.toList ++ ['.'])] := by
    have hone : ∀ p ∈ [Piece.word (name.toList ++ ['.'])], p = .word (name.toList ++ ['.']) :=
      fun p hp => List.mem_singleton.1 hp
    refine ⟨fun p hp => ?_, fun p hp => ?_, fun rest => ?_, fun other hother => ?_, trivial,
      List.Sublist.refl _⟩
    · rw [hone p hp]
      rfl
    · rw [hone p hp]
      exact isKeyword_false hdot rfl (by decide)
    · have hfrom : Piece.isKeyword "FROM" (.word (name.toList ++ ['.'])) = false :=
        isKeyword_false hdot rfl (by decide)
      have hjoin : Piece.isKeyword "JOIN" (.word (name.toList ++ ['.'])) = false :=
        isKeyword_false hdot rfl (by decide)
      simp [introduced, hfrom, hjoin]
    · have hqualifier : qualifier? (name.toList ++ ['.']) = some name := by
        unfold qualifier?
        rw [List.getLast?_concat, if_pos rfl, List.dropLast_concat, String.ofList_toList]
      rw [referencesOf, Piece.references, hqualifier, referencesOf, List.append_nil] at hother
      rw [List.mem_singleton.1 hother]
      exact hvisible
  have hqualifier : Shows visible [] [] (name ++ ".") := ⟨_, read_qualifier hname, hword⟩
  exact hqualifier.append (shows_enclose rfl column) (breaks_enclose rfl column)

/-! ### SELECTs -/

/-- A text is a SELECT that fits, and introduces aliases of some. -/
def ShowsSelect (visible minted : List String) (text : String) : Prop :=
  ∃ pieces, read text = some pieces ∧ isSelect pieces = true ∧
    ∃ select, Select.mk (introduced false pieces) (referencesOf pieces) (selectsOf pieces) = select ∧
      select.Fits visible ∧ select.aliases.Sublist minted

/-- A SELECT, by what stands after its first keyword. -/
theorem Shows.select (h : Shows (visible ++ introduces) introduces minted s) :
    ShowsSelect visible (introduces ++ minted) ("SELECT " ++ s) := by
  obtain ⟨ps, hread, hps⟩ := h
  have hkeyword : Closes "SELECT " [.word ['S', 'E', 'L', 'E', 'C', 'T'], .blank] := rfl
  have hquiet : Quiet [.word ['S', 'E', 'L', 'E', 'C', 'T'], .blank] := List.all_eq_true.1 rfl
  have hintroduced : introduced false (.word ['S', 'E', 'L', 'E', 'C', 'T'] :: .blank :: ps) =
      introduces := by
    have hrest := hps.introduces []
    rw [List.append_nil, introduced, List.append_nil] at hrest
    rw [← hrest]
    rfl
  refine ⟨_, read_lead hkeyword hread hquiet, rfl, _, rfl, ⟨?_, ?_⟩, ?_⟩
  · rw [List.cons_append, List.singleton_append, hintroduced]
    exact hps.references
  · rw [List.cons_append, List.singleton_append, hintroduced]
    exact hps.fit
  · rw [Select.aliases, List.cons_append, List.singleton_append, hintroduced]
    exact (List.Sublist.refl _).append hps.minted

/-- A SELECT in parentheses is a part of the statement around it. -/
theorem ShowsSelect.parenthesized (h : ShowsSelect visible minted s) :
    ∃ pieces, read (Sql.parenthesized s) = some [.group pieces] ∧
      PiecesShow visible [] minted [.group pieces] := by
  obtain ⟨ps, hread, hselect, select, rfl, hfits, haliases⟩ := h
  have hone : ∀ p ∈ [Piece.group ps], p = .group ps := fun p hp => List.mem_singleton.1 hp
  have hreferences : referencesOf [.group ps] = [] := by
    rw [referencesOf, referencesOf, Piece.references, hselect, List.append_nil]
    rfl
  have hselects : selectsOf [.group ps] =
      [.mk (introduced false ps) (referencesOf ps) (selectsOf ps)] := by
    rw [selectsOf, selectsOf, Piece.selects, hselect, List.append_nil]
    rfl
  refine ⟨ps, read_parenthesized hread, fun p hp => ?_, fun p hp => ?_, fun rest => rfl, ?_, ?_, ?_⟩
  · rw [hone p hp]
    rfl
  · rw [hone p hp]
    rfl
  · rw [hreferences]
    exact fun _ h => absurd h List.not_mem_nil
  · rw [hselects]
    exact ⟨hfits, trivial⟩
  · rw [hselects, aliasesOf, aliasesOf, List.append_nil]
    exact haliases

theorem ShowsSelect.selectOf (h : ShowsSelect visible minted s) :
    ∃ select, selectOf? s = some select ∧ select.Fits visible ∧
      select.aliases.Sublist minted := by
  obtain ⟨ps, hread, hselect, select, rfl, hfits, haliases⟩ := h
  refine ⟨_, ?_, hfits, haliases⟩
  unfold selectOf?
  rw [hread]
  simp only [hselect, if_true]

/-! ### Several parts -/

/-- Parts that introduce nothing, and the aliases that the SELECTs in them introduce. -/
inductive ShowsAll (visible : List String) : (minted : List String) → List String → Prop
  | nil : ShowsAll visible [] []
  | cons {minted minted' : List String} {text : String} {texts : List String} :
      Shows visible [] minted text → ShowsAll visible minted' texts →
      ShowsAll visible (minted ++ minted') (text :: texts)

variable {texts texts' : List String}

theorem ShowsAll.append (h : ShowsAll visible minted texts)
    (h' : ShowsAll visible minted' texts') :
    ShowsAll visible (minted ++ minted') (texts ++ texts') := by
  induction h with
  | nil => exact h'
  | cons hfirst _ ih =>
    rw [List.append_assoc]
    exact .cons hfirst ih

theorem showsAll_of_forall (h : ∀ text ∈ texts, Shows visible [] [] text) :
    ShowsAll visible [] texts := by
  induction texts with
  | nil => exact .nil
  | cons text texts ih =>
    exact .cons (h text List.mem_cons_self) (ih fun t ht => h t (List.mem_cons_of_mem _ ht))

/-- Parts with bare text between them. -/
theorem ShowsAll.intercalate (h : ShowsAll visible minted texts) (w : String)
    (hw : isLead w = true) (hbreaks : Breaks w) (hne : w ≠ "") :
    Shows visible [] minted (String.intercalate w texts) := by
  induction h with
  | nil =>
    rw [String.intercalate_nil]
    exact shows_empty
  | @cons m m' text texts hfirst hrest ih =>
    cases hrest with
    | nil =>
      rw [String.intercalate_singleton, List.append_nil]
      exact hfirst
    | cons hsecond hrest =>
      rw [String.intercalate_cons_cons]
      exact hfirst.link w hw hbreaks hne ih

/-! ### Tables -/

/-- A name that is an alias: it cannot be taken for a keyword. -/
def IsAlias (name : String) : Prop := IsName name ∧ '_' ∈ name.toList

/-- Pieces after which the next word is an alias. -/
structure Awaits (before : List Piece) : Prop where
  quiet : Quiet before
  inner : ∀ piece ∈ before, piece.isKeyword "SELECT" = false
  awaits : ∀ rest, introduced false (before ++ rest) = introduced true rest
  references : referencesOf before = []
  selects : selectsOf before = []

/-- Pieces that are not taken for an alias. -/
def Skipped (pieces : List Piece) : Prop :=
  ∀ rest, introduced true (pieces ++ rest) = introduced true rest

theorem introduced_alias {name : String} (hname : IsAlias name) (rest : List Piece) :
    introduced true (.word name.toList :: rest) = name :: introduced false rest := by
  have hkeyword : ∀ keyword ∈ ["FROM", "JOIN", "AS"],
      Piece.isKeyword keyword (.word name.toList) = false := by
    intro keyword hk
    refine isKeyword_false hname.2 rfl ?_
    revert keyword
    decide
  simp only [List.forall_mem_cons, List.not_mem_nil, false_imp_iff, implies_true,
    and_true] at hkeyword
  obtain ⟨hfrom, hjoin, has⟩ := hkeyword
  simp [introduced, hfrom, hjoin, has]

/-- A table with its alias. -/
theorem shows_table {w gap table name : String} {before between mid : List Piece}
    (hw : Closes w before) (hbefore : Awaits before) (htable : read table = some mid)
    (hmid : PiecesShow visible [] minted mid) (hskip : Skipped mid)
    (hgap : Closes gap between) (hbreaks : Breaks (gap ++ name))
    (hbetween : ∀ piece ∈ between, piece.bare = true) (hskip' : Skipped between)
    (hname : IsAlias name) : Shows visible [name] minted (w ++ table ++ (gap ++ name)) := by
  have hne : name ≠ "" := by
    rintro rfl
    exact absurd hname.2 List.not_mem_nil
  have hword : read name = some [.word name.toList] :=
    read_word hne fun c hc => role_of_isNameChar (hname.1 c hc)
  have hpieces : PiecesShow visible [] [] between := piecesShow_allBare hbetween
  have hqualifier : qualifier? name.toList = none :=
    qualifier?_none fun hdot => ne_dot_of_isNameChar (hname.1 _ hdot) rfl
  have hselect : Piece.isKeyword "SELECT" (.word name.toList) = false :=
    isKeyword_false hname.2 rfl (by decide)
  have hread : read (w ++ table ++ (gap ++ name)) =
      some ((before ++ mid) ++ (between ++ [.word name.toList])) :=
    read_append (read_lead hw htable hbefore.quiet) (read_lead hgap hword hpieces.quiet)
      (hbefore.quiet.append hmid.quiet) hbreaks
  have hreferences : referencesOf ((before ++ mid) ++ (between ++ [.word name.toList])) =
      referencesOf mid ++ referencesOf between := by
    rw [referencesOf_append, referencesOf_append, referencesOf_append, hbefore.references,
      List.nil_append, referencesOf, Piece.references, hqualifier]
    simp only [Option.toList_none, referencesOf, List.append_nil]
  have hselects : selectsOf ((before ++ mid) ++ (between ++ [.word name.toList])) =
      selectsOf mid ++ selectsOf between := by
    have hlast : selectsOf [.word name.toList] = [] := rfl
    rw [selectsOf_append, selectsOf_append, selectsOf_append, hbefore.selects, List.nil_append,
      hlast, List.append_nil]
  have hboth := hmid.append hpieces
  refine ⟨_, hread, ?_, ?_, ?_, ?_, ?_, ?_⟩
  · refine (hbefore.quiet.append hmid.quiet).append (hpieces.quiet.append fun piece hp => ?_)
    rw [List.mem_singleton.1 hp]
    rfl
  · intro piece hp
    rcases List.mem_append.1 hp with hp | hp
    · exact (List.mem_append.1 hp).elim (hbefore.inner piece) (hmid.inner piece)
    · rcases List.mem_append.1 hp with hp | hp
      · exact hpieces.inner piece hp
      · rw [List.mem_singleton.1 hp]
        exact hselect
  · intro rest
    rw [List.append_assoc, List.append_assoc, hbefore.awaits, hskip, List.append_assoc, hskip']
    exact introduced_alias hname rest
  · rw [hreferences, ← referencesOf_append]
    exact hboth.references
  · rw [hselects, ← selectsOf_append]
    exact hboth.fit
  · rw [hselects, ← selectsOf_append]
    have hminted := hboth.minted
    rwa [List.append_nil] at hminted

/-! ### Queries -/

/-- The aliases that a query introduces. -/
def Query.aliases (q : Query) : List String :=
  (q.source.map Source.tableAlias).toList ++ q.joins.map Join.tableAlias

/-- A query with a main table, whose clauses refer to what is visible around it and to what it
introduces.  Its joins are cross joins; only what it selects may hold SELECTs. -/
structure Query.Scoped (visible minted : List String) (q : Query) : Prop where
  source : ∃ table name, q.source = some ⟨quoteIdent table, name⟩ ∧ IsAlias name
  joins : ∀ join ∈ q.joins, join.on = none ∧ ∃ table name,
    join.table = quoteIdent table ∧ join.tableAlias = name ∧ IsAlias name
  items : ShowsAll (visible ++ q.aliases) minted (q.items.map SelectItem.expression)
  conditions : ∀ condition ∈ q.conditions, Shows (visible ++ q.aliases) [] [] condition
  ordering : ∀ term ∈ q.ordering, Shows (visible ++ q.aliases) [] [] term

theorem awaits_from : Awaits [.blank, .word ['F', 'R', 'O', 'M'], .blank] where
  quiet := List.all_eq_true.1 rfl
  inner := by simp [Piece.isKeyword]
  awaits _ := rfl
  references := rfl
  selects := rfl

theorem awaits_join : Awaits
    [.blank, .word ['C', 'R', 'O', 'S', 'S'], .blank, .word ['J', 'O', 'I', 'N'], .blank] where
  quiet := List.all_eq_true.1 rfl
  inner := by simp [Piece.isKeyword]
  awaits _ := rfl
  references := rfl
  selects := rfl

/-- A stored table with its alias. -/
theorem shows_stored {w table name : String} {before : List Piece} (hw : Closes w before)
    (hbefore : Awaits before) (hname : IsAlias name) :
    Shows visible [name] [] (w ++ quoteIdent table ++ (" " ++ name)) := by
  have hrole : role '"' = .quote := rfl
  obtain ⟨mid, hcloses, hquoted, -⟩ := closes_enclose hrole table
  have hbare : ∀ piece ∈ mid, piece.bare = true := by
    intro piece hp
    obtain ⟨text, rfl⟩ := hquoted piece hp
    rfl
  have hskip : Skipped mid := by
    intro rest
    clear hcloses hbare
    induction mid with
    | nil => rfl
    | cons piece mid ih =>
      obtain ⟨text, rfl⟩ := hquoted piece List.mem_cons_self
      exact ih fun p hp => hquoted p (List.mem_cons_of_mem _ hp)
  have hgap : Closes " " [.blank] := rfl
  have hbetween : ∀ piece ∈ [Piece.blank], piece.bare = true := List.all_eq_true.1 rfl
  have hbreaks : Breaks (" " ++ name) := Breaks.append (by decide) (by decide) name
  exact shows_table hw hbefore hcloses.read (piecesShow_allBare hbare) hskip hgap hbreaks hbetween
    (fun _ => rfl) hname

theorem ShowsAll.itemTexts {items : List SelectItem}
    (h : ShowsAll visible minted (items.map SelectItem.expression)) :
    ShowsAll visible minted (items.map Query.itemText) := by
  induction items generalizing minted with
  | nil => exact h
  | cons item items ih =>
    cases h with
    | cons hfirst hrest =>
      refine .cons ?_ (ih hrest)
      obtain ⟨expression, label⟩ := item
      cases label with
      | none => exact hfirst
      | some label =>
        have hlabel : Shows visible [] [] (quoteIdent label) := shows_enclose rfl label
        have hitem := hfirst.link " AS " (by decide) (by decide) (by decide) hlabel
        simp only [List.append_nil] at hitem
        exact hitem

theorem shows_itemsText {items : List SelectItem}
    (h : ShowsAll visible minted (items.map SelectItem.expression)) :
    Shows visible [] minted (Query.itemsText items) := by
  cases items with
  | nil =>
    cases h
    exact shows_bare (by decide)
  | cons item items => exact h.itemTexts.intercalate ", " (by decide) (by decide) (by decide)

theorem shows_joins {joins : List Join} (h : ∀ join ∈ joins, join.on = none ∧ ∃ table name,
    join.table = quoteIdent table ∧ join.tableAlias = name ∧ IsAlias name) :
    Shows visible (joins.map Join.tableAlias) [] (String.join (joins.map Query.joinText)) ∧
      Breaks (String.join (joins.map Query.joinText)) := by
  induction joins with
  | nil => exact ⟨shows_empty, by decide⟩
  | cons join joins ih =>
    obtain ⟨hon, table, name, htable, rfl, hname⟩ := h join List.mem_cons_self
    obtain ⟨hrest, hbreaks⟩ := ih fun other ho => h other (List.mem_cons_of_mem _ ho)
    have htext : Query.joinText join =
        " CROSS JOIN " ++ quoteIdent table ++ (" " ++ join.tableAlias) := by
      rw [← htable, ← String.append_assoc]
      unfold Query.joinText
      rw [hon]
      cases join.kind <;> rfl
    have hjoin : Shows visible [join.tableAlias] [] (Query.joinText join) := by
      rw [htext]
      exact shows_stored rfl awaits_join hname
    have hlead : Breaks (Query.joinText join ++ String.join (joins.map Query.joinText)) := by
      rw [htext, String.append_assoc, String.append_assoc]
      exact Breaks.append (by decide) (by decide) _
    rw [List.map_cons, List.map_cons, String.join_cons]
    exact ⟨hjoin.append hrest hbreaks, hlead⟩

theorem shows_conjunction {conditions : List String}
    (h : ∀ condition ∈ conditions, Shows visible [] [] condition) :
    Shows visible [] [] (conjunction conditions) := by
  have hall : Shows visible [] []
      (String.intercalate " AND " (conditions.map parenthesized)) :=
    (showsAll_of_forall fun text ht => by
      obtain ⟨condition, hc, rfl⟩ := List.mem_map.1 ht
      exact (h condition hc).parenthesized).intercalate " AND " (by decide) (by decide) (by decide)
  match conditions, h, hall with
  | [], _, hall => exact hall
  | [condition], h, _ => exact h condition List.mem_cons_self
  | _ :: _ :: _, _, hall => exact hall

theorem shows_conditionsText {conditions : List String}
    (h : ∀ condition ∈ conditions, Shows visible [] [] condition) :
    Shows visible [] [] (Query.conditionsText conditions) ∧
      Breaks (Query.conditionsText conditions) := by
  cases conditions with
  | nil => exact ⟨shows_empty, by decide⟩
  | cons condition conditions =>
    exact ⟨(shows_conjunction h).lead (by decide), Breaks.append (by decide) (by decide) _⟩

theorem shows_orderingText {terms : List String}
    (h : ∀ term ∈ terms, Shows visible [] [] term) :
    Shows visible [] [] (Query.orderingText terms) ∧ Breaks (Query.orderingText terms) := by
  cases terms with
  | nil => exact ⟨shows_empty, by decide⟩
  | cons term terms =>
    have hterms := (showsAll_of_forall h).intercalate ", " (by decide) (by decide) (by decide)
    exact ⟨hterms.lead (by decide), Breaks.append (by decide) (by decide) _⟩

theorem shows_number (n : Nat) : Shows visible [] [] (toString n) := by
  have hdigits : (toString n).toList = Nat.toDigits 10 n := String.toList_ofList
  have hname : ∀ c ∈ (toString n).toList, Token.isNameChar c = true := isName_toString n
  obtain ⟨c, rest, hchars⟩ := List.exists_cons_of_ne_nil (Nat.toDigits_ne_nil (n := n) (b := 10))
  rw [← hdigits] at hchars
  have hc : c ∈ (toString n).toList := by
    rw [hchars]
    exact List.mem_cons_self
  have hdigit : c.isDigit = true := by
    rw [hdigits] at hc
    exact Nat.isDigit_of_mem_toDigits (by omega) (by omega) hc
  have hupper : c.toUpper = c := by
    have hle : c.val ≤ '9'.val := (Bool.and_eq_true_iff.1 hdigit).2 |> of_decide_eq_true
    unfold Char.toUpper
    rw [dif_neg]
    rintro ⟨hge, -⟩
    have hlt : '9'.val < 'a'.val := by decide
    exact absurd (UInt32.le_trans hge hle) (UInt32.not_le.2 hlt)
  have hletters : ∀ keyword ∈ ["SELECT", "FROM", "JOIN"], ∀ d ∈ keyword.toList,
      d.isDigit = false := by
    have hall : ["SELECT", "FROM", "JOIN"].all
        (fun keyword => keyword.toList.all fun d => !d.isDigit) = true := rfl
    intro keyword hk d hd
    simpa using List.all_eq_true.1 (List.all_eq_true.1 hall keyword hk) d hd
  refine shows_word ?_ (fun d hd => role_of_isNameChar (hname d hd))
    (bare_word hc hupper ?_ fun hdot => ne_dot_of_isNameChar (hname _ hdot) rfl)
  · intro h
    rw [h] at hchars
    cases hchars
  · intro keyword hk hmem
    rw [hletters keyword hk c hmem] at hdigit
    cases hdigit

theorem shows_limitText (limit : Option Nat) :
    Shows visible [] [] (Query.limitText limit) ∧ Breaks (Query.limitText limit) := by
  cases limit with
  | none => exact ⟨shows_empty, by decide⟩
  | some limit =>
    exact ⟨(shows_number limit).lead (by decide), Breaks.append (by decide) (by decide) _⟩

end

namespace Query.Scoped

variable {visible minted : List String} {q : Query}

/-- The text of a query after its first keyword. -/
theorem body (h : q.Scoped visible minted) : ∃ body, q.text = "SELECT " ++ body ∧
    Shows (visible ++ q.aliases) q.aliases minted body := by
  obtain ⟨table, name, hsource, hname⟩ := h.source
  have hitems := shows_itemsText h.items
  have htable : Shows (visible ++ q.aliases) [name] [] (sourceText q.source) ∧
      Breaks (sourceText q.source) := by
    have htext : sourceText q.source = " FROM " ++ quoteIdent table ++ (" " ++ name) := by
      rw [hsource, ← String.append_assoc]
      rfl
    rw [htext]
    refine ⟨shows_stored rfl awaits_from hname, ?_⟩
    rw [String.append_assoc]
    exact Breaks.append (by decide) (by decide) _
  have hall : Shows (visible ++ q.aliases) (q.joins.map Join.tableAlias) []
      (String.join (q.joins.map Query.joinText)) ∧ Breaks (String.join (q.joins.map Query.joinText)) :=
    shows_joins h.joins
  obtain ⟨hjoins, hbreaks⟩ := hall
  obtain ⟨hconditions, hbreaks₁⟩ := shows_conditionsText h.conditions
  obtain ⟨hordering, hbreaks₂⟩ := shows_orderingText h.ordering
  have hlast : Shows (visible ++ q.aliases) [] [] (limitText q.limit) ∧ Breaks (limitText q.limit) :=
    shows_limitText q.limit
  obtain ⟨hlimit, hbreaks₃⟩ := hlast
  have hall := ((((hitems.append htable.1 htable.2).append hjoins hbreaks).append hconditions
    hbreaks₁).append hordering hbreaks₂).append hlimit hbreaks₃
  have haliases : q.aliases = [name] ++ q.joins.map Join.tableAlias := by
    unfold Query.aliases
    rw [hsource]
    rfl
  simp only [List.append_nil, List.nil_append] at hall
  rw [← haliases] at hall
  refine ⟨_, ?_, hall⟩
  unfold Query.text
  simp only [String.append_assoc]

theorem select (h : q.Scoped visible minted) :
    ShowsSelect visible (q.aliases ++ minted) q.text := by
  obtain ⟨body, htext, hbody⟩ := h.body
  rw [htext]
  exact hbody.select

theorem embedded (h : q.Scoped visible minted) :
    Shows visible [] (q.aliases ++ minted) q.embedded := by
  obtain ⟨pieces, hread, hpieces⟩ := h.select.parenthesized
  exact ⟨_, hread, hpieces⟩

end Query.Scoped

/-! ### Expressions of planning -/

section

variable {visible minted : List String}

/-- A related object is packed by what is selected of it. -/
theorem shows_jsonObject (dialect : Dialect) {pairs : List (String × String)}
    (h : ShowsAll visible minted (pairs.map Prod.snd)) :
    Shows visible [] minted (dialect.jsonObject pairs) := by
  have hmembers : ShowsAll visible minted
      (pairs.map fun pair => quoteLiteral pair.1 ++ ", " ++ pair.2) := by
    induction pairs generalizing minted with
    | nil => exact h
    | cons pair pairs ih =>
      cases h with
      | cons hfirst hrest =>
        refine .cons ?_ (ih hrest)
        have hlabel : Shows visible [] [] (quoteLiteral pair.1) := shows_enclose rfl pair.1
        exact hlabel.link ", " (by decide) (by decide) (by decide) hfirst
  have hfunction : Shows visible [] [] dialect.objectFunction := by
    cases dialect <;> exact shows_bare (by decide)
  have hcall := (hmembers.intercalate ", " (by decide) (by decide) (by decide)).call hfunction
  unfold Dialect.jsonObject
  rwa [parenthesized, ← String.append_assoc, ← String.append_assoc] at hcall

theorem shows_embedJson (dialect : Dialect) {expression : String}
    (h : Shows visible [] minted expression) :
    Shows visible [] minted (dialect.embedJson expression) := by
  cases dialect with
  | postgresql => exact h
  | sqlite =>
    have hfunction : Shows visible [] [] "json" := shows_bare (by decide)
    have hcall := h.call hfunction
    rwa [parenthesized, ← String.append_assoc, ← String.append_assoc] at hcall

end

end Sql

end ObjectGraph
