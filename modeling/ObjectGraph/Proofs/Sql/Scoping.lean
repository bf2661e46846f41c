import Mathlib.Data.List.Nodup
import ObjectGraph.Proofs.Sql.Fragments

/-! # Which aliases a statement uses, and where

The text of a statement is read as a tree of SELECTs (`selectOf?`).  A group that begins with
`SELECT` is a SELECT of its own; any other group belongs to the one around it.

* A SELECT introduces an alias with each `FROM` and each `JOIN`: the first word after it, `AS` aside,
  since the table itself is a quoted name or a group.
* A word that ends in a dot qualifies the column after it, and is a reference to an alias.

A tree is `WellScoped` if every reference is to an alias that the same SELECT or one around it
introduces, and that no other SELECT does.  It is enough that all SELECTs fit into what is visible
around them (`Select.Fits`) and that no alias is introduced twice (`Select.wellScoped`). -/

namespace ObjectGraph

namespace Sql

/-! ### The SELECTs of a text -/

/-- A SELECT: the aliases that it introduces, those that it refers to, and the SELECTs in it. -/
inductive Select
  | mk (introduced references : List String) (inner : List Select)

/-- The alias that a word refers to, if it qualifies a column. -/
def qualifier? (word : List Char) : Option String :=
  if word.getLast? = some '.' then some (String.ofList word.dropLast) else none

/-- The aliases that `FROM` and `JOIN` introduce among the pieces of a SELECT; it may be that one
is still to come. -/
def introduced : (pending : Bool) → List Piece → List String
  | _, [] => []
  | pending, piece :: rest =>
    if piece.isKeyword "FROM" || piece.isKeyword "JOIN" then introduced true rest
    else
      match pending, piece with
      | true, .word word =>
        if piece.isKeyword "AS" then introduced true rest
        else String.ofList word :: introduced false rest
      | pending, _ => introduced pending rest

/-- Whether pieces are those of a SELECT. -/
def isSelect (pieces : List Piece) : Bool :=
  match pieces.find? fun piece => !piece.isBlank with
  | some piece => piece.isKeyword "SELECT"
  | none => false

mutual

/-- The aliases that a piece refers to, those in the SELECTs in it left out. -/
def Piece.references : Piece → List String
  | .word word => (qualifier? word).toList
  | .group pieces => if isSelect pieces then [] else referencesOf pieces
  | _ => []

/-- The aliases that pieces refer to. -/
def referencesOf : List Piece → List String
  | [] => []
  | piece :: pieces => piece.references ++ referencesOf pieces

end

mutual

/-- The SELECTs of a piece. -/
def Piece.selects : Piece → List Select
  | .group pieces =>
    if isSelect pieces then
      [.mk (introduced false pieces) (referencesOf pieces) (selectsOf pieces)]
    else selectsOf pieces
  | _ => []

/-- The SELECTs of pieces. -/
def selectsOf : List Piece → List Select
  | [] => []
  | piece :: pieces => piece.selects ++ selectsOf pieces

end

/-- The SELECT that a text is. -/
def selectOf? (text : String) : Option Select :=
  match read text with
  | some pieces =>
    if isSelect pieces then
      some (.mk (introduced false pieces) (referencesOf pieces) (selectsOf pieces))
    else none
  | none => none

namespace Select

/-- The aliases that a SELECT introduces itself. -/
def introduces : Select → List String
  | .mk introduced _ _ => introduced

/-- The aliases that a SELECT refers to itself. -/
def refersTo : Select → List String
  | .mk _ references _ => references

/-- The SELECT at a path of positions. -/
def at? : Select → List Nat → Option Select
  | select, [] => some select
  | .mk _ _ inner, position :: path => (inner[position]?).bind fun select => select.at? path

/-- Every reference is to an alias that the SELECT around it or one around that introduces, and
no SELECT but those around it introduces this alias. -/
def WellScoped (select : Select) : Prop :=
  ∀ path inner name, select.at? path = some inner → name ∈ inner.refersTo →
    (∃ above outer, above <+: path ∧ select.at? above = some outer ∧ name ∈ outer.introduces) ∧
    ∀ other outer, select.at? other = some outer → name ∈ outer.introduces → other <+: path

end Select

/-! ### SELECTs that fit -/

mutual

/-- The references of a SELECT are to what is visible around it or to what it introduces; so are
those of the SELECTs in it. -/
def Select.Fits (visible : List String) : Select → Prop
  | .mk introduced references inner =>
    (∀ name ∈ references, name ∈ visible ++ introduced) ∧ AllFit (visible ++ introduced) inner

/-- All SELECTs of a list fit. -/
def AllFit (visible : List String) : List Select → Prop
  | [] => True
  | select :: selects => select.Fits visible ∧ AllFit visible selects

end

mutual

/-- The aliases that a SELECT and the SELECTs in it introduce. -/
def Select.aliases : Select → List String
  | .mk introduced _ inner => introduced ++ aliasesOf inner

/-- The aliases that SELECTs introduce. -/
def aliasesOf : List Select → List String
  | [] => []
  | select :: selects => select.aliases ++ aliasesOf selects

end

section

variable {visible : List String} {selects : List Select}

theorem allFit_iff : AllFit visible selects ↔ ∀ select ∈ selects, select.Fits visible := by
  induction selects with
  | nil => exact iff_of_true trivial fun _ h => absurd h List.not_mem_nil
  | cons select selects ih => rw [AllFit, ih, List.forall_mem_cons]

theorem aliasesOf_eq : aliasesOf selects = selects.flatMap Select.aliases := by
  induction selects with
  | nil => rfl
  | cons select selects ih => rw [aliasesOf, ih, List.flatMap_cons]

end

mutual

theorem Select.Fits.mono {visible more : List String} (hsub : visible ⊆ more) :
    {select : Select} → select.Fits visible → select.Fits more
  | .mk introduced references inner, h => by
    rw [Select.Fits] at h ⊢
    have hall : visible ++ introduced ⊆ more ++ introduced :=
      List.append_subset.2 ⟨List.Subset.trans hsub (List.subset_append_left _ _),
        List.subset_append_right _ _⟩
    exact ⟨fun name hname => hall (h.1 name hname), AllFit.mono hall h.2⟩

theorem AllFit.mono {visible more : List String} (hsub : visible ⊆ more) :
    {selects : List Select} → AllFit visible selects → AllFit more selects
  | [], _ => trivial
  | _ :: _, h => ⟨h.1.mono hsub, AllFit.mono hsub h.2⟩

end

namespace Select

variable {visible : List String} {select : Select} {name : String}

/-- What a SELECT in another introduces is among the aliases of the other. -/
theorem mem_aliases {path : List Nat} {inner : Select} (h : select.at? path = some inner)
    (hname : name ∈ inner.introduces) : name ∈ select.aliases := by
  induction path generalizing select with
  | nil =>
    cases h
    obtain ⟨introduced, references, selects⟩ := inner
    exact List.mem_append_left _ hname
  | cons position path ih =>
    obtain ⟨introduced, references, selects⟩ := select
    obtain ⟨child, hchild, hinner⟩ := Option.bind_eq_some_iff.1 h
    rw [aliases, aliasesOf_eq]
    exact List.mem_append_right _
      (List.mem_flatMap.2 ⟨child, List.mem_of_getElem? hchild, ih hinner⟩)

/-- Where no alias is introduced twice, a SELECT is told by one that it introduces. -/
theorem path_unique {path other : List Nat} {inner outer : Select} (hnodup : select.aliases.Nodup)
    (h : select.at? path = some inner) (hname : name ∈ inner.introduces)
    (h' : select.at? other = some outer) (hname' : name ∈ outer.introduces) : path = other := by
  induction path generalizing select other with
  | nil =>
    cases h
    obtain ⟨introduced, references, selects⟩ := inner
    cases other with
    | nil => rfl
    | cons position other =>
      obtain ⟨child, hchild, houter⟩ := Option.bind_eq_some_iff.1 h'
      rw [aliases, aliasesOf_eq] at hnodup
      have hinner : name ∈ selects.flatMap aliases :=
        List.mem_flatMap.2 ⟨child, List.mem_of_getElem? hchild, mem_aliases houter hname'⟩
      exact absurd hinner (List.disjoint_of_nodup_append hnodup hname)
  | cons position path ih =>
    obtain ⟨introduced, references, selects⟩ := select
    obtain ⟨child, hchild, hinner⟩ := Option.bind_eq_some_iff.1 h
    rw [aliases, aliasesOf_eq] at hnodup
    have hmem := mem_aliases hinner hname
    cases other with
    | nil =>
      cases h'
      have hall : name ∈ selects.flatMap aliases :=
        List.mem_flatMap.2 ⟨child, List.mem_of_getElem? hchild, hmem⟩
      exact absurd hall (List.disjoint_of_nodup_append hnodup hname')
    | cons position' other =>
      obtain ⟨child', hchild', houter⟩ := Option.bind_eq_some_iff.1 h'
      obtain ⟨heach, hpairwise⟩ := List.nodup_flatMap.1 (List.nodup_append.1 hnodup).2.1
      have hposition : position = position' := by
        by_contra hne
        have hmem' := mem_aliases houter hname'
        obtain ⟨hlt, rfl⟩ := List.getElem?_eq_some_iff.1 hchild
        obtain ⟨hlt', rfl⟩ := List.getElem?_eq_some_iff.1 hchild'
        rw [List.pairwise_iff_getElem] at hpairwise
        rcases Nat.lt_or_gt_of_ne hne with hlt₁ | hlt₁
        · exact hpairwise _ _ hlt hlt' hlt₁ hmem hmem'
        · exact hpairwise _ _ hlt' hlt hlt₁ hmem' hmem
      subst hposition
      rw [hchild] at hchild'
      cases hchild'
      rw [ih (heach child (List.mem_of_getElem? hchild)) hinner houter]

/-- What a SELECT in one that fits refers to is visible around it, or it is introduced on the way. -/
theorem Fits.reference {path : List Nat} {inner : Select} (hfits : select.Fits visible)
    (h : select.at? path = some inner) (hname : name ∈ inner.refersTo) :
    name ∈ visible ∨ ∃ above outer, above <+: path ∧ select.at? above = some outer ∧
      name ∈ outer.introduces := by
  induction path generalizing select visible with
  | nil =>
    cases h
    obtain ⟨introduced, references, selects⟩ := inner
    rcases List.mem_append.1 (hfits.1 name hname) with hv | hi
    · exact .inl hv
    · exact .inr ⟨[], _, List.prefix_rfl, rfl, hi⟩
  | cons position path ih =>
    obtain ⟨introduced, references, selects⟩ := select
    obtain ⟨child, hchild, hinner⟩ := Option.bind_eq_some_iff.1 h
    have hfit := allFit_iff.1 hfits.2 child (List.mem_of_getElem? hchild)
    rcases ih hfit hinner with hv | ⟨above, outer, hprefix, houter, hintroduced⟩
    · rcases List.mem_append.1 hv with hv | hi
      · exact .inl hv
      · exact .inr ⟨[], _, List.nil_prefix, rfl, hi⟩
    · refine .inr ⟨position :: above, outer, List.cons_prefix_cons.2 ⟨rfl, hprefix⟩, ?_,
        hintroduced⟩
      exact Option.bind_eq_some_iff.2 ⟨child, hchild, houter⟩

/-- A SELECT in which no alias is introduced twice is well-scoped if it fits. -/
theorem wellScoped (hfits : select.Fits []) (hnodup : select.aliases.Nodup) :
    select.WellScoped := by
  intro path inner name h hname
  rcases hfits.reference h hname with hv | ⟨above, outer, hprefix, houter, hintroduced⟩
  · exact absurd hv List.not_mem_nil
  · refine ⟨⟨above, outer, hprefix, houter, hintroduced⟩, ?_⟩
    intro other outer' houter' hintroduced'
    rw [← path_unique hnodup houter hintroduced houter' hintroduced']
    exact hprefix

/-- An inner SELECT refers to its own table and to the one around it. -/
example :
    (selectOf? "SELECT (SELECT b_2.\"y\" FROM \"U\" b_2 WHERE b_2.\"k\" = a_1.\"k\") FROM \"T\" a_1").map
      (fun select => (select.introduces, (select.at? [0]).map refersTo)) =
        some (["a_1"], some ["b_2", "b_2", "a_1"]) := by
  decide +kernel

end Select

end Sql

end ObjectGraph
