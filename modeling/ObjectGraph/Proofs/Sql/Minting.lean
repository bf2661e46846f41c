import ObjectGraph.Proofs.Sql.Binding
import ObjectGraph.Proofs.Sql.ScopedTexts

/-! # Minting aliases

An alias ends in its position among those of its scope (`Numbered`), whatever hint it is made of.
So the aliases of a statement differ (`Numbered.nodup`), and none can be taken for a keyword
(`Numbered.isAlias`).  `Mints s new t` says that a step of building leads from one scope to
another by minting aliases; binding values mints none. -/

namespace ObjectGraph

namespace Sql

/-- Every alias ends in its position. -/
def Numbered (names : List String) : Prop :=
  ∀ i name, names[i]? = some name → ∃ hint, name = snakeCase hint ++ "_" ++ toString (i + 1)

/-- The number after the last underscore. -/
theorem number_inj {lead lead' : String} {m n : Nat}
    (h : lead ++ "_" ++ toString m = lead' ++ "_" ++ toString n) : m = n := by
  have hdigits : ∀ k : Nat, ∀ c ∈ (toString k).toList.reverse, (c != '_') = true := by
    intro k c hc
    have hlist : (toString k).toList = Nat.toDigits 10 k := String.toList_ofList
    rw [List.mem_reverse, hlist] at hc
    have hdigit := Nat.isDigit_of_mem_toDigits (b := 10) (n := k) (by omega) (by omega) hc
    rw [bne_iff_ne]
    rintro rfl
    cases hdigit
  have hlast : ∀ (text : String) (k : Nat),
      (text ++ "_" ++ toString k).toList.reverse.takeWhile (· != '_') =
        (toString k).toList.reverse := by
    intro text k
    have hunderscore : "_".toList = ['_'] := rfl
    rw [String.toList_append, String.toList_append, hunderscore, List.reverse_append,
      List.reverse_append, List.takeWhile_append_of_pos (hdigits k), List.reverse_singleton,
      List.singleton_append, List.takeWhile_cons_of_neg (by decide), List.append_nil]
  have hnumber : (toString m).toList.reverse = (toString n).toList.reverse := by
    rw [← hlast lead m, h, hlast]
  exact toString_inj (String.toList_injective (List.reverse_injective hnumber))

namespace Numbered

variable {names : List String}

theorem nodup (h : Numbered names) : names.Nodup := by
  refine List.nodup_iff_pairwise_ne.2 (List.pairwise_iff_getElem.2 ?_)
  intro i j hi hj hij heq
  obtain ⟨hint, hname⟩ := h i _ (List.getElem?_eq_getElem hi)
  obtain ⟨hint', hname'⟩ := h j _ (List.getElem?_eq_getElem hj)
  rw [heq, hname'] at hname
  have := number_inj hname
  omega

/-- The next alias. -/
theorem concat (h : Numbered names) (hint : String) :
    Numbered (names ++ [snakeCase hint ++ "_" ++ toString (names.length + 1)]) := by
  intro i name hi
  rcases Nat.lt_or_ge i names.length with hlt | hge
  · rw [List.getElem?_append_left hlt] at hi
    exact h i name hi
  · rw [List.getElem?_append_right hge] at hi
    obtain ⟨hzero, rfl⟩ := List.getElem?_eq_some_iff.1 hi
    have hposition : i = names.length := by
      rw [List.length_singleton] at hzero
      omega
    subst hposition
    exact ⟨hint, by simp⟩

theorem isIdentifier (h : Numbered names) : ∀ name ∈ names, IsIdentifier name := by
  intro name hname
  obtain ⟨i, hi, rfl⟩ := List.getElem_of_mem hname
  obtain ⟨hint, hname⟩ := h i _ (List.getElem?_eq_getElem hi)
  rw [hname]
  exact isIdentifier_numbered hint (i + 1)

/-- Numbered aliases differ by more than the case of their letters, since they have no capitals. -/
theorem nodup_toLower (h : Numbered names) : (names.map String.toLower).Nodup := by
  have hsame : names.map String.toLower = names :=
    (List.map_congr_left fun name hname => (h.isIdentifier name hname).toLower_eq).trans
      (List.map_id names)
  rw [hsame]
  exact h.nodup

end Numbered

/-- Aliases that can stand in one statement: identifiers that differ, whatever the case of their
letters. -/
structure Distinct (names : List String) : Prop where
  isIdentifier : ∀ name ∈ names, IsIdentifier name
  nodup : names.Nodup
  nodup_toLower : (names.map String.toLower).Nodup

theorem Numbered.distinct {names : List String} (h : Numbered names) : Distinct names :=
  ⟨h.isIdentifier, h.nodup, h.nodup_toLower⟩

theorem isAlias_aliasFor (scope : Scope) (hint : String) : IsAlias (scope.aliasFor hint) := by
  refine ⟨isName_aliasFor scope hint, ?_⟩
  unfold Scope.aliasFor
  rw [String.toList_append, String.toList_append]
  exact List.mem_append_left _ (List.mem_append_right _ List.mem_cons_self)

/-- A step from one scope to another mints some aliases, each numbered. -/
structure Mints (s : Scope) (new : List String) (t : Scope) : Prop where
  aliases : t.aliases = s.aliases ++ new
  numbered : Numbered s.aliases → Numbered t.aliases

section

variable {s t u : Scope} {new more : List String}

theorem mints_nothing (h : t.aliases = s.aliases) : Mints s [] t where
  aliases := by rw [h, List.append_nil]
  numbered hs := by rwa [h]

theorem Mints.trans (h : Mints s new t) (h' : Mints t more u) : Mints s (new ++ more) u where
  aliases := by rw [h'.aliases, h.aliases, List.append_assoc]
  numbered hs := h'.numbered (h.numbered hs)

theorem isAlias_freshAlias {hint name : String} (h : freshAlias hint s = (name, t)) :
    IsAlias name := by
  cases h
  exact isAlias_aliasFor s hint

theorem mints_freshAlias {hint name : String} (h : freshAlias hint s = (name, t)) :
    Mints s [name] t := by
  cases h
  exact ⟨rfl, fun hs => hs.concat hint⟩

theorem Mints.numbered_new (h : Mints {} new t) : Numbered new := by
  have hempty : Numbered ([] : List String) := fun i _ hi => by simp at hi
  have hall := h.numbered hempty
  rwa [h.aliases] at hall

/-- The aliases of a statement differ. -/
theorem Mints.nodup (h : Mints {} new t) : new.Nodup := h.numbered_new.nodup

end

end Sql

end ObjectGraph
