import ObjectGraph.Proofs.Sql.Binding
import ObjectGraph.Proofs.Sql.Names
import ObjectGraph.Proofs.Sql.Occurrences

/-! # What occurrences stand for

In a `Sound` text every occurrence is where its name stands, and its name is bound to the value
that it was given last.  Texts are put together soundly, and binding a template keeps them sound
(`sound_bindTemplate`).  It loses no occurrence, and each keeps its own value
(`own_bindTemplate`). -/

namespace ObjectGraph

namespace Sql

/-! ### Valid values -/

/-- No value of a scope repeats a key. -/
def Scope.Valid (s : Scope) : Prop := ∀ entry ∈ s.params, entry.2.Valid

/-- Neither does a value of an occurrence. -/
def Occurrence.Valid (o : Occurrence) : Prop := o.own.Valid ∧ ∀ value ∈ o.captures, value.Valid

theorem Occurrence.Valid.current {o : Occurrence} (h : o.Valid) : o.current.Valid := by
  unfold Occurrence.current
  cases hlast : o.captures.getLast? with
  | none => exact h.1
  | some value => exact h.2 value (List.mem_of_getLast? hlast)

theorem Occurrence.valid_rebind {old? : Option Occurrence} (hold : ∀ o ∈ old?, o.Valid)
    (name : String) {value : Json} (h : value.Valid) : (rebind old? name value).Valid := by
  cases old? with
  | none => exact ⟨h, fun _ hc => absurd hc List.not_mem_nil⟩
  | some o =>
    refine ⟨(hold o rfl).1, ?_⟩
    intro c hc
    rcases List.mem_append.1 hc with hc | hc
    · exact (hold o rfl).2 c hc
    · rw [List.mem_singleton.1 hc]
      exact h

/-- A valid value is bound under the name that is given for it. -/
theorem bind_valid {name bound : String} {value : Json} {s t : Scope}
    (h : bind name value s = (bound, t)) (hs : s.Valid) (hv : value.Valid) :
    s.params <+: t.params ∧ t.Valid ∧
      ∃ held, t.params.get? bound = some held ∧ held.same value = true := by
  refine ⟨bind_grows h, ?_⟩
  rcases bind_ok h with ⟨rfl, held, hget, hsame⟩ | ⟨hfree, rfl⟩
  · exact ⟨hs, held, hget, hsame⟩
  · refine ⟨?_, value, get?_append hfree, Json.same_refl value hv⟩
    intro entry hentry
    rcases List.mem_append.1 hentry with hentry | hentry
    · exact hs entry hentry
    · rw [List.mem_singleton.1 hentry]
      exact hv

/-! ### Names of placeholders -/

/-- A name that a placeholder can have. -/
structure Bindable (name : String) : Prop where
  start : ∃ c ∈ name.toList.head?, Token.isNameStart c = true
  isName : IsName name

theorem Bindable.append {name suffix : String} (h : Bindable name) (hs : IsName suffix) :
    Bindable (name ++ suffix) := by
  obtain ⟨c, hc, hstart⟩ := h.start
  refine ⟨⟨c, ?_, hstart⟩, isName_append h.isName hs⟩
  rw [String.toList_append, Option.mem_def, List.head?_append, hc, Option.some_or]

theorem Bindable.numbered {name : String} (h : Bindable name) (n : Nat) :
    Bindable (name ++ "_" ++ toString n) :=
  (h.append isName_underscore).append (isName_toString n)

theorem Bindable.notMem {name : String} (h : Bindable name) {c : Char}
    (hc : Token.isNameChar c = false) : c ∉ name.toList := by
  intro hmem
  have hchar := h.isName c hmem
  rw [hc] at hchar
  cases hchar

/-- What holds of a name and of the numbered names after it holds of the one that a value is bound
under. -/
theorem bind_of_numbered {P : String → Prop} {name : String} (h : P name)
    (hnumbered : ∀ n : Nat, P (name ++ "_" ++ toString n)) (value : Json) (s : Scope) :
    P (Sql.bind name value s).1 := by
  have hcandidate : ∀ n, P (Scope.candidate name n) := by
    intro n
    cases n with
    | zero => exact h
    | succ n => exact hnumbered (n + 2)
  have hbound : (Sql.bind name value s).1 = Scope.nameFor s.params name value := by
    unfold Sql.bind
    cases hget : s.params.get? (Scope.nameFor s.params name value) <;> simp only [hget]
  rw [hbound]
  exact hcandidate _

/-- The name that a value is bound under is again one that a placeholder can have. -/
theorem Bindable.bind {name : String} (h : Bindable name) (value : Json) (s : Scope) :
    Bindable (Sql.bind name value s).1 := bind_of_numbered h h.numbered value s

namespace Token

theorem next_of_isNameChar {c : Char} (h : isNameChar c = true) (rest : List Char) :
    next c rest = (char c, rest) := by
  have hquote : ¬ (c = '\'' ∨ c = '"') := by
    rintro (rfl | rfl) <;> cases h
  have hcolon : c ≠ ':' := by
    rintro rfl
    cases h
  unfold next
  rw [if_neg hquote, if_neg hcolon]

theorem isNameChar_of_isNameStart {c : Char} (h : isNameStart c = true) :
    isNameChar c = true := by
  change (c.isAlpha || decide (c = '_')) = true at h
  change (c.isAlpha || c.isDigit || decide (c = '_')) = true
  rw [Bool.or_eq_true] at h
  rcases h with h | h
  · rw [h, Bool.true_or, Bool.true_or]
  · rw [h, Bool.or_true]

theorem bindable_of_name? {s name rest : List Char} (h : name? s = some (name, rest)) :
    Bindable (String.ofList name) := by
  cases s with
  | nil => cases h
  | cons c s =>
    simp only [name?] at h
    by_cases hc : isNameStart c = true
    · rw [if_pos hc] at h
      have hname : (c :: s).takeWhile isNameChar = name := (Prod.mk.inj (Option.some.inj h)).1
      rw [← hname, List.takeWhile_cons_of_pos (isNameChar_of_isNameStart hc)]
      refine ⟨⟨c, by rw [String.toList_ofList]; rfl, hc⟩, ?_⟩
      intro d hd
      rw [String.toList_ofList] at hd
      rcases List.mem_cons.1 hd with rfl | hd
      · exact isNameChar_of_isNameStart hc
      · exact List.all_eq_true.1 List.all_takeWhile d hd
    · rw [if_neg hc] at h
      cases h

/-- What a scan takes for the name of a placeholder can be one. -/
theorem bindable_of_next {c : Char} {rest name : List Char} {list : Bool}
    (h : (next c rest).1 = placeholder list name) : Bindable (String.ofList name) := by
  unfold next at h
  split at h
  · split at h <;> cases h
  · split at h
    · split at h
      · cases h
      · split at h
        · next hname =>
          cases h
          exact bindable_of_name? hname
        · cases h
      · split at h
        · next hname =>
          cases h
          exact bindable_of_name? hname
        · cases h
    · cases h

end Token

namespace Marked

/-- The parts of a text that a scan takes are its first token and the rest. -/
theorem scan_step {m : Marked} {token : Token} {tokens : List Token}
    (h : Token.scan (m.map Prod.fst) = token :: tokens) :
    (m.take token.text.length).map Prod.fst = token.text ∧
      Token.scan ((m.drop token.text.length).map Prod.fst) = tokens ∧
        ∀ list name, token = .placeholder list name → Bindable (String.ofList name) := by
  cases m with
  | nil =>
    rw [List.map_nil, Token.scan] at h
    cases h
  | cons item m =>
    rw [List.map_cons, Token.scan] at h
    obtain ⟨htoken, hrest⟩ := List.cons.inj h
    have htext := Token.text_next item.1 (m.map Prod.fst)
    rw [htoken, ← List.map_cons (f := Prod.fst)] at htext
    rw [List.map_take, List.map_drop, ← htext, List.take_left, List.drop_left]
    refine ⟨rfl, hrest, ?_⟩
    intro list name hname
    exact Token.bindable_of_next (htoken.trans hname)

/-! ### Occurrences are where their names stand -/

/-- Every occurrence is on a colon that its name follows. -/
def Anchored : Marked → Prop
  | [] => True
  | (_, none) :: m => Anchored m
  | (c, some o) :: m =>
    c = ':' ∧ Bindable o.name ∧ o.name.toList <+: m.map Prod.fst ∧ Anchored m

/-- What follows the occurrences may change if the names that stand there stay. -/
theorem anchored_replace {m n n' : Marked} (h : Anchored (m ++ n)) (hn' : Anchored n')
    (hkeeps : ∀ name : List Char, (∀ c ∈ name, Token.isNameChar c = true) →
      name <+: n.map Prod.fst → name <+: n'.map Prod.fst) : Anchored (m ++ n') := by
  induction m with
  | nil => exact hn'
  | cons item m ih =>
    obtain ⟨c, old?⟩ := item
    cases old? with
    | none => exact ih h
    | some o =>
      obtain ⟨hc, hname, hprefix, hrest⟩ := h
      refine ⟨hc, hname, ?_, ih hrest⟩
      change o.name.toList <+: (m ++ n).map Prod.fst at hprefix
      change o.name.toList <+: (m ++ n').map Prod.fst
      rw [List.map_append] at hprefix ⊢
      rcases List.prefix_or_prefix_of_prefix hprefix (List.prefix_append _ _) with hshort | hlong
      · exact hshort.trans (List.prefix_append _ _)
      · obtain ⟨tail, htail⟩ := hlong
        rw [← htail] at hprefix ⊢
        rw [List.prefix_append_right_inj] at hprefix ⊢
        apply hkeeps tail _ hprefix
        intro d hd
        apply hname.isName d
        rw [← htail]
        exact List.mem_append_right _ hd

theorem anchored_append {m n : Marked} (hm : Anchored m) (hn : Anchored n) : Anchored (m ++ n) := by
  rw [← List.append_nil m] at hm
  apply anchored_replace hm hn
  intro name _ hprefix
  rw [List.prefix_nil.1 hprefix]
  exact List.nil_prefix

theorem Anchored.right {m n : Marked} (h : Anchored (m ++ n)) : Anchored n := by
  induction m with
  | nil => exact h
  | cons item m ih =>
    obtain ⟨c, old?⟩ := item
    cases old? with
    | none => exact ih h
    | some o => exact ih h.2.2.2

theorem anchored_plain (text : String) : Anchored (plain text) := by
  unfold plain
  induction text.toList with
  | nil => trivial
  | cons c cs ih => exact ih

theorem anchored_placeholder {o : Occurrence} (h : Bindable o.name) : Anchored (placeholder o) := by
  have hname : (plain o.name).map Prod.fst = o.name.toList := by
    rw [← toList_text, text_plain]
  exact ⟨rfl, h, hname ▸ List.prefix_rfl, anchored_plain o.name⟩

/-- The name of an occurrence begins right after it. -/
theorem Anchored.start {c d : Char} {o : Occurrence} {m : Marked} {rest : List Char}
    (h : Anchored ((c, some o) :: m)) (hm : m.map Prod.fst = d :: rest) :
    Token.isNameStart d = true := by
  obtain ⟨-, hname, hprefix, -⟩ := h
  obtain ⟨first, hfirst, hstart⟩ := hname.start
  rw [hm] at hprefix
  cases hchars : o.name.toList with
  | nil =>
    rw [hchars] at hfirst
    cases hfirst
  | cons first' chars =>
    rw [hchars] at hprefix hfirst
    obtain ⟨rfl, -⟩ := List.cons_prefix_cons.1 hprefix
    cases hfirst
    exact hstart

/-- Where no colon is there is no occurrence. -/
theorem occurrences_eq_nil {m n : Marked} (h : Anchored (m ++ n)) (hm : ':' ∉ m.map Prod.fst) :
    m.occurrences = [] := by
  induction m with
  | nil => rfl
  | cons item m ih =>
    obtain ⟨c, old?⟩ := item
    rw [List.map_cons, List.mem_cons, not_or] at hm
    cases old? with
    | none => exact ih h hm.2
    | some o => exact absurd h.1.symm hm.1

/-! ### Sound texts -/

/-- What every occurrence was given last is bound to its name. -/
def Bound (s : Scope) (m : Marked) : Prop :=
  ∀ o ∈ m.occurrences, o.Valid ∧
    ∃ held, s.params.get? o.name = some held ∧ held.same o.current = true

/-- Every occurrence is where its name stands, and what it was given last is bound to this name. -/
structure Sound (s : Scope) (m : Marked) : Prop where
  anchored : Anchored m
  bound : Bound s m

section

variable {s t : Scope} {m n : Marked} {params : Params}

theorem occurrences_plain (text : String) : (plain text).occurrences = [] := by
  unfold plain
  induction text.toList with
  | nil => rfl
  | cons c cs ih => exact ih

theorem occurrences_placeholder (o : Occurrence) : (placeholder o).occurrences = [o] := by
  have hcolon : (placeholder o).occurrences = o :: (plain o.name).occurrences := rfl
  rw [hcolon, occurrences_plain]

theorem bound_append : Bound s (m ++ n) ↔ Bound s m ∧ Bound s n := by
  unfold Bound occurrences
  rw [List.filterMap_append]
  constructor
  · intro h
    exact ⟨fun o ho => h o (List.mem_append_left _ ho), fun o ho => h o (List.mem_append_right _ ho)⟩
  · rintro ⟨hm, hn⟩ o ho
    rcases List.mem_append.1 ho with ho | ho
    · exact hm o ho
    · exact hn o ho

theorem Bound.grow (h : Bound s m) (hgrows : s.params <+: t.params) : Bound t m := by
  intro o ho
  obtain ⟨hvalid, held, hget, hsame⟩ := h o ho
  exact ⟨hvalid, held, get?_of_grows hgrows hget, hsame⟩

theorem Sound.grow (h : Sound s m) (hgrows : s.params <+: t.params) : Sound t m :=
  ⟨h.anchored, h.bound.grow hgrows⟩

theorem sound_plain (text : String) : Sound s (plain text) := by
  refine ⟨anchored_plain text, ?_⟩
  intro o ho
  rw [occurrences_plain] at ho
  exact absurd ho List.not_mem_nil

theorem sound_append (hm : Sound s m) (hn : Sound s n) : Sound s (m ++ n) :=
  ⟨anchored_append hm.anchored hn.anchored, bound_append.2 ⟨hm.bound, hn.bound⟩⟩

theorem sound_join {separator : String} {parts : List Marked} (h : ∀ part ∈ parts, Sound s part) :
    Sound s (join separator parts) := by
  induction parts with
  | nil => exact sound_plain ""
  | cons m parts ih =>
    have hfirst := h m List.mem_cons_self
    have hrest := ih fun part hpart => h part (List.mem_cons_of_mem m hpart)
    cases parts with
    | nil =>
      change Sound s (m ++ [])
      rw [List.append_nil]
      exact hfirst
    | cons n parts => exact sound_append hfirst (sound_append (sound_plain separator) hrest)

theorem sound_placeholder {o : Occurrence} (hname : Bindable o.name) (ho : o.Valid)
    (h : ∃ held, s.params.get? o.name = some held ∧ held.same o.current = true) :
    Sound s (placeholder o) := by
  refine ⟨anchored_placeholder hname, ?_⟩
  intro o' ho'
  rw [occurrences_placeholder] at ho'
  rw [List.mem_singleton.1 ho']
  exact ⟨ho, h⟩

/-- Binding a value makes an occurrence that stands for it. -/
theorem sound_bind {old? : Option Occurrence} (hold : ∀ o ∈ old?, o.Valid) {name : String}
    (hname : Bindable name) {value : Json} (hs : s.Valid) (hv : value.Valid) :
    s.params <+: (bind name value s).2.params ∧ (bind name value s).2.Valid ∧
      Sound (bind name value s).2
        (placeholder (Occurrence.rebind old? (bind name value s).1 value)) := by
  obtain ⟨hgrows, ht, held, hget, hsame⟩ := bind_valid (rfl : bind name value s = _) hs hv
  refine ⟨hgrows, ht, sound_placeholder ?_ (Occurrence.valid_rebind hold _ hv) ⟨held, ?_, ?_⟩⟩
  · rw [Occurrence.name_rebind]
    exact hname.bind value s
  · rw [Occurrence.name_rebind]
    exact hget
  · rw [Occurrence.current_rebind]
    exact hsame

theorem sound_bindElements {name : String} (hname : Bindable name) (index : Nat)
    {items : List Json} (hs : s.Valid) (hv : ∀ item ∈ items, item.Valid) :
    s.params <+: (bindElements name index items s).2.params ∧
      (bindElements name index items s).2.Valid ∧
      ∀ part ∈ (List.zipWith (Occurrence.rebind none) (bindElements name index items s).1
        items).map placeholder, Sound (bindElements name index items s).2 part := by
  induction items generalizing index s with
  | nil => exact ⟨List.prefix_rfl, hs, fun _ hp => absurd hp List.not_mem_nil⟩
  | cons item items ih =>
    have hnone : ∀ o ∈ (none : Option Occurrence), o.Valid :=
      fun _ h => absurd h (Option.not_mem_none _)
    obtain ⟨hgrows, ht, hsound⟩ :=
      sound_bind hnone (hname.numbered index) hs (hv item List.mem_cons_self)
    obtain ⟨hgrows', ht', hsound'⟩ := ih (index + 1) ht fun i hi => hv i (List.mem_cons_of_mem _ hi)
    refine ⟨hgrows.trans hgrows', ht', ?_⟩
    intro part hpart
    rcases List.mem_cons.1 hpart with rfl | hpart
    · exact hsound.grow hgrows'
    · exact hsound' part hpart

theorem sound_bindPlaceholder {old? : Option Occurrence} (hold : ∀ o ∈ old?, o.Valid)
    (list : Bool) {name : String} (hname : Bindable name) {value : Json} (hs : s.Valid)
    (hv : value.Valid) :
    s.params <+: (bindPlaceholder old? list name value s).2.params ∧
      (bindPlaceholder old? list name value s).2.Valid ∧
      Sound (bindPlaceholder old? list name value s).2
        (bindPlaceholder old? list name value s).1 := by
  cases list with
  | false => exact sound_bind hold hname hs hv
  | true =>
    cases value with
    | arr items =>
      cases items with
      | nil => exact ⟨List.prefix_rfl, hs, sound_plain "NULL"⟩
      | cons item items =>
        rw [Json.Valid] at hv
        obtain ⟨hgrows, ht, hsound⟩ :=
          sound_bindElements hname 0 hs (Json.valid_of_mem_items hv)
        exact ⟨hgrows, ht, sound_join hsound⟩
    | null | bool | num | str | obj => exact sound_bind hold hname hs hv

/-- A token stays as it is, or its part is put in place of it soundly. -/
theorem sound_bindToken {token : Token}
    (hname : ∀ list name, token = .placeholder list name → Bindable (String.ofList name))
    (hs : s.Valid) (hm : Bound s m) (hv : ∀ entry ∈ params, entry.2.Valid) :
    s.params <+: (bindToken params token m s).2.params ∧ (bindToken params token m s).2.Valid ∧
      ((bindToken params token m s).1 = m ∨
        Sound (bindToken params token m s).2 (bindToken params token m s).1) := by
  cases token with
  | placeholder list name =>
    have hold : ∀ o ∈ m.head?.bind Prod.snd, o.Valid := by
      intro o ho
      obtain ⟨item, hitem, hsome⟩ := Option.bind_eq_some_iff.1 ho
      exact (hm o (List.mem_filterMap.2 ⟨item, List.mem_of_mem_head? hitem, hsome⟩)).1
    cases hget : params.get? (String.ofList name) with
    | some value =>
      simp only [bindToken, hget]
      obtain ⟨hgrows, ht, hsound⟩ := sound_bindPlaceholder hold list (hname list name rfl) hs
        (hv _ (Dictionary.mem_of_lookup hget))
      exact ⟨hgrows, ht, .inr hsound⟩
    | none =>
      simp only [bindToken, hget]
      exact ⟨List.prefix_rfl, hs, .inl rfl⟩
  | char | quoted | cast => exact ⟨List.prefix_rfl, hs, .inl rfl⟩

theorem bindTokens_split (params : Params) (token : Token) (tokens : List Token) (m : Marked)
    (s : Scope) :
    bindTokens params (split (token :: tokens) m) s =
      ((bindToken params token (m.take token.text.length) s).1 ++
          (bindTokens params (split tokens (m.drop token.text.length))
            (bindToken params token (m.take token.text.length) s).2).1,
        (bindTokens params (split tokens (m.drop token.text.length))
          (bindToken params token (m.take token.text.length) s).2).2) :=
  rfl

/-- A name in front of a text stays there: scanning takes its characters one by one. -/
theorem prefix_bindTokens {name : List Char} (hname : ∀ c ∈ name, Token.isNameChar c = true)
    (h : name <+: m.map Prod.fst) (s : Scope) :
    name <+: (bindTokens params (split (Token.scan (m.map Prod.fst)) m) s).1.map Prod.fst := by
  induction name generalizing m with
  | nil => exact List.nil_prefix
  | cons c name ih =>
    cases m with
    | nil => cases List.prefix_nil.1 h
    | cons item m =>
      obtain ⟨rfl, hrest⟩ := List.cons_prefix_cons.1 h
      rw [List.map_cons, Token.scan, Token.next_of_isNameChar (hname _ List.mem_cons_self)]
      have hstays := ih (fun d hd => hname d (List.mem_cons_of_mem _ hd)) hrest
      exact List.cons_prefix_cons.2 ⟨rfl, hstays⟩

theorem sound_bindTokens (tokens : List Token) (hscan : Token.scan (m.map Prod.fst) = tokens)
    (hs : s.Valid) (hm : Sound s m) (hv : ∀ entry ∈ params, entry.2.Valid) :
    s.params <+: (bindTokens params (split tokens m) s).2.params ∧
      (bindTokens params (split tokens m) s).2.Valid ∧
      Sound (bindTokens params (split tokens m) s).2 (bindTokens params (split tokens m) s).1 := by
  induction tokens generalizing m s with
  | nil => exact ⟨List.prefix_rfl, hs, sound_plain ""⟩
  | cons token tokens ih =>
    obtain ⟨-, hrest, hname⟩ := scan_step hscan
    rw [← List.take_append_drop token.text.length m] at hm
    obtain ⟨htake, hdrop⟩ := bound_append.1 hm.bound
    obtain ⟨hgrows, ht, hfirst⟩ := sound_bindToken hname hs htake hv
    obtain ⟨hgrows', ht', hsound'⟩ := ih hrest ht ⟨hm.anchored.right, hdrop.grow hgrows⟩
    rw [bindTokens_split]
    refine ⟨hgrows.trans hgrows', ht', ?_⟩
    rcases hfirst with hkept | hsound
    · rw [hkept]
      refine ⟨?_, bound_append.2 ⟨htake.grow (hgrows.trans hgrows'), hsound'.bound⟩⟩
      apply anchored_replace hm.anchored hsound'.anchored
      intro name hchars hprefix
      rw [← hrest]
      exact prefix_bindTokens hchars hprefix _
    · exact sound_append (hsound.grow hgrows') hsound'

/-- After a template is bound, every occurrence in it stands for the value it was given last. -/
theorem sound_bindTemplate (hs : s.Valid) (hm : Sound s m)
    (hv : ∀ entry ∈ params, entry.2.Valid) :
    s.params <+: (m.bindTemplate params s).2.params ∧ (m.bindTemplate params s).2.Valid ∧
      Sound (m.bindTemplate params s).2 (m.bindTemplate params s).1 := by
  unfold bindTemplate
  by_cases hempty : params.isEmpty = true
  · rw [if_pos hempty]
    exact ⟨List.prefix_rfl, hs, hm⟩
  · rw [if_neg hempty, toList_text]
    exact sound_bindTokens _ rfl hs hm hv

/-! ### No occurrence is lost -/

/-- The values that occurrences were bound to in their own templates. -/
def owned (m : Marked) : List Json := m.occurrences.map Occurrence.own

theorem owned_append : (m ++ n).owned = m.owned ++ n.owned := by
  unfold owned occurrences
  rw [List.filterMap_append, List.map_append]

theorem owned_join (separator : String) (parts : List Marked) :
    (join separator parts).owned = parts.flatMap owned := by
  induction parts with
  | nil => rfl
  | cons m parts ih =>
    cases parts with
    | nil =>
      change owned (m ++ []) = _
      rw [List.append_nil, List.flatMap_singleton]
    | cons n parts =>
      have hcons : join separator (m :: n :: parts) =
          m ++ (plain separator ++ join separator (n :: parts)) := rfl
      have hplain : (plain separator).owned = [] := by
        rw [owned, occurrences_plain, List.map_nil]
      rw [hcons, owned_append, owned_append, hplain, List.nil_append, ih]
      rfl

theorem owned_elements {names : List String} {items : List Json}
    (h : names.length = items.length) :
    ((List.zipWith (Occurrence.rebind none) names items).map placeholder).flatMap owned =
      items := by
  induction names generalizing items with
  | nil =>
    cases items with
    | nil => rfl
    | cons item items => cases h
  | cons name names ih =>
    cases items with
    | nil => cases h
    | cons item items =>
      rw [List.zipWith_cons_cons, List.map_cons, List.flatMap_cons, ih (Nat.succ.inj h), owned,
        occurrences_placeholder]
      rfl

/-- A list placeholder becomes one occurrence for each element, in order. -/
theorem owned_list (old? : Option Occurrence) (name : String) (items : List Json) (s : Scope) :
    (bindPlaceholder old? true name (.arr items) s).1.owned = items := by
  cases items with
  | nil =>
    change (plain "NULL").owned = []
    rw [owned, occurrences_plain, List.map_nil]
  | cons item items =>
    change (join ", " _).owned = _
    rw [owned_join]
    exact owned_elements (length_bindElements name 0 (item :: items))

theorem colon_notMem {name : List Char} (h : Bindable (String.ofList name)) : ':' ∉ name := by
  have hcolon : ':' ∉ (String.ofList name).toList := h.notMem rfl
  rwa [String.toList_ofList] at hcolon

theorem owned_bindToken {token : Token}
    (hname : ∀ list name, token = .placeholder list name → Bindable (String.ofList name))
    (htoken : m.map Prod.fst = token.text) (hm : Anchored (m ++ n)) (s : Scope) :
    m.owned.Sublist (bindToken params token m s).1.owned := by
  cases token with
  | char | quoted | cast => exact List.Sublist.refl _
  | placeholder list name =>
    have hcolon := colon_notMem (hname list name rfl)
    cases hget : params.get? (String.ofList name) with
    | none =>
      simp only [bindToken, hget]
      exact List.Sublist.refl _
    | some value =>
      simp only [bindToken, hget]
      cases m with
      | nil => exact List.nil_sublist _
      | cons item m =>
        obtain ⟨c, old?⟩ := item
        have hrest : Anchored (m ++ n) := Anchored.right (m := [(c, old?)]) hm
        have hsplit : owned ((c, old?) :: m) = owned [(c, old?)] ++ owned m :=
          owned_append (m := [(c, old?)])
        cases list with
        | false =>
          have htail : m.map Prod.fst = name := (List.cons.inj htoken).2
          have hnone := occurrences_eq_nil hrest (by rwa [htail])
          rw [hsplit, owned, owned, hnone, List.map_nil, List.append_nil]
          change (owned [(c, old?)]).Sublist (owned (placeholder (Occurrence.rebind old?
            (bind (String.ofList name) value s).1 value)))
          rw [owned, owned, occurrences_placeholder]
          cases old? with
          | none => exact List.nil_sublist _
          | some o => exact List.Sublist.refl _
        | true =>
          have htail : m.map Prod.fst = '.' :: '.' :: '.' :: name := (List.cons.inj htoken).2
          have hnone := occurrences_eq_nil hrest (by simp [htail, hcolon])
          -- The colon of an occurrence is before its name and not before dots.
          cases old? with
          | none =>
            rw [hsplit, owned, owned, hnone]
            exact List.nil_sublist _
          | some o =>
            have hdots : (m ++ n).map Prod.fst = '.' :: '.' :: '.' :: (name ++ n.map Prod.fst) := by
              rw [List.map_append, htail]
              rfl
            have hstart := Anchored.start hm hdots
            cases hstart

theorem owned_bindTokens (tokens : List Token) (hscan : Token.scan (m.map Prod.fst) = tokens)
    (hm : Anchored m) (s : Scope) :
    m.owned.Sublist (bindTokens params (split tokens m) s).1.owned := by
  induction tokens generalizing m s with
  | nil =>
    cases m with
    | nil => exact List.Sublist.refl _
    | cons item m =>
      rw [List.map_cons, Token.scan] at hscan
      cases hscan
  | cons token tokens ih =>
    obtain ⟨htoken, hrest, hname⟩ := scan_step hscan
    rw [← List.take_append_drop token.text.length m] at hm
    have hfirst : (owned _).Sublist (bindToken params token _ s).1.owned :=
      owned_bindToken hname htoken hm s
    have hothers := ih hrest hm.right (bindToken params token (m.take token.text.length) s).2
    rw [bindTokens_split, owned_append]
    have hsplit : m.owned = owned (m.take token.text.length) ++ owned (m.drop token.text.length) := by
      rw [← owned_append, List.take_append_drop]
    rw [hsplit]
    exact hfirst.append hothers

/-- Binding a template loses no occurrence, and each keeps its own value. -/
theorem owned_bindTemplate (hm : Anchored m) (s : Scope) :
    m.owned.Sublist (m.bindTemplate params s).1.owned := by
  unfold bindTemplate
  by_cases hempty : params.isEmpty = true
  · rw [if_pos hempty]
    exact List.Sublist.refl _
  · rw [if_neg hempty, toList_text]
    exact owned_bindTokens _ rfl hm s

end

end Marked

end Sql

end ObjectGraph
