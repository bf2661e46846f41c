import ObjectGraph.Proofs.Sql.Lexemes
import ObjectGraph.Proofs.Sql.Parameters

/-! # Rewriting templates

A token of a template asks for values to be bound (`Token.calls`), and is replaced by the names they
are bound under; a token that asks for nothing is kept, or is a list that is emptied (`Part.text`).
The tokens are rewritten one after another: what is bound for them is bound in their order, and each
becomes its own part of the text (`bindTokens_parts`). -/

namespace ObjectGraph

namespace Sql

/-! ### What tokens become -/

namespace Token

/-- The value that is supplied for a token. -/
def value? (params : Params) (token : Token) : Option Json := token.name.bind params.get?

/-- The values that are bound for a placeholder, each with the name asked for: the elements of an
array under numbered names where a list is asked for. -/
def asked : (list : Bool) → (name : String) → Json → List (String × Json)
  | true, name, .arr items =>
    items.zipIdx.map fun item => (name ++ "_" ++ toString item.2, item.1)
  | _, name, value => [(name, value)]

/-- The values that are bound for a token. -/
def calls (params : Params) : Token → List (String × Json)
  | .placeholder list name =>
    match params.get? (String.ofList name) with
    | some value => asked list (String.ofList name) value
    | none => []
  | _ => []

/-- An empty array is supplied for a list placeholder. -/
def Emptied (params : Params) (token : Token) : Prop :=
  ∃ name, token = .placeholder true name ∧ token.value? params = some (.arr [])

end Token

/-- A token of a template with the names that its values are bound under. -/
structure Part where
  token : Token
  bound : List String

namespace Part

/-- The text that a token is replaced by. -/
def text (params : Params) (part : Part) : String :=
  match part.token.value? params with
  | none => String.ofList part.token.text
  | some _ => if part.bound.isEmpty then "NULL" else placeholderList part.bound

/-- The placeholders that a token is replaced by. -/
def names (params : Params) (part : Part) : List String :=
  match part.token.value? params with
  | none => part.token.name.toList
  | some _ => part.bound

end Part

section

variable {params : Params} {token : Token}

theorem bindElements_eq (name : String) (index : Nat) (items : List Json) (s : Scope) :
    bindElements name index items s =
      bindAll ((items.zipIdx index).map fun item =>
        (name ++ "_" ++ toString item.2, item.1)) s := by
  induction items generalizing index s with
  | nil => rfl
  | cons item items ih =>
    change ((bind (name ++ "_" ++ toString index) item s).1 ::
      (bindElements name (index + 1) items (bind (name ++ "_" ++ toString index) item s).2).1,
      (bindElements name (index + 1) items (bind (name ++ "_" ++ toString index) item s).2).2) = _
    rw [ih]
    rfl

theorem bindPlaceholder_eq (list : Bool) (name : String) (value : Json) (s : Scope) :
    bindPlaceholder list name value s =
      (if (bindAll (Token.asked list name value) s).1.isEmpty then "NULL"
        else placeholderList (bindAll (Token.asked list name value) s).1,
        (bindAll (Token.asked list name value) s).2) := by
  unfold bindPlaceholder Token.asked
  split
  · rfl
  · next items hne =>
    cases items with
    | nil => exact absurd rfl hne
    | cons item items =>
      change (placeholderList (bindElements name 0 (item :: items) s).1,
        (bindElements name 0 (item :: items) s).2) = _
      rw [bindElements_eq]
      rfl
  · next _ hlist =>
    split
    · exact (hlist _ rfl rfl).elim
    · rfl

theorem bindToken_eq (params : Params) (token : Token) (s : Scope) :
    bindToken params token s =
      (Part.text params ⟨token, (bindAll (token.calls params) s).1⟩,
        (bindAll (token.calls params) s).2) := by
  cases token with
  | char | quoted | cast => rfl
  | placeholder list name =>
    have hvalue : (Token.placeholder list name).value? params =
        params.get? (String.ofList name) := rfl
    unfold bindToken Part.text Token.calls
    simp only [hvalue]
    cases params.get? (String.ofList name) with
    | none => rfl
    | some value => exact bindPlaceholder_eq list (String.ofList name) value s

/-- Under a name stands a value, or one that is equal. -/
def Scope.Holds (s : Scope) (name : String) (value : Json) : Prop :=
  ∃ held, s.params.get? name = some held ∧ held.same value = true

/-- The names of a part were given for the values of its token. -/
structure Part.Sound (params : Params) (s : Scope) (part : Part) : Prop where
  named : ∀ name, part.token.name = some name → Bindable name
  held : List.Forall₂ (fun name call => s.Holds name call.2) part.bound (part.token.calls params)
  bindable : ∀ name ∈ part.bound, Bindable name

theorem bindAll_bindable {calls : List (String × Json)} (h : ∀ call ∈ calls, Bindable call.1)
    (s : Scope) : ∀ name ∈ (bindAll calls s).1, Bindable name := by
  induction calls generalizing s with
  | nil => exact fun _ hname => absurd hname List.not_mem_nil
  | cons call calls ih =>
    intro name hname
    rcases List.mem_cons.1 hname with rfl | hlater
    · exact (h call List.mem_cons_self).bind call.2 s
    · exact ih (fun other ho => h other (List.mem_cons_of_mem _ ho)) _ name hlater

theorem mem_asked {list : Bool} {name : String} {value : Json} {call : String × Json}
    (h : call ∈ Token.asked list name value) :
    call = (name, value) ∨ ∃ (items : List Json) (n : Nat), value = .arr items ∧
      call.1 = name ++ "_" ++ toString n ∧ call.2 ∈ items := by
  unfold Token.asked at h
  split at h
  · next items =>
    obtain ⟨item, hitem, rfl⟩ := List.mem_map.1 h
    exact .inr ⟨items, item.2, rfl, rfl, List.fst_mem_of_mem_zipIdx hitem⟩
  · exact .inl (List.mem_singleton.1 h)

theorem mem_calls {call : String × Json} (h : call ∈ token.calls params) :
    ∃ list name value, token.name = some name ∧ params.get? name = some value ∧
      call ∈ Token.asked list name value := by
  cases token with
  | char | quoted | cast => exact absurd h List.not_mem_nil
  | placeholder list chars =>
    simp only [Token.calls] at h
    cases hget : params.get? (String.ofList chars) with
    | none =>
      rw [hget] at h
      exact absurd h List.not_mem_nil
    | some value =>
      rw [hget] at h
      exact ⟨list, _, value, rfl, hget, h⟩

theorem calls_bindable (hname : ∀ name, token.name = some name → Bindable name)
    {call : String × Json} (h : call ∈ token.calls params) : Bindable call.1 := by
  obtain ⟨list, name, value, htoken, -, hasked⟩ := mem_calls h
  rcases mem_asked hasked with rfl | ⟨items, n, -, hnumber, -⟩
  · exact hname _ htoken
  · rw [hnumber]
    exact (hname name htoken).numbered n

theorem calls_valid (hvalid : ∀ entry ∈ params, entry.2.Valid) {call : String × Json}
    (h : call ∈ token.calls params) : call.2.Valid := by
  obtain ⟨list, name, value, -, hget, hasked⟩ := mem_calls h
  have hvalue : value.Valid := hvalid _ (Dictionary.mem_of_lookup hget)
  rcases mem_asked hasked with rfl | ⟨items, n, rfl, -, hitem⟩
  · exact hvalue
  · exact Json.valid_of_mem_items hvalue _ hitem

/-- The tokens are rewritten one after another, each to its own part, and all that is bound for them
is bound in their order. -/
theorem bindTokens_parts {tokens : List Token} (hvalid : ∀ entry ∈ params, entry.2.Valid)
    (hnames : ∀ token ∈ tokens, ∀ name, token.name = some name → Bindable name) (s : Scope) :
    ∃ parts : List Part, parts.map Part.token = tokens ∧
      (bindTokens params tokens s).1 = parts.map (Part.text params) ∧
      bindAll (tokens.flatMap (Token.calls params)) s =
        (parts.flatMap Part.bound, (bindTokens params tokens s).2) ∧
      ∀ part ∈ parts, part.Sound params (bindTokens params tokens s).2 := by
  induction tokens generalizing s with
  | nil => exact ⟨[], rfl, rfl, rfl, fun _ hpart => absurd hpart List.not_mem_nil⟩
  | cons token tokens ih =>
    have hown := hnames token List.mem_cons_self
    have hvalues : ∀ call ∈ token.calls params, call.2.Valid :=
      fun call hcall => calls_valid hvalid hcall
    have hfirst := bindToken_eq params token s
    obtain ⟨u, hu⟩ : ∃ u, u = (bindAll (token.calls params) s).2 := ⟨_, rfl⟩
    obtain ⟨parts, htokens, htexts, hbound, hparts⟩ :=
      ih (fun other ho => hnames other (List.mem_cons_of_mem _ ho)) u
    have hgrows : u.params <+: (bindTokens params tokens u).2.params := by
      have hall := bindAll_grows (tokens.flatMap (Token.calls params)) u
      rwa [hbound] at hall
    refine ⟨⟨token, (bindAll (token.calls params) s).1⟩ :: parts, ?_, ?_, ?_, ?_⟩
    · rw [List.map_cons, htokens]
    · rw [bindTokens_cons, hfirst, ← hu, List.map_cons, htexts]
    · rw [List.flatMap_cons, bindAll_append, ← hu, hbound, bindTokens_cons, hfirst, ← hu]
      rfl
    · rw [bindTokens_cons, hfirst, ← hu]
      refine List.forall_mem_cons.2 ⟨⟨hown, ?_, ?_⟩, hparts⟩
      · have hheld := bindAll_held hvalues s
        refine hheld.imp fun name call hold => ?_
        obtain ⟨held, hget, hsame⟩ := hold
        exact ⟨held, get?_of_grows hgrows (hu ▸ hget), hsame⟩
      · exact bindAll_bindable (fun call hcall => calls_bindable hown hcall) s

theorem bindTemplate_eq (template : String) (params : Params) (s : Scope) :
    bindTemplate template params s =
      (String.join (bindTokens params (Token.scan template.toList) s).1,
        (bindTokens params (Token.scan template.toList) s).2) := by
  unfold bindTemplate
  split
  case isTrue hempty =>
    obtain rfl := List.isEmpty_iff.1 hempty
    have hkept : ∀ tokens, bindTokens [] tokens s =
        (tokens.map fun token => String.ofList token.text, s) := by
      intro tokens
      induction tokens with
      | nil => rfl
      | cons token tokens ih =>
        have hfirst : bindToken [] token s = (String.ofList token.text, s) := by
          cases token <;> rfl
        rw [bindTokens_cons, hfirst, ih]
        rfl
    rw [hkept, join_texts, Token.text_scan, String.ofList_toList]
    rfl
  case isFalse => rfl

end

end Sql

end ObjectGraph
