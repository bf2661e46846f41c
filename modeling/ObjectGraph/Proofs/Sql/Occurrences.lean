import ObjectGraph.Sql.Template

/-! # Occurrences of placeholders

A `Marked` text is a text in which the colon of every placeholder that was bound carries an
`Occurrence`: the name it was given, the value that was supplied for it with its own template, and
the values that the templates around it put in its place.  Binding a marked template does to its
text what binding the text does (`text_bindTemplate`). -/

namespace ObjectGraph

namespace Sql

/-- An occurrence of a bound placeholder. -/
structure Occurrence where
  name : String
  /-- The value it was bound to when its own template was processed. -/
  own : Json
  /-- The values that templates around it had under its name, in order. -/
  captures : List Json := []

namespace Occurrence

/-- The value it was given last. -/
def current (o : Occurrence) : Json := o.captures.getLast?.getD o.own

/-- A value takes the place of an occurrence, or makes a new one. -/
def rebind (old? : Option Occurrence) (name : String) (value : Json) : Occurrence :=
  match old? with
  | some o => { o with name, captures := o.captures ++ [value] }
  | none => { name, own := value }

theorem name_rebind (old? : Option Occurrence) (name : String) (value : Json) :
    (rebind old? name value).name = name := by
  cases old? <;> rfl

theorem current_rebind (old? : Option Occurrence) (name : String) (value : Json) :
    (rebind old? name value).current = value := by
  cases old? with
  | none => rfl
  | some o =>
    change ((o.captures ++ [value]).getLast?).getD o.own = value
    rw [List.getLast?_concat]
    rfl

end Occurrence

/-- A text whose bound placeholders carry their occurrences, each on its colon. -/
abbrev Marked := List (Char × Option Occurrence)

namespace Marked

/-- A text without bound placeholders. -/
def plain (text : String) : Marked := text.toList.map fun c => (c, none)

/-- The text alone. -/
def text (m : Marked) : String := String.ofList (m.map Prod.fst)

/-- The occurrences in a text, in order. -/
def occurrences (m : Marked) : List Occurrence := m.filterMap Prod.snd

/-- The placeholder of an occurrence. -/
def placeholder (o : Occurrence) : Marked := (':', some o) :: plain o.name

/-- Texts with a separator between them. -/
def join (separator : String) (parts : List Marked) : Marked :=
  (plain separator).intercalate parts

@[simp] theorem text_plain (text : String) : (plain text).text = text := by
  unfold plain Marked.text
  rw [List.map_map]
  exact (congrArg String.ofList (List.map_id text.toList)).trans String.ofList_toList

@[simp] theorem text_append (m n : Marked) : (m ++ n).text = m.text ++ n.text := by
  unfold Marked.text
  rw [List.map_append, String.ofList_append]

theorem toList_text (m : Marked) : m.text.toList = m.map Prod.fst := String.toList_ofList

@[simp] theorem text_placeholder (o : Occurrence) : (placeholder o).text = ":" ++ o.name := by
  have hcolon : placeholder o = [(':', some o)] ++ plain o.name := rfl
  rw [hcolon, text_append, text_plain]
  rfl

@[simp] theorem text_join (separator : String) (parts : List Marked) :
    (join separator parts).text = String.intercalate separator (parts.map text) := by
  induction parts with
  | nil => rfl
  | cons m parts ih =>
    cases parts with
    | nil =>
      rw [List.map_singleton, String.intercalate_singleton]
      change (m ++ []).text = m.text
      rw [List.append_nil]
    | cons n parts =>
      rw [List.map_cons, List.map_cons, String.intercalate_cons_cons]
      have hcons : join separator (m :: n :: parts) =
          m ++ (plain separator ++ join separator (n :: parts)) := rfl
      rw [hcons, text_append, text_append, text_plain, ih, String.append_assoc]
      rfl

/-! ### Binding -/

/-- The parts of a text that tokens are made of. -/
def split : List Token → Marked → List (Token × Marked)
  | [], _ => []
  | token :: tokens, m =>
    (token, m.take token.text.length) :: split tokens (m.drop token.text.length)

/-- Bind the value of one placeholder; what was bound there before is captured. -/
def bindPlaceholder (old? : Option Occurrence) (list : Bool) (name : String) (value : Json) :
    Building Marked :=
  match list, value with
  | true, .arr [] => pure (plain "NULL")
  | true, .arr items => do
    let names ← bindElements name 0 items
    pure (join ", " ((List.zipWith (Occurrence.rebind none) names items).map placeholder))
  | _, value => do pure (placeholder (Occurrence.rebind old? (← Sql.bind name value) value))

/-- A token after binding. -/
def bindToken (params : Params) (token : Token) (m : Marked) : Building Marked :=
  match token with
  | .placeholder list name =>
    match params.get? (String.ofList name) with
    | some value => bindPlaceholder (m.head?.bind Prod.snd) list (String.ofList name) value
    | none => pure m
  | _ => pure m

/-- Tokens after binding them in turn. -/
def bindTokens (params : Params) : List (Token × Marked) → Building Marked
  | [] => pure []
  | (token, m) :: tokens => do
    let first ← bindToken params token m
    let rest ← bindTokens params tokens
    pure (first ++ rest)

/-- Put bound names in the place of the placeholders for which values are supplied. -/
def bindTemplate (m : Marked) (params : Params) : Building Marked :=
  if params.isEmpty then pure m
  else bindTokens params (split (Token.scan m.text.toList) m)

/-! ### Binding does to the text what it does without the marks -/

section

variable {s t : Scope} {m : Marked} {params : Params}

theorem length_bindElements (name : String) (index : Nat) (items : List Json) :
    (bindElements name index items s).1.length = items.length := by
  induction items generalizing index s with
  | nil => rfl
  | cons item items ih =>
    change ((Sql.bind (name ++ "_" ++ toString index) item s).1 :: (bindElements name (index + 1)
      items (Sql.bind (name ++ "_" ++ toString index) item s).2).1).length = _
    rw [List.length_cons, List.length_cons, ih]

theorem names_rebind {names : List String} {items : List Json}
    (h : names.length = items.length) :
    ((List.zipWith (Occurrence.rebind none) names items).map placeholder).map text =
      names.map (":" ++ ·) := by
  induction names generalizing items with
  | nil => rfl
  | cons name names ih =>
    cases items with
    | nil => cases h
    | cons item items =>
      rw [List.zipWith_cons_cons, List.map_cons, List.map_cons, List.map_cons,
        ih (Nat.succ.inj h), text_placeholder, Occurrence.name_rebind]

theorem text_bindPlaceholder (old? : Option Occurrence) (list : Bool) (name : String)
    (value : Json) :
    Sql.bindPlaceholder list name value s =
      ((bindPlaceholder old? list name value s).1.text,
        (bindPlaceholder old? list name value s).2) := by
  have hone : ∀ value : Json, (":" ++ (Sql.bind name value s).1, (Sql.bind name value s).2) =
      ((placeholder (Occurrence.rebind old? (Sql.bind name value s).1 value)).text,
        (Sql.bind name value s).2) := by
    intro value
    rw [text_placeholder, Occurrence.name_rebind]
  cases list with
  | false => exact hone value
  | true =>
    cases value with
    | arr items =>
      cases items with
      | nil =>
        change ("NULL", s) = ((plain "NULL").text, s)
        rw [text_plain]
      | cons item items =>
        change (placeholderList (bindElements name 0 (item :: items) s).1, _) = ((join ", "
          ((List.zipWith (Occurrence.rebind none) (bindElements name 0 (item :: items) s).1
            (item :: items)).map placeholder)).text, _)
        rw [text_join, names_rebind (length_bindElements name 0 (item :: items))]
        rfl
    | null | bool | num | str | obj => exact hone _

theorem text_bindToken {token : Token} (h : m.text = String.ofList token.text) :
    Sql.bindToken params token s =
      ((bindToken params token m s).1.text, (bindToken params token m s).2) := by
  have hkept : (String.ofList token.text, s) = (m.text, s) := by rw [h]
  cases token with
  | placeholder list name =>
    cases hget : params.get? (String.ofList name) with
    | some value =>
      simp only [Sql.bindToken, bindToken, hget]
      exact text_bindPlaceholder _ list _ value
    | none =>
      simp only [Sql.bindToken, bindToken, hget]
      exact hkept
  | char | quoted | cast => exact hkept

theorem text_bindTokens {tokens : List Token} (h : m.map Prod.fst = tokens.flatMap Token.text) :
    (String.join (Sql.bindTokens params tokens s).1, (Sql.bindTokens params tokens s).2) =
      ((bindTokens params (split tokens m) s).1.text,
        (bindTokens params (split tokens m) s).2) := by
  induction tokens generalizing m s with
  | nil => rfl
  | cons token tokens ih =>
    rw [List.flatMap_cons] at h
    have hfirst : (Marked.text (m.take token.text.length)) = String.ofList token.text := by
      unfold Marked.text
      rw [List.map_take, h, List.take_left]
    have hrest : (m.drop token.text.length).map Prod.fst = tokens.flatMap Token.text := by
      rw [List.map_drop, h, List.drop_left]
    have htoken : Sql.bindToken params token s = _ := text_bindToken hfirst
    have hih := ih (s := (Sql.bindToken params token s).2) hrest
    obtain ⟨htext, hscope⟩ := Prod.mk.inj hih
    have hjoin : (Sql.bindTokens params (token :: tokens) s).1 =
        (Sql.bindToken params token s).1 ::
          (Sql.bindTokens params tokens (Sql.bindToken params token s).2).1 := rfl
    rw [hjoin, String.join_cons, htext]
    change (_, (Sql.bindTokens params tokens (Sql.bindToken params token s).2).2) = _
    rw [hscope, htoken, ← text_append]
    rfl

/-- Binding a marked template does to its text what binding the text does. -/
theorem text_bindTemplate (m : Marked) (params : Params) (s : Scope) :
    Sql.bindTemplate m.text params s =
      ((m.bindTemplate params s).1.text, (m.bindTemplate params s).2) := by
  unfold Sql.bindTemplate bindTemplate
  by_cases hempty : params.isEmpty = true
  · rw [if_pos hempty, if_pos hempty]
    rfl
  · rw [if_neg hempty, if_neg hempty]
    apply text_bindTokens
    rw [Token.text_scan, toList_text]

end

end Marked

end Sql

end ObjectGraph
