import ObjectGraph.Proofs.Json.Identities
import ObjectGraph.Proofs.Sql.Operands
import ObjectGraph.Proofs.Sql.ScopedTexts
import ObjectGraph.Proofs.Sql.Soundness

/-! # Comparisons of columns with parameters

The atoms of a condition are read in a row (`AliasedRow.atoms`): a column of the row, qualified with
its alias, a placeholder or a number is compared with another, or is looked for in a list of them.
`IsCondition` is the grammar of conditions over such comparisons, with parentheses, `AND` and `OR`.

Conditions are put together from parts.  `AsOperand` says of a text that it is a condition of some
truth wherever it is an operand; `AsCondition` says it of a text that stands alone.  A comparison is
an operand (`AsOperand.equal`, `AsOperand.among`), and so is a condition in parentheses
(`AsCondition.parenthesized`); operands with `AND` or with `OR` between them are a condition
(`AsCondition.conjunction`, `AsCondition.disjunction`). -/

namespace ObjectGraph

namespace Sql

/-! ### Names in quotes -/

/-- Take one of every two quotes that stand next to each other. -/
def halved (quote : Char) : List Char → List Char
  | c :: d :: rest =>
    if c = quote ∧ d = quote then c :: halved quote rest else c :: halved quote (d :: rest)
  | rest => rest

theorem halved_cons {quote c : Char} (hc : c ≠ quote) (rest : List Char) :
    halved quote (c :: rest) = c :: halved quote rest := by
  cases rest with
  | nil => rfl
  | cons d rest => rw [halved, if_neg fun h => hc h.1]

theorem halved_doubled (quote : Char) (text : List Char) :
    halved quote (doubled quote text) = text := by
  induction text with
  | nil => rfl
  | cons c text ih =>
    unfold doubled at ih ⊢
    rw [List.flatMap_cons]
    by_cases hc : c = quote
    · rw [if_pos hc, List.cons_append, List.cons_append, List.nil_append, halved, if_pos ⟨rfl, rfl⟩,
        ih, hc]
    · rw [if_neg hc, List.singleton_append, halved_cons hc, ih]

/-- The name that an identifier in quotes tells. -/
def identified (text : List Char) : String := String.ofList (halved '"' text.tail.dropLast)

theorem identified_quoteIdent (name : String) : identified (quoteIdent name).toList = name := by
  unfold identified quoteIdent enclose
  rw [String.toList_ofList, List.tail_cons, List.dropLast_concat, halved_doubled,
    String.ofList_toList]

/-! ### Comparisons -/

namespace Piece

def isSymbol (c : Char) : Piece → Bool
  | symbol d => d == c
  | _ => false

def isQuoted : Piece → Bool
  | quoted _ => true
  | _ => false

end Piece

/-- A row of a table under an alias, in a statement with parameters. -/
structure AliasedRow where
  tableAlias : String
  value : String → Json
  params : Params

namespace AliasedRow

variable (row : AliasedRow)

/-- The value of a placeholder or a number; any other word stands for `NULL`. -/
def wordValue : List Char → Json
  | ':' :: name => (row.params.get? (String.ofList name)).getD .null
  | word =>
    if word ≠ [] ∧ word.all Char.isDigit then Json.ofNat (Nat.ofDigitChars 10 word 0) else .null

/-- The value of an expression: a word, or a column qualified with the alias of the row. -/
def expression (pieces : List Piece) : Json :=
  match trimmed pieces with
  | [.word word] => row.wordValue word
  | .word word :: quoted =>
    if word = row.tableAlias.toList ++ ['.'] ∧ quoted.all Piece.isQuoted then
      row.value (identified (quoted.flatMap Piece.quotedText))
    else .null
  | _ => .null

end AliasedRow

open Classical in
/-- The truth of `x = y`, as a database has it. -/
noncomputable def equality (x y : Json) : Truth :=
  if x = .null ∨ y = .null then .unknown else if x.SqlEqual y then .yes else .no

theorem not_sqlEqual_null (x : Json) : ¬x.SqlEqual .null := by
  cases x with
  | null => exact id
  | _ => exact Json.noConfusion

theorem equality_eq_yes {x y : Json} : equality x y = .yes ↔ x.SqlEqual y := by
  unfold equality
  split
  · next hnull =>
    refine iff_of_false Truth.noConfusion ?_
    rcases hnull with rfl | rfl
    · exact id
    · exact not_sqlEqual_null x
  · split
    · next hequal => exact iff_of_true rfl hequal
    · next hequal => exact iff_of_false Truth.noConfusion hequal

theorem among_eq_yes {x : Json} {values : List Json} :
    (values.map (equality x)).foldr Truth.or .no = .yes ↔ ∃ value ∈ values, x.SqlEqual value := by
  simp only [Truth.any_yes, List.mem_map, exists_exists_and_eq_and, equality_eq_yes]

/-- The truth of atoms in a row: `x = y` and `x IN (y, …)` are read, and any other atom is
unknown. -/
noncomputable def AliasedRow.atoms (row : AliasedRow) : Atoms := fun pieces =>
  match pieces.splitOnP (Piece.isSymbol '=') with
  | [x, y] => equality (row.expression x) (row.expression y)
  | _ =>
    match pieces.splitOnP (Piece.isKeyword "IN") with
    | [x, list] =>
      match trimmed list with
      | [.group ys] =>
        ((ys.splitOnP (Piece.isSymbol ',')).map fun y =>
          equality (row.expression x) (row.expression y)).foldr Truth.or .no
      | _ => .unknown
    | _ => .unknown

/-! ### The grammar of conditions -/

/-- An expression: a column, a placeholder, a number or `NULL`. -/
inductive IsExpression : List Piece → Prop
  | column {tableAlias name : String} {quoted : List Piece} (ha : IsAlias tableAlias)
      (hq : Closes (quoteIdent name) quoted) :
      IsExpression (.word (tableAlias.toList ++ ['.']) :: quoted)
  | placeholder {name : String} (h : Bindable name) : IsExpression [.word (':' :: name.toList)]
  | number {digits : List Char} (hne : digits ≠ []) (hd : ∀ c ∈ digits, c.isDigit = true) :
      IsExpression [.word digits]
  | null : IsExpression [.word ['N', 'U', 'L', 'L']]

/-- Expressions with commas between them. -/
inductive IsList : List Piece → Prop
  | last {x : List Piece} (hx : IsExpression x) : IsList x
  | cons {x xs : List Piece} (hx : IsExpression x) (hxs : IsList xs) :
      IsList (x ++ [.symbol ',', .blank] ++ xs)

/-- Comparisons, put together by parentheses, `AND` and `OR`. -/
inductive IsCondition : List Piece → Prop
  | equal {x y : List Piece} (hx : IsExpression x) (hy : IsExpression y) :
      IsCondition (x ++ [.blank, .symbol '=', .blank] ++ y)
  | among {x ys : List Piece} (hx : IsExpression x) (hys : IsList ys) :
      IsCondition (x ++ [.blank, .word ['I', 'N'], .blank, .group ys])
  | group {p : List Piece} (hp : IsCondition p) : IsCondition [.group p]
  | and {p q : List Piece} (hp : IsCondition p) (hq : IsCondition q) :
      IsCondition (p ++ [.blank, .word ['A', 'N', 'D'], .blank] ++ q)
  | or {p q : List Piece} (hp : IsCondition p) (hq : IsCondition q) :
      IsCondition (p ++ [.blank, .word ['O', 'R'], .blank] ++ q)

/-- A text is a condition of the grammar. -/
def WellFormed (text : String) : Prop := ∃ pieces, read text = some pieces ∧ IsCondition pieces

/-! ### Expressions -/

/-- Pieces of an expression: no blank is among them, nor a symbol, a group or a keyword. -/
def Piece.inExpression : Piece → Bool
  | .word text =>
    ["CASE", "BETWEEN", "END", "AND", "OR", "NOT", "IN"].all fun keyword =>
      !(Piece.word text).isKeyword keyword
  | .quoted _ => true
  | _ => false

/-- Pieces that are an expression, of some value in a row. -/
structure Evaluates (row : AliasedRow) (ps : List Piece) (value : Json) : Prop where
  ne_nil : ps ≠ []
  inExpression : ∀ p ∈ ps, p.inExpression = true
  value : row.expression ps = value

section

variable {row : AliasedRow} {ps : List Piece} {value : Json} {piece : Piece}

theorem Piece.isBlank_of_inExpression (h : piece.inExpression = true) : piece.isBlank = false := by
  cases piece with
  | blank => cases h
  | _ => rfl

theorem Piece.isGroup_of_inExpression (h : piece.inExpression = true) : piece.isGroup = false := by
  cases piece with
  | group ps => cases h
  | _ => rfl

theorem Piece.isSymbol_of_inExpression (h : piece.inExpression = true) (c : Char) :
    piece.isSymbol c = false := by
  cases piece with
  | symbol d => cases h
  | _ => rfl

theorem Piece.isKeyword_of_inExpression (h : piece.inExpression = true) {keyword : String}
    (hk : keyword ∈ ["CASE", "BETWEEN", "END", "AND", "OR", "NOT", "IN"]) :
    piece.isKeyword keyword = false := by
  cases piece with
  | word word =>
    have hnot := List.all_eq_true.1 h keyword hk
    rwa [Bool.not_eq_true'] at hnot
  | _ => rfl

theorem Piece.inOperand_of_inExpression (h : piece.inExpression = true) :
    piece.inOperand = true := by
  unfold Piece.inOperand
  rw [List.all_eq_true]
  intro keyword hk
  rw [Piece.isKeyword_of_inExpression h, Bool.not_false]
  exact List.mem_append_left ["NOT", "IN"] hk

theorem solid_of_inExpression (hne : ps ≠ []) (h : ∀ p ∈ ps, p.inExpression = true) :
    Solid ps where
  first := by
    obtain ⟨piece, rest, rfl⟩ := List.exists_cons_of_ne_nil hne
    exact ⟨piece, rest, rfl, Piece.isBlank_of_inExpression (h piece List.mem_cons_self)⟩
  last := by
    obtain ⟨piece, hpiece⟩ := Option.isSome_iff_exists.1 (List.getLast?_isSome.2 hne)
    exact ⟨piece, hpiece, Piece.isBlank_of_inExpression (h piece (List.mem_of_getLast? hpiece))⟩

/-- Blanks around an expression do not count. -/
theorem Evaluates.blanks (h : Evaluates row ps value) {before after : List Piece}
    (hb : Blanks before) (ha : Blanks after) :
    row.expression (before ++ (ps ++ after)) = value := by
  have hsolid := solid_of_inExpression h.ne_nil h.inExpression
  have halone := h.value
  have hself := trimmed_blanks blanks_nil blanks_nil hsolid
  rw [List.nil_append, List.append_nil] at hself
  unfold AliasedRow.expression at halone ⊢
  rw [hself] at halone
  rw [trimmed_blanks hb ha hsolid]
  exact halone

/-- A word with a character that no keyword has. -/
theorem inExpression_word {word : List Char} {c : Char} (hc : c ∈ word) (hupper : c.toUpper = c)
    (hk : ∀ keyword ∈ ["CASE", "BETWEEN", "END", "AND", "OR", "NOT", "IN"],
      c ∉ keyword.toList) : (Piece.word word).inExpression = true := by
  unfold Piece.inExpression
  rw [List.all_eq_true]
  intro keyword hkeyword
  rw [isKeyword_false hc hupper (hk keyword hkeyword), Bool.not_false]

/-- A placeholder is read as one word. -/
theorem read_placeholder {name : String} (hname : IsName name) :
    read (":" ++ name) = some [.word (':' :: name.toList)] := by
  have hchars : (":" ++ name).toList = ':' :: name.toList := by
    rw [String.toList_append]
    rfl
  have hread := read_word (s := ":" ++ name) ?_ ?_
  · rw [hread, hchars]
  · intro h
    rw [h] at hchars
    cases hchars
  · intro c hc
    rw [hchars] at hc
    rcases List.mem_cons.1 hc with rfl | hc
    · rfl
    · exact role_of_isNameChar (hname c hc)

/-- A text is an expression, of some value in a row. -/
def AsExpression (row : AliasedRow) (text : String) (value : Json) : Prop :=
  ∃ ps, read text = some ps ∧ Quiet ps ∧ IsExpression ps ∧ Evaluates row ps value

/-- A word is an expression of its value. -/
theorem asExpression_word {word : List Char} {text : String} (hread : read text = some [.word word])
    (hin : (Piece.word word).inExpression = true) (hexpression : IsExpression [.word word])
    (hvalue : row.wordValue word = value) : AsExpression row text value := by
  refine ⟨_, hread, fun p hp => ?_, hexpression, List.cons_ne_nil _ _, fun p hp => ?_, hvalue⟩
  · rw [List.mem_singleton.1 hp]
    rfl
  · rw [List.mem_singleton.1 hp]
    exact hin

theorem asExpression_placeholder {name : String} (hname : Bindable name)
    (hget : row.params.get? name = some value) : AsExpression row (":" ++ name) value := by
  refine asExpression_word (read_placeholder hname.isName)
    (inExpression_word List.mem_cons_self rfl (by decide)) (.placeholder hname) ?_
  change (row.params.get? (String.ofList name.toList)).getD .null = value
  rw [String.ofList_toList, hget, Option.getD_some]

theorem asExpression_null : AsExpression row "NULL" .null :=
  asExpression_word rfl rfl .null rfl

/-- A column of the row is read as its alias and its name in quotes. -/
theorem asExpression_column (ha : IsAlias row.tableAlias) (column : String) :
    AsExpression row (qualified row.tableAlias column) (row.value column) := by
  have hrole : role '"' = .quote := rfl
  obtain ⟨quoted, hcloses, hquoted, htext⟩ := closes_enclose hrole column
  have hall : quoted.all Piece.isQuoted = true := by
    rw [List.all_eq_true]
    intro piece hp
    obtain ⟨text, rfl⟩ := hquoted piece hp
    rfl
  have hdot : '.' ∈ row.tableAlias.toList ++ ['.'] := List.mem_append_right _ List.mem_cons_self
  have hin : ∀ p ∈ Piece.word (row.tableAlias.toList ++ ['.']) :: quoted,
      p.inExpression = true := by
    intro p hp
    rcases List.mem_cons.1 hp with rfl | hp
    · exact inExpression_word hdot rfl (by decide)
    · obtain ⟨text, rfl⟩ := hquoted p hp
      rfl
  have hquiet : Quiet [.word (row.tableAlias.toList ++ ['.'])] := fun p hp => by
    rw [List.mem_singleton.1 hp]
    rfl
  have hne : quoted ≠ [] := by
    rintro rfl
    have hlength := congrArg List.length htext
    rw [enclose, String.toList_ofList] at hlength
    cases hlength
  refine ⟨.word (row.tableAlias.toList ++ ['.']) :: quoted, ?_, ?_, .column ha hcloses,
    List.cons_ne_nil _ _, hin, ?_⟩
  · exact read_append (read_qualifier ha.1) hcloses.read hquiet (breaks_enclose rfl column)
  · refine hquiet.append fun p hp => ?_
    obtain ⟨text, rfl⟩ := hquoted p hp
    rfl
  · have hself := trimmed_blanks blanks_nil blanks_nil
      (solid_of_inExpression (List.cons_ne_nil _ _) hin)
    rw [List.nil_append, List.append_nil] at hself
    obtain ⟨piece, rest, rfl⟩ := List.exists_cons_of_ne_nil hne
    unfold AliasedRow.expression
    rw [hself]
    change (if _ ∧ _ then row.value (identified ((piece :: rest).flatMap Piece.quotedText))
      else Json.null) = _
    rw [if_pos ⟨rfl, hall⟩, htext]
    exact congrArg row.value (identified_quoteIdent column)

end

/-! ### Atoms -/

section

variable {row : AliasedRow} {x y : List Piece} {ys : List (List Piece)} {a b : Json}
  {values : List Json}

/-- What is cut where no piece of an expression stands. -/
theorem splitOnP_expression {p : Piece → Bool} (h : ∀ piece ∈ x, piece.inExpression = true)
    (hp : ∀ piece : Piece, piece.inExpression = true → p piece = false)
    (hblank : p .blank = false) : ∀ piece ∈ x ++ [.blank], p piece = false := by
  intro piece hmem
  rcases List.mem_append.1 hmem with hmem | hmem
  · exact hp piece (h piece hmem)
  · rw [List.mem_singleton.1 hmem]
    exact hblank

theorem atoms_equal (hx : Evaluates row x a) (hy : Evaluates row y b) :
    row.atoms (x ++ [.blank, .symbol '=', .blank] ++ y) = equality a b := by
  have hcut : (x ++ [Piece.blank, .symbol '=', .blank] ++ y).splitOnP (Piece.isSymbol '=') =
      [x ++ [.blank], .blank :: y] := by
    have hleft := splitOnP_expression hx.inExpression
      (fun piece h => Piece.isSymbol_of_inExpression h '=') rfl
    have hright : ∀ piece ∈ Piece.blank :: y, piece.isSymbol '=' = false := by
      intro piece hmem
      rcases List.mem_cons.1 hmem with rfl | hmem
      · rfl
      · exact Piece.isSymbol_of_inExpression (hy.inExpression piece hmem) '='
    have htext : x ++ [.blank, .symbol '=', .blank] ++ y =
        (x ++ [.blank]) ++ .symbol '=' :: (.blank :: y) := by
      rw [List.append_assoc, List.append_assoc]
      rfl
    rw [htext, List.splitOnP_append_cons_of_forall_mem hleft _ rfl,
      List.splitOnP_eq_singleton hright]
  have hleft := hx.blanks blanks_nil blanks_one
  have hright := hy.blanks blanks_one blanks_nil
  rw [List.nil_append] at hleft
  rw [List.append_nil] at hright
  unfold AliasedRow.atoms
  rw [hcut]
  change equality (row.expression (x ++ [.blank])) (row.expression ([.blank] ++ y)) = _
  rw [hleft, hright]

/-- The expressions of a list are cut at its commas. -/
theorem expressions_intercalate (h : List.Forall₂ (Evaluates row) ys values) (hne : ys ≠ [])
    {before : List Piece} (hb : Blanks before) :
    ((before ++ [.symbol ',', .blank].intercalate ys).splitOnP (Piece.isSymbol ',')).map
      row.expression = values := by
  have hpart : ∀ {y : List Piece} {value : Json} {before : List Piece}, Evaluates row y value →
      Blanks before → ∀ piece ∈ before ++ y, piece.isSymbol ',' = false := by
    intro y value before hy hb piece hmem
    rcases List.mem_append.1 hmem with hmem | hmem
    · have hblank := hb piece hmem
      cases piece with
      | symbol c => cases hblank
      | _ => rfl
    · exact Piece.isSymbol_of_inExpression (hy.inExpression piece hmem) ','
  induction h generalizing before with
  | nil => exact absurd rfl hne
  | @cons y value ys values hfirst hrest ih =>
    have hvalue := hfirst.blanks hb blanks_nil
    rw [List.append_nil] at hvalue
    cases hrest with
    | nil =>
      rw [List.intercalate_singleton, List.splitOnP_eq_singleton (hpart hfirst hb),
        List.map_singleton, hvalue]
    | @cons next _ ys _ hnext hrest =>
      have htext : before ++ [.symbol ',', .blank].intercalate (y :: next :: ys) =
          (before ++ y) ++ .symbol ',' ::
            ([.blank] ++ [.symbol ',', .blank].intercalate (next :: ys)) := by
        rw [List.intercalate_cons_cons, List.append_assoc, List.append_assoc]
        rfl
      rw [htext, List.splitOnP_append_cons_of_forall_mem (hpart hfirst hb) _ rfl, List.map_cons,
        hvalue, ih (List.cons_ne_nil _ _) blanks_one]

theorem atoms_among (hx : Evaluates row x a) (hys : List.Forall₂ (Evaluates row) ys values)
    (hne : ys ≠ []) :
    row.atoms (x ++ [.blank, .word ['I', 'N'], .blank,
        .group ([.symbol ',', .blank].intercalate ys)]) =
      (values.map (equality a)).foldr Truth.or .no := by
  obtain ⟨list, hlist⟩ : ∃ list, list = [.symbol ',', .blank].intercalate ys := ⟨_, rfl⟩
  have hvalues := expressions_intercalate hys hne blanks_nil
  rw [List.nil_append, ← hlist] at hvalues
  rw [← hlist]
  have hequal : (x ++ [Piece.blank, .word ['I', 'N'], .blank, .group list]).splitOnP
      (Piece.isSymbol '=') = [x ++ [.blank, .word ['I', 'N'], .blank, .group list]] := by
    refine List.splitOnP_eq_singleton fun piece hmem => ?_
    rcases List.mem_append.1 hmem with hmem | hmem
    · exact Piece.isSymbol_of_inExpression (hx.inExpression piece hmem) '='
    · simp only [List.mem_cons, List.not_mem_nil, or_false] at hmem
      rcases hmem with rfl | rfl | rfl | rfl <;> rfl
  have hcut : (x ++ [Piece.blank, .word ['I', 'N'], .blank, .group list]).splitOnP
      (Piece.isKeyword "IN") = [x ++ [.blank], [.blank, .group list]] := by
    have hleft := splitOnP_expression hx.inExpression (p := Piece.isKeyword "IN")
      (fun piece h => Piece.isKeyword_of_inExpression h (by decide)) rfl
    have hright : ∀ piece ∈ [Piece.blank, .group list], piece.isKeyword "IN" = false := by
      intro piece hmem
      simp only [List.mem_cons, List.not_mem_nil, or_false] at hmem
      rcases hmem with rfl | rfl <;> rfl
    have htext : x ++ [.blank, .word ['I', 'N'], .blank, .group list] =
        (x ++ [.blank]) ++ .word ['I', 'N'] :: [.blank, .group list] := by
      rw [List.append_assoc]
      rfl
    rw [htext, List.splitOnP_append_cons_of_forall_mem hleft _ rfl,
      List.splitOnP_eq_singleton hright]
  have hleft := hx.blanks blanks_nil blanks_one
  rw [List.nil_append] at hleft
  unfold AliasedRow.atoms
  rw [hequal, hcut]
  change ((list.splitOnP (Piece.isSymbol ',')).map fun y =>
    equality (row.expression (x ++ [.blank])) (row.expression y)).foldr Truth.or .no = _
  rw [hleft, ← hvalues, List.map_map]
  rfl

/-- An atom that begins with an expression is an operand. -/
theorem standsFor_comparison (hx : Evaluates row x a) {rest : List Piece}
    (hoperand : ∀ p ∈ rest, p.inOperand = true)
    (hlast : ∃ piece ∈ rest.getLast?, piece.isBlank = false) :
    StandsFor row.atoms (x ++ rest) (row.atoms (x ++ rest)) := by
  obtain ⟨first, others, rfl⟩ := List.exists_cons_of_ne_nil hx.ne_nil
  have hfirst : first.inExpression = true := hx.inExpression first List.mem_cons_self
  refine standsFor_atom (fun p hp => ?_) ⟨?_, ?_⟩
    (Piece.isKeyword_of_inExpression hfirst (by decide)) (Piece.isGroup_of_inExpression hfirst)
  · rcases List.mem_append.1 (List.cons_append ▸ hp : p ∈ (first :: others) ++ rest) with hp | hp
    · exact Piece.inOperand_of_inExpression (hx.inExpression p hp)
    · exact hoperand p hp
  · exact ⟨first, others ++ rest, rfl, Piece.isBlank_of_inExpression hfirst⟩
  · obtain ⟨piece, hpiece, hblank⟩ := hlast
    refine ⟨piece, ?_, hblank⟩
    change ((first :: others) ++ rest).getLast? = some piece
    rw [List.getLast?_append, Option.mem_def.1 hpiece]
    rfl

end

/-! ### Texts with a separator -/

/-- Texts that are read piece by piece, with a text between them. -/
theorem read_between {separator : String} {between : List Piece} (hsep : Closes separator between)
    (hquiet : Quiet between) (hbreaks : Breaks separator) (hne : separator ≠ "")
    {texts : List String} {parts : List (List Piece)}
    (h : List.Forall₂ (fun text ps => read text = some ps ∧ Quiet ps) texts parts) :
    read (String.intercalate separator texts) = some (between.intercalate parts) ∧
      Quiet (between.intercalate parts) := by
  induction h with
  | nil => exact ⟨rfl, fun _ hp => absurd hp List.not_mem_nil⟩
  | @cons text ps texts parts hfirst hrest ih =>
    cases hrest with
    | nil =>
      rw [String.intercalate_singleton, List.intercalate_singleton]
      exact hfirst
    | cons hnext hrest =>
      rw [String.intercalate_cons_cons, List.intercalate_cons_cons, String.append_assoc,
        List.append_assoc]
      exact ⟨read_append hfirst.1 (read_lead hsep ih.1 hquiet) hfirst.2 (hbreaks.append hne _),
        hfirst.2.append (hquiet.append ih.2)⟩

/-! ### Conditions -/

/-- A text is a condition, of some truth in a row wherever it is an operand. -/
def AsOperand (row : AliasedRow) (text : String) (t : Truth) : Prop :=
  ∃ ps, read text = some ps ∧ Quiet ps ∧ IsCondition ps ∧ StandsFor row.atoms ps t

/-- A text that stands alone is a condition, of some truth in a row. -/
def AsCondition (row : AliasedRow) (text : String) (t : Truth) : Prop :=
  ∃ ps, read text = some ps ∧ Quiet ps ∧ IsCondition ps ∧
    (meaning row.atoms {} ps).result row.atoms = t

section

variable {row : AliasedRow} {text : String} {t : Truth} {texts : List String}
  {truths : List Truth} {value : Json}

theorem AsCondition.wellFormed (h : AsCondition row text t) : WellFormed text := by
  obtain ⟨ps, hread, -, hcondition, -⟩ := h
  exact ⟨ps, hread, hcondition⟩

theorem AsCondition.truth (h : AsCondition row text t) : truth row.atoms text = t := by
  obtain ⟨ps, hread, -, -, hresult⟩ := h
  rw [truth_of_read hread, hresult]

/-- Two expressions are compared. -/
theorem AsOperand.equal {left right : String} {x y : Json} (hx : AsExpression row left x)
    (hy : AsExpression row right y) : AsOperand row (left ++ " = " ++ right) (equality x y) := by
  obtain ⟨ps, hps, hps_quiet, hps_expression, hps_value⟩ := hx
  obtain ⟨qs, hqs, hqs_quiet, hqs_expression, hqs_value⟩ := hy
  have hsep : Closes " = " [.blank, .symbol '=', .blank] := rfl
  have hsep_quiet : Quiet [.blank, .symbol '=', .blank] := List.all_eq_true.1 rfl
  refine ⟨ps ++ [.blank, .symbol '=', .blank] ++ qs, ?_, (hps_quiet.append hsep_quiet).append
    hqs_quiet, .equal hps_expression hqs_expression, ?_⟩
  · rw [String.append_assoc, List.append_assoc]
    exact read_append hps (read_lead hsep hqs hsep_quiet) hps_quiet
      (Breaks.append (by decide) (by decide) _)
  · rw [← atoms_equal hps_value hqs_value, List.append_assoc]
    refine standsFor_comparison hps_value (fun p hp => ?_) ?_
    · rcases List.mem_append.1 hp with hp | hp
      · simp only [List.mem_cons, List.not_mem_nil, or_false] at hp
        rcases hp with rfl | rfl | rfl <;> rfl
      · exact Piece.inOperand_of_inExpression (hqs_value.inExpression p hp)
    · obtain ⟨piece, hpiece, hblank⟩ :=
        (solid_of_inExpression hqs_value.ne_nil hqs_value.inExpression).last
      refine ⟨piece, ?_, hblank⟩
      rw [List.getLast?_append, Option.mem_def.1 hpiece]
      rfl

/-- The pieces of expressions. -/
theorem exists_expressions {values : List Json} (h : List.Forall₂ (AsExpression row) texts values) :
    ∃ parts, List.Forall₂ (fun text ps => read text = some ps ∧ Quiet ps) texts parts ∧
      (∀ ps ∈ parts, IsExpression ps) ∧ List.Forall₂ (Evaluates row) parts values := by
  induction h with
  | nil => exact ⟨[], .nil, fun _ hp => absurd hp List.not_mem_nil, .nil⟩
  | cons hfirst _ ih =>
    obtain ⟨ps, hread, hquiet, hexpression, hvalue⟩ := hfirst
    obtain ⟨parts, hparts, hexpressions, hall⟩ := ih
    exact ⟨ps :: parts, .cons ⟨hread, hquiet⟩ hparts,
      List.forall_mem_cons.2 ⟨hexpression, hexpressions⟩, .cons hvalue hall⟩

theorem isList_intercalate {parts : List (List Piece)} (h : ∀ ps ∈ parts, IsExpression ps)
    (hne : parts ≠ []) : IsList ([.symbol ',', .blank].intercalate parts) := by
  induction parts with
  | nil => exact absurd rfl hne
  | cons ps parts ih =>
    have hfirst := h ps List.mem_cons_self
    cases parts with
    | nil =>
      rw [List.intercalate_singleton]
      exact .last hfirst
    | cons next parts =>
      rw [List.intercalate_cons_cons]
      exact .cons hfirst (ih (fun qs hq => h qs (List.mem_cons_of_mem _ hq)) (List.cons_ne_nil _ _))

/-- An expression is looked for in a list of others. -/
theorem AsOperand.among {left : String} {x : Json} {values : List Json}
    (hx : AsExpression row left x) (h : List.Forall₂ (AsExpression row) texts values)
    (hne : texts ≠ []) :
    AsOperand row (left ++ " IN (" ++ String.intercalate ", " texts ++ ")")
      ((values.map (equality x)).foldr Truth.or .no) := by
  obtain ⟨ps, hps, hps_quiet, hps_expression, hps_value⟩ := hx
  obtain ⟨parts, hparts, hexpressions, hvalues⟩ := exists_expressions h
  have hparts_ne : parts ≠ [] := by
    rintro rfl
    cases hparts
    exact hne rfl
  have hcomma : Closes ", " [.symbol ',', .blank] := rfl
  obtain ⟨hread, -⟩ := read_between hcomma (List.all_eq_true.1 rfl) (by decide) (by decide) hparts
  obtain ⟨list, hlist⟩ : ∃ list, list = [.symbol ',', .blank].intercalate parts := ⟨_, rfl⟩
  have htext : left ++ " IN (" ++ String.intercalate ", " texts ++ ")" =
      left ++ (" IN " ++ Sql.parenthesized (String.intercalate ", " texts)) := by
    have hopen : " IN (" = " IN " ++ "(" := rfl
    rw [hopen]
    simp only [Sql.parenthesized, String.append_assoc]
  have hkeyword : Closes " IN " [.blank, .word ['I', 'N'], .blank] := rfl
  have hrest_quiet : Quiet [.blank, .word ['I', 'N'], .blank, .group list] := List.all_eq_true.1 rfl
  refine ⟨ps ++ [.blank, .word ['I', 'N'], .blank, .group list], ?_,
    hps_quiet.append hrest_quiet, ?_, ?_⟩
  · rw [htext, hlist]
    exact read_append hps (read_lead hkeyword (read_parenthesized hread) (List.all_eq_true.1 rfl))
      hps_quiet (Breaks.append (by decide) (by decide) _)
  · rw [hlist]
    exact .among hps_expression (isList_intercalate hexpressions hparts_ne)
  · rw [← atoms_among hps_value hvalues hparts_ne, ← hlist]
    refine standsFor_comparison hps_value (fun p hp => ?_) ⟨_, rfl, rfl⟩
    simp only [List.mem_cons, List.not_mem_nil, or_false] at hp
    rcases hp with rfl | rfl | rfl | rfl <;> rfl

/-- An operand stands alone as well. -/
theorem AsOperand.alone (h : AsOperand row text t) : AsCondition row text t := by
  obtain ⟨ps, hread, hquiet, hcondition, hstands⟩ := h
  refine ⟨ps, hread, hquiet, hcondition, ?_⟩
  obtain ⟨hdisjunction, hlast⟩ := last_standsFor (m := {}) hstands blanks_nil
  rw [Meaning.result, hdisjunction, hlast]
  rfl

/-- A condition in parentheses is an operand. -/
theorem AsCondition.parenthesized (h : AsCondition row text t) :
    AsOperand row (parenthesized text) t := by
  obtain ⟨ps, hread, hquiet, hcondition, rfl⟩ := h
  refine ⟨[.group ps], read_parenthesized hread, fun p hp => ?_, .group hcondition,
    standsFor_group ps⟩
  rw [List.mem_singleton.1 hp]
  rfl

/-- The pieces of operands. -/
theorem exists_operands (h : List.Forall₂ (AsOperand row) texts truths) :
    ∃ parts, List.Forall₂ (fun text ps => read text = some ps ∧ Quiet ps) texts parts ∧
      (∀ ps ∈ parts, IsCondition ps) ∧ List.Forall₂ (StandsFor row.atoms) parts truths := by
  induction h with
  | nil => exact ⟨[], .nil, fun _ hp => absurd hp List.not_mem_nil, .nil⟩
  | cons hfirst _ ih =>
    obtain ⟨ps, hread, hquiet, hcondition, hstands⟩ := hfirst
    obtain ⟨parts, hparts, hconditions, hall⟩ := ih
    exact ⟨ps :: parts, .cons ⟨hread, hquiet⟩ hparts,
      List.forall_mem_cons.2 ⟨hcondition, hconditions⟩, .cons hstands hall⟩

/-- Conditions with a connective between them are a condition. -/
theorem isCondition_intercalate {between : List Piece}
    (hjoin : ∀ p q, IsCondition p → IsCondition q → IsCondition (p ++ between ++ q))
    {parts : List (List Piece)} (h : ∀ ps ∈ parts, IsCondition ps) (hne : parts ≠ []) :
    IsCondition (between.intercalate parts) := by
  induction parts with
  | nil => exact absurd rfl hne
  | cons ps parts ih =>
    have hfirst := h ps List.mem_cons_self
    cases parts with
    | nil =>
      rw [List.intercalate_singleton]
      exact hfirst
    | cons next parts =>
      rw [List.intercalate_cons_cons]
      exact hjoin _ _ hfirst
        (ih (fun qs hq => h qs (List.mem_cons_of_mem _ hq)) (List.cons_ne_nil _ _))

/-- Operands with `AND` between them are true if all of them are. -/
theorem AsCondition.conjunction (h : List.Forall₂ (AsOperand row) texts truths) (hne : texts ≠ []) :
    AsCondition row (String.intercalate " AND " texts) (truths.foldr Truth.and .yes) := by
  obtain ⟨parts, hparts, hconditions, hstands⟩ := exists_operands h
  have hparts_ne : parts ≠ [] := by
    rintro rfl
    cases hparts
    exact hne rfl
  have hand : Closes " AND " (spaced ['A', 'N', 'D']) := rfl
  obtain ⟨hread, hquiet⟩ :=
    read_between hand (List.all_eq_true.1 rfl) (by decide) (by decide) hparts
  refine ⟨_, hread, hquiet, isCondition_intercalate (fun p q => .and) hconditions hparts_ne, ?_⟩
  exact result_and (m := {}) hstands hparts_ne blanks_nil rfl

/-- Operands with `OR` between them are true if one of them is. -/
theorem AsCondition.disjunction (h : List.Forall₂ (AsOperand row) texts truths) (hne : texts ≠ []) :
    AsCondition row (String.intercalate " OR " texts) (truths.foldr Truth.or .no) := by
  obtain ⟨parts, hparts, hconditions, hstands⟩ := exists_operands h
  have hparts_ne : parts ≠ [] := by
    rintro rfl
    cases hparts
    exact hne rfl
  have hor : Closes " OR " (spaced ['O', 'R']) := rfl
  obtain ⟨hread, hquiet⟩ :=
    read_between hor (List.all_eq_true.1 rfl) (by decide) (by decide) hparts
  refine ⟨_, hread, hquiet, isCondition_intercalate (fun p q => .or) hconditions hparts_ne, ?_⟩
  exact result_or (m := {}) hstands hparts_ne blanks_nil rfl rfl

end

/-! ### Texts that are no condition -/

theorem IsExpression.ne_group {ps : List Piece} (h : IsExpression ps) :
    ∀ piece ∈ ps, piece.isGroup = false := by
  intro piece hmem
  cases h with
  | @column tableAlias name quoted ha hq =>
    rcases List.mem_cons.1 hmem with rfl | hmem
    · rfl
    · have hrole : role '"' = .quote := rfl
      obtain ⟨qs, hqs, hquoted, -⟩ := closes_enclose hrole name
      obtain rfl : quoted = qs := Option.some.inj (hq.read.symm.trans hqs.read)
      obtain ⟨text, rfl⟩ := hquoted piece hmem
      rfl
  | _ =>
    rw [List.mem_singleton.1 hmem]
    rfl

theorem IsExpression.ne_nil {ps : List Piece} (h : IsExpression ps) : ps ≠ [] := by
  cases h with
  | _ => exact List.cons_ne_nil _ _

theorem IsList.ne_nil {ps : List Piece} (h : IsList ps) : ps ≠ [] := by
  cases h with
  | last hx => exact hx.ne_nil
  | cons hx _ => exact fun hnil => hx.ne_nil (List.append_eq_nil_iff.1
      (List.append_eq_nil_iff.1 hnil).1).1

/-- No group of a condition is empty. -/
theorem IsCondition.nonempty {ps : List Piece} (h : IsCondition ps) :
    ps ≠ [] ∧ Piece.group [] ∉ ps := by
  have hexpression : ∀ {qs : List Piece}, IsExpression qs → Piece.group [] ∉ qs := by
    intro qs hq hmem
    have hnot := hq.ne_group _ hmem
    cases hnot
  induction h with
  | equal hx hy =>
    refine ⟨List.append_ne_nil_of_right_ne_nil _ hy.ne_nil, fun hmem => ?_⟩
    rcases List.mem_append.1 hmem with hmem | hmem
    · rcases List.mem_append.1 hmem with hmem | hmem
      · exact hexpression hx hmem
      · simp at hmem
    · exact hexpression hy hmem
  | among hx hys =>
    refine ⟨List.append_ne_nil_of_left_ne_nil hx.ne_nil _, fun hmem => ?_⟩
    rcases List.mem_append.1 hmem with hmem | hmem
    · exact hexpression hx hmem
    · simp only [List.mem_cons, reduceCtorEq, List.not_mem_nil, or_false, false_or] at hmem
      exact hys.ne_nil (Piece.group.inj hmem).symm
  | group _ ih =>
    refine ⟨List.cons_ne_nil _ _, fun hmem => ih.1 ?_⟩
    exact (Piece.group.inj (List.mem_singleton.1 hmem)).symm
  | and _ _ ihp ihq | or _ _ ihp ihq =>
    refine ⟨List.append_ne_nil_of_right_ne_nil _ ihq.1, fun hmem => ?_⟩
    rcases List.mem_append.1 hmem with hmem | hmem
    · rcases List.mem_append.1 hmem with hmem | hmem
      · exact ihp.2 hmem
      · simp at hmem
    · exact ihq.2 hmem

/-- Empty parentheses with a keyword between them are no condition. -/
theorem not_wellFormed_empty {keyword : List Char} {separator : String}
    (hsep : Closes separator (spaced keyword)) (hbreaks : Breaks separator) (hne : separator ≠ "")
    {texts : List String} (hempty : ∀ text ∈ texts, text = parenthesized "") (htexts : texts ≠ []) :
    ¬WellFormed (String.intercalate separator texts) := by
  rintro ⟨ps, hread, hcondition⟩
  have hquiet : Quiet (spaced keyword) := by
    intro piece hmem
    simp only [spaced, List.mem_cons, List.not_mem_nil, or_false] at hmem
    rcases hmem with rfl | rfl | rfl <;> rfl
  have hparts : List.Forall₂ (fun text ps => read text = some ps ∧ Quiet ps) texts
      (texts.map fun _ => [.group []]) := by
    rw [List.forall₂_map_right_iff, List.forall₂_same]
    intro text hmem
    rw [hempty text hmem]
    exact ⟨read_parenthesized rfl, List.all_eq_true.1 rfl⟩
  obtain ⟨hwhole, -⟩ := read_between hsep hquiet hbreaks hne hparts
  rw [hwhole] at hread
  cases hread
  refine hcondition.nonempty.2 ?_
  obtain ⟨text, rest, rfl⟩ := List.exists_cons_of_ne_nil htexts
  cases rest with
  | nil =>
    rw [List.map_singleton, List.intercalate_singleton]
    exact List.mem_singleton_self _
  | cons next rest =>
    rw [List.map_cons, List.map_cons, List.intercalate_cons_cons, List.append_assoc]
    exact List.mem_append_left _ (List.mem_singleton_self _)

end Sql

end ObjectGraph
