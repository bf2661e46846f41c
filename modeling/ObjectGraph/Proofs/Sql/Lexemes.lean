import ObjectGraph.Proofs.Sql.Soundness
import ObjectGraph.Sql.Query

/-! # Lexemes of statements

The text of a statement that a schema writes no SQL for is made of lexemes: quoted identifiers and
literals, placeholders, and symbols of a few kinds.  Such a text is scanned to its lexemes wherever
what follows cannot be part of it (`Scans`), so that texts can be put together at their separators.
Two texts are `Written` alike if they have the same lexemes but for a renaming of what is quoted; a
text is `Written` like itself if the renaming keeps the names in it. -/

namespace ObjectGraph

namespace Sql

/-- The names under which planning binds values: of the caller, of the columns that are filtered by,
of the keys of parents and of the size of a page, and these names numbered. -/
inductive ParamName : String → Prop
  | userId : ParamName "userId"
  | filter (column : String) : ParamName ("filter_" ++ snakeCase column)
  | parentKeys : ParamName "parentKeys"
  | parentKey (index component : Nat) :
      ParamName ("parentKey_" ++ toString index ++ "_" ++ toString component)
  | pageLimit : ParamName "pageLimit"
  | numbered {name : String} (n : Nat) : ParamName name → ParamName (name ++ "_" ++ toString n)

theorem ParamName.bindable {name : String} (h : ParamName name) : Bindable name := by
  induction h with
  | userId => exact ⟨⟨'u', rfl, rfl⟩, List.all_eq_true.1 rfl⟩
  | filter column =>
    have hlead : Bindable "filter_" := ⟨⟨'f', rfl, rfl⟩, List.all_eq_true.1 rfl⟩
    exact hlead.append (isName_snakeCase column)
  | parentKeys => exact ⟨⟨'p', rfl, rfl⟩, List.all_eq_true.1 rfl⟩
  | parentKey index component =>
    have hlead : Bindable "parentKey_" := ⟨⟨'p', rfl, rfl⟩, List.all_eq_true.1 rfl⟩
    exact (hlead.append (isName_toString index)).numbered component
  | pageLimit => exact ⟨⟨'p', rfl, rfl⟩, List.all_eq_true.1 rfl⟩
  | numbered n _ ih => exact ih.numbered n

/-- A piece of the text of a statement, what is quoted without its quotes. -/
inductive Lexeme
  | quoted (quote : Char) (content : String)
  | symbol (c : Char)
  | param (name : String)
deriving DecidableEq, Repr

/-- The characters of unquoted text: letters, digits and underscores, and those of the grammar. -/
def isSymbol (c : Char) : Bool :=
  Token.isNameChar c || [' ', '.', ',', '(', ')', '=', '<', '*'].contains c

/-- Whether no name goes on with a character, and no quote is doubled by it. -/
def isSeparator (c : Char) : Bool := !Token.isNameChar c && c != '\'' && c != '"'

namespace Lexeme

/-- The token that a lexeme is scanned to. -/
def token : Lexeme → Token
  | quoted quote content => .quoted (enclose quote content).toList
  | symbol c => .char c
  | param name => .placeholder false name.toList

/-- Rename what is quoted. -/
def rename (σ : String → String) : Lexeme → Lexeme
  | quoted quote content => quoted quote (σ content)
  | symbol c => symbol c
  | param name => param name

/-- A lexeme that may stand in a statement with some parameters. -/
def Stands (params : Params) : Lexeme → Prop
  | quoted quote _ => quote = '\'' ∨ quote = '"'
  | symbol c => isSymbol c = true
  | param name => ParamName name ∧ (params.get? name).isSome = true

end Lexeme

/-! ### Scanning -/

/-- What follows a text and is no part of it: nothing, or a separator. -/
def Ended (rest : List Char) : Prop := ∀ c ∈ rest.head?, isSeparator c = true

/-- A text is scanned to lexemes. -/
def Scans (text : List Char) (ls : List Lexeme) : Prop :=
  ∀ rest, Ended rest → Token.scan (text ++ rest) = ls.map Lexeme.token ++ Token.scan rest

section

variable {s t w rest : List Char} {ls ms : List Lexeme} {c quote : Char}

theorem Ended.append (h : Ended t) (hrest : Ended rest) : Ended (t ++ rest) := by
  cases t with
  | nil => exact hrest
  | cons c t => exact h

theorem Scans.append (h : Scans s ls) (h' : Scans t ms) (hended : Ended t) :
    Scans (s ++ t) (ls ++ ms) := by
  intro rest hrest
  rw [List.append_assoc, h _ (hended.append hrest), h' _ hrest, List.map_append, List.append_assoc]

theorem next_symbol (h : isSymbol c = true) (rest : List Char) :
    Token.next c rest = (.char c, rest) := by
  have hquote : ¬ (c = '\'' ∨ c = '"') := by
    rintro (rfl | rfl) <;> cases h
  have hcolon : c ≠ ':' := by
    rintro rfl
    cases h
  unfold Token.next
  rw [if_neg hquote, if_neg hcolon]

/-- Symbols are scanned one by one, whatever follows them. -/
theorem scan_symbols (h : ∀ c ∈ w, isSymbol c = true) (rest : List Char) :
    Token.scan (w ++ rest) = w.map Token.char ++ Token.scan rest := by
  induction w with
  | nil => rfl
  | cons c w ih =>
    rw [List.cons_append, Token.scan, next_symbol (h c List.mem_cons_self),
      ih fun d hd => h d (List.mem_cons_of_mem _ hd)]
    rfl

theorem scans_symbols (h : ∀ c ∈ w, isSymbol c = true) (ht : Scans t ms) :
    Scans (w ++ t) (w.map Lexeme.symbol ++ ms) := by
  intro rest hrest
  rw [List.append_assoc, scan_symbols h, ht rest hrest, List.map_append, List.map_map,
    List.append_assoc]
  rfl

theorem scans_nil : Scans [] [] := fun _ _ => rfl

/-- A doubled text is closed by the quote after it. -/
theorem closing_doubled (content : List Char) (hrest : ∀ c ∈ rest.head?, c ≠ quote) :
    Token.closing quote (doubled quote content ++ quote :: rest) =
      some (doubled quote content ++ [quote], rest) := by
  induction content with
  | nil =>
    cases rest with
    | nil =>
      change Token.closing quote [quote] = some ([quote], [])
      rw [Token.closing, if_pos rfl]
    | cons d rest =>
      change Token.closing quote (quote :: d :: rest) = some ([quote], d :: rest)
      rw [Token.closing, if_pos rfl, if_neg (hrest d rfl)]
  | cons c content ih =>
    have hdoubled : doubled quote (c :: content) =
        (if c = quote then [quote, quote] else [c]) ++ doubled quote content := by
      rw [doubled, List.flatMap_cons]
      rfl
    rw [hdoubled]
    by_cases hc : c = quote
    · rw [if_pos hc]
      change Token.closing quote (quote :: quote :: (doubled quote content ++ quote :: rest)) = _
      rw [Token.closing, if_pos rfl, if_pos rfl, ih]
      rfl
    · rw [if_neg hc]
      change Token.closing quote (c :: (doubled quote content ++ quote :: rest)) = _
      cases htext : doubled quote content ++ quote :: rest with
      | nil => exact absurd htext (List.append_ne_nil_of_right_ne_nil _ (List.cons_ne_nil _ _))
      | cons d text =>
        rw [Token.closing, if_neg hc, ← htext, ih]
        rfl

theorem scans_quoted (hq : quote = '\'' ∨ quote = '"') (content : String) :
    Scans (enclose quote content).toList [.quoted quote content] := by
  intro rest hrest
  have htext : (enclose quote content).toList ++ rest =
      quote :: (doubled quote content.toList ++ quote :: rest) := by
    rw [enclose, String.toList_ofList, List.cons_append, List.append_assoc]
    rfl
  have hhead : ∀ c ∈ rest.head?, c ≠ quote := by
    intro c hc hcq
    have hsep := hrest c hc
    rw [hcq] at hsep
    rcases hq with rfl | rfl <;> cases hsep
  have hnext : Token.next quote (doubled quote content.toList ++ quote :: rest) =
      (.quoted (quote :: (doubled quote content.toList ++ [quote])), rest) := by
    unfold Token.next
    rw [if_pos hq, closing_doubled _ hhead]
  rw [htext, Token.scan, hnext, List.map_singleton, Lexeme.token, enclose, String.toList_ofList]
  rfl

/-- A name is read with all that goes on it. -/
theorem name?_append {name : String} (hname : Bindable name) (rest : List Char) :
    Token.name? (name.toList ++ rest) =
      some (name.toList ++ rest.takeWhile Token.isNameChar, rest.dropWhile Token.isNameChar) := by
  obtain ⟨c, hc, hstart⟩ := hname.start
  have hall := hname.isName
  unfold IsName at hall
  generalize name.toList = chars at hc hall
  cases chars with
  | nil => cases hc
  | cons d chars =>
    cases hc
    unfold Token.name?
    simp only [List.cons_append]
    rw [if_pos hstart, ← List.cons_append, List.takeWhile_append_of_pos hall,
      List.dropWhile_append_of_pos hall]
    rfl

theorem next_placeholder {name : String} (hname : Bindable name) (rest : List Char) :
    Token.next ':' (name.toList ++ rest) =
      (.placeholder false (name.toList ++ rest.takeWhile Token.isNameChar),
        rest.dropWhile Token.isNameChar) := by
  have hfound := name?_append hname rest
  obtain ⟨c, hc, hstart⟩ := hname.start
  generalize name.toList = chars at hc hfound
  cases chars with
  | nil => cases hc
  | cons d chars =>
    cases hc
    have hcolon : c ≠ ':' := by
      rintro rfl
      cases hstart
    have hdot : c ≠ '.' := by
      rintro rfl
      cases hstart
    unfold Token.next
    rw [if_neg (by decide), if_pos rfl]
    simp only [List.cons_append] at hfound ⊢
    split
    · next h => exact absurd (List.cons.inj h).1 hcolon
    · next h => exact absurd (List.cons.inj h).1 hdot
    · rw [hfound]

theorem scans_param {name : String} (hname : Bindable name) :
    Scans (':' :: name.toList) [.param name] := by
  intro rest hrest
  have hstop : rest.takeWhile Token.isNameChar = [] ∧ rest.dropWhile Token.isNameChar = rest := by
    cases rest with
    | nil => exact ⟨rfl, rfl⟩
    | cons c rest =>
      have hc : Token.isNameChar c = false := by
        have hsep := hrest c rfl
        unfold isSeparator at hsep
        cases hchar : Token.isNameChar c with
        | false => rfl
        | true =>
          rw [hchar] at hsep
          cases hsep
      rw [List.takeWhile_cons, List.dropWhile_cons, hc]
      exact ⟨rfl, rfl⟩
  have hnext := next_placeholder hname rest
  rw [hstop.1, hstop.2, List.append_nil] at hnext
  rw [List.cons_append, Token.scan, hnext]
  rfl

end

/-! ### Texts written alike -/

/-- Two texts have the same lexemes but for a renaming of what is quoted, and their placeholders are
parameters. -/
def Written (σ : String → String) (params : Params) (s s' : String) : Prop :=
  ∃ ls : List Lexeme, (∀ l ∈ ls, l.Stands params) ∧ Scans s.toList ls ∧
    Scans s'.toList (ls.map (Lexeme.rename σ))

/-- A text of symbols alone. -/
def Plain (text : String) : Prop := ∀ c ∈ text.toList, isSymbol c = true

instance (text : String) : Decidable (Plain text) :=
  List.decidableBAll (fun c => isSymbol c = true) text.toList

theorem plain_of_isName {name : String} (h : IsName name) : Plain name := by
  intro c hc
  unfold isSymbol
  rw [h c hc, Bool.true_or]

/-- A text that another can be put in front of: it is empty or begins with a separator. -/
def Opens (text : String) : Prop := Ended text.toList

instance (text : String) : Decidable (Opens text) :=
  match h : text.toList.head? with
  | none => .isTrue fun c hc => by rw [h] at hc; cases hc
  | some c =>
    if hsep : isSeparator c = true then .isTrue fun d hd => by rw [h] at hd; cases hd; exact hsep
    else .isFalse fun hopens => hsep (hopens c h)

/-- Symbols that keep the texts around them apart. -/
def Gap (text : String) : Prop := Plain text ∧ text ≠ "" ∧ Opens text

instance (text : String) : Decidable (Gap text) :=
  inferInstanceAs (Decidable (Plain text ∧ text ≠ "" ∧ Opens text))

theorem Gap.opens {text : String} (h : Gap text) (rest : String) : Opens (text ++ rest) := by
  obtain ⟨-, hne, hopens⟩ := h
  unfold Opens at hopens ⊢
  rw [String.toList_append]
  cases htext : text.toList with
  | nil => exact absurd (String.toList_eq_nil_iff.1 htext) hne
  | cons c cs =>
    rw [htext] at hopens
    exact hopens

section

variable {σ : String → String} {params params' : Params} {s s' t t' w : String}

theorem Lexeme.Stands.grow {l : Lexeme} (h : l.Stands params) (hgrows : params <+: params') :
    l.Stands params' := by
  cases l with
  | quoted quote content => exact h
  | symbol c => exact h
  | param name =>
    obtain ⟨held, hget⟩ := Option.isSome_iff_exists.1 h.2
    exact ⟨h.1, Option.isSome_iff_exists.2 ⟨held, get?_of_grows hgrows hget⟩⟩

theorem Written.grow (h : Written σ params s s') (hgrows : params <+: params') :
    Written σ params' s s' := by
  obtain ⟨ls, hstands, hscans⟩ := h
  exact ⟨ls, fun l hl => (hstands l hl).grow hgrows, hscans⟩

theorem Written.append (h : Written σ params s s') (h' : Written σ params t t') (ht : Opens t)
    (ht' : Opens t') : Written σ params (s ++ t) (s' ++ t') := by
  obtain ⟨ls, hstands, hs, hs'⟩ := h
  obtain ⟨ms, hstands', hscans, hscans'⟩ := h'
  refine ⟨ls ++ ms, ?_, ?_, ?_⟩
  · exact fun l hl => (List.mem_append.1 hl).elim (hstands l) (hstands' l)
  · rw [String.toList_append]
    exact hs.append hscans ht
  · rw [String.toList_append, List.map_append]
    exact hs'.append hscans' ht'

/-- Symbols may stand in front of any text. -/
theorem Written.prepend (hw : Plain w) (h : Written σ params s s') :
    Written σ params (w ++ s) (w ++ s') := by
  obtain ⟨ls, hstands, hs, hs'⟩ := h
  refine ⟨w.toList.map .symbol ++ ls, ?_, ?_, ?_⟩
  · intro l hl
    rcases List.mem_append.1 hl with hl | hl
    · obtain ⟨c, hc, rfl⟩ := List.mem_map.1 hl
      exact hw c hc
    · exact hstands l hl
  · rw [String.toList_append]
    exact scans_symbols hw hs
  · rw [String.toList_append, List.map_append, List.map_map]
    exact scans_symbols hw hs'

theorem written_empty : Written σ params "" "" :=
  ⟨[], fun _ hl => absurd hl List.not_mem_nil, scans_nil, scans_nil⟩

theorem written_plain (hw : Plain w) : Written σ params w w := by
  have h : Written σ params (w ++ "") (w ++ "") := written_empty.prepend hw
  rwa [String.append_empty] at h

/-- Two texts with a gap between them. -/
theorem Written.link (h : Written σ params s s') (w : String) (hw : Gap w)
    (h' : Written σ params t t') : Written σ params (s ++ w ++ t) (s' ++ w ++ t') := by
  rw [String.append_assoc, String.append_assoc]
  exact h.append (h'.prepend hw.1) (hw.opens t) (hw.opens t')

/-- Texts with the same gap between each two. -/
theorem written_intercalate {texts texts' : List String} (w : String) (hw : Gap w)
    (h : List.Forall₂ (Written σ params) texts texts') :
    Written σ params (String.intercalate w texts) (String.intercalate w texts') := by
  induction h with
  | nil => exact written_empty
  | cons hfirst hrest ih =>
    cases hrest with
    | nil =>
      rw [String.intercalate_singleton, String.intercalate_singleton]
      exact hfirst
    | cons hsecond hrest =>
      rw [String.intercalate_cons_cons, String.intercalate_cons_cons]
      exact hfirst.link w hw ih

theorem written_parenthesized (h : Written σ params s s') :
    Written σ params (parenthesized s) (parenthesized s') := by
  have hclose : Written σ params (s ++ ")") (s' ++ ")") :=
    h.append (written_plain (by decide)) (by decide) (by decide)
  unfold parenthesized
  rw [String.append_assoc, String.append_assoc]
  exact hclose.prepend (by decide)

theorem written_ident (name : String) : Written σ params (quoteIdent name) (quoteIdent (σ name)) :=
  ⟨[.quoted '"' name], fun l hl => by rw [List.mem_singleton.1 hl]; exact .inr rfl,
    scans_quoted (.inr rfl) name, scans_quoted (.inr rfl) (σ name)⟩

theorem written_literal (name : String) :
    Written σ params (quoteLiteral name) (quoteLiteral (σ name)) :=
  ⟨[.quoted '\'' name], fun l hl => by rw [List.mem_singleton.1 hl]; exact .inl rfl,
    scans_quoted (.inl rfl) name, scans_quoted (.inl rfl) (σ name)⟩

/-- A name that is kept. -/
theorem written_kept {name : String} (h : σ name = name) :
    Written σ params (quoteIdent name) (quoteIdent name) := by
  have hname : Written σ params (quoteIdent name) (quoteIdent (σ name)) := written_ident name
  rwa [h] at hname

theorem written_qualified {tableAlias : String} (ha : IsName tableAlias) (column : String) :
    Written σ params (qualified tableAlias column) (qualified tableAlias (σ column)) := by
  unfold qualified
  rw [String.append_assoc, String.append_assoc]
  exact ((written_ident column).prepend (by decide)).prepend (plain_of_isName ha)

theorem written_qualified_kept {tableAlias column : String} (ha : IsName tableAlias)
    (h : σ column = column) :
    Written σ params (qualified tableAlias column) (qualified tableAlias column) := by
  have hcolumn : Written σ params (qualified tableAlias column) (qualified tableAlias (σ column)) :=
    written_qualified ha column
  rwa [h] at hcolumn

theorem written_param {name : String} (hname : ParamName name)
    (hbound : (params.get? name).isSome = true) :
    Written σ params (":" ++ name) (":" ++ name) := by
  have htext : (":" ++ name).toList = ':' :: name.toList := by
    rw [String.toList_append]
    rfl
  refine ⟨[.param name], fun l hl => by rw [List.mem_singleton.1 hl]; exact ⟨hname, hbound⟩, ?_, ?_⟩
  · rw [htext]
    exact scans_param hname.bindable
  · rw [htext]
    exact scans_param hname.bindable

end

/-- Whatever a text becomes is written like itself. -/
theorem Written.right {σ : String → String} {params : Params} {s s' : String}
    (h : Written σ params s s') : Written id params s' s' := by
  obtain ⟨ls, hstands, -, hs'⟩ := h
  have hid : ∀ l : Lexeme, l.rename id = l := fun l => by cases l <;> rfl
  refine ⟨ls.map (Lexeme.rename σ), ?_, hs', ?_⟩
  · intro l hl
    obtain ⟨m, hm, rfl⟩ := List.mem_map.1 hl
    have hm := hstands m hm
    cases m <;> exact hm
  · rw [funext hid, List.map_id']
    exact hs'

/-! ### Statements -/

/-- A written text has the lexemes it is scanned to. -/
theorem Written.scan {σ : String → String} {params : Params} {s s' : String}
    (h : Written σ params s s') : ∃ ls : List Lexeme, (∀ l ∈ ls, l.Stands params) ∧
      Token.scan s.toList = ls.map Lexeme.token ∧
      Token.scan s'.toList = (ls.map (Lexeme.rename σ)).map Lexeme.token := by
  obtain ⟨ls, hstands, hs, hs'⟩ := h
  have hempty : Ended [] := fun _ hc => absurd hc (Option.not_mem_none _)
  have hscan := hs [] hempty
  have hscan' := hs' [] hempty
  rw [List.append_nil, Token.scan, List.append_nil] at hscan hscan'
  exact ⟨ls, hstands, hscan, hscan'⟩

/-- All placeholders of a written statement are bound. -/
theorem Written.verifyBound {σ : String → String} {scope : Scope} {s s' : String}
    (h : Written σ scope.params s s') : (scope.statement s).verifyBound = .ok () := by
  obtain ⟨ls, hstands, hscan, -⟩ := h.scan
  have hnone : ((placeholderNames (scope.statement s).sql).find? fun name =>
      ((scope.statement s).param? name).isNone) = none := by
    rw [List.find?_eq_none]
    intro name hname
    change name ∈ (Token.scan s.toList).filterMap Token.name at hname
    rw [hscan, List.filterMap_map] at hname
    obtain ⟨l, hl, hlname⟩ := List.mem_filterMap.1 hname
    cases l with
    | quoted quote content => cases hlname
    | symbol c => cases hlname
    | param held =>
      have hbound : (scope.params.get? held).isSome = true := (hstands _ hl).2
      have hsame : name = held := by
        rw [← Option.some.inj hlname]
        exact String.ofList_toList
      rw [hsame, Bool.not_eq_true, Option.isNone_eq_false_iff]
      exact hbound
  unfold Statement.verifyBound
  rw [hnone]

/-! ### Templates with one placeholder -/

section

variable {params : Params} {as bs : List Token} {s : Scope}

theorem join_append (xs ys : List String) :
    String.join (xs ++ ys) = String.join xs ++ String.join ys := by
  induction xs with
  | nil => exact String.empty_append.symm
  | cons x xs ih =>
    rw [List.cons_append, String.join_cons, String.join_cons, ih, String.append_assoc]

theorem join_texts (tokens : List Token) :
    String.join (tokens.map fun token => String.ofList token.text) =
      String.ofList (tokens.flatMap Token.text) := by
  induction tokens with
  | nil => rfl
  | cons token tokens ih =>
    rw [List.map_cons, String.join_cons, ih, List.flatMap_cons, String.ofList_append]

theorem bindTokens_cons (token : Token) (tokens : List Token) :
    bindTokens params (token :: tokens) s =
      ((bindToken params token s).1 :: (bindTokens params tokens (bindToken params token s).2).1,
        (bindTokens params tokens (bindToken params token s).2).2) := rfl

/-- Tokens that are no placeholders stay as they are. -/
theorem bindTokens_append (h : ∀ token ∈ as, token.name = none) :
    bindTokens params (as ++ bs) s =
      ((as.map fun token => String.ofList token.text) ++ (bindTokens params bs s).1,
        (bindTokens params bs s).2) := by
  induction as with
  | nil => rfl
  | cons token as ih =>
    have hkept : bindToken params token s = (String.ofList token.text, s) := by
      have hname := h token List.mem_cons_self
      cases token with
      | placeholder list name => cases hname
      | char | quoted | cast => rfl
    rw [List.cons_append, bindTokens_cons, hkept,
      ih fun other ho => h other (List.mem_cons_of_mem _ ho)]
    rfl

/-- What binding does to a template with one placeholder. -/
theorem bindTemplate_one {head tail name text : String} {list : Bool} {value : Json}
    (hscan : Token.scan text.toList = as ++ .placeholder list name.toList :: bs)
    (hhead : as.flatMap Token.text = head.toList) (htail : bs.flatMap Token.text = tail.toList)
    (has : ∀ token ∈ as, token.name = none) (hbs : ∀ token ∈ bs, token.name = none) :
    bindTemplate text [(name, value)] s =
      (head ++ (bindPlaceholder list name value s).1 ++ tail,
        (bindPlaceholder list name value s).2) := by
  have hget : Dictionary.get? [(name, value)] name = some value := List.lookup_cons_self
  have hbound : bindToken [(name, value)] (.placeholder list name.toList) s =
      bindPlaceholder list name value s := by
    unfold bindToken
    simp only [String.ofList_toList, hget]
  have hrest : bindTokens [(name, value)] (bs ++ []) (bindPlaceholder list name value s).2 = _ :=
    bindTokens_append hbs
  rw [List.append_nil] at hrest
  have htemplate : bindTemplate text [(name, value)] s =
      (String.join (bindTokens [(name, value)] (Token.scan text.toList) s).1,
        (bindTokens [(name, value)] (Token.scan text.toList) s).2) := rfl
  rw [htemplate, hscan, bindTokens_append has, bindTokens_cons, hbound, hrest]
  have hnil : (bindTokens [(name, value)] [] (bindPlaceholder list name value s).2) =
      ([], (bindPlaceholder list name value s).2) := rfl
  rw [hnil, List.append_nil, join_append, String.join_cons, join_texts, join_texts, hhead, htail,
    String.ofList_toList, String.ofList_toList, String.append_assoc]

end

end Sql

end ObjectGraph
