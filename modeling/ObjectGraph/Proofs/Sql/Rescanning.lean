import ObjectGraph.Proofs.Sql.Lexemes

/-! # Scanning beside other text

A step of the scan looks at what follows its token only as far as the token could go on: a quoted
token at the quotes behind it (`closing_append`), a placeholder at the characters of names
(`name?_append`), a colon at a name or at dots.  `Step` lists the steps with what they look at, so
that a step can be taken again in front of another text.

A placeholder takes all characters of names that follow it, and a list of placeholders leaves them
to its last one (`names_placeholder`, `names_placeholderList`).  By themselves such characters name
nothing (`names_symbols`), so the names behind them are found either way. -/

namespace ObjectGraph

namespace Sql

namespace Token

/-! ### Steps -/

/-- What a step of the scan takes from the front of a text, and what it leaves. -/
inductive Step : Char → List Char → Token → List Char → Prop
  | plain {c : Char} {rest : List Char} : c ≠ '\'' → c ≠ '"' → c ≠ ':' → Step c rest (.char c) rest
  | lone {quote : Char} {rest : List Char} : quote = '\'' ∨ quote = '"' →
      closing quote rest = none → Step quote rest (.char quote) rest
  | quoted {quote : Char} {rest body after : List Char} : quote = '\'' ∨ quote = '"' →
      closing quote rest = some (body, after) → Step quote rest (.quoted (quote :: body)) after
  | cast {after : List Char} : Step ':' (':' :: after) .cast after
  | placeholder {rest name after : List Char} : name? rest = some (name, after) →
      Step ':' rest (.placeholder false name) after
  | list {rest name after : List Char} : name? rest = some (name, after) →
      Step ':' ('.' :: '.' :: '.' :: rest) (.placeholder true name) after
  | colon {rest : List Char} : rest.head? ≠ some ':' → name? rest = none →
      (∀ named, rest = '.' :: '.' :: '.' :: named → name? named = none) →
      Step ':' rest (.char ':') rest

section

variable {c d quote : Char} {s rest after body X : List Char} {token : Token}

theorem isNameStart_of_name? {name : List Char} (h : name? (c :: s) = some (name, rest)) :
    isNameStart c = true := by
  by_contra hc
  simp [name?, hc] at h

theorem name?_of_head (h : X.head? = s.head?) (hs : name? s = none) : name? X = none := by
  cases X with
  | nil => rfl
  | cons c X =>
    cases s with
    | nil => cases h
    | cons d s =>
      cases h
      by_cases hc : isNameStart c = true
      · simp [name?, hc] at hs
      · simp [name?, hc]

theorem step_next (c : Char) (rest : List Char) : Step c rest (next c rest).1 (next c rest).2 := by
  unfold next
  split
  case isTrue hquote =>
    split
    case h_1 body after hclosing => exact .quoted hquote hclosing
    case h_2 hclosing => exact .lone hquote hclosing
  case isFalse hquote =>
    split
    case isTrue hcolon =>
      subst hcolon
      split
      case h_1 after => exact .cast
      case h_2 named =>
        split
        case h_1 name after hname => exact .list hname
        case h_2 hname =>
          refine .colon (by simp) (by simp [name?, isNameStart]) fun named' hnamed => ?_
          simp only [List.cons.injEq, true_and] at hnamed
          exact hnamed ▸ hname
      case h_3 hcast hlist =>
        split
        case h_1 name after hname => exact .placeholder hname
        case h_2 hname =>
          refine .colon ?_ hname fun named hnamed => absurd hnamed (hlist named)
          intro hhead
          obtain ⟨after, rfl⟩ := List.head?_eq_some_iff.1 hhead
          exact hcast after rfl
    case isFalse hcolon => exact .plain (fun h => hquote (.inl h)) (fun h => hquote (.inr h)) hcolon

theorem Step.next_eq (h : Step c rest token after) : next c rest = (token, after) := by
  cases h with
  | plain hsingle hdouble hcolon => simp [next, hsingle, hdouble, hcolon]
  | lone hquote hclosing => simp [next, hquote, hclosing]
  | quoted hquote hclosing => simp [next, hquote, hclosing]
  | cast => simp [next]
  | placeholder hname =>
    cases rest with
    | nil => cases hname
    | cons d rest =>
      have hstart := isNameStart_of_name? hname
      have hcolon : d ≠ ':' := by
        rintro rfl
        cases hstart
      have hdot : d ≠ '.' := by
        rintro rfl
        cases hstart
      simp [next, hname, hcolon, hdot]
  | list hname => simp [next, hname]
  | colon hcast hname hlist =>
    unfold next
    simp only [if_neg (by decide : ¬ (':' = '\'' ∨ ':' = '"')), if_true]
    split
    · next => exact absurd rfl hcast
    · next named => rw [hlist named rfl]
    · rw [hname]

theorem Step.head_text (h : Step c rest token after) : token.text.head? = some c := by
  cases h <;> rfl

theorem Step.eq_colon (h : Step c rest token after) (hname : token.name.isSome = true) :
    c = ':' := by
  cases h with
  | plain | lone | quoted => cases hname
  | cast | placeholder | list | colon => rfl

/-- A name ends where no more of its characters follow. -/
theorem head_of_name? {name : List Char} (h : name? s = some (name, after)) :
    ∀ c ∈ after.head?, isNameChar c = false := by
  cases s with
  | nil => cases h
  | cons d s =>
    have hstart := isNameStart_of_name? h
    simp only [name?, hstart, if_true, Option.some.injEq, Prod.mk.injEq] at h
    intro c hc
    have hstop := List.head?_dropWhile_not isNameChar (d :: s)
    rwa [h.2, hc] at hstop

/-! ### Quotes -/

theorem closing_eq_none : closing quote s = none ↔ quote ∉ s := by
  fun_induction closing quote s with
  | case1 => simp
  | case2 => simp
  | case3 c hc => simpa using Ne.symm hc
  | case4 => simp
  | case5 => simp
  | case6 => simp
  | case7 c d rest hc ih =>
    rw [Option.map_eq_none_iff, ih, List.mem_cons (a := quote) (b := c), not_or]
    exact (and_iff_right (Ne.symm hc)).symm

/-- A quoted token ends where it ends in front of another text as well, if the quotes in both are as
many and the other begins with one only if the first does. -/
theorem closing_append (h : closing quote s = some (body, rest))
    (hcount : X.count quote = rest.count quote)
    (hhead : X.head? = some quote → rest.head? = some quote) :
    closing quote (body ++ X) = some (body, X) := by
  fun_induction closing quote s generalizing body rest with
  | case1 => cases h
  | case2 =>
    cases h
    cases X with
    | nil => simp [closing]
    | cons d X =>
      have hd : d ≠ quote := fun hd => by simpa using hhead (congrArg some hd)
      simp [closing, hd]
  | case3 => cases h
  | case4 rest' body' after hclosing ih =>
    cases h
    have hinner := ih hclosing hcount hhead
    simp [closing, hinner]
  | case5 rest' hclosing =>
    cases h
    have hnone := closing_eq_none.1 hclosing
    cases X with
    | nil => simp [closing]
    | cons d X =>
      by_cases hd : d = quote
      · subst hd
        have hX : closing d X = none := by
          rw [closing_eq_none, ← List.count_eq_zero]
          simpa [List.count_eq_zero.2 hnone] using hcount
        simp [closing, hX]
      · simp [closing, hd]
  | case6 d rest' hd =>
    cases h
    cases X with
    | nil => simp [closing]
    | cons e X =>
      have he : e ≠ quote := fun he => hd (by simpa using hhead (congrArg some he))
      simp [closing, he]
  | case7 c d rest' hc ih =>
    obtain ⟨⟨body', after⟩, hclosing, heq⟩ := Option.map_eq_some_iff.1 h
    cases heq
    have hinner := ih hclosing hcount hhead
    cases htext : body' ++ X with
    | nil => simp [htext, closing] at hinner
    | cons e text =>
      rw [List.cons_append, htext, closing, if_neg hc, ← htext, hinner]
      rfl

/-! ### Names -/

/-- The names of the placeholders of a text. -/
def names (s : List Char) : List String := (scan s).filterMap name

theorem Step.names (h : Step c rest token after) :
    names (c :: rest) = token.name.toList ++ names after := by
  unfold Token.names
  rw [scan, h.next_eq, List.filterMap_cons]
  cases token.name <;> rfl

/-- Symbols in front of a text name nothing. -/
theorem names_symbols {w : List Char} (hw : ∀ c ∈ w, isSymbol c = true) (X : List Char) :
    names (w ++ X) = names X := by
  have hnone : (w.map Token.char).filterMap Token.name = [] := by simp [Token.name]
  unfold names
  rw [scan_symbols hw, List.filterMap_append, hnone, List.nil_append]

theorem names_dropWhile (X : List Char) : names (X.dropWhile isNameChar) = names X := by
  have hw : ∀ c ∈ X.takeWhile isNameChar, isSymbol c = true := by
    intro c hc
    have hchar : isNameChar c = true := List.all_eq_true.1 List.all_takeWhile c hc
    simp [isSymbol, hchar]
  calc names (X.dropWhile isNameChar)
      = names (X.takeWhile isNameChar ++ X.dropWhile isNameChar) := (names_symbols hw _).symm
    _ = names X := by rw [List.takeWhile_append_dropWhile]

/-- A placeholder takes the characters of names that follow it, and leaves the names behind them. -/
theorem names_placeholder {name : String} (hname : Bindable name) (list : Bool) (X : List Char) :
    names ((placeholder list name.toList).text ++ X) =
      (name ++ String.ofList (X.takeWhile isNameChar)) :: names X := by
  have hfound := name?_append hname X
  have htext : String.ofList (name.toList ++ X.takeWhile isNameChar) =
      name ++ String.ofList (X.takeWhile isNameChar) := by
    rw [String.ofList_append, String.ofList_toList]
  cases list with
  | false =>
    have hstep := (Step.placeholder hfound).names
    rw [names_dropWhile] at hstep
    simpa [text, Token.name, htext] using hstep
  | true =>
    have hstep := (Step.list hfound).names
    rw [names_dropWhile] at hstep
    simpa [text, Token.name, htext] using hstep

/-- Where a scan finds symbols, they stand in the text. -/
theorem exists_of_scan_symbols {w : List Char} (hw : ∀ c ∈ w, isSymbol c = true)
    {tokens : List Token} (h : scan s = w.map char ++ tokens) :
    ∃ s', s = w ++ s' ∧ scan s' = tokens := by
  have htext : (w.map char).flatMap text = w := by simp [text, List.flatMap_map]
  have hs : s = w ++ tokens.flatMap text := by
    rw [← text_scan s, h, List.flatMap_append, htext]
  refine ⟨tokens.flatMap text, hs, ?_⟩
  have hscan := scan_symbols hw (tokens.flatMap text)
  rw [← hs, h] at hscan
  exact (List.append_cancel_left hscan).symm

/-- What a scan takes for the name of a placeholder can be one. -/
theorem bindable_of_scan {s : List Char} {token : Token} (h : token ∈ scan s) {name : String}
    (hname : token.name = some name) : Bindable name := by
  fun_induction scan s with
  | case1 => cases h
  | case2 c rest ih =>
    rcases List.mem_cons.1 h with hfirst | hlater
    · cases token with
      | placeholder list chars =>
        cases hname
        exact bindable_of_next hfirst.symm
      | char | quoted | cast => cases hname
    · exact ih hlater

end

end Token

/-! ### Lists of placeholders -/

/-- Names of which the last goes on with a text. -/
def goOn (suffix : String) : List String → List String
  | [] => []
  | [name] => [name ++ suffix]
  | name :: other :: names => name :: goOn suffix (other :: names)

/-- How long names are together, each counted with a colon. -/
def extent : List String → Nat
  | [] => 0
  | name :: names => name.length + 1 + extent names

section

variable {names : List String} {quote : Char}

theorem goOn_empty (names : List String) : goOn "" names = names := by
  fun_induction goOn "" names with
  | case1 => rfl
  | case2 name => rw [String.append_empty]
  | case3 name other names ih => rw [ih]

theorem extent_goOn (hne : names ≠ []) (suffix : String) :
    extent (goOn suffix names) = extent names + suffix.length := by
  fun_induction goOn suffix names with
  | case1 => exact absurd rfl hne
  | case2 name =>
    simp only [extent, String.length_append]
    omega
  | case3 name other names ih =>
    have hlater := ih (List.cons_ne_nil _ _)
    simp only [extent] at hlater ⊢
    omega

theorem extent_append (names others : List String) :
    extent (names ++ others) = extent names + extent others := by
  induction names with
  | nil => exact (Nat.zero_add _).symm
  | cons name names ih =>
    simp only [List.cons_append, extent, ih]
    omega

theorem placeholderList_cons (name other : String) (names : List String) :
    (placeholderList (name :: other :: names)).toList =
      (Token.placeholder false name.toList).text ++
        (", ".toList ++ (placeholderList (other :: names)).toList) := by
  have hlist : placeholderList (name :: other :: names) =
      ":" ++ name ++ ", " ++ placeholderList (other :: names) := String.intercalate_cons_cons ..
  rw [hlist]
  simp [Token.text]

theorem placeholderList_singleton (name : String) :
    (placeholderList [name]).toList = (Token.placeholder false name.toList).text := by
  have hlist : placeholderList [name] = ":" ++ name := String.intercalate_singleton ..
  rw [hlist]
  simp [Token.text]

theorem head_placeholderList (hne : names ≠ []) :
    (placeholderList names).toList.head? = some ':' := by
  match names with
  | [] => exact absurd rfl hne
  | [name] => rw [placeholderList_singleton]; rfl
  | name :: other :: names => rw [placeholderList_cons]; rfl

/-- In a list of placeholders the last one takes what follows. -/
theorem names_placeholderList (hne : names ≠ []) (hnames : ∀ name ∈ names, Bindable name)
    (X : List Char) : Token.names ((placeholderList names).toList ++ X) =
      goOn (String.ofList (X.takeWhile Token.isNameChar)) names ++ Token.names X := by
  induction names with
  | nil => exact absurd rfl hne
  | cons name names ih =>
    have hname := hnames name List.mem_cons_self
    cases names with
    | nil =>
      rw [placeholderList_singleton, Token.names_placeholder hname]
      rfl
    | cons other names =>
      have hlater := ih (List.cons_ne_nil _ _) fun n hn => hnames n (List.mem_cons_of_mem _ hn)
      have hcomma := Token.names_symbols (List.all_eq_true.1 rfl)
        ((placeholderList (other :: names)).toList ++ X) (w := ", ".toList)
      rw [placeholderList_cons, List.append_assoc, List.append_assoc,
        Token.names_placeholder hname, hcomma, hlater]
      have hnone : (", ".toList ++ ((placeholderList (other :: names)).toList ++ X)).takeWhile
          Token.isNameChar = [] := rfl
      rw [hnone, String.ofList_nil, String.append_empty]
      rfl

theorem quote_notMem_placeholder {list : Bool} {chars : List Char}
    (hquote : quote = '\'' ∨ quote = '"') (hname : Bindable (String.ofList chars)) :
    quote ∉ (Token.placeholder list chars).text := by
  have hother : Token.isNameChar quote = false := by rcases hquote with rfl | rfl <;> rfl
  have hchars := hname.notMem hother
  rw [String.toList_ofList] at hchars
  cases list <;> rcases hquote with rfl | rfl <;> simpa [Token.text] using hchars

theorem quote_notMem_list (hquote : quote = '\'' ∨ quote = '"')
    (hnames : ∀ name ∈ names, Bindable name) : quote ∉ (placeholderList names).toList := by
  have hplaceholder : ∀ name ∈ names, quote ∉ (Token.placeholder false name.toList).text := by
    intro name hname
    have hbindable := hnames name hname
    rw [← String.ofList_toList (s := name)] at hbindable
    exact quote_notMem_placeholder hquote hbindable
  have hcomma : quote ∉ ", ".toList := by rcases hquote with rfl | rfl <;> decide
  clear hnames
  induction names with
  | nil => exact List.not_mem_nil
  | cons name names ih =>
    have hname := hplaceholder name List.mem_cons_self
    cases names with
    | nil => rwa [placeholderList_singleton]
    | cons other names =>
      have hlater := ih fun n hn => hplaceholder n (List.mem_cons_of_mem _ hn)
      rw [placeholderList_cons, List.mem_append, List.mem_append, not_or, not_or]
      exact ⟨hname, hcomma, hlater⟩

end

end Sql

end ObjectGraph
