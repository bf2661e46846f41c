import ObjectGraph.Proofs.Sql.Rescanning
import ObjectGraph.Proofs.Sql.Rewriting

/-! # Rewritten templates

What becomes of a template is scanned again when its statement is verified.  Quotes are where they
were (`Matches.count`), and a part begins as its token does, but for an emptied list, whose `NULL`
begins with a letter (`Matches.head`).  So each token is read again as it was, its names in its
place, and the scan goes on behind it (`rescanned_step`), with one exception: the letters of an
emptied list go on the name of a placeholder that stands directly before it, or are the name that a
colon with three dots was missing (`Joins`).  The names that are found are then longer than those
that were put there, and `template_rewritten` states that this exception is the only one. -/

namespace ObjectGraph

namespace Sql

/-! ### Parts -/

/-- An emptied list comes first. -/
def EmptiedFirst (params : Params) (tokens : List Token) : Prop :=
  ∃ token ∈ tokens.head?, token.Emptied params

namespace Part.Sound

variable {params : Params} {t : Scope} {part : Part} {quote : Char}

/-- A token is kept, or it is an emptied list, or names take its place. -/
theorem shape (h : part.Sound params t) :
    (¬ part.token.Emptied params ∧ part.text params = String.ofList part.token.text ∧
        part.names params = part.token.name.toList) ∨
      (part.token.Emptied params ∧ part.text params = "NULL" ∧ part.names params = []) ∨
      (¬ part.token.Emptied params ∧ part.bound ≠ [] ∧ part.token.name.isSome = true ∧
        part.text params = placeholderList part.bound ∧ part.names params = part.bound) := by
  have hlength := h.held.length_eq
  obtain ⟨token, bound⟩ := part
  unfold Part.text Part.names Token.Emptied
  dsimp only at hlength ⊢
  cases hvalue : token.value? params with
  | none =>
    refine .inl ⟨?_, rfl, rfl⟩
    rintro ⟨name, -, hempty⟩
    cases hempty
  | some value =>
    cases token with
    | char | quoted | cast => cases hvalue
    | placeholder list chars =>
      have hcalls : (Token.placeholder list chars).calls params =
          Token.asked list (String.ofList chars) value := by
        have hget : params.get? (String.ofList chars) = some value := hvalue
        simp only [Token.calls, hget]
      rw [hcalls] at hlength
      by_cases hempty : list = true ∧ value = .arr []
      · obtain ⟨rfl, rfl⟩ := hempty
        have hbound : bound = [] := List.length_eq_zero_iff.1 hlength
        subst hbound
        exact .inr (.inl ⟨⟨chars, rfl, rfl⟩, rfl, rfl⟩)
      · have hne : bound ≠ [] := by
          rintro rfl
          apply hempty
          unfold Token.asked at hlength
          split at hlength
          · next items => simpa using hlength.symm
          · cases hlength
        refine .inr (.inr ⟨?_, hne, rfl, by simp [hne], rfl⟩)
        rintro ⟨name, htoken, harr⟩
        cases htoken
        exact hempty ⟨rfl, Option.some.inj harr⟩

/-- A token that names nothing is kept. -/
theorem kept (h : part.Sound params t) (hname : part.token.name = none) :
    (part.text params).toList = part.token.text ∧ part.names params = [] := by
  rcases h.shape with ⟨-, htext, hnames⟩ | ⟨⟨name, htoken, -⟩, -⟩ | ⟨-, -, hsome, -⟩
  · rw [htext, hnames, hname, String.toList_ofList]
    exact ⟨rfl, rfl⟩
  · rw [htoken] at hname
    cases hname
  · rw [hname] at hsome
    cases hsome

/-- Rewriting neither adds quotes nor removes any. -/
theorem count (h : part.Sound params t) (hquote : quote = '\'' ∨ quote = '"') :
    (part.text params).toList.count quote = part.token.text.count quote := by
  have hnone : part.token.name.isSome = true → part.token.text.count quote = 0 := by
    intro hsome
    cases htoken : part.token with
    | char | quoted | cast =>
      rw [htoken] at hsome
      cases hsome
    | placeholder list chars =>
      have hname : Bindable (String.ofList chars) := h.named _ (htoken ▸ rfl)
      exact List.count_eq_zero.2 (quote_notMem_placeholder hquote hname)
  rcases h.shape with ⟨-, htext, -⟩ | ⟨⟨name, htoken, -⟩, htext, -⟩ | ⟨-, -, hsome, htext, -⟩
  · rw [htext, String.toList_ofList]
  · rw [hnone (htoken ▸ rfl), htext, List.count_eq_zero]
    rcases hquote with rfl | rfl <;> decide
  · rw [hnone hsome, htext, List.count_eq_zero]
    exact quote_notMem_list hquote h.bindable

end Part.Sound

/-! ### Rewritten texts -/

/-- The text that parts make up. -/
def rewritten (params : Params) (parts : List Part) : List Char :=
  parts.flatMap fun part => (part.text params).toList

/-- Parts for the tokens of a text. -/
structure Matches (params : Params) (t : Scope) (s : List Char) (parts : List Part) : Prop where
  tokens : parts.map Part.token = Token.scan s
  sound : ∀ part ∈ parts, part.Sound params t

namespace Matches

variable {params : Params} {t : Scope} {s X : List Char} {c quote : Char} {parts : List Part}

theorem nil (h : Matches params t [] parts) : parts = [] := by
  have htokens := h.tokens
  rw [Token.scan] at htokens
  exact List.map_eq_nil_iff.1 htokens

theorem cons (h : Matches params t (c :: s) parts) :
    ∃ part later, parts = part :: later ∧ part.token = (Token.next c s).1 ∧
      part.Sound params t ∧ Matches params t (Token.next c s).2 later := by
  have htokens := h.tokens
  rw [Token.scan] at htokens
  obtain ⟨part, later, rfl, htoken, hlater⟩ := List.map_eq_cons_iff.1 htokens
  exact ⟨part, later, rfl, htoken, h.sound part List.mem_cons_self, hlater,
    fun other ho => h.sound other (List.mem_cons_of_mem _ ho)⟩

theorem count (h : Matches params t s parts) (hquote : quote = '\'' ∨ quote = '"') :
    (rewritten params parts).count quote = s.count quote := by
  have hparts : ∀ parts : List Part, (∀ part ∈ parts, part.Sound params t) →
      (rewritten params parts).count quote =
        ((parts.map Part.token).flatMap Token.text).count quote := by
    intro parts hsound
    induction parts with
    | nil => rfl
    | cons part parts ih =>
      have hfirst := (hsound part List.mem_cons_self).count hquote
      have hlater := ih fun other ho => hsound other (List.mem_cons_of_mem _ ho)
      unfold rewritten at hlater ⊢
      rw [List.flatMap_cons, List.map_cons, List.flatMap_cons, List.count_append,
        List.count_append, hfirst, hlater]
  rw [hparts parts h.sound, h.tokens, Token.text_scan]

/-- A rewritten text begins as the template does, but for a list that is emptied. -/
theorem head (h : Matches params t s parts) :
    (EmptiedFirst params (Token.scan s) ∧ ∃ X, rewritten params parts = "NULL".toList ++ X) ∨
      (¬ EmptiedFirst params (Token.scan s) ∧ (rewritten params parts).head? = s.head?) := by
  cases s with
  | nil =>
    rw [h.nil, Token.scan]
    refine .inr ⟨?_, rfl⟩
    rintro ⟨token, hfirst, -⟩
    exact Option.not_mem_none token hfirst
  | cons c s =>
    obtain ⟨part, later, rfl, htoken, hsound, -⟩ := h.cons
    have hfirst : EmptiedFirst params (Token.scan (c :: s)) ↔ part.token.Emptied params := by
      rw [htoken, Token.scan]
      simp [EmptiedFirst]
    have hhead := (Token.step_next c s).head_text
    have htext : rewritten params (part :: later) =
      (part.text params).toList ++ rewritten params later := List.flatMap_cons ..
    rw [hfirst, htext]
    rcases hsound.shape with ⟨hnot, hpart, -⟩ | ⟨hempty, hpart, -⟩ | ⟨hnot, hne, hsome, hpart, -⟩
    · refine .inr ⟨hnot, ?_⟩
      rw [hpart, String.toList_ofList, htoken, List.head?_append, hhead]
      rfl
    · rw [hpart]
      exact .inl ⟨hempty, _, rfl⟩
    · refine .inr ⟨hnot, ?_⟩
      have hcolon : c = ':' := (Token.step_next c s).eq_colon (htoken ▸ hsome)
      rw [hpart, List.head?_append, head_placeholderList hne, hcolon]
      rfl

/-- Where no name goes on, the rewritten text goes on with one only if it begins with an emptied
list. -/
theorem taken (h : Matches params t s parts) (hs : ∀ c ∈ s.head?, Token.isNameChar c = false) :
    (EmptiedFirst params (Token.scan s) ∧
        (rewritten params parts).takeWhile Token.isNameChar ≠ []) ∨
      (¬ EmptiedFirst params (Token.scan s) ∧
        (rewritten params parts).takeWhile Token.isNameChar = []) := by
  rcases h.head with ⟨hempty, X, htext⟩ | ⟨hnot, hhead⟩
  · refine .inl ⟨hempty, ?_⟩
    rw [htext]
    exact List.cons_ne_nil _ _
  · refine .inr ⟨hnot, ?_⟩
    rw [← hhead] at hs
    cases htext : rewritten params parts with
    | nil => rfl
    | cons c X =>
      have hc := hs c (by rw [htext]; rfl)
      rw [List.takeWhile_cons, hc]
      rfl

theorem emptiedFirst_colon (h : EmptiedFirst params (Token.scan s)) : s.head? = some ':' := by
  cases s with
  | nil =>
    obtain ⟨token, hfirst, -⟩ := h
    rw [Token.scan] at hfirst
    cases hfirst
  | cons c s =>
    obtain ⟨token, hfirst, name, htoken, -⟩ := h
    rw [Token.scan] at hfirst
    have hnext : (Token.next c s).1 = token := Option.some.inj hfirst
    have hcolon := (Token.step_next c s).eq_colon (by rw [hnext, htoken]; rfl)
    rw [hcolon]
    rfl

/-! ### Dots -/

theorem dot (h : Matches params t ('.' :: s) parts) :
    ∃ later, rewritten params parts = '.' :: rewritten params later ∧ Matches params t s later := by
  obtain ⟨part, later, rfl, htoken, hsound, hlater⟩ := h.cons
  have hnext : Token.next '.' s = (.char '.', s) := next_symbol rfl s
  rw [hnext] at htoken hlater
  have htext := (hsound.kept (htoken ▸ rfl)).1
  refine ⟨later, ?_, hlater⟩
  rw [rewritten, List.flatMap_cons, htext, htoken]
  rfl

theorem exists_dot (h : Matches params t s parts) (hX : rewritten params parts = '.' :: X) :
    ∃ s' later, s = '.' :: s' ∧ X = rewritten params later ∧ Matches params t s' later := by
  rcases h.head with ⟨-, Y, htext⟩ | ⟨-, hhead⟩
  · rw [hX] at htext
    cases htext
  · rw [hX] at hhead
    obtain ⟨s', rfl⟩ := List.head?_eq_some_iff.1 hhead.symm
    obtain ⟨later, htext, hlater⟩ := h.dot
    rw [hX] at htext
    exact ⟨s', later, rfl, List.tail_eq_of_cons_eq htext, hlater⟩

theorem dots (h : Matches params t ('.' :: '.' :: '.' :: s) parts) :
    ∃ later, rewritten params parts = '.' :: '.' :: '.' :: rewritten params later ∧
      Matches params t s later := by
  obtain ⟨first, htext, hfirst⟩ := h.dot
  obtain ⟨second, htext', hsecond⟩ := hfirst.dot
  obtain ⟨third, htext'', hthird⟩ := hsecond.dot
  exact ⟨third, by rw [htext, htext', htext''], hthird⟩

theorem exists_dots (h : Matches params t s parts)
    (hX : rewritten params parts = '.' :: '.' :: '.' :: X) :
    ∃ s' later, s = '.' :: '.' :: '.' :: s' ∧ X = rewritten params later ∧
      Matches params t s' later := by
  obtain ⟨s₁, first, rfl, htext, hfirst⟩ := h.exists_dot hX
  obtain ⟨s₂, second, rfl, htext', hsecond⟩ := hfirst.exists_dot htext.symm
  obtain ⟨s₃, third, rfl, htext'', hthird⟩ := hsecond.exists_dot htext'.symm
  exact ⟨s₃, third, rfl, htext'', hthird⟩

end Matches

/-! ### Glued tokens -/

/-- An emptied list that is read together with what stands before it: its `NULL` goes on the name of
a placeholder, or is the name that a colon with three dots was missing. -/
def Joins (params : Params) (token : Token) (later : List Token) : Prop :=
  (token.name.isSome = true ∧ ¬ token.Emptied params ∧ EmptiedFirst params later) ∨
    (token = .char ':' ∧ ∃ after, later = ['.', '.', '.'].map Token.char ++ after ∧
      EmptiedFirst params after)

/-- Somewhere among tokens an emptied list is read together with what stands before it. -/
def Glued (params : Params) (tokens : List Token) : Prop :=
  ∃ token later, token :: later <:+ tokens ∧ Joins params token later

section

variable {params : Params} {t : Scope} {s rest after : List Char} {c : Char} {part : Part}
  {parts : List Part} {token : Token}

theorem glued_cons {later : List Token} :
    Glued params (token :: later) ↔ Joins params token later ∨ Glued params later := by
  constructor
  · rintro ⟨first, others, hsuffix, hjoins⟩
    rcases List.suffix_cons_iff.1 hsuffix with heq | hlater
    · cases heq
      exact .inl hjoins
    · exact .inr ⟨first, others, hlater, hjoins⟩
  · rintro (hjoins | ⟨first, others, hsuffix, hjoins⟩)
    · exact ⟨token, later, List.suffix_refl _, hjoins⟩
    · exact ⟨first, others, hsuffix.trans (List.suffix_cons _ _), hjoins⟩

/-- What a scan finds where a token was rewritten: the names that took its place, or longer ones if
an emptied list joins it. -/
structure Found (params : Params) (part : Part) (later : List Token) (found : List String) :
    Prop where
  joined : Joins params part.token later → extent (part.names params) < extent found
  alone : ¬ Joins params part.token later → found = part.names params

theorem found_same {found : List String} {later : List Token}
    (hjoins : ¬ Joins params part.token later) (h : found = part.names params) :
    Found params part later found :=
  ⟨fun hj => absurd hj hjoins, fun _ => h⟩

/-- A placeholder that is not emptied takes what goes on its name. -/
theorem found_goOn (hsome : part.token.name.isSome = true) (hnot : ¬ part.token.Emptied params)
    (hne : part.names params ≠ []) (h : Matches params t s parts)
    (hs : ∀ c ∈ s.head?, Token.isNameChar c = false) :
    Found params part (Token.scan s)
      (goOn (String.ofList ((rewritten params parts).takeWhile Token.isNameChar))
        (part.names params)) := by
  have hcolon : part.token ≠ .char ':' := by
    intro hchar
    rw [hchar] at hsome
    cases hsome
  rcases h.taken hs with ⟨hempty, htaken⟩ | ⟨hnone, htaken⟩
  · constructor
    case joined =>
      intro _
      have hlength := List.length_pos_iff.2 htaken
      rw [extent_goOn hne, String.length_ofList]
      omega
    case alone => exact fun hjoins => absurd (.inl ⟨hsome, hnot, hempty⟩) hjoins
  · refine found_same ?_ ?_
    · rintro (⟨-, -, hempty⟩ | ⟨hchar, -⟩)
      · exact hnone hempty
      · exact hcolon hchar
    · rw [htaken, String.ofList_nil, goOn_empty]

/-- The scan finds names where a token was rewritten, and goes on behind them as if they were not
there. -/
def Rescanned (params : Params) (part : Part) (s : List Char) (parts : List Part) : Prop :=
  ∃ found, Token.names ((part.text params).toList ++ rewritten params parts) =
    found ++ Token.names (rewritten params parts) ∧ Found params part (Token.scan s) found

/-- A token that names nothing is scanned again in front of the rewritten rest. -/
theorem rescanned_kept (body : List Char) (hsound : part.Sound params t)
    (htoken : part.token = token) (hname : token.name = none) (hcolon : token ≠ .char ':')
    (htext : token.text = c :: body)
    (hstep : Token.Step c (body ++ rewritten params parts) token (rewritten params parts)) :
    Rescanned params part s parts := by
  subst htoken
  have hkept := hsound.kept hname
  have hnames := hstep.names
  rw [hname] at hnames
  refine ⟨[], ?_, found_same ?_ hkept.2.symm⟩
  · rw [hkept.1, htext, List.cons_append, hnames]
    rfl
  · rintro (⟨hsome, -⟩ | ⟨hchar, -⟩)
    · rw [hname] at hsome
      cases hsome
    · exact hcolon hchar

theorem rescanned_placeholder {list : Bool} {chars : List Char} (hsound : part.Sound params t)
    (htoken : part.token = .placeholder list chars) (h : Matches params t s parts)
    (hs : ∀ c ∈ s.head?, Token.isNameChar c = false) : Rescanned params part s parts := by
  have hsome : part.token.name.isSome = true := by rw [htoken]; rfl
  rcases hsound.shape with ⟨hnot, htext, hnames⟩ | ⟨hempty, htext, hnames⟩ |
    ⟨hnot, hne, -, htext, hnames⟩
  · have hown : part.names params = [String.ofList chars] := by rw [hnames, htoken]; rfl
    have hbindable : Bindable (String.ofList chars) := hsound.named _ (by rw [htoken]; rfl)
    have hread := Token.names_placeholder hbindable list (rewritten params parts)
    rw [String.toList_ofList] at hread
    refine ⟨_, ?_, found_goOn hsome hnot (by simp [hown]) h hs⟩
    rw [htext, String.toList_ofList, htoken, hread, hown]
    rfl
  · refine ⟨[], ?_, found_same ?_ hnames.symm⟩
    · rw [htext]
      exact Token.names_symbols (List.all_eq_true.1 rfl) (rewritten params parts)
    · rintro (⟨-, hnot, -⟩ | ⟨hchar, -⟩)
      · exact hnot hempty
      · rw [htoken] at hchar
        cases hchar
  · refine ⟨_, ?_, found_goOn hsome hnot (by rwa [hnames]) h hs⟩
    rw [htext, hnames]
    exact names_placeholderList hne hsound.bindable (rewritten params parts)

theorem joins_colon {later : List Token} : Joins params (.char ':') later ↔
    ∃ after, later = ['.', '.', '.'].map Token.char ++ after ∧ EmptiedFirst params after := by
  simp [Joins, Token.name]

/-- A colon with three dots takes an emptied list for its name. -/
theorem rescanned_dots (hsound : part.Sound params t) (htoken : part.token = .char ':')
    (h : Matches params t s parts) (hjoins : Joins params part.token (Token.scan s)) :
    Rescanned params part s parts := by
  obtain ⟨htext, hnames⟩ := hsound.kept (by rw [htoken]; rfl)
  obtain ⟨tokens, hscan, hempty⟩ := joins_colon.1 (htoken ▸ hjoins)
  obtain ⟨named, rfl, hnamed⟩ := Token.exists_of_scan_symbols (List.all_eq_true.1 rfl) hscan
  obtain ⟨later, hdots, hlater⟩ := h.dots
  obtain ⟨X, hnull⟩ : ∃ X, rewritten params later = "NULL".toList ++ X := by
    rcases hlater.head with ⟨-, hnull⟩ | ⟨hnone, -⟩
    · exact hnull
    · exact absurd (hnamed ▸ hempty) hnone
  have hrest : rewritten params parts = "...NULL".toList ++ X := by
    rw [hdots, hnull]
    rfl
  have hbindable : Bindable "NULL" := ⟨⟨'N', rfl, rfl⟩, List.all_eq_true.1 rfl⟩
  have hread := Token.names_placeholder hbindable true X
  have hskip := Token.names_symbols (w := "...NULL".toList) (List.all_eq_true.1 rfl) X
  refine ⟨["NULL" ++ String.ofList (X.takeWhile Token.isNameChar)], ?_, fun _ => ?_,
    fun hnot => absurd hjoins hnot⟩
  · rw [htext, htoken, hrest, hskip]
    exact hread
  · rw [hnames]
    exact Nat.succ_pos _

/-- A colon by itself stays so, unless three dots and then an emptied list follow it. -/
theorem rescanned_colon (hsound : part.Sound params t) (htoken : part.token = .char ':')
    (h : Matches params t s parts) (hcast : s.head? ≠ some ':') (hname : Token.name? s = none)
    (hlist : ∀ named, s = '.' :: '.' :: '.' :: named → Token.name? named = none) :
    Rescanned params part s parts := by
  by_cases hjoins : Joins params part.token (Token.scan s)
  · exact rescanned_dots hsound htoken h hjoins
  · obtain ⟨htext, hnames⟩ := hsound.kept (by rw [htoken]; rfl)
    have hhead : (rewritten params parts).head? = s.head? := by
      rcases h.head with ⟨hempty, -⟩ | ⟨-, hhead⟩
      · exact absurd (Matches.emptiedFirst_colon hempty) hcast
      · exact hhead
    have hlone : Token.Step ':' (rewritten params parts) (.char ':') (rewritten params parts) := by
      refine .colon (by rwa [hhead]) (Token.name?_of_head hhead hname) fun named hdots => ?_
      obtain ⟨s', later, rfl, rfl, hlater⟩ := h.exists_dots hdots
      rcases hlater.head with ⟨hempty, -⟩ | ⟨-, hhead'⟩
      · have hscan := scan_symbols (w := ['.', '.', '.']) (List.all_eq_true.1 rfl) s'
        rw [htoken, joins_colon] at hjoins
        exact absurd ⟨_, hscan, hempty⟩ hjoins
      · exact Token.name?_of_head hhead' (hlist s' rfl)
    refine ⟨[], ?_, found_same hjoins hnames.symm⟩
    rw [htext, htoken]
    exact hlone.names

/-- Whatever step took a token, its part is scanned to the names in it, but for a list that joins
it. -/
theorem rescanned_step (hstep : Token.Step c rest token after) (htoken : part.token = token)
    (hsound : part.Sound params t) (h : Matches params t after parts) :
    Rescanned params part after parts := by
  cases hstep with
  | plain hsingle hdouble hcolon =>
    have hother : Token.char c ≠ .char ':' := fun heq => hcolon (Token.char.inj heq)
    exact rescanned_kept [] hsound htoken rfl hother rfl (.plain hsingle hdouble hcolon)
  | lone hquote hclosing =>
    have hother : Token.char c ≠ .char ':' := by rcases hquote with rfl | rfl <;> decide
    have hnone : c ∉ rewritten params parts := by
      rw [← List.count_eq_zero, h.count hquote, List.count_eq_zero]
      exact Token.closing_eq_none.1 hclosing
    exact rescanned_kept [] hsound htoken rfl hother rfl
      (.lone hquote (Token.closing_eq_none.2 hnone))
  | quoted hquote hclosing =>
    have hhead : (rewritten params parts).head? = some c → after.head? = some c := by
      intro hhead
      rcases h.head with ⟨-, X, htext⟩ | ⟨-, heq⟩
      · rw [htext] at hhead
        rcases hquote with rfl | rfl <;> cases hhead
      · rwa [← heq]
    have hagain := Token.closing_append hclosing (h.count hquote) hhead
    exact rescanned_kept _ hsound htoken rfl (by simp) rfl (.quoted hquote hagain)
  | cast => exact rescanned_kept [':'] hsound htoken rfl (by simp) rfl .cast
  | placeholder hname => exact rescanned_placeholder hsound htoken h (Token.head_of_name? hname)
  | list hname => exact rescanned_placeholder hsound htoken h (Token.head_of_name? hname)
  | colon hcast hname hlist => exact rescanned_colon hsound htoken h hcast hname hlist

/-- The scan of a rewritten text finds the names that were put in the place of the tokens, and no
others, exactly if no emptied list is joined. -/
theorem names_rewritten (h : Matches params t s parts) :
    extent (parts.flatMap (Part.names params)) ≤ extent (Token.names (rewritten params parts)) ∧
      (Token.names (rewritten params parts) = parts.flatMap (Part.names params) ↔
        ¬ Glued params (Token.scan s)) := by
  fun_induction Token.scan s generalizing parts with
  | case1 =>
    rw [h.nil]
    have hnone : ¬ Glued params [] := by
      rintro ⟨token, later, hsuffix, -⟩
      exact absurd (List.suffix_nil.1 hsuffix) (List.cons_ne_nil _ _)
    have hempty : Token.names (rewritten params []) = [] := by
      rw [rewritten, List.flatMap_nil, Token.names, Token.scan]
      rfl
    rw [hempty]
    exact ⟨Nat.le_refl _, iff_of_true rfl hnone⟩
  | case2 c rest ih =>
    obtain ⟨part, later, rfl, htoken, hsound, hlater⟩ := h.cons
    obtain ⟨hle, hiff⟩ := ih hlater
    obtain ⟨found, hread, hfound⟩ :=
      rescanned_step (Token.step_next c rest) htoken hsound hlater
    have htext : Token.names (rewritten params (part :: later)) =
        found ++ Token.names (rewritten params later) := hread
    rw [htext, List.flatMap_cons, extent_append, extent_append, ← htoken, glued_cons]
    by_cases hjoins : Joins params part.token (Token.scan (Token.next c rest).2)
    · have hlonger := hfound.joined hjoins
      refine ⟨by omega, iff_of_false ?_ fun hnot => hnot (.inl hjoins)⟩
      intro heq
      have hextent := congrArg extent heq
      rw [extent_append, extent_append] at hextent
      omega
    · rw [hfound.alone hjoins, List.append_cancel_left_eq, hiff, or_iff_right hjoins]
      exact ⟨by omega, Iff.rfl⟩

end

/-- A template is rewritten token by token.  Tokens for which nothing is supplied keep their text.
All that is supplied for the others is bound, one after another: the value itself, or the elements
of an array for a list.  In the place of a token stand the names that were returned for it, each
holding its value in the end, or `NULL` where the list is empty.  The placeholders of the new text
are those of the template with these names in their places, exactly if no emptied list stands
directly behind a placeholder, or behind a colon and three dots. -/
theorem template_rewritten (template : String) {params : Params}
    (hvalid : ∀ entry ∈ params, entry.2.Valid) (s : Scope) {result : String} {t : Scope}
    (h : bindTemplate template params s = (result, t)) :
    ∃ parts : List Part, parts.map Part.token = Token.scan template.toList ∧
      bindAll (parts.flatMap fun part => part.token.calls params) s =
        (parts.flatMap Part.bound, t) ∧
      (∀ part ∈ parts, List.Forall₂ (fun name call => t.Holds name call.2) part.bound
        (part.token.calls params)) ∧
      result = String.join (parts.map (Part.text params)) ∧
      placeholderNames template = parts.flatMap (fun part => part.token.name.toList) ∧
      (placeholderNames result = parts.flatMap (Part.names params) ↔
        ¬ Glued params (Token.scan template.toList)) := by
  rw [bindTemplate_eq] at h
  obtain ⟨parts, htokens, htexts, hbound, hsound⟩ := bindTokens_parts hvalid
    (fun token htoken name hname => Token.bindable_of_scan htoken hname) s
  obtain rfl := congrArg Prod.fst h
  obtain rfl := congrArg Prod.snd h
  have hmatches : Matches params _ template.toList parts := ⟨htokens, hsound⟩
  have hresult : (String.join (parts.map (Part.text params))).toList = rewritten params parts := by
    rw [String.toList_join, List.flatMap_map]
    rfl
  refine ⟨parts, htokens, ?_, fun part hpart => (hsound part hpart).held, ?_, ?_, ?_⟩
  · rw [← hbound, ← htokens, List.flatMap_map]
  · exact congrArg String.join htexts
  · unfold placeholderNames
    rw [← htokens, List.filterMap_map, List.filterMap_eq_flatMap_toList]
    rfl
  · rw [htexts]
    unfold placeholderNames
    rw [hresult]
    exact (names_rewritten hmatches).2

/-- Values for a template in which an emptied list stands directly behind a placeholder. -/
def adjacent : Params := [("a", .arr []), ("b", .num (.int 1))]

/-- The `NULL` of the list is read as part of the name that the other value is bound under. -/
theorem template_rewritten_adjacent : ∃ (parts : List Part) (t : Scope),
    bindTemplate "x = :b:...a" adjacent {} = ("x = :bNULL", t) ∧
      parts.map Part.token = Token.scan "x = :b:...a".toList ∧
      parts.flatMap Part.bound = ["b"] ∧ placeholderNames "x = :bNULL" = ["bNULL"] ∧
      placeholderNames "x = :bNULL" ≠ parts.flatMap (Part.names adjacent) := by
  have hvalid : ∀ entry ∈ adjacent, entry.2.Valid := by
    intro entry hentry
    simp only [adjacent, List.mem_cons, List.not_mem_nil, or_false] at hentry
    rcases hentry with rfl | rfl <;> trivial
  have hresult : (bindTemplate "x = :b:...a" adjacent {}).1 = "x = :bNULL" := by decide +kernel
  have hscan : Token.scan "x = :b:...a".toList =
      ['x', ' ', '=', ' '].map Token.char ++
        [.placeholder false ['b'], .placeholder true ['a']] := by decide +kernel
  have hglued : Glued adjacent (Token.scan "x = :b:...a".toList) := by
    refine ⟨.placeholder false ['b'], [.placeholder true ['a']], ?_, .inl ⟨rfl, ?_, ?_⟩⟩
    · rw [hscan]
      exact List.suffix_append _ _
    · rintro ⟨name, htoken, -⟩
      cases htoken
    · exact ⟨_, rfl, ['a'], rfl, rfl⟩
  obtain ⟨parts, htokens, hbound, -, -, -, hnames⟩ :=
    template_rewritten "x = :b:...a" hvalid {} (Prod.ext hresult rfl)
  have hcalls : parts.flatMap (fun part => part.token.calls adjacent) = [("b", .num (.int 1))] := by
    rw [← List.flatMap_map, htokens, hscan]
    rfl
  refine ⟨parts, _, Prod.ext hresult rfl, htokens, ?_, by decide +kernel, fun heq => ?_⟩
  · rw [hcalls] at hbound
    exact (congrArg Prod.fst hbound).symm.trans (by decide +kernel)
  · exact hnames.1 heq hglued

end Sql

end ObjectGraph
