import Mathlib.Data.List.DropRight
import Mathlib.Data.List.Forall2
import ObjectGraph.Sql.Query

/-! # Reading conditions

What a condition means is read off its text, as SQL does.

* `read` takes a text apart into words, quoted tokens, symbols and groups in parentheses.  A text
  is `Complete` if its quotes and parentheses are closed; texts with comments are not read.
* `truth` combines the truth of the atoms by `OR`, `AND` and `NOT`, which bind in this order, the
  first loosest.  Whatever is not combined in this way is an atom, the `AND` of a `BETWEEN` and the
  branches of a `CASE` included.  Truth has three values, and a row satisfies a condition whose
  truth is `yes`.

Texts in parentheses with `AND` or `OR` between them are read group by group (`read_conjunction`,
`read_disjunction`). -/

namespace ObjectGraph

namespace Sql

/-! ### Truth -/

/-- The truth of a condition in a row; that of a comparison with `NULL` is unknown. -/
inductive Truth
  | yes
  | no
  | unknown
deriving DecidableEq, Repr

namespace Truth

/-- True if both are, false if one is. -/
def and : Truth → Truth → Truth
  | yes, t => t
  | no, _ => no
  | unknown, no => no
  | unknown, _ => unknown

/-- True if one is, false if both are. -/
def or : Truth → Truth → Truth
  | no, t => t
  | yes, _ => yes
  | unknown, yes => yes
  | unknown, _ => unknown

/-- The opposite; that of unknown is unknown. -/
def not : Truth → Truth
  | yes => no
  | no => yes
  | unknown => unknown

@[simp] theorem and_yes (t : Truth) : t.and yes = t := by cases t <;> rfl

theorem and_assoc (a b c : Truth) : (a.and b).and c = a.and (b.and c) := by
  cases a <;> cases b <;> cases c <;> rfl

theorem and_eq_yes {a b : Truth} : a.and b = yes ↔ a = yes ∧ b = yes := by
  cases a <;> cases b <;> decide

end Truth

/-! ### Pieces of a text -/

/-- A piece of the text of a condition. -/
inductive Piece
  | blank
  | word (text : List Char)
  | quoted (text : List Char)
  | symbol (c : Char)
  | group (pieces : List Piece)

/-- What a character does in a text. -/
inductive Role
  | word
  | quote
  | opening
  | closing
  | blank
  | symbol
deriving DecidableEq, Repr

/-- The role of a character outside quotes.  A word may be a qualified name, a number, a
placeholder or a cast as well, so that none of these is taken for a keyword. -/
def role (c : Char) : Role :=
  if Token.isNameChar c || c = '.' || c = ':' || c = '$' || c = '@' || decide (128 ≤ c.toNat) then
    .word
  else if c = '\'' || c = '"' then .quote
  else if c = '(' then .opening
  else if c = ')' then .closing
  else if c.isWhitespace then .blank
  else .symbol

/-- What is read of a text so far. -/
structure Reader where
  /-- The quote that is open, with the text from it on. -/
  quote : Option (Char × List Char) := none
  /-- The word that is being read. -/
  word : List Char := []
  /-- The pieces of the innermost open group. -/
  pieces : List Piece := []
  /-- The pieces before it of the groups around it, the innermost first. -/
  outer : List (List Piece) := []

namespace Reader

/-- The pieces of the innermost group, the word that is being read included. -/
def flushed (r : Reader) : List Piece :=
  match r.word with
  | [] => r.pieces
  | word => r.pieces ++ [.word word]

/-- Whether a character makes a comment with the symbol before it. -/
def opensComment (r : Reader) (c : Char) : Bool :=
  match r.flushed.getLast? with
  | some (.symbol d) => (d = '-' && c = '-') || (d = '/' && c = '*')
  | _ => false

/-- Read a character within quotes. -/
def quotedStep (r : Reader) (quote : Char) (text : List Char) (c : Char) : Reader :=
  if c = quote then { r with quote := none, pieces := r.pieces ++ [.quoted (text ++ [c])] }
  else { r with quote := some (quote, text ++ [c]) }

/-- Read a character outside quotes.  It fails on a closing parenthesis without an opening one and
where a comment begins. -/
def plainStep (r : Reader) (c : Char) : Option Reader :=
  match role c with
  | .word => some { r with word := r.word ++ [c] }
  | .quote => some { r with quote := some (c, [c]), word := [], pieces := r.flushed }
  | .opening => some { r with word := [], pieces := [], outer := r.flushed :: r.outer }
  | .closing =>
    match r.outer with
    | [] => none
    | pieces :: outer => some { r with word := [], pieces := pieces ++ [.group r.flushed], outer }
  | .blank => some { r with word := [], pieces := r.flushed ++ [.blank] }
  | .symbol =>
    if r.opensComment c then none
    else some { r with word := [], pieces := r.flushed ++ [.symbol c] }

/-- Read a character. -/
def step (r : Reader) (c : Char) : Option Reader :=
  match r.quote with
  | some (quote, text) => some (r.quotedStep quote text c)
  | none => r.plainStep c

/-- Read a text. -/
def run (r : Reader) (text : List Char) : Option Reader := text.foldlM step r

/-- The reader within more groups. -/
def within (r : Reader) (outer : List (List Piece)) : Reader :=
  { r with outer := r.outer ++ outer }

variable {r r' : Reader} {c : Char} {outer : List (List Piece)} {text : List Char}

theorem quotedStep_within {quote : Char} :
    (r.within outer).quotedStep quote text c = (r.quotedStep quote text c).within outer := by
  unfold quotedStep
  split <;> rfl

theorem plainStep_within (h : r.plainStep c = some r') :
    (r.within outer).plainStep c = some (r'.within outer) := by
  unfold plainStep at h ⊢
  cases hrole : role c with
  | word | quote | opening | blank =>
    rw [hrole] at h
    cases h
    rfl
  | closing =>
    rw [hrole] at h
    cases houter : r.outer with
    | nil => simp only [houter] at h; cases h
    | cons pieces rest =>
      have hwithin : (r.within outer).outer = pieces :: (rest ++ outer) := by
        rw [within, houter, List.cons_append]
      simp only [houter] at h
      simp only [hwithin]
      cases h
      rfl
  | symbol =>
    simp only [hrole] at h ⊢
    have hcomment : (r.within outer).opensComment c = r.opensComment c := rfl
    rw [hcomment]
    by_cases hc : r.opensComment c = true
    · rw [if_pos hc] at h
      cases h
    · rw [if_neg hc] at h ⊢
      cases h
      rfl

/-- A character is read in the same way within more groups. -/
theorem step_within (h : r.step c = some r') :
    (r.within outer).step c = some (r'.within outer) := by
  unfold step at h ⊢
  have hquote : (r.within outer).quote = r.quote := rfl
  rw [hquote]
  cases hq : r.quote with
  | none =>
    rw [hq] at h
    exact plainStep_within h
  | some opened =>
    rw [hq] at h
    cases h
    exact congrArg some quotedStep_within

theorem run_cons : r.run (c :: text) = (r.step c).bind fun r => r.run text := List.foldlM_cons

theorem run_append {text' : List Char} :
    r.run (text ++ text') = (r.run text).bind fun r => r.run text' := List.foldlM_append

/-- A text is read in the same way within more groups. -/
theorem run_within (h : r.run text = some r') :
    (r.within outer).run text = some (r'.within outer) := by
  induction text generalizing r with
  | nil =>
    cases h
    rfl
  | cons c text ih =>
    rw [run_cons] at h
    obtain ⟨r₁, hstep, hrun⟩ := Option.bind_eq_some_iff.1 h
    rw [run_cons, step_within hstep, Option.bind_some]
    exact ih hrun

end Reader

/-- The pieces of a text whose quotes and parentheses are closed. -/
def read (text : String) : Option (List Piece) :=
  match ({} : Reader).run text.toList with
  | some ⟨none, word, pieces, []⟩ => some (Reader.flushed ⟨none, word, pieces, []⟩)
  | _ => none

/-- A text can be read. -/
def Complete (text : String) : Prop := (read text).isSome = true

instance (text : String) : Decidable (Complete text) := by
  unfold Complete
  infer_instance

namespace Reader

variable {r : Reader} {text : String} {pieces : List Piece}

theorem run_of_read (h : read text = some pieces) :
    ∃ r : Reader, ({} : Reader).run text.toList = some r ∧ r.quote = none ∧ r.outer = [] ∧
      r.flushed = pieces := by
  unfold read at h
  split at h
  · next word pieces' hrun =>
    cases h
    exact ⟨_, hrun, rfl, rfl, rfl⟩
  · cases h

/-- A complete text in parentheses is read as one group. -/
theorem run_parenthesized (hq : r.quote = none) (hw : r.word = []) (h : read text = some pieces) :
    r.run (parenthesized text).toList = some { r with pieces := r.pieces ++ [.group pieces] } := by
  obtain ⟨r', hrun, hquote, houter, hflushed⟩ := run_of_read h
  have htext : (parenthesized text).toList = '(' :: (text.toList ++ [')']) := by
    rw [parenthesized, String.toList_append, String.toList_append]
    rfl
  have hopen : r.step '(' = some (({} : Reader).within (r.flushed :: r.outer)) := by
    unfold step
    rw [hq]
    obtain ⟨quote, word, pieces, outer⟩ := r
    cases hq
    rfl
  have hclose : (r'.within (r.flushed :: r.outer)).step ')' =
      some { r with pieces := r.pieces ++ [.group pieces] } := by
    obtain ⟨quote, word, pieces', outer⟩ := r
    obtain ⟨quote', word', pieces'', outer'⟩ := r'
    cases hq
    cases hw
    cases hquote
    cases houter
    cases hflushed
    rfl
  rw [htext, run_cons, hopen, Option.bind_some, run_append, run_within hrun, Option.bind_some,
    run_cons, hclose]
  rfl

theorem run_word {word : List Char} (hq : r.quote = none) (hword : ∀ c ∈ word, role c = .word) :
    r.run word = some { r with word := r.word ++ word } := by
  induction word generalizing r with
  | nil =>
    rw [List.append_nil]
    rfl
  | cons c word ih =>
    have hstep : r.step c = some { r with word := r.word ++ [c] } := by
      unfold step plainStep
      rw [hq, hword c List.mem_cons_self]
    rw [run_cons, hstep, Option.bind_some,
      ih (by exact hq) fun d hd => hword d (List.mem_cons_of_mem c hd), List.append_assoc,
      List.singleton_append]

theorem step_blank (hq : r.quote = none) :
    r.step ' ' = some { r with word := [], pieces := r.flushed ++ [.blank] } := by
  have hrole : role ' ' = .blank := rfl
  unfold step plainStep
  rw [hq, hrole]

/-- A keyword between blanks is read as such. -/
theorem run_keyword {keyword : List Char} (hq : r.quote = none) (hw : r.word = [])
    (hne : keyword ≠ []) (hkeyword : ∀ c ∈ keyword, role c = .word) :
    r.run (' ' :: (keyword ++ [' '])) =
      some { r with pieces := r.pieces ++ [.blank, .word keyword, .blank] } := by
  obtain ⟨quote, word, pieces, outer⟩ := r
  cases hq
  cases hw
  obtain ⟨c, rest, rfl⟩ := List.exists_cons_of_ne_nil hne
  rw [run_cons, step_blank rfl, Option.bind_some, run_append, run_word rfl hkeyword,
    Option.bind_some, run_cons, step_blank rfl, Option.bind_some]
  change some (Reader.mk none [] (((pieces ++ [.blank]) ++ [.word (c :: rest)]) ++ [.blank]) outer) =
    some (Reader.mk none [] (pieces ++ [.blank, .word (c :: rest), .blank]) outer)
  rw [List.append_assoc, List.append_assoc]
  rfl

end Reader

/-! ### Texts in parentheses -/

/-- Groups with a keyword between them. -/
def joined (keyword : List Char) : List (List Piece) → List Piece
  | [] => []
  | [pieces] => [.group pieces]
  | pieces :: rest =>
    .group pieces :: .blank :: .word keyword :: .blank :: joined keyword rest

section

variable {conditions : List String} {groups : List (List Piece)}

/-- Complete texts in parentheses with a keyword between them are read group by group. -/
theorem run_intercalate {separator : String} {keyword : List Char}
    (hsep : separator.toList = ' ' :: (keyword ++ [' '])) (hne : keyword ≠ [])
    (hkeyword : ∀ c ∈ keyword, role c = .word)
    (h : List.Forall₂ (fun condition pieces => read condition = some pieces) conditions groups)
    {r : Reader} (hq : r.quote = none) (hw : r.word = []) :
    r.run (String.intercalate separator (conditions.map parenthesized)).toList =
      some { r with pieces := r.pieces ++ joined keyword groups } := by
  induction h generalizing r with
  | nil =>
    rw [List.map_nil, String.intercalate_nil]
    change some r = some { r with pieces := r.pieces ++ [] }
    rw [List.append_nil]
  | @cons condition pieces conditions groups hread hrest ih =>
    cases hrest with
    | nil =>
      rw [List.map_singleton, String.intercalate_singleton]
      exact Reader.run_parenthesized hq hw hread
    | @cons condition' pieces' conditions groups hread' hrest =>
      rw [List.map_cons, List.map_cons, String.intercalate_cons_cons, String.toList_append,
        String.toList_append, Reader.run_append, Reader.run_append,
        Reader.run_parenthesized hq hw hread, Option.bind_some, hsep,
        Reader.run_keyword (by exact hq) (by exact hw) hne hkeyword, Option.bind_some]
      rw [List.map_cons] at ih
      rw [ih (by exact hq) (by exact hw), List.append_assoc, List.append_assoc]
      rfl

theorem read_of_run {text : String} {pieces : List Piece}
    (h : ({} : Reader).run text.toList = some { pieces }) : read text = some pieces := by
  unfold read
  rw [h]
  rfl

theorem read_conjunction (h : List.Forall₂ (fun condition pieces => read condition = some pieces)
    conditions groups) (hlength : conditions.length ≠ 1) :
    read (conjunction conditions) = some (joined ['A', 'N', 'D'] groups) := by
  have htext : conjunction conditions =
      String.intercalate " AND " (conditions.map parenthesized) := by
    match conditions, hlength with
    | [], _ => rfl
    | [_], hlength => exact absurd rfl hlength
    | _ :: _ :: _, _ => rfl
  rw [htext]
  have hsep : " AND ".toList = ' ' :: (['A', 'N', 'D'] ++ [' ']) := rfl
  have hword : ∀ c ∈ ['A', 'N', 'D'], role c = .word :=
    List.forall_mem_cons.2 ⟨rfl, List.forall_mem_cons.2 ⟨rfl, List.forall_mem_singleton.2 rfl⟩⟩
  exact read_of_run (run_intercalate hsep (List.cons_ne_nil _ _) hword h rfl rfl)

theorem read_disjunction {a b : String} {p q : List Piece} (ha : read a = some p)
    (hb : read b = some q) :
    read (parenthesized a ++ " OR " ++ parenthesized b) = some (joined ['O', 'R'] [p, q]) := by
  have htext : parenthesized a ++ " OR " ++ parenthesized b =
      String.intercalate " OR " ([a, b].map parenthesized) := by
    rw [List.map_cons, List.map_singleton, String.intercalate_cons_cons,
      String.intercalate_singleton]
  rw [htext]
  have hsep : " OR ".toList = ' ' :: (['O', 'R'] ++ [' ']) := rfl
  have hword : ∀ c ∈ ['O', 'R'], role c = .word :=
    List.forall_mem_cons.2 ⟨rfl, List.forall_mem_singleton.2 rfl⟩
  exact read_of_run (run_intercalate hsep (List.cons_ne_nil _ _) hword
    (.cons ha (.cons hb .nil)) rfl rfl)

end

/-! ### What a text means -/

/-- The truth of the atoms of conditions in some row. -/
abbrev Atoms := List Piece → Truth

namespace Piece

/-- Whether a piece is a keyword, in any case. -/
def isKeyword (keyword : String) : Piece → Bool
  | word text => text.map Char.toUpper == keyword.toList
  | _ => false

def isBlank : Piece → Bool
  | blank => true
  | _ => false

def isGroup : Piece → Bool
  | group _ => true
  | _ => false

end Piece

/-- The truth of an operand, given with the truth of its groups: that of a single group, or else
that of an atom. -/
def operandTruth (v : Atoms) : List (Piece × Truth) → Truth
  | [] => v []
  | (piece, t) :: rest =>
    if piece.isBlank then operandTruth v rest
    else if piece.isKeyword "NOT" then (operandTruth v rest).not
    else if piece.isGroup && rest.all (fun item => item.1.isBlank) then t
    else v ((((piece, t) :: rest).map Prod.fst).rdropWhile Piece.isBlank)

/-- What keeps the keywords within an operand. -/
inductive Pending
  | between
  | branches
deriving DecidableEq, Repr

/-- The meaning of a condition so far. -/
structure Meaning where
  /-- The truth of the operands of `OR` that are complete. -/
  disjunction : Truth := .no
  /-- The truth of the operands of the last `AND` that are complete. -/
  conjunction : Truth := .yes
  /-- The last operand, with the truth of its groups. -/
  operand : List (Piece × Truth) := []
  /-- The `BETWEEN` and `CASE` in it that are not complete, the innermost first. -/
  pending : List Pending := []

namespace Meaning

/-- The truth of the last operand of `OR`. -/
def last (m : Meaning) (v : Atoms) : Truth := m.conjunction.and (operandTruth v m.operand)

/-- The truth of the whole. -/
def result (m : Meaning) (v : Atoms) : Truth := m.disjunction.or (m.last v)

/-- Go on with the last operand. -/
def keep (m : Meaning) (piece : Piece) (t : Truth) (pending : List Pending) : Meaning :=
  { m with operand := m.operand ++ [(piece, t)], pending }

/-- Go on with a piece, given with its truth if it is a group. -/
def add (m : Meaning) (v : Atoms) (piece : Piece) (t : Truth) : Meaning :=
  if piece.isKeyword "CASE" then m.keep piece t (.branches :: m.pending)
  else if piece.isKeyword "BETWEEN" then m.keep piece t (.between :: m.pending)
  else if piece.isKeyword "END" then m.keep piece t m.pending.tail
  else if piece.isKeyword "AND" then
    match m.pending with
    | [] => { m with conjunction := m.last v, operand := [] }
    | .between :: pending => m.keep piece t pending
    | .branches :: _ => m.keep piece t m.pending
  else if piece.isKeyword "OR" && m.pending.isEmpty then { disjunction := m.result v }
  else m.keep piece t m.pending

end Meaning

mutual

/-- The truth of a group. -/
def Piece.truth (v : Atoms) : Piece → Truth
  | .group pieces => (meaning v {} pieces).result v
  | _ => .unknown

/-- The meaning of a condition, going on with pieces. -/
def meaning (v : Atoms) (m : Meaning) : List Piece → Meaning
  | [] => m
  | piece :: pieces => meaning v (m.add v piece (piece.truth v)) pieces

end

/-- The truth of a condition in a row; a text that cannot be read is not true. -/
def truth (v : Atoms) (text : String) : Truth :=
  match read text with
  | some pieces => (meaning v {} pieces).result v
  | none => .unknown

section

variable {v : Atoms} {m : Meaning}

theorem truth_group (pieces : List Piece) :
    (Piece.group pieces).truth v = (meaning v {} pieces).result v := by
  rw [Piece.truth]

theorem meaning_cons (piece : Piece) (pieces : List Piece) :
    meaning v m (piece :: pieces) = meaning v (m.add v piece (piece.truth v)) pieces := by
  rw [meaning]

theorem add_and (hp : m.pending = []) :
    m.add v (.word ['A', 'N', 'D']) .unknown =
      { m with conjunction := m.last v, operand := [] } := by
  obtain ⟨disjunction, conjunction, operand, pending⟩ := m
  cases hp
  rfl

theorem add_or (hp : m.pending = []) :
    m.add v (.word ['O', 'R']) .unknown = { disjunction := m.result v } := by
  obtain ⟨disjunction, conjunction, operand, pending⟩ := m
  cases hp
  rfl

end

end Sql

end ObjectGraph
