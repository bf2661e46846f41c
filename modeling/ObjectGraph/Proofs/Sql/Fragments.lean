import ObjectGraph.Proofs.Sql.Names
import ObjectGraph.Proofs.Sql.Reading

/-! # Reading texts that are put together

Texts that can be read can be put together where no word runs from one into the other: the pieces
of the whole are those of the parts (`read_append`, `read_lead`).  Nothing in a text depends on what
was read before it (`Reader.run_after`), except that a symbol may make a comment with the one before
it; a part that others follow has no such symbol (`Quiet`). -/

namespace ObjectGraph

namespace Sql

/-- Whether a piece cannot be the beginning of a comment. -/
def Piece.quiet : Piece → Bool
  | .symbol c => c != '-' && c != '/'
  | _ => true

/-- No comment begins with one of the pieces. -/
def Quiet (pieces : List Piece) : Prop := ∀ piece ∈ pieces, piece.quiet = true

theorem Quiet.append {ps qs : List Piece} (hp : Quiet ps) (hq : Quiet qs) : Quiet (ps ++ qs) :=
  fun piece h => (List.mem_append.1 h).elim (hp piece) (hq piece)

namespace Reader

/-- The pieces of a reader whose outermost group begins with some more. -/
def onBase (before : List Piece) : List Piece → List (List Piece) → List Piece × List (List Piece)
  | pieces, [] => (before ++ pieces, [])
  | pieces, group :: outer =>
    (pieces, (onBase before group outer).1 :: (onBase before group outer).2)

/-- The reader after some pieces. -/
def after (r : Reader) (before : List Piece) : Reader :=
  { r with
    pieces := (onBase before r.pieces r.outer).1
    outer := (onBase before r.pieces r.outer).2 }

variable {r r' : Reader} {before : List Piece} {c : Char} {text : List Char}

theorem onBase_append (pieces more : List Piece) (outer : List (List Piece)) :
    onBase before (pieces ++ more) outer =
      ((onBase before pieces outer).1 ++ more, (onBase before pieces outer).2) := by
  cases outer with
  | nil =>
    rw [onBase, onBase, List.append_assoc]
  | cons group outer => rfl

theorem flushed_after : (r.after before).flushed = (onBase before r.flushed r.outer).1 ∧
    (onBase before r.flushed r.outer).2 = (r.after before).outer := by
  obtain ⟨quote, word, pieces, outer⟩ := r
  cases word with
  | nil => exact ⟨rfl, rfl⟩
  | cons c word =>
    have hflushed : (Reader.mk quote (c :: word) pieces outer).flushed =
        pieces ++ [.word (c :: word)] := rfl
    rw [hflushed, onBase_append]
    exact ⟨rfl, rfl⟩

/-- Nothing that goes before makes a comment with what follows. -/
theorem opensComment_after (hb : Quiet before) :
    (r.after before).opensComment c = r.opensComment c := by
  unfold opensComment
  rw [flushed_after.1]
  cases houter : r.outer with
  | cons group outer => rfl
  | nil =>
    rw [onBase]
    rcases List.eq_nil_or_concat r.flushed with hnil | ⟨init, last, hlast⟩
    · rw [hnil, List.append_nil]
      cases hl : before.getLast? with
      | none => rfl
      | some piece =>
        have hquiet := hb piece (List.mem_of_getLast? hl)
        cases piece with
        | symbol d =>
          simp only [Piece.quiet, Bool.and_eq_true, bne_iff_ne] at hquiet
          simp [hquiet.1, hquiet.2]
        | blank | word _ | quoted _ | group _ => rfl
    · simp only [hlast, List.concat_eq_append, ← List.append_assoc, List.getLast?_concat]

theorem quotedStep_after {quote : Char} :
    (r.after before).quotedStep quote text c = (r.quotedStep quote text c).after before := by
  unfold quotedStep
  split
  · unfold after
    simp only
    rw [onBase_append]
  · rfl

theorem plainStep_after (hb : Quiet before) (h : r.plainStep c = some r') :
    (r.after before).plainStep c = some (r'.after before) := by
  have hafter : (r.after before).flushed = (onBase before r.flushed r.outer).1 ∧
      (onBase before r.flushed r.outer).2 = (r.after before).outer := flushed_after
  obtain ⟨hflushed, houter⟩ := hafter
  unfold plainStep at h ⊢
  cases hrole : role c with
  | word =>
    rw [hrole] at h
    cases h
    rfl
  | quote =>
    rw [hrole] at h
    cases h
    simp only [hflushed, ← houter]
    rfl
  | opening =>
    rw [hrole] at h
    cases h
    simp only [hflushed, ← houter]
    rfl
  | blank =>
    rw [hrole] at h
    cases h
    simp only [hflushed, ← houter]
    unfold after
    simp only
    rw [onBase_append]
  | closing =>
    rw [hrole] at h
    cases hgroups : r.outer with
    | nil =>
      simp only [hgroups] at h
      cases h
    | cons group outer =>
      simp only [hgroups] at h
      cases h
      rw [hgroups] at hflushed houter
      simp only [hflushed, ← houter]
      unfold onBase after
      simp only
      rw [onBase_append]
  | symbol =>
    simp only [hrole] at h ⊢
    rw [opensComment_after hb]
    by_cases hc : r.opensComment c = true
    · rw [if_pos hc] at h
      cases h
    · rw [if_neg hc] at h ⊢
      cases h
      rw [hflushed, ← houter]
      unfold after
      simp only
      rw [onBase_append]

/-- A character is read in the same way after other pieces. -/
theorem step_after (hb : Quiet before) (h : r.step c = some r') :
    (r.after before).step c = some (r'.after before) := by
  unfold step at h ⊢
  have hquote : (r.after before).quote = r.quote := rfl
  rw [hquote]
  cases hq : r.quote with
  | none =>
    rw [hq] at h
    exact plainStep_after hb h
  | some opened =>
    rw [hq] at h
    cases h
    exact congrArg some quotedStep_after

/-- A text is read in the same way after other pieces. -/
theorem run_after (hb : Quiet before) (h : r.run text = some r') :
    (r.after before).run text = some (r'.after before) := by
  induction text generalizing r with
  | nil =>
    cases h
    rfl
  | cons c text ih =>
    rw [run_cons] at h
    obtain ⟨r₁, hstep, hrun⟩ := Option.bind_eq_some_iff.1 h
    rw [run_cons, step_after hb hstep, Option.bind_some]
    exact ih hrun

/-- A character that is no part of a word ends the word before it. -/
theorem step_flushed (hq : r.quote = none) (hrole : role c ≠ .word) :
    r.step c = Reader.step { r with word := [], pieces := r.flushed } c := by
  obtain ⟨quote, word, pieces, outer⟩ := r
  cases hq
  unfold step plainStep
  cases h : role c with
  | word => exact absurd h hrole
  | quote | opening | closing | blank | symbol => rfl

end Reader

/-! ### Parts -/

/-- No word goes on into the text. -/
def Breaks (text : String) : Prop := ∀ c ∈ text.toList.head?, role c ≠ .word

instance (text : String) : Decidable (Breaks text) :=
  decidable_of_iff (text.toList.head?.all (role · != .word) = true) <| by
    unfold Breaks
    cases text.toList.head? with
    | none => simp
    | some c => simp

/-- The pieces of a text at whose end no word is being read. -/
def Closes (text : String) (pieces : List Piece) : Prop :=
  ({} : Reader).run text.toList = some { pieces }

section

variable {s t : String} {ps qs : List Piece}

theorem Closes.read (h : Closes s ps) : read s = some ps := read_of_run h

/-- What is read of a text after what was read of another. -/
theorem run_parts (ht : read t = some qs) (hquiet : Quiet ps) :
    ∃ r : Reader, (Reader.mk none [] ps []).run t.toList = some r ∧ r.quote = none ∧
      r.outer = [] ∧ r.flushed = ps ++ qs := by
  obtain ⟨r, hrun, hquote, houter, hflushed⟩ := Reader.run_of_read ht
  refine ⟨r.after ps, ?_, hquote, ?_, ?_⟩
  · have hafter := Reader.run_after hquiet hrun
    have hstart : ({} : Reader).after ps = Reader.mk none [] ps [] := by
      unfold Reader.after Reader.onBase
      simp only [List.append_nil]
    rwa [hstart] at hafter
  · unfold Reader.after
    rw [houter]
    rfl
  · rw [Reader.flushed_after.1, houter, hflushed]
    rfl

theorem read_of_reader {r : Reader} (hrun : ({} : Reader).run s.toList = some r)
    (hquote : r.quote = none) (houter : r.outer = []) : read s = some r.flushed := by
  obtain ⟨quote, word, pieces, outer⟩ := r
  cases hquote
  cases houter
  unfold read
  rw [hrun]

/-- A text goes on after one that ends outside words. -/
theorem read_lead (hs : Closes s ps) (ht : read t = some qs) (hquiet : Quiet ps) :
    read (s ++ t) = some (ps ++ qs) := by
  obtain ⟨r, hrun, hquote, houter, hflushed⟩ := run_parts ht hquiet
  have hall : ({} : Reader).run (s ++ t).toList = some r := by
    rw [String.toList_append, Reader.run_append, hs, Option.bind_some]
    exact hrun
  rw [read_of_reader hall hquote houter, hflushed]

/-- A text goes on with one that begins outside words. -/
theorem read_append (hs : read s = some ps) (ht : read t = some qs) (hquiet : Quiet ps)
    (hbreaks : Breaks t) : read (s ++ t) = some (ps ++ qs) := by
  obtain ⟨r₁, hrun₁, hquote₁, houter₁, hflushed₁⟩ := Reader.run_of_read hs
  obtain ⟨r, hrun, hquote, houter, hflushed⟩ := run_parts ht hquiet
  cases hchars : t.toList with
  | nil =>
    rw [hchars] at hrun
    cases hrun
    have hall : ({} : Reader).run (s ++ t).toList = some r₁ := by
      rw [String.toList_append, hchars, List.append_nil]
      exact hrun₁
    rw [read_of_reader hall hquote₁ houter₁, hflushed₁, ← hflushed]
    rfl
  | cons c rest =>
    have hrole : role c ≠ .word := hbreaks c (by rw [hchars]; rfl)
    have hmiddle : r₁.run t.toList = some r := by
      rw [← hrun, hchars, Reader.run_cons, Reader.run_cons, Reader.step_flushed hquote₁ hrole,
        hflushed₁, hquote₁, houter₁]
    have hall : ({} : Reader).run (s ++ t).toList = some r := by
      rw [String.toList_append, Reader.run_append, hrun₁, Option.bind_some]
      exact hmiddle
    rw [read_of_reader hall hquote houter, hflushed]

/-- A text in parentheses is one group. -/
theorem read_parenthesized (hs : read s = some ps) : read (parenthesized s) = some [.group ps] :=
  read_of_run (Reader.run_parenthesized rfl rfl hs)

/-- Characters of words make one word. -/
theorem read_word (hne : s ≠ "") (hword : ∀ c ∈ s.toList, role c = .word) :
    read s = some [.word s.toList] := by
  have hrun := Reader.run_word (r := {}) rfl hword
  rw [read_of_reader hrun rfl rfl]
  cases hchars : s.toList with
  | nil => exact absurd (String.toList_eq_nil_iff.1 hchars) hne
  | cons c rest => rfl

end

/-! ### Quoted parts -/

/-- The text of a quoted piece. -/
def Piece.quotedText : Piece → List Char
  | .quoted text => text
  | _ => []

/-- What is in quotes is read as quoted, in as many pieces as there are doubled quotes; these make
up the text. -/
theorem run_enclosed {quote : Char} (hrole : role quote = .quote) (content : List Char)
    (text : List Char) (pieces : List Piece) (outer : List (List Piece)) :
    ∃ more : List Piece, (∀ piece ∈ more, ∃ t, piece = .quoted t) ∧
      more.flatMap Piece.quotedText = text ++ (doubled quote content ++ [quote]) ∧
      (Reader.mk (some (quote, text)) [] pieces outer).run (doubled quote content ++ [quote]) =
        some (Reader.mk none [] (pieces ++ more) outer) := by
  have hclose : ∀ (text : List Char) (pieces : List Piece),
      (Reader.mk (some (quote, text)) [] pieces outer).step quote =
        some (Reader.mk none [] (pieces ++ [.quoted (text ++ [quote])]) outer) := by
    intro text pieces
    unfold Reader.step Reader.quotedStep
    simp only [if_true]
  induction content generalizing text pieces with
  | nil =>
    refine ⟨[.quoted (text ++ [quote])], fun piece h => ⟨_, List.mem_singleton.1 h⟩,
      List.flatMap_singleton _ _, ?_⟩
    change (Reader.mk _ _ _ _).run [quote] = _
    rw [Reader.run_cons, hclose, Option.bind_some]
    rfl
  | cons c content ih =>
    by_cases hc : c = quote
    · -- the quote is closed and opened again
      obtain ⟨more, hmore, htext, hrun⟩ := ih [quote] (pieces ++ [.quoted (text ++ [quote])])
      have hdoubled : doubled quote (c :: content) ++ [quote] =
          quote :: quote :: (doubled quote content ++ [quote]) := by
        rw [doubled, List.flatMap_cons, if_pos hc]
        rfl
      refine ⟨.quoted (text ++ [quote]) :: more, ?_, ?_, ?_⟩
      · intro piece h
        rcases List.mem_cons.1 h with rfl | h
        · exact ⟨_, rfl⟩
        · exact hmore piece h
      · rw [List.flatMap_cons, htext, hdoubled, Piece.quotedText, List.append_assoc]
        rfl
      · have hopen : (Reader.mk none [] (pieces ++ [.quoted (text ++ [quote])]) outer).step quote =
            some (Reader.mk (some (quote, [quote])) [] (pieces ++ [.quoted (text ++ [quote])])
              outer) := by
          unfold Reader.step Reader.plainStep
          simp only [hrole]
          rfl
        rw [hdoubled, Reader.run_cons, hclose, Option.bind_some, Reader.run_cons, hopen,
          Option.bind_some, hrun, List.append_assoc, List.singleton_append]
    · obtain ⟨more, hmore, htext, hrun⟩ := ih (text ++ [c]) pieces
      have hdoubled : doubled quote (c :: content) ++ [quote] =
          c :: (doubled quote content ++ [quote]) := by
        rw [doubled, List.flatMap_cons, if_neg hc]
        rfl
      refine ⟨more, hmore, ?_, ?_⟩
      · rw [htext, hdoubled, List.append_assoc, List.singleton_append]
      · have hstep : (Reader.mk (some (quote, text)) [] pieces outer).step c =
            some (Reader.mk (some (quote, text ++ [c])) [] pieces outer) := by
          unfold Reader.step Reader.quotedStep
          simp only [if_neg hc]
        rw [hdoubled, Reader.run_cons, hstep, Option.bind_some, hrun]

theorem closes_enclose {quote : Char} (hrole : role quote = .quote) (content : String) :
    ∃ ps : List Piece, Closes (enclose quote content) ps ∧ (∀ piece ∈ ps, ∃ t, piece = .quoted t) ∧
      ps.flatMap Piece.quotedText = (enclose quote content).toList := by
  obtain ⟨more, hmore, htext, hrun⟩ := run_enclosed hrole content.toList [quote] [] []
  refine ⟨more, ?_, hmore, ?_⟩
  · have hopen : ({} : Reader).step quote = some (Reader.mk (some (quote, [quote])) [] [] []) := by
      unfold Reader.step Reader.plainStep
      simp only [hrole]
      rfl
    unfold Closes
    rw [enclose, String.toList_ofList, Reader.run_cons, hopen, Option.bind_some, hrun]
    rfl
  · rw [htext, enclose, String.toList_ofList]
    rfl

end Sql

end ObjectGraph
