import ObjectGraph.Proofs.Sql.MarkedQuery

/-! # Parameters of composed statements

A `Bench` holds the queries and texts that are under construction over one scope, and a run of
`Move`s builds with them: texts are appended to each other, finished queries become texts, texts
are taken out of queries, operations put texts into queries and bind values.  A run on marked
queries is the run on the queries alone (`erase_run`), and at every point of it every occurrence
stands for the value it was given last (`sound_run`).

A template that has a value for a name also rewrites the placeholders of this name in the
sub-queries within it.  An occurrence therefore resolves to its own value exactly if it is still a
placeholder of the statement and the last template that rewrote it had an equal value
(`resolves_iff`). -/

namespace ObjectGraph

namespace Sql

/-! ### Runs -/

/-- How texts and queries are built, with or without marks. -/
structure Kit (T Q : Type) where
  plain : String → T
  append : T → T → T
  empty : Q
  embedded : Q → T
  operate : Q → T → Operation → Building Q
  takeLabelled : Q → List T × Q
  takeOrdering : Q → List T × Q

/-- Texts and queries alone. -/
def Kit.unmarked : Kit String Query where
  plain := id
  append := (· ++ ·)
  empty := {}
  embedded := Query.embedded
  operate := Query.operate
  takeLabelled := fun q => (q.takeLabelled.1.map Prod.snd, q.takeLabelled.2)
  takeOrdering := fun q => (q.takeOrdering.1.1, q.takeOrdering.2)

/-- Texts and queries with the occurrences of their placeholders. -/
def Kit.marked : Kit Marked MarkedQuery where
  plain := Marked.plain
  append := (· ++ ·)
  empty := {}
  embedded := MarkedQuery.embedded
  operate := MarkedQuery.operate
  takeLabelled := fun m => (m.takeLabelled.1.map Prod.snd, m.takeLabelled.2)
  takeOrdering := fun m => (m.takeOrdering.1.1, m.takeOrdering.2)

/-- What is under construction over one scope. -/
structure Bench (T Q : Type) where
  scope : Scope := {}
  texts : List T := []
  queries : List Q := []

/-- A step of building; queries and texts are given by their positions. -/
inductive Move
  /-- Write a text. -/
  | write (text : String)
  /-- Mint an alias, which is a text. -/
  | mint (hint : String)
  /-- Append a text to another. -/
  | append (first second : Nat)
  /-- Begin a query. -/
  | begin
  /-- Finish a query, which is a text from then on. -/
  | finish (query : Nat)
  /-- Perform an operation on a query with a text. -/
  | operate (query text : Nat) (operation : Operation)
  /-- Take the labelled items out of a query. -/
  | takeLabelled (query : Nat)
  /-- Take the ordering out of a query. -/
  | takeOrdering (query : Nat)

/-- No value that a move binds repeats a key. -/
def Move.Valid : Move → Prop
  | operate _ _ operation => ∀ entry ∈ operation.params, entry.2.Valid
  | _ => True

namespace Bench

section

variable {T Q : Type} (kit : Kit T Q)

/-- One move; without the query or the text it is about it does nothing. -/
def step (b : Bench T Q) : Move → Bench T Q
  | .write text => { b with texts := b.texts ++ [kit.plain text] }
  | .mint hint =>
    let minted := freshAlias hint b.scope
    { b with scope := minted.2, texts := b.texts ++ [kit.plain minted.1] }
  | .append first second =>
    match b.texts[first]?, b.texts[second]? with
    | some x, some y => { b with texts := b.texts ++ [kit.append x y] }
    | _, _ => b
  | .begin => { b with queries := b.queries ++ [kit.empty] }
  | .finish query =>
    match b.queries[query]? with
    | some q => { b with texts := b.texts ++ [kit.embedded q] }
    | none => b
  | .operate query text operation =>
    match b.queries[query]?, b.texts[text]? with
    | some q, some x =>
      let built := kit.operate q x operation b.scope
      { b with scope := built.2, queries := b.queries.set query built.1 }
    | _, _ => b
  | .takeLabelled query =>
    match b.queries[query]? with
    | some q =>
      let taken := kit.takeLabelled q
      { b with texts := b.texts ++ taken.1, queries := b.queries.set query taken.2 }
    | none => b
  | .takeOrdering query =>
    match b.queries[query]? with
    | some q =>
      let taken := kit.takeOrdering q
      { b with texts := b.texts ++ taken.1, queries := b.queries.set query taken.2 }
    | none => b

/-- Moves one after another. -/
def run (b : Bench T Q) (moves : List Move) : Bench T Q := moves.foldl (step kit) b

end

/-- The bench without the marks. -/
def erase (b : Bench Marked MarkedQuery) : Bench String Query :=
  ⟨b.scope, b.texts.map Marked.text, b.queries.map MarkedQuery.query⟩

/-- A move builds the same with and without marks. -/
theorem erase_step (b : Bench Marked MarkedQuery) (move : Move) :
    (b.step Kit.marked move).erase = b.erase.step Kit.unmarked move := by
  cases move with
  | write text => simp [step, erase, Kit.marked, Kit.unmarked]
  | mint hint => simp [step, erase, Kit.marked, Kit.unmarked]
  | append first second =>
    cases hfirst : b.texts[first]? <;> cases hsecond : b.texts[second]? <;>
      simp [step, erase, Kit.marked, Kit.unmarked, hfirst, hsecond]
  | begin => simp [step, erase, Kit.marked, Kit.unmarked, MarkedQuery.query]
  | finish query =>
    cases hquery : b.queries[query]? <;>
      simp [step, erase, Kit.marked, Kit.unmarked, hquery, MarkedQuery.text_embedded]
  | operate query text operation =>
    cases hquery : b.queries[query]? <;> cases htext : b.texts[text]? <;>
      simp [step, erase, Kit.marked, Kit.unmarked, hquery, htext, MarkedQuery.query_operate]
  | takeLabelled query =>
    cases hquery : b.queries[query]? <;>
      simp [step, erase, Kit.marked, Kit.unmarked, hquery, MarkedQuery.query_takeLabelled]
  | takeOrdering query =>
    cases hquery : b.queries[query]? <;>
      simp [step, erase, Kit.marked, Kit.unmarked, hquery, MarkedQuery.query_takeOrdering]

/-- A run builds the same with and without marks. -/
theorem erase_run (b : Bench Marked MarkedQuery) (moves : List Move) :
    (b.run Kit.marked moves).erase = b.erase.run Kit.unmarked moves := by
  induction moves generalizing b with
  | nil => rfl
  | cons move moves ih =>
    have hstep := erase_step b move
    change ((b.step Kit.marked move).run Kit.marked moves).erase =
      (b.erase.step Kit.unmarked move).run Kit.unmarked moves
    rw [ih, hstep]

/-! ### What holds at every point of a run -/

/-- The scope is valid, and every occurrence stands for the value it was given last. -/
structure Sound (b : Bench Marked MarkedQuery) : Prop where
  scope : b.scope.Valid
  texts : ∀ text ∈ b.texts, Marked.Sound b.scope text
  queries : ∀ q ∈ b.queries, q.Sound b.scope

variable {b : Bench Marked MarkedQuery}

theorem sound_empty : Sound {} where
  scope := fun _ h => absurd h List.not_mem_nil
  texts := fun _ h => absurd h List.not_mem_nil
  queries := fun _ h => absurd h List.not_mem_nil

theorem Sound.write (h : b.Sound) {added : List Marked}
    (hadded : ∀ text ∈ added, Marked.Sound b.scope text) :
    Sound { b with texts := b.texts ++ added } := by
  refine ⟨h.scope, ?_, h.queries⟩
  intro text htext
  rcases List.mem_append.1 htext with htext | htext
  · exact h.texts text htext
  · exact hadded text htext

theorem Sound.set (h : b.Sound) {scope : Scope} (hscope : scope.Valid)
    (hgrows : b.scope.params <+: scope.params) (query : Nat) {q : MarkedQuery}
    (hq : q.Sound scope) : Sound { b with scope, queries := b.queries.set query q } := by
  refine ⟨hscope, fun text htext => (h.texts text htext).grow hgrows, ?_⟩
  intro q' hq'
  rcases List.mem_or_eq_of_mem_set hq' with hq' | rfl
  · exact (h.queries q' hq').grow hgrows
  · exact hq

theorem sound_step (h : b.Sound) {move : Move} (hmove : move.Valid) :
    (b.step Kit.marked move).Sound := by
  cases move with
  | write text => exact h.write (List.forall_mem_singleton.2 (Marked.sound_plain text))
  | mint hint =>
    have hminted : Sound { b with scope := (freshAlias hint b.scope).2 } :=
      ⟨h.scope, fun text htext => (h.texts text htext).grow List.prefix_rfl,
        fun q hq => (h.queries q hq).grow List.prefix_rfl⟩
    exact hminted.write (List.forall_mem_singleton.2 (Marked.sound_plain _))
  | append first second =>
    simp only [step]
    split
    · next x y hx hy =>
      have happend : Marked.Sound b.scope (x ++ y) :=
        Marked.sound_append (h.texts x (List.mem_of_getElem? hx))
          (h.texts y (List.mem_of_getElem? hy))
      exact h.write (List.forall_mem_singleton.2 happend)
    · exact h
  | begin =>
    refine ⟨h.scope, h.texts, ?_⟩
    intro q hq
    rcases List.mem_append.1 hq with hq | hq
    · exact h.queries q hq
    · rw [List.mem_singleton.1 hq]
      exact MarkedQuery.Sound.empty
  | finish query =>
    simp only [step]
    split
    · next q hq =>
      have hembedded := Marked.sound_parenthesized (h.queries q (List.mem_of_getElem? hq)).text
      exact h.write (List.forall_mem_singleton.2 hembedded)
    · exact h
  | operate query text operation =>
    simp only [step]
    split
    · next q x hq hx =>
      obtain ⟨hgrows, hscope, hbuilt⟩ := (h.queries q (List.mem_of_getElem? hq)).operate h.scope
        (h.texts x (List.mem_of_getElem? hx)) operation hmove
      exact h.set hscope hgrows query hbuilt
    · exact h
  | takeLabelled query =>
    simp only [step]
    split
    · next q hq =>
      obtain ⟨htaken, hleft⟩ := (h.queries q (List.mem_of_getElem? hq)).takeLabelled
      have hwritten := h.write (List.forall_mem_map.2 htaken)
      exact hwritten.set h.scope List.prefix_rfl query hleft
    · exact h
  | takeOrdering query =>
    simp only [step]
    split
    · next q hq =>
      obtain ⟨htaken, hleft⟩ := (h.queries q (List.mem_of_getElem? hq)).takeOrdering
      exact (h.write htaken).set h.scope List.prefix_rfl query hleft
    · exact h

theorem sound_run (h : b.Sound) {moves : List Move} (hmoves : ∀ move ∈ moves, move.Valid) :
    (b.run Kit.marked moves).Sound := by
  induction moves generalizing b with
  | nil => exact h
  | cons move moves ih =>
    have hstep := sound_step h (hmoves move List.mem_cons_self)
    exact ih hstep fun m hm => hmoves m (List.mem_cons_of_mem move hm)

end Bench

/-! ### Statements -/

/-- A placeholder of a name stands at a position of a text. -/
def Stands (sql : String) (position : Nat) (name : String) : Prop :=
  ∃ before after, Token.scan sql.toList = before ++ .placeholder false name.toList :: after ∧
    (before.flatMap Token.text).length = position

/-- The placeholder at a position of a statement resolves to a value. -/
def Resolves (statement : Statement) (position : Nat) (name : String) (value : Json) : Prop :=
  Stands statement.sql position name ∧
    ∃ held, statement.param? name = some held ∧ held.same value = true

/-- A sound occurrence resolves to a value exactly if it is still a placeholder and was given an
equal value last. -/
theorem resolves_of_sound {s : Scope} (hs : s.Valid) {m : Marked} (hm : Marked.Sound s m)
    {o : Occurrence} (ho : o ∈ m.occurrences) (value : Json) (sql : String) (position : Nat) :
    Resolves (s.statement sql) position o.name value ↔
      Stands sql position o.name ∧ o.current.same value = true := by
  obtain ⟨hvalid, held, hget, hsame⟩ := hm.bound o ho
  have hheld : held.Valid := hs _ (Dictionary.mem_of_lookup hget)
  constructor
  · rintro ⟨hstands, found, hfound, hequal⟩
    have hfound : held = found := Option.some.inj (hget.symm.trans hfound)
    subst hfound
    have hback := Json.same_symm held o.current hheld hvalid.current hsame
    exact ⟨hstands, Json.same_trans o.current held value hback hequal⟩
  · rintro ⟨hstands, hequal⟩
    exact ⟨hstands, held, hget, Json.same_trans held o.current value hsame hequal⟩

/-- After any moves, the query at a position is a marked one without its marks.  In the statement
that is made of it, an occurrence resolves to the value it was bound to in its own template exactly
if it is still a placeholder there and the last template that rewrote it had an equal value. -/
theorem resolves_iff {moves : List Move} (hmoves : ∀ move ∈ moves, move.Valid) {query : Nat}
    {q : Query} (hq : (Bench.run Kit.unmarked {} moves).queries[query]? = some q) :
    ∃ m, (Bench.run Kit.marked {} moves).queries[query]? = some m ∧ m.query = q ∧
      ∀ before c o after, m.text = before ++ (c, some o) :: after →
        (Resolves ((Bench.run Kit.unmarked {} moves).scope.statement q.text) before.length o.name
            o.own ↔
          Stands q.text before.length o.name ∧ o.current.same o.own = true) := by
  have herase : (Bench.run Kit.marked {} moves).erase = Bench.run Kit.unmarked {} moves :=
    Bench.erase_run {} moves
  have hsound := Bench.sound_run Bench.sound_empty hmoves
  rw [← herase] at hq ⊢
  obtain ⟨m, hm, rfl⟩ := Option.map_eq_some_iff.1 ((List.getElem?_map ..).symm.trans hq)
  refine ⟨m, hm, rfl, ?_⟩
  intro before c o after htext
  have ho : o ∈ m.text.occurrences :=
    List.mem_filterMap.2 ⟨(c, some o), htext ▸ List.mem_append_right _ List.mem_cons_self, rfl⟩
  have htextSound := (hsound.queries m (List.mem_of_getElem? hm)).text
  exact resolves_of_sound hsound.scope htextSound ho o.own m.query.text before.length

/-! ### A sub-query that loses its value -/

namespace Captured

/-- A sub-query binds a role, and the query around it binds another. -/
def moves : List Move :=
  [.begin, .write "1", .operate 0 0 .select, .operate 0 0 (.fromTable "t" "t"),
    .write "t.a = :role", .operate 0 1 (.andWhereWith [("role", .str "x")]),
    .begin, .write "b = :role AND EXISTS ", .finish 0, .append 2 3,
    .operate 1 4 (.andWhereWith [("role", .str "y")])]

theorem valid : ∀ move ∈ moves, move.Valid := by
  have htext (text : String) : ∀ entry ∈ [("role", Json.str text)], entry.2.Valid := by
    intro entry hentry
    rw [List.mem_singleton.1 hentry]
    exact trivial
  have hnone : ∀ entry ∈ ([] : Params), entry.2.Valid := fun _ h => absurd h List.not_mem_nil
  simp only [moves, List.forall_mem_cons]
  exact ⟨trivial, trivial, hnone, hnone, trivial, htext "x", trivial, trivial, trivial, trivial,
    htext "y", fun _ h => absurd h List.not_mem_nil⟩

def sql : String :=
  "SELECT 1 WHERE b = :role_2 AND EXISTS (SELECT 1 FROM \"t\" t WHERE t.a = :role_2)"

theorem text_eq : ((Bench.run Kit.unmarked {} moves).queries[1]?).map Query.text = some sql := by
  decide +kernel

/-- The placeholder of the query around keeps its value. -/
theorem kept : ((Bench.run Kit.marked {} moves).queries[1]?).any (fun m =>
    m.text[19]?.any fun item => item.2.any fun o =>
      o.name == "role_2" && o.own.same (.str "y") && o.current.same o.own) = true := by
  decide +kernel

/-- The placeholder of the sub-query was given another value than its own. -/
theorem rewritten : ((Bench.run Kit.marked {} moves).queries[1]?).any (fun m =>
    m.text[71]?.any fun item => item.2.any fun o =>
      o.name == "role_2" && o.own.same (.str "x") && !o.current.same o.own) = true := by
  decide +kernel

theorem stands : Stands sql 19 "role_2" :=
  ⟨(Token.scan sql.toList).take 19, (Token.scan sql.toList).drop 20, by decide +kernel,
    by decide +kernel⟩

theorem stands_within : Stands sql 71 "role_2" :=
  ⟨(Token.scan sql.toList).take 63, (Token.scan sql.toList).drop 64, by decide +kernel,
    by decide +kernel⟩

theorem exists_occurrence {m : Marked} {position : Nat} {p : Occurrence → Bool}
    (h : (m[position]?.any fun item => item.2.any p) = true) :
    ∃ before c o after, m = before ++ (c, some o) :: after ∧ before.length = position ∧
      p o = true := by
  cases hitem : m[position]? with
  | none =>
    rw [hitem] at h
    cases h
  | some item =>
    rw [hitem, Option.any_some] at h
    obtain ⟨c, old?⟩ := item
    obtain ⟨hlt, hget⟩ := List.getElem?_eq_some_iff.1 hitem
    cases old? with
    | none => cases h
    | some o =>
      refine ⟨m.take position, c, o, m.drop (position + 1), ?_, ?_, h⟩
      · rw [← hget, ← List.drop_eq_getElem_cons hlt, List.take_append_drop]
      · rw [List.length_take]
        omega

end Captured

/-- A sub-query binds the role `x`, and the query around it binds the role `y`.  In its statement
the placeholder of the query resolves to `y`, and that of the sub-query does not resolve to `x`. -/
theorem resolves_iff_captured : ∃ q, ∃ m : MarkedQuery,
    (Bench.run Kit.unmarked {} Captured.moves).queries[1]? = some q ∧ m.query = q ∧
    (∃ before c o after, m.text = before ++ (c, some o) :: after ∧
      o.own.same (.str "y") = true ∧
      Resolves ((Bench.run Kit.unmarked {} Captured.moves).scope.statement q.text) before.length
        o.name o.own) ∧
    ∃ before c o after, m.text = before ++ (c, some o) :: after ∧
      o.own.same (.str "x") = true ∧ Stands q.text before.length o.name ∧
      ¬Resolves ((Bench.run Kit.unmarked {} Captured.moves).scope.statement q.text) before.length
        o.name o.own := by
  obtain ⟨q, hq, hsql⟩ := Option.map_eq_some_iff.1 Captured.text_eq
  obtain ⟨m, hm, hquery, hresolves⟩ := resolves_iff Captured.valid hq
  have hkept := Captured.kept
  have hrewritten := Captured.rewritten
  rw [hm] at hkept hrewritten
  refine ⟨q, m, hq, hquery, ?_, ?_⟩
  · obtain ⟨before, c, o, after, htext, hlength, ho⟩ := Captured.exists_occurrence hkept
    rw [Bool.and_eq_true, Bool.and_eq_true, beq_iff_eq] at ho
    obtain ⟨⟨hname, hown⟩, hsame⟩ := ho
    refine ⟨before, c, o, after, htext, hown, ?_⟩
    rw [hresolves before c o after htext, hlength, hname, hsql]
    exact ⟨Captured.stands, hsame⟩
  · obtain ⟨before, c, o, after, htext, hlength, ho⟩ := Captured.exists_occurrence hrewritten
    rw [Bool.and_eq_true, Bool.and_eq_true, beq_iff_eq, Bool.not_eq_true'] at ho
    obtain ⟨⟨hname, hown⟩, hother⟩ := ho
    refine ⟨before, c, o, after, htext, hown, ?_, ?_⟩
    · rw [hlength, hname, hsql]
      exact Captured.stands_within
    · rw [hresolves before c o after htext, hother]
      rintro ⟨-, hsame⟩
      cases hsame

end Sql

end ObjectGraph
