import ResultSets.Proofs.Query.Hits

namespace ResultSets

/-! Evaluating queries in a segment whose history is known. What is found is what the query
denotes by the documents that were put under its terms, and not a bit more. The order in which
the clauses of a boolean query stand is of no consequence, however deep it is nested. -/

theorem Bitmap.Marks.beq {bitmap other : Bitmap} {length : Nat} {marked : Nat → Prop}
    (marks : bitmap.Marks length marked) (others : other.Marks length marked) :
    (other == bitmap) = true := by
  rw [beq_iff]
  apply And.intro (others.1.trans marks.1.symm)
  intro position
  rw [marks.mem_iff, others.mem_iff]

/-! ## Clauses -/

namespace Occur

def Requires (occur : Occur) : Prop := occur = .must ∨ occur = .filter

instance (occur : Occur) : Decidable occur.Requires := inferInstanceAs (Decidable (_ ∨ _))

end Occur

theorem clauseDenotes_eq_map (indexed : Term → Prop) (document : Nat)
    (clauses : List (Occur × Query)) :
    clauseDenotes indexed document clauses =
      clauses.map fun clause => (clause.1, clause.2.Denotes indexed document) := by
  induction clauses with
  | nil => rw [clauseDenotes, List.map_nil]
  | cons clause rest induction => rw [clauseDenotes, induction, List.map_cons]

theorem clausesStandard_iff {clauses : List (Occur × Query)} :
    ClausesStandard clauses ↔ ∀ clause ∈ clauses, clause.2.Standard := by
  induction clauses with
  | nil => simp [ClausesStandard]
  | cons clause rest induction => rw [ClausesStandard, induction, List.forall_mem_cons]

namespace Query

variable {query other : Query} {clauses others : List (Occur × Query)}
  {indexed : Term → Prop} {document : Nat}

/-- A boolean query means all clauses that must match, or one that should where none must, or
everything where there are only clauses that must not; and in each case none of the latter. -/
theorem denotes_boolean :
    (Query.boolean clauses).Denotes indexed document ↔
      (if ∃ clause ∈ clauses, clause.1.Requires then
        ∀ clause ∈ clauses, clause.1.Requires → clause.2.Denotes indexed document
      else if ∃ clause ∈ clauses, clause.1 = .should then
        ∃ clause ∈ clauses, clause.1 = .should ∧ clause.2.Denotes indexed document
      else ∃ clause ∈ clauses, clause.1 = .mustNot) ∧
        ∀ clause ∈ clauses, clause.1 = .mustNot → ¬ clause.2.Denotes indexed document := by
  rw [Denotes, Meets, clauseDenotes_eq_map]
  simp only [ne_eq, List.map_eq_nil_iff, List.forall_mem_map]
  simp only [List.mem_map, exists_exists_and_eq_and]
  split
  · next some =>
      rcases some with ⟨required, member, requires⟩
      constructor
      · intro meets
        exact ⟨meets.2.2.1, meets.2.1⟩
      · intro both
        exact ⟨List.ne_nil_of_mem member, both.2, both.1,
          fun none => absurd requires (none required member)⟩
  · next none =>
      have absent : ∀ clause ∈ clauses, ¬ clause.1.Requires := fun clause member requires =>
        none ⟨clause, member, requires⟩
      split
      · next some =>
          constructor
          · intro meets
            exact ⟨meets.2.2.2 absent some, meets.2.1⟩
          · intro both
            rcases some with ⟨optional, member, _⟩
            exact ⟨List.ne_nil_of_mem member, both.2,
              fun clause member requires => absurd requires (absent clause member),
              fun _ _ => both.1⟩
      · next noneOptional =>
          constructor
          · intro meets
            rcases List.exists_mem_of_ne_nil clauses meets.1 with ⟨clause, member⟩
            refine ⟨⟨clause, member, ?_⟩, meets.2.1⟩
            have notRequired := absent clause member
            have notOptional : clause.1 ≠ .should := fun should =>
              noneOptional ⟨clause, member, should⟩
            -- What neither must nor should match can only be there to exclude.
            cases occur : clause.1 with
            | must => exact absurd (.inl occur) notRequired
            | filter => exact absurd (.inr occur) notRequired
            | should => exact absurd occur notOptional
            | mustNot => rfl
          · intro both
            rcases both.1 with ⟨excluded, member, _⟩
            exact ⟨List.ne_nil_of_mem member, both.2,
              fun clause member requires => absurd requires (absent clause member),
              fun _ some => absurd some noneOptional⟩

/-! ## Orders of clauses -/

/-- The queries differ in the order of clauses only, at whatever depth. -/
inductive Reorders : Query → Query → Prop
  | refl (query : Query) : Reorders query query
  | clauses {clauses others : List (Occur × Query)} (perm : clauses.Perm others) :
      Reorders (.boolean clauses) (.boolean others)
  | inside {query other : Query} (before : List (Occur × Query)) (occur : Occur)
      (after : List (Occur × Query)) (reorders : Reorders query other) :
      Reorders (.boolean (before ++ (occur, query) :: after))
        (.boolean (before ++ (occur, other) :: after))
  | trans {query middle other : Query} (first : Reorders query middle)
      (second : Reorders middle other) : Reorders query other

theorem Reorders.denotes_iff (reorders : query.Reorders other) :
    other.Denotes indexed document ↔ query.Denotes indexed document := by
  induction reorders with
  | refl query => exact Iff.rfl
  | clauses perm => simp only [denotes_boolean, perm.mem_iff]
  | inside before occur after reorders same =>
      rw [Denotes, Denotes, clauseDenotes_eq_map, clauseDenotes_eq_map, List.map_append,
        List.map_append, List.map_cons, List.map_cons, propext same]
  | trans first second same next => exact next.trans same

theorem Reorders.standard_iff (reorders : query.Reorders other) :
    other.Standard ↔ query.Standard := by
  induction reorders with
  | refl query => exact Iff.rfl
  | clauses perm =>
      rw [Standard, Standard, clausesStandard_iff, clausesStandard_iff]
      simp only [perm.mem_iff]
  | inside before occur after reorders same =>
      rw [Standard, Standard, clausesStandard_iff, clausesStandard_iff]
      simp only [List.forall_mem_append, List.forall_mem_cons, same]
  | trans first second same next => exact next.trans same

/-! ## What is found -/

/-- A query is evaluated in any segment, to a bitmap over the segment that has just the
documents that the query denotes, deleted or not. A query that differs from it in the order of
clauses is evaluated to an equal bitmap. -/
theorem hits_exact (history : SegmentHistory) (standard : query.Standard) :
    ∃ hits, query.hits history.toSegment = .ok hits ∧ hits.length = history.size ∧
      (∀ position, position ∈ hits ↔ position < history.size ∧
        query.Denotes (history.Indexed position) (history.base.toNat + position)) ∧
      ∀ other, query.Reorders other → ∃ same, other.hits history.toSegment = .ok same ∧
        (same == hits) = true := by
  rcases hits_of_history history standard with ⟨hits, evaluated, marks⟩
  refine ⟨hits, evaluated, marks.1, fun position => marks.mem_iff, fun other reorders => ?_⟩
  rcases hits_of_history history (reorders.standard_iff.mpr standard) with
    ⟨same, alsoEvaluated, others⟩
  simp only [reorders.denotes_iff] at others
  exact ⟨same, alsoEvaluated, marks.beq others⟩

/-- The first document is deleted and still found. The second is found by the inner query and
left out by the outer one, whichever of its clauses comes first. -/
theorem hits_exact_nested :
    ∃ hits same,
      (Query.boolean [(.mustNot, .members ⟨1, .sparse #[11]⟩),
        (.must, .boolean [(.should, .term ⟨"field", "word"⟩), (.should, .boolean [])])]).hits
          (SegmentHistory.toSegment ⟨10, 3,
            [.add ⟨"field", "word"⟩ 1, .add ⟨"field", "word"⟩ 0, .delete 0]⟩) = .ok hits ∧
      hits.length = 3 ∧ 0 ∈ hits ∧ 1 ∉ hits ∧ 2 ∉ hits ∧
      (Query.boolean [
        (.must, .boolean [(.should, .boolean []), (.should, .term ⟨"field", "word"⟩)]),
        (.mustNot, .members ⟨1, .sparse #[11]⟩)]).hits
          (SegmentHistory.toSegment ⟨10, 3,
            [.add ⟨"field", "word"⟩ 1, .add ⟨"field", "word"⟩ 0, .delete 0]⟩) = .ok same ∧
      (same == hits) = true := by
  have ascending : (IdSet.sparse #[11]).WellFormed := List.pairwise_singleton _ _
  have excluded : ∀ document, (IdSet.sparse #[11]).Holds document ↔ document = 11 := by
    intro document
    rw [IdSet.holds_sparse ascending]
    simp
  have standard : (Query.boolean [(.mustNot, .members ⟨1, .sparse #[11]⟩),
      (.must, .boolean [(.should, .term ⟨"field", "word"⟩), (.should, .boolean [])])]).Standard :=
    by simp [Standard, ClausesStandard, ascending]
  rcases hits_exact ⟨10, 3, [.add ⟨"field", "word"⟩ 1, .add ⟨"field", "word"⟩ 0, .delete 0]⟩
    standard with ⟨hits, evaluated, length, members, reordered⟩
  have inner : Reorders (.boolean [(.should, .term ⟨"field", "word"⟩), (.should, .boolean [])])
      (.boolean [(.should, .boolean []), (.should, .term ⟨"field", "word"⟩)]) :=
    .clauses (.swap _ _ _)
  rcases reordered _ (.trans (.inside [_] .must [] inner) (.clauses (.swap _ _ _))) with
    ⟨same, alsoEvaluated, equal⟩
  refine ⟨hits, same, evaluated, length, ?_, ?_, ?_, alsoEvaluated, equal⟩
  · rw [members]
    simp [Denotes, Meets, clauseDenotes, SegmentHistory.Indexed, excluded]
  · rw [members]
    simp [Denotes, Meets, clauseDenotes, SegmentHistory.Indexed, excluded]
  · rw [members]
    simp [Denotes, Meets, clauseDenotes, SegmentHistory.Indexed, excluded]

end Query

end ResultSets
