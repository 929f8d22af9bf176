import ResultSets.Proofs.Resolver.Resolve

namespace ResultSets.Resolver

/-! Queries with a filter and without. A filter restricts what a query resolves to, and leaves
live documents only. All documents restricted to a filter are the filter as it is, though,
with whatever deleted documents it has. -/

variable {index : Index} {histories : List SegmentHistory} {policy : Policy}
  {first second session : Session} {query : Query} {filter : Shared}

theorem resolveQuery_live (records : index.Records histories) (knows : session.Knows index)
    (policy : Policy) (standard : query.Standard) :
    ∃ settled next, (index.resolver policy).resolveQuery query session = .ok (settled, next) ∧
      ∀ document, settled.set.Holds document ∧ index.IsLive document ↔
        ∃ history ∈ histories, ∃ position, history.Live position ∧
          document = history.base.toNat + position ∧
            query.Denotes (history.Indexed position) document := by
  by_cases known : ∃ docs, query = .members docs
  · rcases known with ⟨docs, rfl⟩
    rcases resolveQuery_members records.laidOut knows policy standard with
      ⟨settled, next, resolved, members⟩
    refine ⟨settled, next, resolved, fun document => ?_⟩
    simp only [members, records.isLive_iff, Query.Denotes]
    constructor
    · intro found
      rcases found with ⟨held, history, member, position, live, same⟩
      exact ⟨history, member, position, live, same, held⟩
    · intro found
      rcases found with ⟨history, member, position, live, same, held⟩
      exact ⟨held, history, member, position, live, same⟩
  · rcases resolveQuery_denotes records knows policy standard fun docs same => known ⟨docs, same⟩
      with ⟨settled, next, resolved, denotes⟩
    refine ⟨settled, next, resolved, fun document => ?_⟩
    rw [← denotes]
    apply and_iff_left_of_imp
    intro held
    rcases (denotes document).mp held with ⟨history, member, position, live, same, _⟩
    exact records.isLive_iff.mpr ⟨history, member, position, live, same⟩

theorem resolve_all (records : index.Records histories) (knows : session.Knows index)
    (policy : Policy) :
    ∃ whole next, (index.resolver policy).resolve .all none session = .ok (whole, next) ∧
      ∀ document, whole.set.Holds document ↔ index.IsLive document := by
  have standard : Query.all.Standard := by
    rw [Query.Standard]
    trivial
  rcases resolveQuery_denotes records knows policy standard (by simp) with
    ⟨whole, next, resolved, denotes⟩
  refine ⟨whole, next, resolved, fun document => ?_⟩
  simp only [denotes, records.isLive_iff, Query.Denotes, and_true]

theorem resolve_some (records : index.Records histories) (knows : session.Knows index)
    (policy : Policy) (standard : query.Standard) (wellFormed : filter.set.WellFormed)
    (partly : query ≠ .all) :
    ∃ restricted next, (index.resolver policy).resolve query (some filter) session =
        .ok (restricted, next) ∧
      ∀ document, restricted.set.Holds document ↔ filter.set.Holds document ∧
        ∃ history ∈ histories, ∃ position, history.Live position ∧
          document = history.base.toNat + position ∧
            query.Denotes (history.Indexed position) document := by
  change ∃ restricted next,
    (index.resolver policy).resolveQuery (query.restrict filter) session = _ ∧ _
  rw [Query.restrict_eq partly]
  rcases resolveQuery_denotes records knows policy (standard.restrict wellFormed) (by simp) with
    ⟨restricted, next, resolved, denotes⟩
  refine ⟨restricted, next, resolved, fun document => ?_⟩
  rw [denotes]
  simp only [Query.denotes_restrict]
  constructor
  · intro found
    rcases found with ⟨history, member, position, live, same, denoted, held⟩
    exact ⟨held, history, member, position, live, same, denoted⟩
  · intro found
    rcases found with ⟨held, history, member, position, live, same, denoted⟩
    exact ⟨history, member, position, live, same, denoted, held⟩

/-- Restricted to a filter, a query resolves to members of the filter only. These are the live
ones among what it resolves to otherwise, unless it is the query for all documents: that one
resolves to the filter, and otherwise to the live documents. -/
theorem resolve_restricts (made : Index.ofSegments (histories.map (·.toSegment)) = .ok index)
    (firstReached : Session.Evolves index {} first)
    (secondReached : Session.Evolves index {} second) (policy : Policy)
    (standard : query.Standard) (wellFormed : filter.set.WellFormed) :
    ∃ restricted next whole later,
      (index.resolver policy).resolve query (some filter) first = .ok (restricted, next) ∧
      (index.resolver policy).resolve query none second = .ok (whole, later) ∧
      (∀ document, restricted.set.Holds document → filter.set.Holds document) ∧
      (query ≠ .all → ∀ document, restricted.set.Holds document ↔
        filter.set.Holds document ∧ whole.set.Holds document ∧ index.IsLive document) ∧
      (query = .all → ∀ document,
        (restricted.set.Holds document ↔ filter.set.Holds document) ∧
          (whole.set.Holds document ↔ index.IsLive document)) := by
  have records := Index.Records.of_ofSegments made
  have firstKnows := records.knows firstReached
  have secondKnows := records.knows secondReached
  by_cases all : query = .all
  · subst all
    rcases resolveQuery_members records.laidOut firstKnows policy wellFormed with
      ⟨restricted, next, resolved, members⟩
    rcases resolve_all records secondKnows policy with ⟨whole, later, unrestricted, live⟩
    refine ⟨restricted, next, whole, later, resolved, unrestricted,
      fun document => (members document).mp, fun partly => absurd rfl partly, fun _ document => ?_⟩
    exact ⟨members document, live document⟩
  · rcases resolve_some records firstKnows policy standard wellFormed all with
      ⟨restricted, next, resolved, members⟩
    rcases resolveQuery_live records secondKnows policy standard with
      ⟨whole, later, unrestricted, live⟩
    refine ⟨restricted, next, whole, later, resolved, unrestricted,
      fun document held => ((members document).mp held).1, fun _ document => ?_,
      fun whole => absurd whole all⟩
    rw [members, live]

/-! ## A filter with a deleted document

Two of three documents are put under a term, and the second of them is deleted. -/

def oneOfTwo : SegmentHistory where
  base := 0
  size := 3
  edits := [.add ⟨"f", "x"⟩ 0, .add ⟨"f", "x"⟩ 1, .delete 1]

theorem ofSegments_oneOfTwo :
    ∃ index, Index.ofSegments ([oneOfTwo].map (·.toSegment)) = .ok index ∧
      ¬ index.IsLive 1 := by
  have made : Index.ofSegments ([oneOfTwo].map (·.toSegment)) =
      .ok ⟨[oneOfTwo.toSegment], 3, 2, none⟩ := by
    rw [Index.ofSegments, List.mergeSort_of_pairwise (by decide)]
    rfl
  refine ⟨_, made, fun live => ?_⟩
  rcases (Index.Records.of_ofSegments made).isLive_iff.mp live with
    ⟨history, member, position, alive, same⟩
  cases List.mem_singleton.mp member
  exact alive.2 1 (by simp [oneOfTwo]) (same.trans (Nat.zero_add position))

theorem resolve_restricts_deleted :
    ∃ index restricted next, Index.ofSegments ([oneOfTwo].map (·.toSegment)) = .ok index ∧
      (index.resolver {}).resolve (.term ⟨"f", "x"⟩) (some ⟨1, .sparse #[0, 1]⟩) {} =
        .ok (restricted, next) ∧
      restricted.set.Holds 0 ∧ ¬ restricted.set.Holds 1 := by
  rcases ofSegments_oneOfTwo with ⟨index, made, dead⟩
  have records := Index.Records.of_ofSegments made
  have standard : (Query.term ⟨"f", "x"⟩).Standard := by
    rw [Query.Standard]
    trivial
  have wellFormed : (IdSet.sparse #[0, 1]).WellFormed := by
    change Ascending [0, 1]
    decide
  rcases @resolve_restricts index _ {} {} _ ⟨1, .sparse #[0, 1]⟩ made .refl .refl {} standard
    wellFormed with ⟨restricted, next, whole, later, resolved, unrestricted, _, partly, _⟩
  have members := partly (by simp)
  have found : whole.set.Holds 0 ∧ index.IsLive 0 := by
    rcases resolveQuery_live records (records.knows .refl) {} standard with
      ⟨other, _, same, live⟩
    cases unrestricted.symm.trans same
    apply (live 0).mpr
    refine ⟨oneOfTwo, .head _, 0, ⟨by decide, by simp [oneOfTwo]⟩, rfl, ?_⟩
    rw [Query.Denotes]
    exact ⟨0, by simp [oneOfTwo], rfl⟩
  refine ⟨index, restricted, next, made, resolved, (members 0).mpr ⟨?_, found⟩, fun held => ?_⟩
  · rw [IdSet.holds_sparse wellFormed]
    decide
  · exact dead ((members 1).mp held).2.2

/-- With this filter, the query for all documents resolves to more than without. -/
theorem not_forall_resolve_restricts :
    ¬ ∀ (histories : List SegmentHistory) (index : Index) (policy : Policy) (query : Query)
        (filter restricted whole : Shared) (next later : Session) (document : Nat),
      Index.ofSegments (histories.map (·.toSegment)) = .ok index → query.Standard →
        filter.set.WellFormed →
          (index.resolver policy).resolve query (some filter) {} = .ok (restricted, next) →
            (index.resolver policy).resolve query none {} = .ok (whole, later) →
              restricted.set.Holds document → whole.set.Holds document := by
  intro all
  rcases ofSegments_oneOfTwo with ⟨index, made, dead⟩
  have records := Index.Records.of_ofSegments made
  have knows : Session.Knows {} index := records.knows .refl
  have wellFormed : (IdSet.sparse #[0, 1]).WellFormed := by
    change Ascending [0, 1]
    decide
  rcases @resolveQuery_members index _ records.laidOut knows {} ⟨1, .sparse #[0, 1]⟩ wellFormed
    with ⟨restricted, next, resolved, members⟩
  rcases resolve_all records knows {} with ⟨whole, later, unrestricted, live⟩
  apply dead
  apply (live 1).mp
  apply all _ index {} .all _ restricted whole next later 1 made _ wellFormed resolved unrestricted
  · rw [members, IdSet.holds_sparse wellFormed]
    decide
  · rw [Query.Standard]
    trivial

end ResultSets.Resolver
