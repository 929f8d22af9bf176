import ResultSets.Proofs.Index.Histories
import ResultSets.Proofs.Query.Evaluation
import ResultSets.Proofs.Resolver.Rows

namespace ResultSets

/-! What a query resolves to. Whichever way is taken, postings, the set of live documents, a
set that the query knows or an evaluation, the result holds the live documents that the
query denotes. -/

/-! ## Live hits -/

namespace Query

variable {query : Query} {document : Nat}

theorem finds_all {segments : List Segment} :
    Query.all.Finds segments document ↔ ∃ segment ∈ segments, segment.Lives document := by
  apply exists_congr
  intro segment
  apply and_congr_right
  intro _
  rcases segment.allHits_eq_ok with ⟨hits, evaluated, marks⟩
  have found : Query.all.hits segment = .ok hits := evaluated
  simp only [found, Except.ok.injEq, exists_eq_left', marks.mem_iff, and_true]
  rfl

theorem finds_iff (standard : query.Standard) (histories : List SegmentHistory) :
    query.Finds (histories.map (·.toSegment)) document ↔
      ∃ history ∈ histories, ∃ position, history.Live position ∧
        document = history.base.toNat + position ∧
          query.Denotes (history.Indexed position) document := by
  simp only [Finds, List.mem_map, exists_exists_and_eq_and]
  apply exists_congr
  intro history
  apply and_congr_right
  intro _
  rcases hits_of_history history standard with ⟨hits, evaluated, marks⟩
  rw [history.toSegment_base]
  simp only [evaluated, Except.ok.injEq, exists_eq_left', marks.mem_iff]
  apply exists_congr
  intro position
  constructor
  · intro hit
    rcases hit with ⟨⟨inside, denoted⟩, live, rfl⟩
    exact ⟨(history.shows_draft.live position inside).mp live, rfl, denoted⟩
  · intro answer
    rcases answer with ⟨live, rfl, denoted⟩
    exact ⟨⟨live.1, denoted⟩, (history.shows_draft.live position live.1).mpr live, rfl⟩

theorem denotes_restrict (query : Query) (filter : Shared) (indexed : Term → Prop)
    (document : Nat) :
    (Query.boolean [(.must, query), (.filter, .members filter)]).Denotes indexed document ↔
      query.Denotes indexed document ∧ filter.set.Holds document := by
  simp only [Denotes, clauseDenotes, Meets]
  simp

theorem Standard.restrict (standard : query.Standard) {filter : Shared}
    (wellFormed : filter.set.WellFormed) :
    (Query.boolean [(.must, query), (.filter, .members filter)]).Standard := by
  simp only [Standard, ClausesStandard]
  exact ⟨standard, wellFormed, trivial⟩

/-- The documents that a query resolves to in segments with the given histories: the set
that it knows or is restricted to as it is, and else the live documents that it denotes. -/
def Answers (histories : List SegmentHistory) (document : Nat) : Query → Option Shared → Prop
  | .members docs, none => docs.set.Holds document
  | .all, some filter => filter.set.Holds document
  | query, filter =>
      ∃ history ∈ histories, ∃ position, history.Live position ∧
        document = history.base.toNat + position ∧
          query.Denotes (history.Indexed position) document ∧
            ∀ docs, filter = some docs → docs.set.Holds document

variable {histories : List SegmentHistory}

theorem answers_none (unknown : ∀ docs, query ≠ .members docs) :
    query.Answers histories document none ↔
      ∃ history ∈ histories, ∃ position, history.Live position ∧
        document = history.base.toNat + position ∧
          query.Denotes (history.Indexed position) document := by
  cases query with
  | members docs => exact absurd rfl (unknown docs)
  | term term => simp [Answers]
  | all => simp [Answers]
  | boolean clauses => simp [Answers]
  | custom hits => simp [Answers]
  | producer produce hits => simp [Answers]

theorem restrict_eq (partly : query ≠ .all) (filter : Shared) :
    query.restrict filter = .boolean [(.must, query), (.filter, .members filter)] := by
  cases query with
  | all => exact absurd rfl partly
  | members docs => rfl
  | term term => rfl
  | boolean clauses => rfl
  | custom hits => rfl
  | producer produce hits => rfl

theorem answers_some (partly : query ≠ .all) (filter : Shared) :
    query.Answers histories document (some filter) ↔
      ∃ history ∈ histories, ∃ position, history.Live position ∧
        document = history.base.toNat + position ∧
          (query.restrict filter).Denotes (history.Indexed position) document := by
  rw [restrict_eq partly]
  simp only [denotes_restrict]
  cases query with
  | all => exact absurd rfl partly
  | members docs => simp [Answers]
  | term term => simp [Answers]
  | boolean clauses => simp [Answers]
  | custom hits => simp [Answers]
  | producer produce hits => simp [Answers]

end Query

/-! ## The ways to resolve a query -/

namespace TermWalk

variable {index : Index} {term : Term} {rows : Rows}

theorem Covers.finds_iff (covers : Covers index term rows) {document : Nat} :
    (Query.term term).Finds index.segments document ↔
      ∃ row ∈ rows, ∃ id ∈ row.2, row.1.isLive id ∧
        document = row.1.base.toNat + id.toNat := by
  constructor
  · intro found
    rcases found with ⟨segment, member, hits, evaluated, position, hit, live, rfl⟩
    rcases covers.exists_row member with ⟨row, rowMember, rfl⟩
    rcases Segment.termHits_eq_ok (covers.yields row rowMember) (covers.inside row rowMember)
      with ⟨own, ownOk, marks⟩
    cases evaluated.symm.trans ownOk
    rcases List.mem_map.mp (marks.mem_iff.mp hit).2 with ⟨id, idMember, rfl⟩
    exact ⟨row, rowMember, id, idMember, live, rfl⟩
  · intro found
    rcases found with ⟨row, rowMember, id, idMember, live, rfl⟩
    have inside := covers.inside row rowMember
    rcases Segment.termHits_eq_ok (covers.yields row rowMember) inside with
      ⟨hits, evaluated, marks⟩
    have hit := marks.mem_iff.mpr ⟨inside id idMember, List.mem_map_of_mem idMember⟩
    exact ⟨row.1, covers.mem_segments rowMember, hits, evaluated, id.toNat, hit, live, rfl⟩

theorem Covers.evaluatesIn (covers : Covers index term rows) :
    (Query.term term).EvaluatesIn index.segments := by
  intro segment member
  rcases covers.exists_row member with ⟨row, rowMember, rfl⟩
  rcases Segment.termHits_eq_ok (covers.yields row rowMember) (covers.inside row rowMember) with
    ⟨hits, evaluated, length, _⟩
  exact ⟨hits, evaluated, length⟩

theorem resolve_finds (laidOut : index.LaidOut) (policy : Policy)
    (readable : ∀ segment ∈ index.segments, ∃ indexed, segment.Readable indexed) :
    ∃ set, resolve index.bound policy index.segments term = .ok set ∧ set.WellFormed ∧
      ∀ document, set.Holds document ↔ (Query.term term).Finds index.segments document := by
  have listed : ∀ segment ∈ index.segments, ∃ ids, segment.Yields term ids ∧
      ∀ id ∈ ids, id.toNat < segment.size := by
    intro segment member
    rcases readable segment member with ⟨indexed, reads⟩
    exact reads.exists_yields term
  rcases exists_covers listed with ⟨rows, covers⟩
  have truthful := truthful_of_readable readable term
  rcases rowFits_of_le (covers.promisedIn_le readable laidOut) with ⟨countable, rowFits⟩
  rcases covers.resolve_isOk laidOut truthful (orderly_of_readable readable term) countable
    rowFits with ⟨set, resolved⟩
  rcases covers.resolve_members laidOut truthful resolved with ⟨wellFormed, members⟩
  exact ⟨set, resolved, wellFormed, fun document =>
    (members document).trans covers.finds_iff.symm⟩

end TermWalk

namespace Resolver

variable {index : Index} {histories : List SegmentHistory} {policy : Policy} {session : Session}
  {query : Query}

/-- A query that does not know its set resolves to its live hits. -/
theorem resolveQuery_finds (laidOut : index.LaidOut) (unbounded : index.budget = none)
    (covered : ∀ segment ∈ index.segments, segment.Covered)
    (readable : ∀ segment ∈ index.segments, ∃ indexed, segment.Readable indexed)
    (knows : session.Knows index) (policy : Policy) (standard : query.Standard)
    (unknown : ∀ docs, query ≠ .members docs) :
    ∃ settled next, (index.resolver policy).resolveQuery query session = .ok (settled, next) ∧
      ∀ document, settled.set.Holds document ↔ query.Finds index.segments document := by
  cases query with
  | term term =>
      rcases TermWalk.resolve_finds laidOut policy readable with
        ⟨set, walked, wellFormed, finds⟩
      rcases share_settle_eq_ok laidOut policy knows wellFormed with
        ⟨settled, next, settles, _, members, _⟩
      refine ⟨settled, next, ?_, fun document => (members document).trans (finds document)⟩
      change (index.resolver policy).ofTerm term session = _
      rw [ofTerm_eq, walked]
      exact settles
  | all =>
      rcases Index.liveSet_eq_ok laidOut covered knows with ⟨live, middle, made, liveSet, _⟩
      have stillKnows := ((Session.Evolves.refl.live made).knows_and_keeps laidOut covered
        knows).1
      rcases settle_eq_ok laidOut policy stillKnows liveSet.1 with
        ⟨settled, next, settles, _, _, members, _⟩
      refine ⟨settled, next, ?_, fun document => ?_⟩
      · rw [resolveQuery_all_eq, made]
        exact settles
      · rw [members, liveSet.2, Query.finds_all]
        rfl
  | members docs => exact absurd rfl (unknown docs)
  | boolean clauses =>
      rcases evaluate_eq_settle laidOut unbounded (standard.evaluatesIn readable) policy with
        ⟨documents, set, held, finds, evaluates⟩
      rcases share_settle_eq_ok laidOut policy knows held.1 with
        ⟨settled, next, settles, _, members, _⟩
      refine ⟨settled, next, (evaluates session).trans settles, fun document => ?_⟩
      rw [members, held.2.1, finds]
  | custom hits =>
      rw [Query.Standard] at standard
      exact standard.elim
  | producer produce hits =>
      rw [Query.Standard] at standard
      exact standard.elim

theorem resolveQuery_members (laidOut : index.LaidOut) (knows : session.Knows index)
    (policy : Policy) {docs : Shared} (wellFormed : docs.set.WellFormed) :
    ∃ settled next, (index.resolver policy).resolveQuery (.members docs) session =
        .ok (settled, next) ∧
      ∀ document, settled.set.Holds document ↔ docs.set.Holds document := by
  rcases settle_eq_ok laidOut policy knows wellFormed with
    ⟨settled, next, settles, _, _, members, _⟩
  exact ⟨settled, next, settles, members⟩

theorem resolveQuery_denotes (records : index.Records histories) (knows : session.Knows index)
    (policy : Policy) (standard : query.Standard) (unknown : ∀ docs, query ≠ .members docs) :
    ∃ settled next, (index.resolver policy).resolveQuery query session = .ok (settled, next) ∧
      ∀ document, settled.set.Holds document ↔
        ∃ history ∈ histories, ∃ position, history.Live position ∧
          document = history.base.toNat + position ∧
            query.Denotes (history.Indexed position) document := by
  rcases resolveQuery_finds records.laidOut records.unbounded records.covered records.readable
    knows policy standard unknown with ⟨settled, next, resolved, finds⟩
  refine ⟨settled, next, resolved, fun document => ?_⟩
  rw [finds, records.segments, Query.finds_iff standard]

/-- Every standard query can be resolved, with a filter or without, and the result holds
exactly the documents that answer it. -/
theorem resolve_answers {histories : List SegmentHistory} {index : Index}
    (made : Index.ofSegments (histories.map (·.toSegment)) = .ok index) {session : Session}
    (reached : Session.Evolves index {} session) (policy : Policy) {query : Query}
    (standard : query.Standard) {filter : Option Shared}
    (filterWellFormed : ∀ docs, filter = some docs → docs.set.WellFormed) :
    ∃ settled next, (index.resolver policy).resolve query filter session = .ok (settled, next) ∧
      ∀ document, settled.set.Holds document ↔ query.Answers histories document filter := by
  have records := Index.Records.of_ofSegments made
  have knows := records.knows reached
  cases filter with
  | none =>
      change ∃ settled next, (index.resolver policy).resolveQuery query session = _ ∧ _
      by_cases known : ∃ docs, query = .members docs
      · rcases known with ⟨docs, rfl⟩
        exact resolveQuery_members records.laidOut knows policy standard
      · have unknown : ∀ docs, query ≠ .members docs := fun docs same => known ⟨docs, same⟩
        rcases resolveQuery_denotes records knows policy standard unknown with
          ⟨settled, next, resolved, denotes⟩
        refine ⟨settled, next, resolved, fun document => ?_⟩
        rw [denotes, Query.answers_none unknown]
  | some docs =>
      have wellFormed := filterWellFormed docs rfl
      change ∃ settled next,
        (index.resolver policy).resolveQuery (query.restrict docs) session = _ ∧ _
      by_cases whole : query = .all
      · subst whole
        exact resolveQuery_members records.laidOut knows policy wellFormed
      · have restricted : (query.restrict docs).Standard := by
          rw [Query.restrict_eq whole]
          exact standard.restrict wellFormed
        have unknown : ∀ other, query.restrict docs ≠ .members other := by
          rw [Query.restrict_eq whole]
          exact fun other same => nomatch same
        rcases resolveQuery_denotes records knows policy restricted unknown with
          ⟨settled, next, resolved, denotes⟩
        refine ⟨settled, next, resolved, fun document => ?_⟩
        rw [denotes, Query.answers_some whole]

theorem resolve_answers_three :
    ∃ index, Index.ofSegments ([⟨0, 3, [.add ⟨"f", "x"⟩ 0, .add ⟨"f", "x"⟩ 2, .delete 2]⟩].map
        SegmentHistory.toSegment) = .ok index ∧
      ∃ settled next, (index.resolver {}).resolve (.term ⟨"f", "x"⟩) none {} =
          .ok (settled, next) ∧
        settled.set.Holds 0 ∧ ¬ settled.set.Holds 2 := by
  let history : SegmentHistory := ⟨0, 3, [.add ⟨"f", "x"⟩ 0, .add ⟨"f", "x"⟩ 2, .delete 2]⟩
  have made : Index.ofSegments ([history].map (·.toSegment)) =
      .ok ⟨[history].map (·.toSegment), 3, 2, none⟩ := by
    rw [Index.ofSegments, List.mergeSort_of_pairwise (by decide)]
    rfl
  have standard : (Query.term ⟨"f", "x"⟩).Standard := by
    rw [Query.Standard]
    trivial
  rcases @resolve_answers [history] _ made {} .refl {} _ standard none (by simp) with
    ⟨settled, next, resolved, answers⟩
  refine ⟨_, made, settled, next, resolved, (answers 0).mpr ?_, fun held => ?_⟩
  · exact ⟨history, .head _, 0, by simp [SegmentHistory.Live, history], rfl,
      ⟨0, by simp [history], rfl⟩, by simp⟩
  · rcases (answers 2).mp held with ⟨other, member, position, live, same, _⟩
    cases List.mem_singleton.mp member
    exact live.2 2 (by simp [history]) (by simpa [history] using same)

end Resolver

end ResultSets
