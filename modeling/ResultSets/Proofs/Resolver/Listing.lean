import ResultSets.Proofs.Index.Histories
import ResultSets.Proofs.Index.Listing
import ResultSets.Proofs.Query.Budget
import ResultSets.Proofs.Resolver.Resolve

namespace ResultSets

/-! The order in which the segments of an index are listed is of no consequence. A walk over
postings goes by the bases, and passes over segments without documents, whose order the bases
leave open. An evaluation goes through the segments as they are listed, but neither the set
that it ends in nor whether it exceeds the budget depends on it. -/

/-! ## Walks over postings -/

namespace TermWalk

variable {segments others : List Segment} {term : Term}

theorem gather_filter_nonempty
    (readable : ∀ segment ∈ segments, ∃ indexed, segment.Readable indexed) (counted : Nat) :
    gather term counted (segments.filter (0 < ·.size)) = gather term counted segments := by
  induction segments generalizing counted with
  | nil => rfl
  | cons segment rest induction =>
      have later := induction fun other member => readable other (.tail _ member)
      by_cases some : 0 < segment.size
      · rw [List.filter_cons_of_pos (by simpa using some), gather, gather]
        simp only [later]
      · rw [List.filter_cons_of_neg (by simpa using some), gather, later]
        rcases readable segment (.head _) with ⟨indexed, reads⟩
        rcases reads.postings_of_size_eq_zero term (Nat.eq_zero_of_not_pos some) with
          absent | found
        · rw [absent]
          rfl
        · rw [found]
          rfl

theorem resolve_eq_of_perm (apart : segments.Pairwise Segment.Apart)
    (perm : segments.Perm others)
    (readable : ∀ segment ∈ segments, ∃ indexed, segment.Readable indexed) (bound : Nat)
    (policy : Policy) :
    resolve bound policy others term = resolve bound policy segments term := by
  have gathered : ∀ {listed : List Segment}, listed.Perm segments →
      gather term 0 ((Segment.ordered listed).filter (0 < ·.size)) =
        gather term 0 (Segment.ordered listed) := by
    intro listed same
    refine gather_filter_nonempty (fun segment member => ?_) 0
    exact readable segment (same.mem_iff.mp (List.mem_mergeSort.mp member))
  rw [resolve, resolve, ← gathered perm.symm, ← gathered (.refl _),
    Segment.ordered_nonempty_eq_of_perm apart perm]

end TermWalk

/-! ## Evaluations -/

namespace Query

variable {query : Query} {segments others : List Segment}

theorem count_eq_of_perm (perm : segments.Perm others) :
    query.count others = query.count segments :=
  total_eq_of_perm (perm.symm.map query.countIn)

theorem finds_iff_of_perm (perm : segments.Perm others) (document : Nat) :
    query.Finds others document ↔ query.Finds segments document := by
  simp only [Finds, perm.mem_iff]

end Query

namespace Resolver

variable {index : Index} {others : List Segment} {query : Query} {session : Session}

theorem exceeds_relist (perm : index.segments.Perm others) :
    query.Exceeds (index.relist others) ↔ query.Exceeds index := by
  simp only [Query.Exceeds, Index.relist, Query.count_eq_of_perm perm]

theorem settle_relist (laidOut : index.LaidOut) (perm : index.segments.Perm others)
    (policy : Policy) {docs : Shared} (wellFormed : docs.set.WellFormed) (session : Session) :
    ((index.relist others).resolver policy).settle docs session =
      (index.resolver policy).settle docs session := by
  rw [settle_eq, settle_eq, Index.offer_relist laidOut perm wellFormed]
  rfl

theorem share_settle_relist (laidOut : index.LaidOut) (perm : index.segments.Perm others)
    (policy : Policy) {set : IdSet} (wellFormed : set.WellFormed) (session : Session) :
    ((index.relist others).resolver policy).settle (session.share set).1 (session.share set).2 =
      (index.resolver policy).settle (session.share set).1 (session.share set).2 := by
  apply settle_relist laidOut perm
  rw [Session.share_set]
  exact wellFormed

theorem ofTerm_relist (laidOut : index.LaidOut) (perm : index.segments.Perm others)
    (readable : ∀ segment ∈ index.segments, ∃ indexed, segment.Readable indexed)
    (policy : Policy) (term : Term) (session : Session) :
    ((index.relist others).resolver policy).ofTerm term session =
      (index.resolver policy).ofTerm term session := by
  rcases TermWalk.resolve_finds laidOut policy readable with ⟨set, resolved, wellFormed, _⟩
  have otherResolved : TermWalk.resolve (index.relist others).bound policy
      (index.relist others).segments term = .ok set :=
    (TermWalk.resolve_eq_of_perm laidOut.apart perm readable index.bound policy).trans resolved
  rw [ofTerm_eq, ofTerm_eq, resolved, otherResolved]
  exact share_settle_relist laidOut perm policy wellFormed session

theorem evaluate_relist (laidOut : index.LaidOut) (perm : index.segments.Perm others)
    (evaluated : query.EvaluatesIn index.segments) (policy : Policy) (session : Session) :
    ((index.relist others).resolver policy).evaluate query session =
      (index.resolver policy).evaluate query session := by
  have relisted := laidOut.relist perm
  have otherEvaluated : query.EvaluatesIn others := fun segment member =>
    evaluated segment (perm.mem_iff.mpr member)
  by_cases exceeds : query.Exceeds index
  · rcases exceeds with ⟨limit, bounded, exceeded⟩
    have otherExceeded : limit < query.count others := by
      rw [Query.count_eq_of_perm perm]
      exact exceeded
    rw [evaluate_of_lt_count laidOut evaluated policy bounded exceeded,
      evaluate_of_lt_count relisted otherEvaluated policy bounded otherExceeded]
  · have otherWithin : ¬ query.Exceeds (index.relist others) := by
      rw [exceeds_relist perm]
      exact exceeds
    rcases evaluate_eq_settle_of_not_exceeds laidOut evaluated policy exceeds with
      ⟨documents, set, settles, finds, evaluates⟩
    rcases evaluate_eq_settle_of_not_exceeds relisted otherEvaluated policy otherWithin with
      ⟨otherDocuments, otherSet, otherSettles, otherFinds, otherEvaluates⟩
    have same : otherSet = set := otherSettles.unique settles fun document => by
      rw [finds, otherFinds]
      exact Query.finds_iff_of_perm perm document
    subst same
    rw [evaluates, otherEvaluates]
    exact share_settle_relist laidOut perm policy settles.1 session

theorem evaluate_ok_or_exhausted (laidOut : index.LaidOut)
    (evaluated : query.EvaluatesIn index.segments) (policy : Policy)
    (knows : session.Knows index) :
    (¬ query.Exceeds index ∧
      ∃ docs next, (index.resolver policy).evaluate query session = .ok (docs, next)) ∨
    query.Exceeds index ∧ ∃ error, error.isResourceExhausted = true ∧
      (index.resolver policy).evaluate query session = .error error := by
  by_cases exceeds : query.Exceeds index
  · rcases exceeds with ⟨limit, bounded, exceeded⟩
    exact .inr ⟨⟨limit, bounded, exceeded⟩, .budgetExceeded limit, rfl,
      evaluate_of_lt_count laidOut evaluated policy bounded exceeded session⟩
  · rcases evaluate_eq_settle_of_not_exceeds laidOut evaluated policy exceeds with
      ⟨documents, set, held, _, evaluates⟩
    rcases share_settle_eq_ok laidOut policy knows held.1 with ⟨docs, next, settles, _⟩
    exact .inl ⟨exceeds, docs, next, (evaluates session).trans settles⟩

/-- Segments that can be laid out can be listed in any order. Whatever the budget and the
policy, fresh sessions over both listings resolve a term to the very same set. A standard query
evaluates to the very same set over both, unless it finds more than the budget allows, which
fails over both. -/
theorem resolves_alike_of_perm {histories others : List SegmentHistory} {budget : Option Nat}
    {index : Index}
    (made : Index.ofSegments (histories.map (·.toSegment)) budget = .ok index)
    (perm : histories.Perm others) (policy : Policy) :
    ∃ other, Index.ofSegments (others.map (·.toSegment)) budget = .ok other ∧
      (∀ term, ∃ docs next, (index.resolver policy).ofTerm term {} = .ok (docs, next) ∧
        (other.resolver policy).ofTerm term {} = .ok (docs, next)) ∧
      ∀ query : Query, query.Standard →
        (¬ query.Exceeds index ∧ ∃ docs next,
          (index.resolver policy).evaluate query {} = .ok (docs, next) ∧
          (other.resolver policy).evaluate query {} = .ok (docs, next)) ∨
        query.Exceeds index ∧ ∃ error, error.isResourceExhausted = true ∧
          (index.resolver policy).evaluate query {} = .error error ∧
          (other.resolver policy).evaluate query {} = .error error := by
  rcases Index.ofSegments_laidOut made with ⟨laidOut, segments, _⟩
  have segmentsPerm := perm.map (·.toSegment)
  have relisted := Index.ofSegments_relist made segmentsPerm
  rw [← segments] at segmentsPerm
  have readable : ∀ segment ∈ index.segments, ∃ indexed, segment.Readable indexed := by
    rw [segments]
    exact SegmentHistory.toSegments_readable histories
  have knows := Session.knows_blank index
  refine ⟨_, relisted, fun term => ?_, fun query standard => ?_⟩
  · rcases TermWalk.resolve_finds laidOut policy readable with ⟨set, resolved, wellFormed, _⟩
    rcases share_settle_eq_ok laidOut policy knows wellFormed with ⟨docs, next, settles, _⟩
    have here : (index.resolver policy).ofTerm term {} = .ok (docs, next) := by
      rw [ofTerm_eq, resolved]
      exact settles
    refine ⟨docs, next, here, ?_⟩
    rw [ofTerm_relist laidOut segmentsPerm readable, here]
  · have evaluated := standard.evaluatesIn readable
    rw [evaluate_relist laidOut segmentsPerm evaluated]
    rcases evaluate_ok_or_exhausted laidOut evaluated policy knows with
      ⟨within, docs, next, here⟩ | ⟨exceeds, error, exhausted, here⟩
    · exact .inl ⟨within, docs, next, here, here⟩
    · exact .inr ⟨exceeds, error, exhausted, here, here⟩

/-- An empty segment has the base of the segment listed after it. Listed the other way round,
the two matches come in another order, and are one too many again. -/
theorem resolves_alike_of_perm_exhausted :
    ∃ index other docs next, Index.ofSegments
        ([⟨0, 2, [.add ⟨"f", "x"⟩ 0]⟩, ⟨2, 0, []⟩, ⟨2, 3, [.add ⟨"f", "x"⟩ 1]⟩].map
          SegmentHistory.toSegment) (some 1) = .ok index ∧
      Index.ofSegments
        ([⟨2, 3, [.add ⟨"f", "x"⟩ 1]⟩, ⟨2, 0, []⟩, ⟨0, 2, [.add ⟨"f", "x"⟩ 0]⟩].map
          SegmentHistory.toSegment) (some 1) = .ok other ∧
      (index.resolver {}).ofTerm ⟨"f", "x"⟩ {} = .ok (docs, next) ∧
      (other.resolver {}).ofTerm ⟨"f", "x"⟩ {} = .ok (docs, next) ∧
      ∃ error, error.isResourceExhausted = true ∧
        (index.resolver {}).evaluate (.term ⟨"f", "x"⟩) {} = .error error ∧
        (other.resolver {}).evaluate (.term ⟨"f", "x"⟩) {} = .error error := by
  let histories : List SegmentHistory :=
    [⟨0, 2, [.add ⟨"f", "x"⟩ 0]⟩, ⟨2, 0, []⟩, ⟨2, 3, [.add ⟨"f", "x"⟩ 1]⟩]
  have made : Index.ofSegments (histories.map (·.toSegment)) (some 1) =
      .ok ⟨histories.map (·.toSegment), 5, 5, some 1⟩ := by
    rw [Index.ofSegments, List.mergeSort_of_pairwise (by decide)]
    rfl
  have standard : (Query.term ⟨"f", "x"⟩).Standard := by
    rw [Query.Standard]
    trivial
  rcases resolves_alike_of_perm made (List.reverse_perm histories).symm {} with
    ⟨other, otherMade, terms, queries⟩
  rcases terms ⟨"f", "x"⟩ with ⟨docs, next, resolved, otherResolved⟩
  refine ⟨_, other, docs, next, made, otherMade, resolved, otherResolved, ?_⟩
  rcases queries _ standard with ⟨within, _⟩ | ⟨_, exhausted⟩
  · exact absurd ⟨1, rfl, by decide +kernel⟩ within
  · exact exhausted

end Resolver

end ResultSets
