import ResultSets.Proofs.Delivery.Trace
import ResultSets.Proofs.Query.Evaluation

namespace ResultSets

/-! Sets that are taken apart into the ids of segments and put together again. Where every
member lies in a segment, delivering a set to an accumulator offers each member once, so the
accumulator ends in an equal set. Searching for the set goes through the segments in another
order and ends in the same one, if its members are live. -/

namespace IdSet

theorem deliver_gathers {docs : IdSet} (wellFormed : docs.WellFormed) {segments : List Segment}
    (apart : segments.Pairwise Segment.Apart)
    (inside : ∀ document, docs.Holds document → ∃ segment ∈ segments,
      segment.span.Holds document)
    {accumulator : Accumulator} (gathers : accumulator.Gathers [])
    (fits : ∀ segment ∈ segments, segment.stop ≤ accumulator.bound) :
    ∃ last, (docs.deliver segments).into accumulator = (last, none) ∧
      last.Gathers (docs.toList.map UInt32.toNat) ∧ last.bound = accumulator.bound ∧
      last.limit = accumulator.limit := by
  have covered : ∀ id ∈ docs.toList, Segment.Covers segments id := by
    intro id listed
    exact inside id.toNat ((holds_toNat docs id).mpr ((mem_toList wellFormed id).mp listed))
  have placed := placed_ordered (apart.imp Segment.Apart.disjoint) (toList_ascending wellFormed)
    covered
  rcases @Placed.offers _ _ _ accumulator.base placed (by simp) with ⟨whole, offered⟩
  have fitting : ∀ segment,
      Call.enter segment ∈ (deliverFrom none (Segment.ordered segments) docs.toList).calls →
        segment.stop ≤ accumulator.bound := by
    intro segment entered
    rw [placed.deliverFrom_eq] at entered
    exact fits segment (List.mem_mergeSort.mp (Segment.mem_of_enter_mem_visits entered))
  have accepted : Delivery.handOver none
      (deliverFrom none (Segment.ordered segments) docs.toList).calls accumulator = (_, none) :=
    Prod.ext rfl (deliverFrom_accepted gathers (by simp) fitting)
  rcases gathers.handOver (fun reason => abort_not_mem_deliverFrom _ _ _ reason) accepted with
    ⟨gathered, bound, limit⟩
  rw [offered, List.nil_append] at gathered
  refine ⟨_, ?_, gathered, bound, limit⟩
  rw [Delivery.into, deliver, whole]
  exact accepted

/-- An accumulator over an index ends in a set that is equal to the one delivered. A search
for that set ends in the same one, if all its members are live and nothing bounds the
search. -/
theorem deliver_replays {segments : List Segment} {budget : Option Nat} {index : Index}
    (made : Index.ofSegments segments budget = .ok index) {docs : IdSet}
    (wellFormed : docs.WellFormed)
    (inside : ∀ document, docs.Holds document → ∃ segment ∈ segments,
      segment.span.Holds document) (policy : Policy) :
    ∃ blank last set, Accumulator.start index.bound policy = .ok blank ∧
      (docs.deliver segments).into blank = (last, none) ∧ last.finish = .ok set ∧
      (set == docs) = true ∧
      ((∀ document, docs.Holds document → index.IsLive document) → budget = none →
        ∀ serial, ∃ searched,
          ((Query.members ⟨serial, docs⟩).deliver index).into blank = (searched, none) ∧
            searched.finish = .ok set) := by
  rcases Index.ofSegments_laidOut made with ⟨laidOut, rfl, rfl⟩
  rcases Accumulator.start_eq_ok laidOut.within policy with
    ⟨blank, started, gathers, bounded, limited, _⟩
  have fits : ∀ segment ∈ index.segments, segment.stop ≤ blank.bound := by
    rw [bounded]
    exact laidOut.inside
  rcases deliver_gathers wellFormed laidOut.apart inside gathers fits with
    ⟨last, delivered, gathered, lastBound, lastLimit⟩
  rcases gathered.finish with ⟨set, finished, settles⟩
  rw [lastBound, lastLimit] at settles
  have members : ∀ document, set.Holds document ↔ docs.Holds document := by
    intro document
    rw [settles.2.1, holds_iff_mem_toList wellFormed]
  refine ⟨blank, last, set, started, delivered, finished,
    beq_of_holds settles.1 wellFormed members, ?_⟩
  intro live unbounded serial
  rcases Query.deliverFrom_gathers gathers fits
    (@Query.evaluatesIn_members ⟨serial, docs⟩ wellFormed index.segments)
    (index.budget.getD 0) with
    ⟨searched, found, ended, searchGathered, searchBound, searchLimit, finds⟩
  rcases searchGathered.finish with ⟨other, otherFinished, otherSettles⟩
  rw [searchBound, searchLimit, List.nil_append] at otherSettles
  have same : ∀ document, document ∈ found ↔ document ∈ docs.toList.map UInt32.toNat := by
    intro document
    rw [finds, Query.finds_members wellFormed, ← holds_iff_mem_toList wellFormed]
    exact and_iff_left_of_imp (live document)
  refine ⟨searched, ?_, ?_⟩
  · rw [Query.deliver, unbounded]
    rw [unbounded] at ended
    exact ended
  · rw [otherFinished, otherSettles.unique settles same]

theorem deliver_replays_gap :
    ∃ index blank last set searched,
      Index.ofSegments [{ base := 8, size := 8 }, { base := 0, size := 5 }] = .ok index ∧
      Accumulator.start index.bound {} = .ok blank ∧
      ((sparse #[1, 4, 8]).deliver [{ base := 8, size := 8 }, { base := 0, size := 5 }]).into
        blank = (last, none) ∧
      last.finish = .ok set ∧ (set == sparse #[1, 4, 8]) = true ∧
      ((Query.members ⟨7, sparse #[1, 4, 8]⟩).deliver index).into blank = (searched, none) ∧
      searched.finish = .ok set := by
  let late : Segment := { base := 8, size := 8 }
  let early : Segment := { base := 0, size := 5 }
  let index : Index := ⟨[late, early], 16, 13, none⟩
  have made : Index.ofSegments [late, early] = .ok index := by
    rw [Index.ofSegments, Segment.mergeSort_spans_pair (by decide)]
    rfl
  have wellFormed : (sparse #[1, 4, 8]).WellFormed := by
    change Ascending [1, 4, 8]
    decide
  have listed : ∀ document, (sparse #[1, 4, 8]).Holds document →
      document ∈ [1, 4, 8] := fun document held =>
    (holds_sparse wellFormed document).mp held
  have live : ∀ document, (sparse #[1, 4, 8]).Holds document → index.IsLive document := by
    intro document held
    have member := listed document held
    simp only [List.mem_cons, List.not_mem_nil, or_false] at member
    rcases member with rfl | rfl | rfl
    · exact ⟨early, .tail _ (.head _), 1, by decide, rfl, rfl⟩
    · exact ⟨early, .tail _ (.head _), 4, by decide, rfl, rfl⟩
    · exact ⟨late, .head _, 0, by decide, rfl, rfl⟩
  have inside : ∀ document, (sparse #[1, 4, 8]).Holds document →
      ∃ segment ∈ [late, early], segment.span.Holds document := by
    intro document held
    rcases live document held with ⟨segment, member, lives⟩
    exact ⟨segment, member, lives.inside⟩
  rcases deliver_replays made wellFormed inside {} with
    ⟨blank, last, set, started, delivered, finished, equal, searches⟩
  rcases searches live rfl 7 with ⟨searched, ended, same⟩
  exact ⟨index, blank, last, set, searched, made, started, delivered, finished, equal, ended,
    same⟩

end IdSet

end ResultSets
