import ResultSets.IdSet.Delivery
import ResultSets.Proofs.Delivery.Failure
import ResultSets.Proofs.Index.Layout
import ResultSets.Query.Delivery

namespace ResultSets

/-! When the evaluation of a query, or the delivery of a set, fails without a mark in the
accumulator: a query does in a segment in which it cannot be evaluated, and a set does with
a member outside all segments, unless something else has failed before. -/

/-! ## Queries

A query fails silently when it cannot be evaluated in a segment that is reached. -/

namespace Query

variable (query : Query) (budget : Option Nat)

theorem deliverFrom_cons (left : Nat) {segment : Segment} {hits : Bitmap}
    (evaluated : query.hits segment = .ok hits) :
    (∃ rest, ∀ others, query.deliverFrom budget left (segment :: others) =
        (query.deliverFrom budget rest others).prepend
          (.enter segment :: (segment.liveIn hits).map .accept)) ∨
      ∃ reason calls, Call.abort reason ∈ calls ∧ ∃ failure, ∀ others,
        query.deliverFrom budget left (segment :: others) =
          { calls, failure := some failure } := by
  cases budget with
  | none =>
      refine .inl ⟨left, fun others => ?_⟩
      rw [deliverFrom, evaluated]
  | some limit =>
      by_cases exhausted : left < (segment.liveIn hits).length
      · refine .inr ⟨Error.budgetText limit,
          .enter segment :: ((segment.liveIn hits).take left).map .accept ++
            [.abort (Error.budgetText limit)], by simp, .budgetExceeded limit, fun others => ?_⟩
        rw [deliverFrom, evaluated]
        simp only [exhausted, if_true]
      · refine .inl ⟨left - (segment.liveIn hits).length, fun others => ?_⟩
        rw [deliverFrom, evaluated]
        simp only [exhausted, if_false]

theorem deliverFrom_of_error (left : Nat) {segment : Segment} {error : Error}
    (failed : query.hits segment = .error error) (others : List Segment) :
    query.deliverFrom budget left (segment :: others) =
      { calls := [.enter segment], failure := some error } := by
  rw [deliverFrom, failed]

private theorem exists_earlier {segment failing : Segment} {others before after : List Segment}
    {hits : Bitmap} {error : Error} (evaluated : query.hits segment = .ok hits)
    (fails : query.hits failing = .error error)
    (split : segment :: others = before ++ failing :: after) :
    ∃ earlier, before = segment :: earlier ∧ others = earlier ++ failing :: after := by
  cases before with
  | nil =>
      cases split
      cases evaluated.symm.trans fails
  | cons head earlier =>
      cases split
      exact ⟨earlier, rfl, rfl⟩

theorem failsSilently_iff (left : Nat) (segments : List Segment) (accumulator : Accumulator)
    (error : Error) :
    (query.deliverFrom budget left segments).FailsSilently accumulator error ↔
      ∃ before segment after, segments = before ++ segment :: after ∧
        query.hits segment = .error error ∧ segment.stop ≤ accumulator.bound ∧
        ((query.deliverFrom budget left before).into accumulator).2 = none := by
  induction segments generalizing left accumulator with
  | nil =>
      constructor
      · rintro ⟨_, _, failure⟩
        rw [deliverFrom] at failure
        cases failure
      · rintro ⟨before, segment, after, split, _⟩
        cases before <;> cases split
  | cons segment others induction =>
      cases evaluated : query.hits segment with
      | error own =>
          -- Here the delivery ends, so nothing behind the segment counts.
          have stuck := query.deliverFrom_of_error budget left evaluated
          rw [stuck]
          constructor
          · rintro ⟨_, accepted, failure⟩
            cases failure
            refine ⟨[], segment, others, rfl, evaluated, ?_, by rw [deliverFrom]; rfl⟩
            exact Accumulator.stop_le_of_accepted accepted (List.mem_singleton_self _)
          · rintro ⟨before, failing, after, split, fails, fits, reached⟩
            cases before with
            | nil =>
                cases split
                cases evaluated.symm.trans fails
                refine ⟨by simp, ?_, rfl⟩
                rw [Delivery.handOver_of_accepted (Accumulator.receive_enter fits)]
                rfl
            | cons first earlier =>
                cases split
                rw [stuck] at reached
                exact absurd reached (Delivery.handOver_ne_none _ _)
      | ok hits =>
          rcases query.deliverFrom_cons budget left evaluated with
            ⟨rest, delivered⟩ | ⟨reason, calls, aborts, failure, delivered⟩
          · have whole : ∀ reason, Call.abort reason ∉
                (.enter segment :: (segment.liveIn hits).map .accept : List Call) := by simp
            rw [delivered, Delivery.failsSilently_prepend whole, induction,
              Accumulator.handOver_bound]
            constructor
            · rintro ⟨accepted, before, failing, after, split, fails, fits, reached⟩
              refine ⟨segment :: before, failing, after, by rw [split]; rfl, fails, fits, ?_⟩
              rw [delivered, Delivery.into_prepend]
              exact ⟨accepted, reached⟩
            · rintro ⟨before, failing, after, split, fails, fits, reached⟩
              rcases query.exists_earlier evaluated fails split with ⟨earlier, rfl, rest⟩
              rw [delivered, Delivery.into_prepend] at reached
              exact ⟨reached.1, earlier, failing, after, rest, fails, fits, reached.2⟩
          -- The budget ends the delivery, and the abort is a mark.
          · rw [delivered]
            constructor
            · rintro ⟨whole, _⟩
              exact absurd aborts (whole reason)
            · rintro ⟨before, failing, after, split, fails, _, reached⟩
              rcases query.exists_earlier evaluated fails split with ⟨earlier, rfl, _⟩
              rw [delivered] at reached
              exact absurd reached (Delivery.handOver_ne_none _ _)

end Query

/-! ## Sets

A set fails silently when all segments that it reaches are accepted and one of its members lies
in none. The segment that an id is looked up in ends behind the id, and is entered first unless
it is the current one. -/

namespace IdSet

theorem segmentFor?_eq_some {current : Option Segment} {following : List Segment}
    {id : DocumentId} {opening : List Call} {segment : Segment} {rest : List Segment}
    (found : segmentFor? current following id = some (opening, segment, rest)) :
    id.toNat < segment.stop ∧
      (opening = [] ∧ current = some segment ∨ opening = [.enter segment]) := by
  rw [segmentFor?] at found
  split at found
  · next same kept =>
      cases found
      rw [Option.filter_eq_some_iff] at kept
      exact ⟨by simpa using kept.2, .inl ⟨rfl, kept.1⟩⟩
  · split at found
    · cases found
    · next next others dropped =>
        cases found
        exact ⟨(Segment.lt_stop_of_dropWhile dropped).2, .inr rfl⟩

theorem abort_not_mem_deliverFrom (current : Option Segment) (following : List Segment)
    (ids : List DocumentId) (reason : String) :
    Call.abort reason ∉ (deliverFrom current following ids).calls := by
  induction ids generalizing current following with
  | nil => simp [deliverFrom]
  | cons id ids induction =>
      rw [deliverFrom]
      split
      · simp
      · next opening segment rest found =>
          have quiet : Call.abort reason ∉ opening := by
            rcases (segmentFor?_eq_some found).2 with ⟨rfl, _⟩ | rfl <;> simp
          split
          · exact quiet
          · rw [Delivery.prepend, List.mem_append, List.mem_append, List.mem_singleton]
            rintro ((member | equal) | member)
            · exact quiet member
            · cases equal
            · exact induction _ _ member

section Accepted

variable {accumulator : Accumulator} {documents : List Nat} {current : Option Segment}
  {following : List Segment}

theorem handOver_opening {id : DocumentId} {opening : List Call} {segment : Segment}
    {rest : List Segment} (gathers : accumulator.Gathers documents)
    (entered : ∀ segment, current = some segment →
      accumulator.base = segment.base ∧ accumulator.segmentSize = segment.size)
    (found : segmentFor? current following id = some (opening, segment, rest))
    (fits : ∀ other, Call.enter other ∈ opening → other.stop ≤ accumulator.bound) :
    ∃ there : Accumulator, Delivery.handOver none opening accumulator = (there, none) ∧
      there.Gathers documents ∧ there.bound = accumulator.bound ∧
      there.base = segment.base ∧ there.segmentSize = segment.size := by
  rcases (segmentFor?_eq_some found).2 with ⟨rfl, same⟩ | rfl
  · exact ⟨accumulator, rfl, gathers, rfl, entered segment same⟩
  · have segmentFits := fits segment (List.mem_singleton_self _)
    refine ⟨_, ?_, gathers.enter segmentFits, rfl, rfl, rfl⟩
    rw [Delivery.handOver_of_accepted (Accumulator.receive_enter segmentFits)]
    rfl

theorem deliverFrom_accepted {ids : List DocumentId} (gathers : accumulator.Gathers documents)
    (entered : ∀ segment, current = some segment →
      accumulator.base = segment.base ∧ accumulator.segmentSize = segment.size)
    (fits : ∀ segment, Call.enter segment ∈ (deliverFrom current following ids).calls →
      segment.stop ≤ accumulator.bound) :
    (Delivery.handOver none (deliverFrom current following ids).calls accumulator).2 = none := by
  induction ids generalizing accumulator documents current following with
  | nil => rfl
  | cons id ids induction =>
      rw [deliverFrom] at fits ⊢
      cases found : segmentFor? current following id with
      | none => rfl
      | some result =>
          rcases result with ⟨opening, segment, rest⟩
          have below := (segmentFor?_eq_some found).1
          simp only [found] at fits ⊢
          split at fits
          · next before =>
              rcases handOver_opening gathers entered found fits with ⟨there, accepted, _⟩
              rw [if_pos before, accepted]
          · next notBefore =>
              rw [if_neg notBefore]
              have openingFits : ∀ other, Call.enter other ∈ opening →
                  other.stop ≤ accumulator.bound := fun other member =>
                fits other (by simp [Delivery.prepend, member])
              rcases handOver_opening gathers entered found openingFits with
                ⟨there, accepted, thereGathers, bound, base, size⟩
              have least : segment.base.toNat ≤ id.toNat :=
                UInt32.le_iff_toNat_le.mp (UInt32.not_lt.mp notBefore)
              have inside : (id - segment.base).toNat < there.segmentSize := by
                rw [size]
                exact (Segment.toNat_sub_base ⟨least, below⟩).1
              rcases thereGathers.accept inside with ⟨holding, added, more⟩
              rw [Delivery.prepend, Delivery.handOver_append, Delivery.handOver_append, accepted]
              simp only [Delivery.handOver_of_accepted added]
              refine induction more (fun other same => ?_) fun other member => ?_
              · cases same
                exact ⟨base, size⟩
              · change _ ≤ there.bound
                rw [bound]
                exact fits other (by simp [Delivery.prepend, member])

end Accepted

theorem failsSilently_iff {accumulator last : Accumulator} {documents : List Nat}
    {error : Error} (docs : IdSet) (segments : List Segment)
    (gathers : accumulator.Gathers documents)
    (ended : (docs.deliver segments).into accumulator = (last, some error)) :
    (docs.deliver segments).FailsSilently accumulator error ↔
      ∀ segment, Call.enter segment ∈ (docs.deliver segments).calls →
        segment.stop ≤ accumulator.bound := by
  constructor
  · rintro ⟨_, accepted, _⟩ segment
    exact Accumulator.stop_le_of_accepted accepted
  · intro fits
    have accepted := deliverFrom_accepted gathers (by simp) fits
    have all : Delivery.handOver none (docs.deliver segments).calls accumulator =
        ((Delivery.handOver none (docs.deliver segments).calls accumulator).1, none) :=
      Prod.ext rfl accepted
    rw [Delivery.into, Delivery.handOver_of_all_accepted all] at ended
    exact ⟨fun reason => abort_not_mem_deliverFrom _ _ _ reason, accepted,
      (Prod.ext_iff.mp ended).2⟩

end IdSet

/-! ## What can be finished after a failure -/

/-- The query gets as far as a segment in which it cannot be evaluated: everything
delivered before is accepted, and the segment fits. -/
def Query.BreaksOff (query : Query) (index : Index) (accumulator : Accumulator)
    (error : Error) : Prop :=
  ∃ before segment after, index.segments = before ++ segment :: after ∧
    query.hits segment = .error error ∧ segment.stop ≤ accumulator.bound ∧
    ((query.deliver { index with segments := before }).into accumulator).2 = none

/-- After a failed evaluation nothing can be finished, unless the query broke off in a
segment. After a failed delivery of a set nothing can be finished only if a segment was
refused. -/
theorem Accumulator.finish_error_iff {bound : Nat} {policy : Policy} {blank : Accumulator}
    (started : start bound policy = .ok blank) :
    (∀ (query : Query) (index : Index) last error,
      (query.deliver index).into blank = (last, some error) →
        ((∃ refusal, last.finish = .error refusal) ↔ ¬ query.BreaksOff index blank error)) ∧
    ∀ (docs : IdSet) segments last error,
      (docs.deliver segments).into blank = (last, some error) →
        ((∃ refusal, last.finish = .error refusal) ↔
          ∃ segment, Call.enter segment ∈ (docs.deliver segments).calls ∧
            bound < segment.stop) := by
  have within : bound ≤ DocumentId.count := by
    rw [start] at started
    split at started
    · cases started
    · next within => exact Nat.le_of_not_lt within
  rcases start_eq_ok within policy with ⟨other, otherStarted, gathers, bounded, _⟩
  cases started.symm.trans otherStarted
  constructor
  · intro query index last error ended
    rw [gathers.finish_error_iff_not_silent ended]
    exact not_congr (query.failsSilently_iff _ _ _ _ _)
  · intro docs segments last error ended
    rw [gathers.finish_error_iff_not_silent ended,
      docs.failsSilently_iff segments gathers ended, bounded]
    simp only [not_forall, Nat.not_le, exists_prop]

theorem Accumulator.finish_error_iff_four :
    ∃ blank, start 4 {} = .ok blank ∧
      (∃ last, (Query.all.deliver ⟨[{ base := 0, size := 4 }], 4, 4, some 1⟩).into blank =
          (last, some (.budgetExceeded 1)) ∧
        ((∃ refusal, last.finish = .error refusal) ↔
          ¬ Query.all.BreaksOff ⟨[{ base := 0, size := 4 }], 4, 4, some 1⟩ blank
            (.budgetExceeded 1))) ∧
      ∃ last, ((IdSet.sparse #[1, 5]).deliver [{ base := 0, size := 2 }]).into blank =
          (last, some (.idBeyondSegments 5)) ∧
        ((∃ refusal, last.finish = .error refusal) ↔
          ∃ segment, Call.enter segment ∈
              ((IdSet.sparse #[1, 5]).deliver [{ base := 0, size := 2 }]).calls ∧
            4 < segment.stop) := by
  have started : start 4 {} = .ok { bound := 4, limit := Policy.sparseLimit {} 4 } := rfl
  rcases finish_error_iff started with ⟨searched, delivered⟩
  have exceeded : ((Query.all.deliver ⟨[{ base := 0, size := 4 }], 4, 4, some 1⟩).into
      ({ bound := 4, limit := Policy.sparseLimit {} 4 } : Accumulator)).2 =
        some (.budgetExceeded 1) := by decide +kernel
  have outside : (((IdSet.sparse #[1, 5]).deliver [{ base := 0, size := 2 }]).into
      ({ bound := 4, limit := Policy.sparseLimit {} 4 } : Accumulator)).2 =
        some (.idBeyondSegments 5) := by decide +kernel
  exact ⟨_, started, ⟨_, Prod.ext rfl exceeded, searched _ _ _ _ (Prod.ext rfl exceeded)⟩,
    _, Prod.ext rfl outside, delivered _ _ _ _ (Prod.ext rfl outside)⟩

/-- Two segments, of which the second cannot read its postings: the match in the first is
all that a search for a term accumulates, and it can be finished. -/
theorem Accumulator.not_forall_finish_error :
    ¬ ∀ (bound : Nat) (policy : Policy) (blank last : Accumulator) (segments : List Segment)
        (budget : Option Nat) (index : Index) (query : Query) (error : Error),
      start bound policy = .ok blank → Index.ofSegments segments budget = .ok index →
        (query.deliver index).into blank = (last, some error) →
          ∃ refusal, last.finish = .error refusal := by
  intro all
  let segments : List Segment :=
    [{ base := 0, size := 2
       postings := fun _ => .ok (some { frequency := 1, items := [.ok 0] }) },
      { base := 2, size := 2, postings := fun _ => .error (.reported .other "disk") }]
  let index : Index := { segments, bound := 4, liveCount := 4 }
  have laidOut : Index.ofSegments segments none = .ok index := by
    rw [Index.ofSegments, List.mergeSort_of_pairwise (by decide)]
    rfl
  let run := ((Query.term ⟨"f", "x"⟩).deliver index).into
    ({ bound := 4, limit := Policy.sparseLimit {} 4 } : Accumulator)
  have failed : run.2 = some (.reported .other "disk") := by decide +kernel
  have partly : run.1.finish.toOption.map IdSet.toList = some [0] := by decide +kernel
  rcases all 4 {} _ run.1 segments none index _ _ rfl laidOut (Prod.ext rfl failed) with
    ⟨refusal, refused⟩
  rw [refused] at partly
  cases partly

end ResultSets
