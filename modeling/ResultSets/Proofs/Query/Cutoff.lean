import ResultSets.Delivery.Recorder
import ResultSets.Proofs.Delivery.Latch
import ResultSets.Proofs.Index.Histories
import ResultSets.Proofs.Query.Budget

namespace ResultSets

/-! Where a budget cuts a delivery off. The budget goes down over all segments, and only with
live documents. A sink that accepts everything gets the first documents that the query finds, as
many as the budget allows, each in the segment it is of. If there is one more, it is told so in
place of it, wherever this is. -/

/-! ## Sinks that accept everything -/

def Sink.Accepting {σ : Type} [Sink σ] (sink : σ) : Prop :=
  ∀ calls call, (receive (after sink calls) call).2 = none

theorem Sink.Accepting.not_refuses {σ : Type} [Sink σ] {sink : σ} (accepting : Accepting sink)
    (calls : List Call) : ¬ Refuses sink calls := by
  intro refuses
  rcases refuses with ⟨before, call, _, refused⟩
  rw [accepting before call] at refused
  cases refused

theorem Delivery.into_eq_after {σ : Type} [Sink σ] {sink : σ} (accepting : Sink.Accepting sink)
    (delivery : Delivery) :
    delivery.into sink = (Sink.after sink delivery.calls, delivery.failure) :=
  handOver_of_not_refuses (accepting.not_refuses delivery.calls) delivery.failure

theorem Recorder.accepting {recorder : Recorder} (unlimited : recorder.limit = none) :
    Sink.Accepting recorder := by
  intro calls
  induction calls generalizing recorder with
  | nil =>
      intro call
      cases call with
      | enter segment => rfl
      | accept id => simp [Sink.receive, Sink.accept, Sink.after, accept, unlimited]
      | abort reason => rfl
  | cons call rest induction =>
      rw [Sink.after_cons]
      apply induction
      cases call with
      | enter segment => exact unlimited
      | accept id =>
          simp only [Sink.receive, Sink.accept, accept, unlimited, Option.any_none,
            Bool.false_eq_true, if_false]
      | abort reason => exact unlimited

namespace Query

variable {query : Query} {segment : Segment} {segments : List Segment} {id : DocumentId}

/-! ## The documents found -/

def numbers (query : Query) (segments : List Segment) : List Nat :=
  (query.found segments).map fun item => item.1.base.toNat + item.2.toNat

theorem numbers_eq_flatMap (query : Query) (segments : List Segment) :
    query.numbers segments =
      segments.flatMap fun segment =>
        (query.foundIn segment).map (segment.base.toNat + ·.toNat) := by
  rw [numbers, found, List.map_flatMap]
  simp only [List.map_map]
  rfl

theorem mem_numbers (evaluated : query.EvaluatesIn segments)
    (within : ∀ segment ∈ segments, segment.stop ≤ DocumentId.count) (document : Nat) :
    document ∈ query.numbers segments ↔ query.Finds segments document := by
  rw [numbers_eq_flatMap, List.mem_flatMap, Finds]
  apply exists_congr
  intro segment
  apply and_congr_right
  intro member
  rcases evaluated segment member with ⟨hits, here, length⟩
  have small : hits.length ≤ DocumentId.count := by
    have stop : segment.stop = segment.base.toNat + segment.size := rfl
    have below := within segment member
    omega
  rw [foundIn_of_ok here, Segment.mem_liveIn small]
  simp only [here, Except.ok.injEq, exists_eq_left']

theorem foundIn_ascending (evaluated : query.EvaluatesIn segments)
    (within : ∀ segment ∈ segments, segment.stop ≤ DocumentId.count)
    (member : segment ∈ segments) :
    Ascending (query.foundIn segment) ∧ ∀ id ∈ query.foundIn segment, id.toNat < segment.size := by
  rcases evaluated segment member with ⟨hits, here, length⟩
  have inside := segment.lt_size_of_mem_liveIn length (within segment member)
  rw [foundIn_of_ok here]
  refine ⟨(Bitmap.ids_ascending fun position held => ?_).filter _, inside⟩
  have stop : segment.stop = segment.base.toNat + segment.size := rfl
  have below := Bitmap.lt_length_of_mem held
  have least := within segment member
  omega

theorem nodup_numbers {index : Index} (laidOut : index.LaidOut)
    (evaluated : query.EvaluatesIn index.segments) : (query.numbers index.segments).Nodup := by
  have found := fun segment => @foundIn_ascending _ segment _ evaluated laidOut.stop_le_count
  rw [numbers_eq_flatMap]
  apply Segment.nodup_flatMap laidOut.apart
  · intro segment member
    apply (found segment member).1.nodup.map
    intro left right same
    exact UInt32.toNat_inj.mp (Nat.add_left_cancel same)
  · intro segment member document listed
    rcases List.mem_map.mp listed with ⟨id, foundHere, rfl⟩
    have below := (found segment member).2 id foundHere
    have stop : segment.stop = segment.base.toNat + segment.size := rfl
    omega

theorem mem_foundIn (standard : query.Standard) (history : SegmentHistory)
    (within : history.toSegment.stop ≤ DocumentId.count) :
    id ∈ query.foundIn history.toSegment ↔ history.Live id.toNat ∧
      query.Denotes (history.Indexed id.toNat) (history.base.toNat + id.toNat) := by
  rcases hits_of_history history standard with ⟨hits, evaluated, marks⟩
  have stop : history.toSegment.stop = history.toSegment.base.toNat + history.toSegment.size := rfl
  have inside : ∀ position, position ∈ hits → position < DocumentId.count := by
    intro position member
    have below := (marks.mem_iff.mp member).1
    rw [← history.toSegment_size] at below
    omega
  rw [foundIn_of_ok evaluated, Segment.liveIn, List.mem_filter, Bitmap.mem_ids inside,
    marks.mem_iff]
  constructor
  · intro both
    exact ⟨(history.isLive_iff both.1.1).mp both.2, both.1.2⟩
  · intro both
    have below := both.1.1
    exact ⟨⟨below, both.2⟩, (history.isLive_iff below).mpr both.1⟩

end Query

/-! ## Budgets -/

namespace Resolver

variable {index : Index} {query : Query} {session : Session}

theorem evaluate_of_count_le (laidOut : index.LaidOut)
    (evaluated : query.EvaluatesIn index.segments) (policy : Policy)
    (knows : session.Knows index) {limit : Nat} (bounded : index.budget = some limit)
    (enough : query.count index.segments ≤ limit) :
    ∃ docs next, (index.resolver policy).evaluate query session = .ok (docs, next) ∧
      docs.set.size = query.count index.segments ∧
      ∀ document, docs.set.Holds document ↔ document ∈ query.numbers index.segments := by
  have within : ¬ query.Exceeds index := by
    intro exceeds
    rcases exceeds with ⟨other, same, exceeded⟩
    cases bounded.symm.trans same
    omega
  rcases evaluate_eq_settle_of_not_exceeds laidOut evaluated policy within with
    ⟨documents, set, held, finds, evaluates⟩
  rcases share_settle_eq_ok laidOut policy knows held.1 with
    ⟨docs, next, settles, wellFormed, members, _⟩
  have holds : ∀ document, docs.set.Holds document ↔ document ∈ query.numbers index.segments := by
    intro document
    rw [members, held.2.1, finds, Query.mem_numbers evaluated laidOut.stop_le_count]
  refine ⟨docs, next, (evaluates session).trans settles, ?_, holds⟩
  rw [IdSet.size_eq_card wellFormed holds,
    List.toFinset_card_of_nodup (Query.nodup_numbers laidOut evaluated), Query.numbers,
    List.length_map, Query.length_found]

/-- Under a budget, what is delivered are the first live documents that the query denotes, in
the order of the segments and then of the ids, each in its own segment. If there are no more of
them than the budget allows, all are delivered, and evaluating the query ends in the set of
them. If there are, the sink is told so once, in place of the first one too many and as the last
call, and evaluating the query fails for it. -/
theorem evaluate_cuts {histories : List SegmentHistory} {limit : Nat}
    (made : Index.ofSegments (histories.map (·.toSegment)) (some limit) = .ok index)
    (standard : query.Standard) :
    (∀ history ∈ histories, Ascending (query.foundIn history.toSegment) ∧
      ∀ id, id ∈ query.foundIn history.toSegment ↔ history.Live id.toNat ∧
        query.Denotes (history.Indexed id.toNat) (history.base.toNat + id.toNat)) ∧
    ∃ calls error, error.isResourceExhausted = true ∧
      (∀ current, Call.accepted current calls =
        (query.found (histories.map (·.toSegment))).take limit) ∧
      (∀ reason, Call.abort reason ∉ calls) ∧
      ((query.found (histories.map (·.toSegment))).length ≤ limit →
        (∀ {σ : Type} [Sink σ] (sink : σ), Sink.Accepting sink →
          (query.deliver index).into sink = (Sink.after sink calls, none)) ∧
        ∀ policy session, Session.Evolves index {} session →
          ∃ docs next, (index.resolver policy).evaluate query session = .ok (docs, next) ∧
            docs.set.size = (query.found (histories.map (·.toSegment))).length ∧
            ∀ document, docs.set.Holds document ↔
              document ∈ query.numbers (histories.map (·.toSegment))) ∧
      (limit < (query.found (histories.map (·.toSegment))).length →
        (∀ {σ : Type} [Sink σ] (sink : σ), Sink.Accepting sink →
          (query.deliver index).into sink =
            (Sink.after sink (calls ++ [.abort error.detail]), some error)) ∧
        ∀ policy session, (index.resolver policy).evaluate query session = .error error) := by
  rcases Index.ofSegments_laidOut made with ⟨laidOut, segments, bounded⟩
  have readable : ∀ segment ∈ index.segments, ∃ indexed, segment.Readable indexed := by
    rw [segments]
    exact SegmentHistory.toSegments_readable histories
  have evaluated : query.EvaluatesIn index.segments := standard.evaluatesIn readable
  have delivery : query.deliver index = query.deliverFrom (some limit) limit index.segments := by
    rw [Query.deliver, bounded]
    rfl
  rcases Query.deliverFrom_cuts evaluated limit limit with
    ⟨calls, accepted, whole, _, enough, exceeds⟩
  rw [← segments, Query.length_found]
  constructor
  · intro history member
    have listed : history.toSegment ∈ index.segments := by
      rw [segments]
      exact List.mem_map_of_mem member
    exact ⟨(Query.foundIn_ascending evaluated laidOut.stop_le_count listed).1,
      fun id => Query.mem_foundIn standard history (laidOut.stop_le_count _ listed)⟩
  · refine ⟨calls, .budgetExceeded limit, rfl, accepted, whole, fun fits => ⟨?_, ?_⟩,
      fun exceeded => ⟨?_, ?_⟩⟩
    · intro σ _ sink accepting
      rw [Delivery.into_eq_after accepting, delivery, enough fits]
    · intro policy session reached
      exact evaluate_of_count_le laidOut evaluated policy
        (reached.knows laidOut (Session.knows_blank index)) bounded fits
    · intro σ _ sink accepting
      rw [Delivery.into_eq_after accepting, delivery, exceeds exceeded]
      rfl
    · intro policy session
      exact evaluate_of_lt_count laidOut evaluated policy bounded exceeded session

/-- Three documents are found, one of them in the segment that is listed first. Two of them are
delivered where two are allowed, and a set of three is made where three are. -/
theorem evaluate_cuts_three :
    ∃ tight wide, Index.ofSegments
        ([⟨5, 3, [.add ⟨"f", "x"⟩ 1, .add ⟨"f", "x"⟩ 2, .delete 1]⟩,
          ⟨0, 2, [.add ⟨"f", "x"⟩ 1, .add ⟨"f", "x"⟩ 0]⟩].map SegmentHistory.toSegment)
          (some 2) = .ok tight ∧
      Index.ofSegments
        ([⟨5, 3, [.add ⟨"f", "x"⟩ 1, .add ⟨"f", "x"⟩ 2, .delete 1]⟩,
          ⟨0, 2, [.add ⟨"f", "x"⟩ 1, .add ⟨"f", "x"⟩ 0]⟩].map SegmentHistory.toSegment)
          (some 3) = .ok wide ∧
      (∃ last error, ((Query.term ⟨"f", "x"⟩).deliver tight).into ({} : Recorder) =
          (last, some error) ∧
        error.isResourceExhausted = true ∧ last.aborted = some error.detail ∧
        (tight.resolver {}).evaluate (.term ⟨"f", "x"⟩) {} = .error error) ∧
      ∃ docs next, (wide.resolver {}).evaluate (.term ⟨"f", "x"⟩) {} = .ok (docs, next) ∧
        docs.set.size = 3 ∧ docs.set.Holds 7 := by
  let histories : List SegmentHistory :=
    [⟨5, 3, [.add ⟨"f", "x"⟩ 1, .add ⟨"f", "x"⟩ 2, .delete 1]⟩,
      ⟨0, 2, [.add ⟨"f", "x"⟩ 1, .add ⟨"f", "x"⟩ 0]⟩]
  have made : ∀ limit : Nat, Index.ofSegments (histories.map (·.toSegment)) (some limit) =
      .ok ⟨histories.map (·.toSegment), 8, 4, some limit⟩ := by
    intro limit
    have spans : (histories.map (·.toSegment)).map Segment.span = [⟨5, 8⟩, ⟨0, 2⟩] := rfl
    have sorted : [⟨5, 8⟩, ⟨0, 2⟩].mergeSort Span.le = [⟨0, 2⟩, ⟨5, 8⟩] := by
      simp [List.mergeSort, Span.le]
    rw [Index.ofSegments, spans, sorted]
    rfl
  have standard : (Query.term ⟨"f", "x"⟩).Standard := by
    rw [Query.Standard]
    trivial
  refine ⟨_, _, made 2, made 3, ?_, ?_⟩
  · rcases evaluate_cuts (made 2) standard with
      ⟨_, calls, error, exhausted, _, _, _, exceeded⟩
    rcases exceeded (by decide +kernel) with ⟨cut, fails⟩
    refine ⟨_, error, cut {} (Recorder.accepting rfl), exhausted, ?_, fails {} {}⟩
    rw [Sink.after_concat]
    rfl
  · rcases evaluate_cuts (made 3) standard with ⟨_, _, _, _, _, _, within, _⟩
    rcases (within (by decide +kernel)).2 {} {} .refl with ⟨docs, next, evaluates, size, holds⟩
    refine ⟨docs, next, evaluates, size.trans (by decide +kernel), (holds 7).mpr ?_⟩
    decide +kernel

end Resolver

end ResultSets
