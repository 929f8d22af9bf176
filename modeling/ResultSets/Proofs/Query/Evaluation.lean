import ResultSets.Proofs.Query.Hits
import ResultSets.Proofs.Resolver.Settle

namespace ResultSets

/-! Evaluating a query over a whole index. Where nothing bounds the evaluation and the query
can be evaluated in every segment, the accumulator takes in all live hits, segment after
segment. -/

namespace Accumulator

variable {accumulator : Accumulator} {documents : List Nat}

theorem Gathers.acceptAll (gathers : accumulator.Gathers documents) {ids : List DocumentId}
    (inside : ∀ id ∈ ids, id.toNat < accumulator.segmentSize) :
    ∃ last, Delivery.handOver none (ids.map .accept) accumulator = (last, none) ∧
      last.Gathers (documents ++ ids.map (accumulator.base.toNat + ·.toNat)) ∧
      last.bound = accumulator.bound ∧ last.limit = accumulator.limit := by
  induction ids generalizing accumulator documents with
  | nil =>
      refine ⟨accumulator, rfl, ?_, rfl, rfl⟩
      rw [List.map_nil, List.append_nil]
      exact gathers
  | cons id rest induction =>
      rcases gathers.accept (inside id (.head _)) with ⟨holding, added, more⟩
      rcases induction more fun other member => inside other (.tail _ member) with
        ⟨last, accepted, all, bound, limit⟩
      refine ⟨last, ?_, ?_, bound, limit⟩
      · rw [List.map_cons, Delivery.handOver_of_accepted added]
        exact accepted
      · rw [List.append_assoc] at all
        exact all

theorem Gathers.enterAndAccept (gathers : accumulator.Gathers documents) {segment : Segment}
    (fits : segment.stop ≤ accumulator.bound) {ids : List DocumentId}
    (inside : ∀ id ∈ ids, id.toNat < segment.size) :
    ∃ last, Delivery.handOver none (.enter segment :: ids.map .accept) accumulator =
        (last, none) ∧
      last.Gathers (documents ++ ids.map (segment.base.toNat + ·.toNat)) ∧
      last.bound = accumulator.bound ∧ last.limit = accumulator.limit := by
  rw [Delivery.handOver_of_accepted (receive_enter fits)]
  exact (gathers.enter fits).acceptAll inside

end Accumulator

namespace Segment

theorem lt_size_of_mem_liveIn {segment : Segment} {hits : Bitmap}
    (length : hits.length = segment.size) (within : segment.stop ≤ DocumentId.count) :
    ∀ id ∈ segment.liveIn hits, id.toNat < segment.size := by
  intro id member
  have listed := (List.mem_filter.mp member).1
  have stop : segment.stop = segment.base.toNat + segment.size := rfl
  rw [← length]
  refine Bitmap.lt_length_of_mem ((Bitmap.mem_ids (fun position held => ?_) id).mp listed)
  have below := Bitmap.lt_length_of_mem held
  omega

theorem mem_liveIn {segment : Segment} {hits : Bitmap}
    (within : hits.length ≤ DocumentId.count) (document : Nat) :
    document ∈ (segment.liveIn hits).map (segment.base.toNat + ·.toNat) ↔
      ∃ position ∈ hits, segment.live.all (·.get position) ∧
        document = segment.base.toNat + position := by
  have inside : ∀ position, position ∈ hits → position < DocumentId.count := fun position member =>
    Nat.lt_of_lt_of_le (Bitmap.lt_length_of_mem member) within
  rw [liveIn, List.mem_map]
  constructor
  · rintro ⟨id, member, rfl⟩
    rcases List.mem_filter.mp member with ⟨listed, live⟩
    exact ⟨id.toNat, (Bitmap.mem_ids inside id).mp listed, live, rfl⟩
  · rintro ⟨position, member, live, rfl⟩
    have same := UInt32.toNat_ofNat_of_lt' (inside position member)
    refine ⟨UInt32.ofNat position, List.mem_filter.mpr ⟨?_, ?_⟩, by rw [same]⟩
    · rw [Bitmap.mem_ids inside, same]
      exact member
    · rw [isLive, same]
      exact live

end Segment

namespace Query

variable {query : Query}

def Finds (query : Query) (segments : List Segment) (document : Nat) : Prop :=
  ∃ segment ∈ segments, ∃ hits, query.hits segment = .ok hits ∧
    ∃ position ∈ hits, segment.live.all (·.get position) ∧
      document = segment.base.toNat + position

def EvaluatesIn (query : Query) (segments : List Segment) : Prop :=
  ∀ segment ∈ segments, ∃ hits, query.hits segment = .ok hits ∧ hits.length = segment.size

theorem finds_members {docs : Shared} (wellFormed : docs.set.WellFormed) {segments : List Segment}
    {document : Nat} :
    (Query.members docs).Finds segments document ↔
      docs.set.Holds document ∧ ∃ segment ∈ segments, segment.Lives document := by
  rw [Finds, ← exists_and_left]
  apply exists_congr
  intro segment
  rw [and_left_comm]
  apply and_congr_right
  intro _
  rcases segment.memberHits_eq_ok wellFormed with ⟨hits, evaluated, marks⟩
  have found : (Query.members docs).hits segment = .ok hits := evaluated
  simp only [found, Except.ok.injEq, exists_eq_left', marks.mem_iff]
  constructor
  · intro hit
    rcases hit with ⟨position, member, live, rfl⟩
    exact ⟨member.2, position, member.1, live, rfl⟩
  · intro lives
    rcases lives with ⟨held, position, inside, live, rfl⟩
    exact ⟨position, ⟨inside, held⟩, live, rfl⟩

theorem evaluatesIn_members {docs : Shared} (wellFormed : docs.set.WellFormed)
    (segments : List Segment) : (Query.members docs).EvaluatesIn segments := by
  intro segment _
  rcases segment.memberHits_eq_ok wellFormed with ⟨hits, evaluated, length, _⟩
  exact ⟨hits, evaluated, length⟩

theorem Standard.evaluatesIn (standard : query.Standard) {segments : List Segment}
    (readable : ∀ segment ∈ segments, ∃ indexed, segment.Readable indexed) :
    query.EvaluatesIn segments := by
  intro segment member
  rcases readable segment member with ⟨indexed, reads⟩
  rcases query.hits_eq_ok reads standard with ⟨hits, found, length, _⟩
  exact ⟨hits, found, length⟩

theorem deliverFrom_gathers {segments : List Segment} {accumulator : Accumulator}
    {documents : List Nat} (gathers : accumulator.Gathers documents)
    (fits : ∀ segment ∈ segments, segment.stop ≤ accumulator.bound)
    (evaluated : query.EvaluatesIn segments) (left : Nat) :
    ∃ last found, (query.deliverFrom none left segments).into accumulator = (last, none) ∧
      last.Gathers (documents ++ found) ∧ last.bound = accumulator.bound ∧
      last.limit = accumulator.limit ∧
      ∀ document, document ∈ found ↔ query.Finds segments document := by
  induction segments generalizing accumulator documents with
  | nil =>
      refine ⟨accumulator, [], ?_, ?_, rfl, rfl, fun document => ?_⟩
      · rw [deliverFrom]
        rfl
      · rw [List.append_nil]
        exact gathers
      · simp [Finds]
  | cons segment rest induction =>
      rcases evaluated segment (.head _) with ⟨hits, here, length⟩
      have stop := fits segment (.head _)
      have small : hits.length ≤ DocumentId.count := by
        have within := gathers.within
        have sum : segment.stop = segment.base.toNat + segment.size := rfl
        omega
      have inside :=
        segment.lt_size_of_mem_liveIn length (Nat.le_trans stop gathers.within)
      rcases gathers.enterAndAccept stop inside with ⟨middle, accepted, all, bound, limit⟩
      rcases induction all (by
          rw [bound]
          exact fun other member => fits other (.tail _ member))
        (fun other member => evaluated other (.tail _ member)) with
        ⟨last, found, ended, gathered, lastBound, lastLimit, members⟩
      refine ⟨last, (segment.liveIn hits).map (segment.base.toNat + ·.toNat) ++ found, ?_, ?_,
        lastBound.trans bound, lastLimit.trans limit, fun document => ?_⟩
      · rw [deliverFrom, here]
        dsimp only
        rw [Delivery.into, Delivery.prepend, Delivery.handOver_append, accepted]
        exact ended
      · rw [← List.append_assoc]
        exact gathered
      · rw [List.mem_append, members, Segment.mem_liveIn small, Finds, Finds,
          List.exists_mem_cons_iff]
        simp only [here, Except.ok.injEq, exists_eq_left']

theorem hits_of_deliverFrom {segments : List Segment} {accumulator : Accumulator} {left : Nat}
    (ended : ((query.deliverFrom none left segments).into accumulator).2 = none) :
    ∀ segment ∈ segments, ∃ hits, query.hits segment = .ok hits := by
  induction segments generalizing accumulator with
  | nil => simp
  | cons segment rest induction =>
      rw [deliverFrom] at ended
      cases evaluated : query.hits segment with
      | error error =>
          rw [evaluated] at ended
          exact absurd ended (Delivery.handOver_ne_none _ _)
      | ok hits =>
          rw [evaluated] at ended
          have later := ((Delivery.into_prepend _ _).mp ended).2
          exact List.forall_mem_cons.mpr ⟨⟨hits, evaluated⟩, induction later⟩

end Query

namespace Resolver

variable {index : Index} {query : Query} {policy : Policy}

/-- Without a budget, evaluating a query yields the set of what it finds. -/
theorem evaluate_eq_settle (laidOut : index.LaidOut) (unbounded : index.budget = none)
    (evaluated : query.EvaluatesIn index.segments) (policy : Policy) :
    ∃ documents set, Accumulator.Holding.Settles index.bound (policy.sparseLimit index.bound)
        documents set ∧
      (∀ document, document ∈ documents ↔ query.Finds index.segments document) ∧
      ∀ session, (index.resolver policy).evaluate query session =
        (index.resolver policy).settle (session.share set).1 (session.share set).2 := by
  rcases Accumulator.start_eq_ok laidOut.within policy with
    ⟨blank, started, gathers, bounded, limited, _⟩
  have fits : ∀ segment ∈ index.segments, segment.stop ≤ blank.bound := by
    rw [bounded]
    exact laidOut.inside
  rcases Query.deliverFrom_gathers gathers fits evaluated (index.budget.getD 0) with
    ⟨last, found, ended, gathered, lastBound, lastLimit, members⟩
  rcases gathered.finish with ⟨set, finished, settles⟩
  rw [lastBound, lastLimit, bounded, limited, List.nil_append] at settles
  refine ⟨found, set, settles, members, fun session => ?_⟩
  have delivered : (query.deliver index).into blank = (last, none) := by
    rw [Query.deliver, unbounded]
    rw [unbounded] at ended
    exact ended
  rw [evaluate_eq started, delivered]
  simp only [finished]

theorem hits_of_evaluate (laidOut : index.LaidOut) (unbounded : index.budget = none)
    {session : Session} {result : Shared × Session}
    (evaluated : (index.resolver policy).evaluate query session = .ok result) :
    ∀ segment ∈ index.segments, ∃ hits, query.hits segment = .ok hits := by
  rcases Accumulator.start_eq_ok laidOut.within policy with ⟨blank, started, _⟩
  rw [evaluate_eq started] at evaluated
  split at evaluated
  · cases evaluated
  · next last ended =>
      rw [Query.deliver, unbounded] at ended
      apply Query.hits_of_deliverFrom
      rw [ended]

end Resolver

end ResultSets
