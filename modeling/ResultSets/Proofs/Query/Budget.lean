import ResultSets.Proofs.Query.Evaluation

namespace ResultSets

/-! Evaluating a query under a budget. As long as it finds no more live documents than the
budget allows, the evaluation goes as it would without a budget; otherwise it is broken off,
in whatever segment the budget runs out. -/

/-! ## What a sink gets

Ids are accepted in the segment that was entered last. -/

def Call.accepted : (current : Segment) → List Call → List (Segment × DocumentId)
  | _, [] => []
  | _, .enter segment :: rest => accepted segment rest
  | current, .accept id :: rest => (current, id) :: accepted current rest
  | current, .abort _ :: rest => accepted current rest

theorem Call.accepted_append (current : Segment) (ids : List DocumentId) (rest : List Call) :
    accepted current (ids.map .accept ++ rest) =
      ids.map (current, ·) ++ accepted current rest := by
  induction ids with
  | nil => rfl
  | cons id others induction =>
      rw [List.map_cons, List.cons_append, accepted, induction, List.map_cons, List.cons_append]

namespace Query

def countIn (query : Query) (segment : Segment) : Nat :=
  match query.hits segment with
  | .ok hits => (segment.liveIn hits).length
  | .error _ => 0

def count (query : Query) (segments : List Segment) : Nat :=
  total (segments.map query.countIn)

def Exceeds (query : Query) (index : Index) : Prop :=
  ∃ limit, index.budget = some limit ∧ limit < query.count index.segments

variable {query : Query}

theorem countIn_of_ok {segment : Segment} {hits : Bitmap}
    (evaluated : query.hits segment = .ok hits) :
    query.countIn segment = (segment.liveIn hits).length := by
  rw [countIn, evaluated]

theorem count_cons (segment : Segment) (rest : List Segment) :
    query.count (segment :: rest) = query.countIn segment + query.count rest := rfl

theorem deliverFrom_of_count_le {segments : List Segment} (limit : Nat) {left : Nat}
    (other : Nat) (enough : query.count segments ≤ left) :
    query.deliverFrom (some limit) left segments = query.deliverFrom none other segments := by
  induction segments generalizing left with
  | nil =>
      rw [deliverFrom]
      rfl
  | cons segment rest induction =>
      rw [deliverFrom, deliverFrom]
      cases evaluated : query.hits segment with
      | error error => rfl
      | ok hits =>
          rw [count_cons, countIn_of_ok evaluated] at enough
          have within : ¬ left < (segment.liveIn hits).length := by omega
          dsimp only
          rw [if_neg within, induction (by omega)]

/-! ## Where a delivery is cut off -/

variable {segment : Segment} {segments : List Segment}

def foundIn (query : Query) (segment : Segment) : List DocumentId :=
  match query.hits segment with
  | .ok hits => segment.liveIn hits
  | .error _ => []

def found (query : Query) (segments : List Segment) : List (Segment × DocumentId) :=
  segments.flatMap fun segment => (query.foundIn segment).map (segment, ·)

theorem foundIn_of_ok {hits : Bitmap} (evaluated : query.hits segment = .ok hits) :
    query.foundIn segment = segment.liveIn hits := by
  rw [foundIn, evaluated]

theorem found_cons (segment : Segment) (rest : List Segment) :
    query.found (segment :: rest) =
      (query.foundIn segment).map (segment, ·) ++ query.found rest := rfl

theorem length_foundIn (query : Query) (segment : Segment) :
    (query.foundIn segment).length = query.countIn segment := by
  rw [foundIn, countIn]
  cases query.hits segment with
  | error error => rfl
  | ok hits => rfl

theorem length_found (query : Query) (segments : List Segment) :
    (query.found segments).length = query.count segments := by
  induction segments with
  | nil => rfl
  | cons segment rest induction =>
      rw [found_cons, count_cons, List.length_append, List.length_map, length_foundIn, induction]

/-- A delivery is broken off where the budget is used up, and only if there is one document
more. Without a budget it would have gone on from there. -/
theorem deliverFrom_cuts (evaluated : query.EvaluatesIn segments) (limit left : Nat) :
    ∃ calls,
      (∀ current, Call.accepted current calls = (query.found segments).take left) ∧
      (∀ reason, Call.abort reason ∉ calls) ∧
      (∀ other, calls <+: (query.deliverFrom none other segments).calls) ∧
      (query.count segments ≤ left →
        query.deliverFrom (some limit) left segments = { calls }) ∧
      (left < query.count segments →
        query.deliverFrom (some limit) left segments =
          { calls := calls ++ [.abort (Error.budgetText limit)]
            failure := some (.budgetExceeded limit) }) := by
  -- What is left of the budget shrinks by what the segments before have delivered.
  induction segments generalizing left with
  | nil =>
      refine ⟨[], fun current => ?_, by simp, fun _ => List.nil_prefix, fun _ => ?_,
        fun exceeded => ?_⟩
      · rw [found, List.flatMap_nil, List.take_nil, Call.accepted]
      · rw [deliverFrom]
      · exact absurd exceeded (Nat.not_lt_zero left)
  | cons segment rest induction =>
      rcases evaluated segment (.head _) with ⟨hits, here, _⟩
      rw [found_cons, count_cons, ← length_foundIn, foundIn_of_ok here, deliverFrom, here]
      dsimp only
      split
      · next exceeded =>
          refine ⟨.enter segment :: (((segment.liveIn hits).take left).map .accept ++ []),
            fun current => ?_, by simp [-List.map_take], fun other => ?_, fun enough => ?_,
            fun _ => by simp⟩
          · have within : left ≤ ((segment.liveIn hits).map (segment, ·)).length := by
              rw [List.length_map]
              exact Nat.le_of_lt exceeded
            rw [Call.accepted, Call.accepted_append, Call.accepted, List.append_nil,
              List.take_append_of_le_length within, List.map_take]
          · rw [deliverFrom, here, List.append_nil]
            refine List.cons_prefix_cons.mpr ⟨rfl, ?_⟩
            exact ((List.take_prefix left _).map _).trans (List.prefix_append _ _)
          · omega
      · next within =>
          rcases induction (fun other member => evaluated other (.tail _ member))
            (left - (segment.liveIn hits).length) with
            ⟨calls, accepted, whole, goesOn, enough, exceeds⟩
          refine ⟨.enter segment :: ((segment.liveIn hits).map .accept ++ calls),
            fun current => ?_, by simpa using whole, fun other => ?_, fun fits => ?_,
            fun exceeded => ?_⟩
          · have all : ((segment.liveIn hits).map (segment, ·)).length ≤ left := by
              rw [List.length_map]
              exact Nat.le_of_not_lt within
            rw [Call.accepted, Call.accepted_append, accepted, List.take_append,
              List.take_of_length_le all, List.length_map]
          · rw [deliverFrom, here]
            refine List.cons_prefix_cons.mpr ⟨rfl, ?_⟩
            exact (List.prefix_append_right_inj _).mpr (goesOn other)
          · rw [enough (by omega)]
            rfl
          · rw [exceeds (by omega), Delivery.prepend, List.cons_append, List.cons_append,
              List.append_assoc]

theorem deliverFrom_of_lt_count {accumulator : Accumulator} {documents : List Nat}
    (gathers : accumulator.Gathers documents)
    (fits : ∀ segment ∈ segments, segment.stop ≤ accumulator.bound)
    (evaluated : query.EvaluatesIn segments) (limit : Nat) {left : Nat}
    (exceeded : left < query.count segments) :
    ((query.deliverFrom (some limit) left segments).into accumulator).2 =
      some (.budgetExceeded limit) := by
  rcases deliverFrom_cuts evaluated limit left with ⟨calls, _, _, goesOn, _, exceeds⟩
  rcases deliverFrom_gathers gathers fits evaluated left with ⟨last, _, ended, _⟩
  -- what comes before the cut is not refused, since nothing is without a budget
  rcases goesOn left with ⟨more, whole⟩
  rw [Delivery.into, ← whole, Delivery.handOver_append] at ended
  rw [exceeds exceeded, Delivery.into, Delivery.handOver_append]
  split at ended
  · rfl
  · cases ended

end Query

def Index.withoutBudget (index : Index) : Index := { index with budget := none }

theorem Index.LaidOut.withoutBudget {index : Index} (laidOut : index.LaidOut) :
    index.withoutBudget.LaidOut :=
  ⟨laidOut.apart, laidOut.inside, laidOut.within, laidOut.counted⟩

namespace Resolver

variable {index : Index} {query : Query}

theorem evaluate_of_not_exceeds (laidOut : index.LaidOut) (policy : Policy)
    (within : ¬ query.Exceeds index) (session : Session) :
    (index.resolver policy).evaluate query session =
      (index.withoutBudget.resolver policy).evaluate query session := by
  have delivered : query.deliver index = query.deliver index.withoutBudget := by
    rw [Query.deliver, Query.deliver]
    cases bounded : index.budget with
    | none => rfl
    | some limit =>
        have enough : query.count index.segments ≤ limit :=
          Nat.le_of_not_lt fun exceeded => within ⟨limit, bounded, exceeded⟩
        exact Query.deliverFrom_of_count_le limit 0 enough
  rcases Accumulator.start_eq_ok laidOut.within policy with ⟨blank, started, _⟩
  have alsoStarted : Accumulator.start index.withoutBudget.bound policy = .ok blank := started
  rw [evaluate_eq started, evaluate_eq alsoStarted, delivered]
  rfl

theorem evaluate_eq_settle_of_not_exceeds (laidOut : index.LaidOut)
    (evaluated : query.EvaluatesIn index.segments) (policy : Policy)
    (within : ¬ query.Exceeds index) :
    ∃ documents set, Accumulator.Holding.Settles index.bound (policy.sparseLimit index.bound)
        documents set ∧
      (∀ document, document ∈ documents ↔ query.Finds index.segments document) ∧
      ∀ session, (index.resolver policy).evaluate query session =
        (index.resolver policy).settle (session.share set).1 (session.share set).2 := by
  rcases evaluate_eq_settle laidOut.withoutBudget rfl evaluated policy with
    ⟨documents, set, settles, finds, evaluates⟩
  refine ⟨documents, set, settles, finds, fun session => ?_⟩
  rw [evaluate_of_not_exceeds laidOut policy within, evaluates]
  rfl

theorem evaluate_of_lt_count (laidOut : index.LaidOut)
    (evaluated : query.EvaluatesIn index.segments) (policy : Policy) {limit : Nat}
    (bounded : index.budget = some limit) (exceeded : limit < query.count index.segments)
    (session : Session) :
    (index.resolver policy).evaluate query session = .error (.budgetExceeded limit) := by
  rcases Accumulator.start_eq_ok laidOut.within policy with
    ⟨blank, started, gathers, sameBound, _⟩
  have fits : ∀ segment ∈ index.segments, segment.stop ≤ blank.bound := by
    rw [sameBound]
    exact laidOut.inside
  have ended : ((query.deliver index).into blank).2 = some (.budgetExceeded limit) := by
    rw [Query.deliver, bounded]
    exact Query.deliverFrom_of_lt_count gathers fits evaluated limit exceeded
  rw [evaluate_eq started]
  split
  · next last error same =>
      rw [same] at ended
      cases ended
      rfl
  · next last same =>
      rw [same] at ended
      cases ended

end Resolver

end ResultSets
