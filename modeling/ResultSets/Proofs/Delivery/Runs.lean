import ResultSets.Index.Session
import ResultSets.Proofs.Delivery.Accumulator

namespace ResultSets

/-! Whole runs of an accumulator. However the segments are entered and the documents
accepted, a run in which nothing is refused ends in the one set of the documents offered,
and the form of the set depends on their number alone. -/

namespace Delivery

variable {σ : Type} [Sink σ] {sink next : σ} {failure : Option Error} {call : Call}
  {rest : List Call}

theorem handOver_of_accepted (accepted : Sink.receive sink call = (next, none)) :
    handOver failure (call :: rest) sink = handOver failure rest next := by
  rw [handOver, accepted]

theorem handOver_of_refused {refusal : Error}
    (refused : Sink.receive sink call = (next, some refusal)) :
    handOver failure (call :: rest) sink = (next, some refusal) := by
  rw [handOver, refused]

theorem handOver_of_all_accepted {calls : List Call}
    (accepted : handOver none calls sink = (next, none)) (failure : Option Error) :
    handOver failure calls sink = (next, failure) := by
  induction calls generalizing sink with
  | nil =>
      cases accepted
      rfl
  | cons call rest induction =>
      rw [handOver] at accepted ⊢
      split at accepted
      · exact induction accepted
      · cases accepted

theorem handOver_append (first second : List Call) (failure : Option Error) :
    handOver failure (first ++ second) sink =
      match handOver none first sink with
      | (next, none) => handOver failure second next
      | (next, some refusal) => (next, some refusal) := by
  induction first generalizing sink with
  | nil => rfl
  | cons call rest induction =>
      rw [List.cons_append, handOver, handOver]
      split
      · exact induction
      · rfl

end Delivery

/-! ## Runs that go on after a refusal -/

namespace Sink

variable {σ : Type} [Sink σ]

def after (sink : σ) (calls : List Call) : σ :=
  calls.foldl (fun state call => (receive state call).1) sink

theorem after_cons (sink : σ) (call : Call) (rest : List Call) :
    after sink (call :: rest) = after (receive sink call).1 rest := rfl

theorem after_append (sink : σ) (first second : List Call) :
    after sink (first ++ second) = after (after sink first) second :=
  List.foldl_append

theorem after_concat (sink : σ) (calls : List Call) (call : Call) :
    after sink (calls ++ [call]) = (receive (after sink calls) call).1 :=
  after_append sink calls [call]

end Sink

namespace Accumulator

/-- What is kept whenever a segment is entered and whenever an id is accepted is kept by a run
in which nothing fails. -/
theorem Gathers.run_induction {motive : Accumulator → List Nat → Prop} {calls : List Call}
    {accumulator last : Accumulator} {documents : List Nat}
    (enter : ∀ {current gathered} (segment : Segment), segment.stop ≤ current.bound →
      motive current gathered →
        motive { current with base := segment.base, segmentSize := segment.size } gathered)
    (accept : ∀ {current gathered id holding}, current.Gathers gathered →
      id.toNat < current.segmentSize →
      Holding.Adds current.bound current.limit (current.base + id) current.holding holding →
      motive current gathered →
        motive { current with holding } (gathered ++ [current.base.toNat + id.toNat]))
    (gathers : accumulator.Gathers documents) (kept : motive accumulator documents)
    (whole : ∀ reason, Call.abort reason ∉ calls)
    (accepted : Delivery.handOver none calls accumulator = (last, none)) :
    motive last (documents ++ Call.offered accumulator.base calls) := by
  -- What has been gathered before a call is as arbitrary as the calls that are left.
  induction calls generalizing accumulator documents with
  | nil =>
      cases accepted
      rw [Call.offered, List.append_nil]
      exact kept
  | cons call rest induction =>
      have restWhole : ∀ reason, Call.abort reason ∉ rest := fun reason member =>
        whole reason (List.mem_cons_of_mem call member)
      cases call with
      | enter segment =>
          by_cases fits : segment.stop ≤ accumulator.bound
          · rw [Delivery.handOver_of_accepted (receive_enter fits)] at accepted
            exact induction (gathers.enter fits) (enter segment fits kept) restWhole accepted
          · rcases receive_enter_refused (Nat.lt_of_not_le fits) with ⟨cause, refused⟩
            rw [Delivery.handOver_of_refused refused] at accepted
            cases accepted
      | accept id =>
          by_cases inside : id.toNat < accumulator.segmentSize
          · rcases gathers.receive_accept inside with ⟨holding, adds, received⟩
            rw [Delivery.handOver_of_accepted received] at accepted
            have result := induction (gathers.adds inside adds) (accept gathers inside adds kept)
              restWhole accepted
            rw [List.append_assoc] at result
            exact result
          · rcases receive_accept_refused gathers.whole (Nat.le_of_not_lt inside) with
              ⟨cause, refused⟩
            rw [Delivery.handOver_of_refused refused] at accepted
            cases accepted
      | abort reason => exact absurd (List.mem_cons_self ..) (whole reason)

theorem Gathers.handOver {calls : List Call} {accumulator last : Accumulator}
    {documents : List Nat} (gathers : accumulator.Gathers documents)
    (whole : ∀ reason, Call.abort reason ∉ calls)
    (accepted : Delivery.handOver none calls accumulator = (last, none)) :
    last.Gathers (documents ++ Call.offered accumulator.base calls) ∧
      last.bound = accumulator.bound ∧ last.limit = accumulator.limit := by
  exact gathers.run_induction
    (motive := fun current gathered => current.Gathers gathered ∧
      current.bound = accumulator.bound ∧ current.limit = accumulator.limit)
    (fun segment fits kept => ⟨kept.1.enter fits, kept.2⟩)
    (fun gathers inside adds kept => ⟨gathers.adds inside adds, kept.2⟩)
    ⟨gathers, rfl, rfl⟩ whole accepted

/-- A run in which nothing fails yields the set of exactly the documents it offers: the
shared empty set for none, a row for at most as many as the policy allows for a sparse
set, and a bitmap over the whole index with its exact count for more. Runs that offer the
same documents yield the same set. -/
theorem finish_eq_offered {bound : Nat} (within : bound ≤ DocumentId.count) (policy : Policy) :
    ∃ blank, start bound policy = .ok blank ∧
      ∀ calls last, (∀ reason, Call.abort reason ∉ calls) →
        Delivery.handOver none calls blank = (last, none) →
        ∃ set, last.finish = .ok set ∧ set.WellFormed ∧
          (∀ document, set.Holds document ↔ document ∈ Call.offered 0 calls) ∧
          ((Call.offered 0 calls).toFinset.card = 0 →
            set = .empty ∧ ∀ session, Session.share set session = (Shared.empty, session)) ∧
          (0 < (Call.offered 0 calls).toFinset.card →
            (Call.offered 0 calls).toFinset.card ≤ policy.sparseLimit bound →
            ∃ ids, set = .sparse ids ∧ Ascending ids.toList ∧
              ids.size = (Call.offered 0 calls).toFinset.card) ∧
          (policy.sparseLimit bound < (Call.offered 0 calls).toFinset.card →
            ∃ bitmap, set = .dense bitmap (Call.offered 0 calls).toFinset.card ∧
              bitmap.length = bound ∧ bitmap.card = (Call.offered 0 calls).toFinset.card) ∧
          ∀ otherCalls otherLast, (∀ reason, Call.abort reason ∉ otherCalls) →
            Delivery.handOver none otherCalls blank = (otherLast, none) →
            (∀ document, document ∈ Call.offered 0 otherCalls ↔
              document ∈ Call.offered 0 calls) →
            otherLast.finish = .ok set := by
  rcases start_eq_ok within policy with ⟨blank, started, gathers, bounded, limited, base⟩
  refine ⟨blank, started, fun calls last whole accepted => ?_⟩
  have settled : ∀ {someCalls someLast}, (∀ reason, Call.abort reason ∉ someCalls) →
      Delivery.handOver none someCalls blank = (someLast, none) →
      ∃ set, someLast.finish = .ok set ∧
        Holding.Settles bound (policy.sparseLimit bound) (Call.offered 0 someCalls) set := by
    intro someCalls someLast someWhole someAccepted
    rcases gathers.handOver someWhole someAccepted with ⟨all, sameBound, sameLimit⟩
    have finished := all.finish
    rw [sameBound, sameLimit, bounded, limited, base, List.nil_append] at finished
    exact finished
  rcases settled whole accepted with ⟨set, finished, settles⟩
  rcases settles.form with ⟨none, few, many⟩
  refine ⟨set, finished, settles.1, settles.2.1, fun empty => ?_, few, many, ?_⟩
  · rw [none empty]
    exact ⟨rfl, fun session => rfl⟩
  · intro otherCalls otherLast otherWhole otherAccepted same
    rcases settled otherWhole otherAccepted with ⟨other, otherFinished, otherSettles⟩
    rw [otherFinished, otherSettles.unique settles same]

theorem finish_eq_offered_twice :
    ∃ blank last, start 100 { shift := 6, slack := 1 } = .ok blank ∧
      Delivery.handOver none
        [.enter { base := 50, size := 10 }, .accept 3, .accept 1, .accept 3] blank =
          (last, none) ∧
      ∃ ids, last.finish = .ok (.sparse ids) ∧ Ascending ids.toList ∧ ids.size = 2 := by
  rcases finish_eq_offered (show 100 ≤ DocumentId.count by decide) { shift := 6, slack := 1 }
    with ⟨blank, started, runs⟩
  cases started
  have accepted : ∃ last, Delivery.handOver none
      [.enter { base := 50, size := 10 }, .accept 3, .accept 1, .accept 3]
      ({ bound := 100, limit := 2 } : Accumulator) = (last, none) := ⟨_, rfl⟩
  rcases accepted with ⟨last, accepted⟩
  rcases runs _ last (by simp) accepted with ⟨set, finished, _, _, _, few, _⟩
  rcases few (by decide) (by decide) with ⟨ids, rfl, ascending, size⟩
  exact ⟨_, last, rfl, accepted, ids, finished, ascending, size⟩

end Accumulator

end ResultSets
