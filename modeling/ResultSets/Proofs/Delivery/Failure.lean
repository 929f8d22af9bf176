import ResultSets.Proofs.Delivery.Runs

namespace ResultSets

/-! What is left in an accumulator when a delivery fails. A refusal and an abort are both
remembered, and nothing can be finished after them. An error that a delivery runs into by
itself, between two calls, leaves no mark: what was accepted before can still be finished,
although documents are missing. -/

/-! ## Failures that are remembered -/

namespace Accumulator

variable {accumulator last : Accumulator} {documents : List Nat} {calls : List Call}
  {failure : Option Error}

theorem receive_bound (accumulator : Accumulator) (call : Call) :
    (Sink.receive accumulator call).1.bound = accumulator.bound := by
  cases call with
  | enter segment =>
      change (accumulator.enter segment).1.bound = _
      unfold enter
      split <;> rfl
  | accept id =>
      change (accumulator.accept id).1.bound = _
      unfold accept
      split
      · rfl
      · split
        · rfl
        · dsimp only
          split <;> rfl
  | abort reason => rfl

theorem receive_failed (failed : accumulator.failure.isSome) (call : Call) :
    (Sink.receive accumulator call).1.failure.isSome := by
  cases call with
  | enter segment =>
      change (accumulator.enter segment).1.failure.isSome
      unfold enter
      split
      · rfl
      · exact failed
  | accept id =>
      change (accumulator.accept id).1.failure.isSome
      rw [accept, if_pos failed]
      exact failed
  | abort reason => rfl

theorem handOver_failed (failed : accumulator.failure.isSome) (calls : List Call) :
    (Delivery.handOver failure calls accumulator).1.failure.isSome := by
  induction calls generalizing accumulator with
  | nil => exact failed
  | cons call rest induction =>
      have next := receive_failed failed call
      rw [Delivery.handOver]
      split
      · next sink received =>
          rw [received] at next
          exact induction next
      · next sink refusal received =>
          rw [received] at next
          exact next

/-- However a delivery ends, it has failed the accumulator, unless it contains no abort,
every call was accepted and the outcome is its own. -/
theorem Gathers.failed_or_accepted {outcome : Option Error}
    (gathers : accumulator.Gathers documents)
    (ended : Delivery.handOver failure calls accumulator = (last, outcome)) :
    last.failure.isSome ∨
      ((∀ reason, Call.abort reason ∉ calls) ∧
        Delivery.handOver none calls accumulator = (last, none) ∧ failure = outcome) := by
  -- While nothing has failed, the accumulator gathers, so it is known which calls it accepts.
  induction calls generalizing accumulator documents with
  | nil =>
      cases ended
      exact .inr ⟨by simp, rfl, rfl⟩
  | cons call rest induction =>
      cases call with
      | enter segment =>
          by_cases fits : segment.stop ≤ accumulator.bound
          · rw [Delivery.handOver_of_accepted (receive_enter fits)] at ended ⊢
            simpa using induction (gathers.enter fits) ended
          · rcases receive_enter_refused (Nat.lt_of_not_le fits) with ⟨cause, refused⟩
            rw [Delivery.handOver_of_refused refused] at ended
            cases ended
            exact .inl rfl
      | accept id =>
          by_cases inside : id.toNat < accumulator.segmentSize
          · rcases gathers.accept inside with ⟨holding, added, more⟩
            rw [Delivery.handOver_of_accepted added] at ended ⊢
            simpa using induction more ended
          · rcases receive_accept_refused gathers.whole (Nat.le_of_not_lt inside) with
              ⟨cause, refused⟩
            rw [Delivery.handOver_of_refused refused] at ended
            cases ended
            exact .inl rfl
      | abort reason =>
          have aborted : Sink.receive accumulator (.abort reason) =
              (accumulator.abort reason, none) := rfl
          rw [Delivery.handOver_of_accepted aborted] at ended
          have failed : (Delivery.handOver failure rest
              (accumulator.abort reason)).1.failure.isSome := handOver_failed rfl rest
          rw [ended] at failed
          exact .inl failed

theorem finish_error_of_failed (failed : last.failure.isSome) :
    ∃ refusal, last.finish = .error refusal := by
  rw [finish]
  split
  · exact ⟨_, rfl⟩
  · exact ⟨_, rfl⟩
  · next whole =>
      rw [whole] at failed
      cases failed

theorem Gathers.finish_wellFormed {outcome : Option Error} {set : IdSet}
    (gathers : accumulator.Gathers documents)
    (ended : Delivery.handOver failure calls accumulator = (last, outcome))
    (finished : last.finish = .ok set) : set.WellFormed := by
  rcases gathers.failed_or_accepted ended with failed | ⟨whole, accepted, _⟩
  · rcases finish_error_of_failed failed with ⟨refusal, refused⟩
    cases finished.symm.trans refused
  · rcases (gathers.handOver whole accepted).1.finish with ⟨other, otherFinished, settles⟩
    cases finished.symm.trans otherFinished
    exact settles.1

end Accumulator

/-! ## Failures that leave no mark -/

/-- The delivery contains no abort and all its calls are accepted, but it ends in an error
of its own. -/
def Delivery.FailsSilently (delivery : Delivery) (accumulator : Accumulator)
    (error : Error) : Prop :=
  (∀ reason, Call.abort reason ∉ delivery.calls) ∧
    (handOver none delivery.calls accumulator).2 = none ∧ delivery.failure = some error

namespace Accumulator

variable {accumulator last : Accumulator} {documents : List Nat} {error : Error}

theorem Gathers.finish_error_iff_not_silent {delivery : Delivery}
    (gathers : accumulator.Gathers documents)
    (ended : delivery.into accumulator = (last, some error)) :
    (∃ refusal, last.finish = .error refusal) ↔
      ¬ delivery.FailsSilently accumulator error := by
  constructor
  · rintro ⟨refusal, refused⟩ ⟨whole, accepted, failure⟩
    have all : Delivery.handOver none delivery.calls accumulator =
        ((Delivery.handOver none delivery.calls accumulator).1, none) := Prod.ext rfl accepted
    rw [Delivery.into, Delivery.handOver_of_all_accepted all] at ended
    rcases (gathers.handOver whole all).1.finish with ⟨set, finished, _⟩
    rw [(Prod.ext_iff.mp ended).1, refused] at finished
    cases finished
  · intro marked
    rcases gathers.failed_or_accepted ended with failed | ⟨whole, same, failure⟩
    · exact finish_error_of_failed failed
    · exact absurd ⟨whole, by rw [same], failure⟩ marked

theorem handOver_bound (failure : Option Error) (calls : List Call)
    (accumulator : Accumulator) :
    (Delivery.handOver failure calls accumulator).1.bound = accumulator.bound := by
  induction calls generalizing accumulator with
  | nil => rfl
  | cons call rest induction =>
      have same := receive_bound accumulator call
      rw [Delivery.handOver]
      split
      · next sink received =>
          rw [induction]
          rwa [received] at same
      · next sink refusal received =>
          rwa [received] at same

theorem stop_le_of_accepted {calls : List Call}
    (accepted : (Delivery.handOver none calls accumulator).2 = none) {segment : Segment}
    (entered : Call.enter segment ∈ calls) : segment.stop ≤ accumulator.bound := by
  induction calls generalizing accumulator with
  | nil => cases entered
  | cons call rest induction =>
      rcases List.mem_cons.mp entered with equal | later
      · subst equal
        apply Nat.le_of_not_lt
        intro beyond
        rcases receive_enter_refused beyond with ⟨cause, refused⟩
        rw [Delivery.handOver_of_refused refused] at accepted
        cases accepted
      · have same := receive_bound accumulator call
        rw [Delivery.handOver] at accepted
        split at accepted
        · next sink received =>
            rw [received] at same
            exact same ▸ induction accepted later
        · cases accepted

end Accumulator

namespace Delivery

variable {accumulator : Accumulator} {error : Error}

theorem handOver_ne_none (calls : List Call) (accumulator : Accumulator) :
    (handOver (some error) calls accumulator).2 ≠ none := by
  induction calls generalizing accumulator with
  | nil => simp [handOver]
  | cons call rest induction =>
      rw [handOver]
      split
      · exact induction _
      · simp

theorem failsSilently_prepend {calls : List Call}
    (whole : ∀ reason, Call.abort reason ∉ calls) (delivery : Delivery) :
    (delivery.prepend calls).FailsSilently accumulator error ↔
      (handOver none calls accumulator).2 = none ∧
        delivery.FailsSilently (handOver none calls accumulator).1 error := by
  have aborts : (∀ reason, Call.abort reason ∉ calls ++ delivery.calls) ↔
      ∀ reason, Call.abort reason ∉ delivery.calls := by
    simp only [List.mem_append, not_or]
    exact ⟨fun all reason => (all reason).2, fun all reason => ⟨whole reason, all reason⟩⟩
  simp only [FailsSilently, prepend, aborts, handOver_append]
  split
  · next next accepted => simp [accepted]
  · next next refusal refused => simp [refused]

theorem into_prepend (calls : List Call) (delivery : Delivery) :
    ((delivery.prepend calls).into accumulator).2 = none ↔
      (handOver none calls accumulator).2 = none ∧
        (delivery.into (handOver none calls accumulator).1).2 = none := by
  simp only [into, prepend, handOver_append]
  split
  · next next accepted => simp [accepted]
  · next next refusal refused => simp [refused]

end Delivery

end ResultSets
