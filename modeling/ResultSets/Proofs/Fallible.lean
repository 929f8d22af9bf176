import Mathlib.Data.List.Induction
import ResultSets.Error

namespace ResultSets

/-! Computations that may fail. One that goes through has gone through in each of its steps. -/

variable {α β σ : Type}

theorem ok_of_bind {first : Except Error α} {next : α → Except Error β} {result : β}
    (done : first >>= next = .ok result) :
    ∃ value, first = .ok value ∧ next value = .ok result := by
  cases first with
  | error error => cases done
  | ok value => exact ⟨value, rfl, done⟩

theorem ok_of_map {first : Except Error α} {change : α → β} {result : β}
    (done : first.map change = .ok result) :
    ∃ value, first = .ok value ∧ change value = result := by
  cases first with
  | error error => cases done
  | ok value => exact ⟨value, rfl, Except.ok.inj done⟩

/-! ## Breaches -/

theorem exists_first_breach {Kept : List α → Prop} {items : List α} (kept : Kept [])
    (breached : ¬ Kept items) :
    ∃ before item after, items = before ++ item :: after ∧ Kept before ∧
      ¬ Kept (before ++ [item]) := by
  induction items using List.reverseRecOn with
  | nil => exact absurd kept breached
  | append_singleton items last induction =>
      by_cases still : Kept items
      · exact ⟨items, last, [], rfl, still, breached⟩
      · rcases induction still with ⟨before, item, after, split, earlier, here⟩
        exact ⟨before, item, after ++ [last], by rw [split, List.append_assoc, List.cons_append],
          earlier, here⟩

theorem exists_first_not {Holds : α → Prop} {items : List α}
    (breached : ¬ ∀ item ∈ items, Holds item) :
    ∃ before item after, items = before ++ item :: after ∧
      (∀ earlier ∈ before, Holds earlier) ∧ ¬ Holds item := by
  rcases @exists_first_breach _ (fun listed => ∀ item ∈ listed, Holds item) _ (by simp)
    breached with ⟨before, item, after, split, earlier, breach⟩
  refine ⟨before, item, after, split, earlier, fun here => breach ?_⟩
  rw [List.forall_mem_append, List.forall_mem_singleton]
  exact ⟨earlier, here⟩

/-! ## Outcomes

How a computation ends: where something good holds it goes through with a result as described,
and otherwise it fails for the reason that there is. The outcome of a whole is put together from
those of its parts. -/

structure Outcome (computed : Except Error α) (good : Prop) (Result : α → Prop)
    (Reason : Error → Prop) : Prop where
  ok : good → ∃ value, computed = .ok value ∧ Result value
  error : ∀ error, Reason error → computed = .error error
  either : good ∨ ∃ error, Reason error

namespace Outcome

variable {computed : Except Error α} {good further : Prop} {Result : α → Prop}
  {Reason : Error → Prop}

theorem excludes (outcome : Outcome computed good Result Reason) (holds : good) {error : Error}
    (reason : Reason error) : False := by
  rcases outcome.ok holds with ⟨value, done, _⟩
  cases done.symm.trans (outcome.error error reason)

theorem of_ok (outcome : Outcome computed good Result Reason) {value : α}
    (done : computed = .ok value) : good ∧ Result value := by
  rcases outcome.either with holds | ⟨error, reason⟩
  · rcases outcome.ok holds with ⟨other, same, result⟩
    cases done.symm.trans same
    exact ⟨holds, result⟩
  · cases done.symm.trans (outcome.error error reason)

theorem isOk_iff (outcome : Outcome computed good Result Reason) :
    (∃ value, computed = .ok value) ↔ good := by
  constructor
  · intro ⟨value, done⟩
    exact (outcome.of_ok done).1
  · intro holds
    rcases outcome.ok holds with ⟨value, done, _⟩
    exact ⟨value, done⟩

theorem eq_error_iff (outcome : Outcome computed good Result Reason) {error : Error} :
    computed = .error error ↔ Reason error := by
  constructor
  · intro failed
    rcases outcome.either with holds | ⟨other, reason⟩
    · rcases outcome.ok holds with ⟨value, done, _⟩
      cases failed.symm.trans done
    · cases failed.symm.trans (outcome.error other reason)
      exact reason
  · exact outcome.error error

theorem imp (outcome : Outcome computed good Result Reason) {Final : α → Prop}
    (implied : ∀ value, Result value → Final value) : Outcome computed good Final Reason := by
  refine ⟨fun holds => ?_, outcome.error, outcome.either⟩
  rcases outcome.ok holds with ⟨value, done, result⟩
  exact ⟨value, done, implied value result⟩

theorem guard {refused : Prop} [Decidable refused] {refusal : Error}
    (outcome : Outcome computed good Result Reason) :
    Outcome (if refused then .error refusal else computed) (¬ refused ∧ good) Result
      fun error => refused ∧ error = refusal ∨ ¬ refused ∧ Reason error := by
  by_cases here : refused
  · rw [if_pos here]
    refine ⟨fun both => absurd here both.1, fun error why => ?_, .inr ⟨_, .inl ⟨here, rfl⟩⟩⟩
    rcases why with ⟨_, rfl⟩ | ⟨not, _⟩
    · rfl
    · exact absurd here not
  · rw [if_neg here]
    refine ⟨fun both => outcome.ok both.2, fun error why => ?_, ?_⟩
    · rcases why with ⟨yes, _⟩ | ⟨_, reason⟩
      · exact absurd yes here
      · exact outcome.error error reason
    · exact outcome.either.imp (fun holds => ⟨here, holds⟩) fun ⟨error, reason⟩ =>
        ⟨error, .inr ⟨here, reason⟩⟩

theorem bind_ok {next : α → Except Error β} {Final : β → Prop}
    (outcome : Outcome computed good Result Reason)
    (goes : good → ∀ value, Result value → ∃ final, next value = .ok final ∧ Final final) :
    Outcome (computed >>= next) good Final Reason := by
  refine ⟨fun holds => ?_, fun error reason => ?_, outcome.either⟩
  · rcases outcome.ok holds with ⟨value, done, result⟩
    rw [done]
    exact goes holds value result
  · rw [outcome.error error reason]
    rfl

theorem bind {next : α → Except Error β} {Final : β → Prop} {Later : Error → Prop}
    (outcome : Outcome computed good Result Reason)
    (continued : ∀ value, Result value → Outcome (next value) further Final Later) :
    Outcome (computed >>= next) (good ∧ further) Final
      fun error => Reason error ∨ good ∧ Later error := by
  rcases outcome.either with holds | ⟨error, reason⟩
  · rcases outcome.ok holds with ⟨value, done, result⟩
    have rest := continued value result
    rw [done]
    refine ⟨fun both => rest.ok both.2, fun error why => ?_, ?_⟩
    · exact rest.error error (why.resolve_left (outcome.excludes holds)).2
    · exact rest.either.imp (fun more => ⟨holds, more⟩) fun ⟨error, late⟩ =>
        ⟨error, .inr ⟨holds, late⟩⟩
  · refine ⟨fun both => (outcome.excludes both.1 reason).elim, fun other why => ?_,
      .inr ⟨error, .inl reason⟩⟩
    have early := why.resolve_right fun late => outcome.excludes late.1 reason
    rw [outcome.error other early]
    rfl

end Outcome

/-! ## Folds -/

variable {step : σ → α → Except Error σ} {items : List α} {start last : σ}

theorem ok_of_foldlM_cons {item : α} (done : (item :: items).foldlM step start = .ok last) :
    ∃ middle, step start item = .ok middle ∧ items.foldlM step middle = .ok last := by
  rw [List.foldlM_cons] at done
  exact ok_of_bind done

theorem forall_of_foldlM_eq_ok {Accepted : α → Prop}
    (accepts : ∀ state item next, step state item = .ok next → Accepted item)
    (done : items.foldlM step start = .ok last) : ∀ item ∈ items, Accepted item := by
  induction items generalizing start with
  | nil => simp
  | cons item rest induction =>
      rcases ok_of_foldlM_cons done with ⟨middle, stepped, further⟩
      exact List.forall_mem_cons.mpr ⟨accepts start item middle stepped, induction further⟩

end ResultSets
