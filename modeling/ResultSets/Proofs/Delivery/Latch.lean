import ResultSets.Proofs.Delivery.Failure

namespace ResultSets

/-! What an accumulator remembers of a failure when calls go on after it. Most failures
replace the one that is remembered; only an id outside the current segment is no longer looked
at once something has failed. What is remembered in the end can be told from the calls
alone. -/

section Prefix

variable {α : Type} {Found : List α → α → Prop} {items : List α} {item : α}

theorem not_exists_prefix_nil :
    ¬ ∃ before next, before ++ [next] <+: [] ∧ Found before next := by
  intro some
  rcases some with ⟨before, next, found, _⟩
  exact List.append_ne_nil_of_right_ne_nil before (List.cons_ne_nil next [])
    (List.prefix_nil.mp found)

theorem exists_prefix_concat :
    (∃ before next, before ++ [next] <+: items ++ [item] ∧ Found before next) ↔
      (∃ before next, before ++ [next] <+: items ∧ Found before next) ∨ Found items item := by
  constructor
  · intro some
    rcases some with ⟨before, next, found, holds⟩
    rcases List.prefix_concat_iff.mp found with whole | earlier
    · rcases List.append_singleton_inj.mp whole with ⟨rfl, rfl⟩
      exact .inr holds
    · exact .inl ⟨before, next, earlier, holds⟩
  · intro some
    rcases some with ⟨before, next, earlier, holds⟩ | holds
    · exact ⟨before, next, earlier.trans (List.prefix_append items [item]), holds⟩
    · exact ⟨items, item, List.prefix_rfl, holds⟩

end Prefix

/-! ## Sinks that refuse a call -/

def Sink.Refuses {σ : Type} [Sink σ] (sink : σ) (calls : List Call) : Prop :=
  ∃ before call, before ++ [call] <+: calls ∧ (receive (after sink before) call).2.isSome

section Sinks

variable {σ : Type} [Sink σ] {sink : σ} {call : Call} {calls before after rest : List Call}

theorem Sink.not_refuses_nil : ¬ Refuses sink [] := not_exists_prefix_nil

theorem Sink.refuses_concat :
    Refuses sink (calls ++ [call]) ↔
      Refuses sink calls ∨ (receive (Sink.after sink calls) call).2.isSome :=
  exists_prefix_concat

theorem Sink.refuses_cons :
    Refuses sink (call :: rest) ↔
      (receive sink call).2.isSome ∨ Refuses (receive sink call).1 rest := by
  constructor
  · intro refuses
    rcases refuses with ⟨earlier, next, begins, refused⟩
    cases earlier with
    | nil =>
        cases (List.cons_prefix_cons.mp begins).1
        exact .inl refused
    | cons first others =>
        rcases List.cons_prefix_cons.mp begins with ⟨rfl, continues⟩
        exact .inr ⟨others, next, continues, refused⟩
  · intro either
    rcases either with refused | ⟨earlier, next, begins, refused⟩
    · exact ⟨[], call, List.cons_prefix_cons.mpr ⟨rfl, List.nil_prefix⟩, refused⟩
    · exact ⟨call :: earlier, next, List.cons_prefix_cons.mpr ⟨rfl, begins⟩, refused⟩

theorem Sink.receive_of_not_refuses (accepts : ¬ Refuses sink (call :: rest)) :
    receive sink call = ((receive sink call).1, none) ∧ ¬ Refuses (receive sink call).1 rest := by
  rw [refuses_cons, not_or, Option.not_isSome_iff_eq_none] at accepts
  exact ⟨Prod.ext rfl accepts.1, accepts.2⟩

theorem Delivery.handOver_of_not_refuses (accepts : ¬ Sink.Refuses sink calls)
    (failure : Option Error) :
    handOver failure calls sink = (Sink.after sink calls, failure) := by
  induction calls generalizing sink with
  | nil => rfl
  | cons call rest induction =>
      rcases Sink.receive_of_not_refuses accepts with ⟨received, others⟩
      rw [handOver_of_accepted received, induction others, Sink.after_cons]

theorem Delivery.handOver_of_first_refusal {refusal : Error}
    (accepts : ¬ Sink.Refuses sink before)
    (refused : (Sink.receive (Sink.after sink before) call).2 = some refusal)
    (failure : Option Error) :
    handOver failure (before ++ call :: after) sink =
      (Sink.after sink (before ++ [call]), some refusal) := by
  rw [handOver_append, handOver_of_not_refuses accepts, Sink.after_concat]
  exact handOver_of_refused (Prod.ext rfl refused)

end Sinks

/-! ## Failures in the calls

What is wrong with a call does not depend on what was wrong with those before it. The last call
with which something is wrong decides, but one that is to accept an id counts only when nothing
was wrong before. -/

namespace Call

def entered? (bound : Nat) : Call → Option Segment
  | .enter segment => if segment.stop ≤ bound then some segment else none
  | .accept _ => none
  | .abort _ => none

def currentSize (bound : Nat) (calls : List Call) : Nat :=
  ((calls.filterMap (entered? bound)).getLast?.map Segment.size).getD 0

variable {bound : Nat} {calls : List Call} {call : Call}

theorem currentSize_concat_of_none (quiet : call.entered? bound = none) :
    currentSize bound (calls ++ [call]) = currentSize bound calls := by
  rw [currentSize, List.filterMap_append, List.filterMap_cons_none quiet, List.filterMap_nil,
    List.append_nil]
  rfl

theorem currentSize_concat_of_some {segment : Segment}
    (entered : call.entered? bound = some segment) :
    currentSize bound (calls ++ [call]) = segment.size := by
  rw [currentSize, List.filterMap_append, List.filterMap_cons_some entered, List.filterMap_nil,
    List.getLast?_concat]
  rfl

end Call

namespace Accumulator

/-- What is wrong with a call that follows others, whatever was wrong with those. -/
inductive Breaches (bound : Nat) (before : List Call) : Call → Failure → Prop
  | aborted (reason : String) : Breaches bound before (.abort reason) (.aborted reason)
  | beyond {segment : Segment} (beyond : bound < segment.stop) :
      Breaches bound before (.enter segment)
        (.rejected (.segmentBeyondBound segment.base.toNat segment.stop bound))
  | outside {id : DocumentId} (outside : Call.currentSize bound before ≤ id.toNat) :
      Breaches bound before (.accept id)
        (.rejected (.outsideSegment id.toNat (Call.currentSize bound before)))

def Breached (bound : Nat) (calls : List Call) : Prop :=
  ∃ before call, before ++ [call] <+: calls ∧ ∃ failure, Breaches bound before call failure

/-- A call with which something is wrong makes the accumulator fail anew, unless it is to
accept an id and something was wrong before. -/
def Latches (bound : Nat) (before : List Call) (call : Call) (failure : Failure) : Prop :=
  Breaches bound before call failure ∧ ∀ id, call = .accept id → ¬ Breached bound before

def Latched (bound : Nat) (calls : List Call) (failure : Failure) : Prop :=
  ∃ before call, before ++ [call] <+: calls ∧ Latches bound before call failure ∧
    ∀ later next, before.length < later.length → later ++ [next] <+: calls →
      ∀ other, ¬ Latches bound later next other

variable {bound : Nat} {calls : List Call} {call : Call} {failure other : Failure}

theorem Breaches.entered? (breaches : Breaches bound calls call failure) :
    call.entered? bound = none := by
  cases breaches with
  | aborted reason => rfl
  | beyond beyond => exact if_neg (Nat.not_le_of_lt beyond)
  | outside outside => rfl

theorem Breaches.unique (breaches : Breaches bound calls call failure)
    (also : Breaches bound calls call other) : other = failure := by
  cases breaches with
  | aborted reason =>
      cases also
      rfl
  | beyond beyond =>
      cases also
      rfl
  | outside outside =>
      cases also
      rfl

theorem not_breached_nil : ¬ Breached bound [] := not_exists_prefix_nil

theorem breached_concat :
    Breached bound (calls ++ [call]) ↔
      Breached bound calls ∨ ∃ failure, Breaches bound calls call failure :=
  exists_prefix_concat

theorem not_latched_nil : ¬ Latched bound [] failure := not_exists_prefix_nil

theorem latched_concat_of_latches (latches : Latches bound calls call failure) :
    Latched bound (calls ++ [call]) other ↔ other = failure := by
  constructor
  · intro latched
    rcases latched with ⟨before, last, found, latched, none⟩
    rcases List.prefix_concat_iff.mp found with whole | earlier
    · rcases List.append_singleton_inj.mp whole with ⟨rfl, rfl⟩
      exact latches.1.unique latched.1
    · have shorter := earlier.length_le
      rw [List.length_append, List.length_singleton] at shorter
      exact absurd latches (none calls call shorter List.prefix_rfl failure)
  · intro same
    subst same
    refine ⟨calls, call, List.prefix_rfl, latches, fun later next longer found => ?_⟩
    have shorter := found.length_le
    rw [List.length_append, List.length_append, List.length_singleton,
      List.length_singleton] at shorter
    omega

theorem latched_concat_of_not_latches (quiet : ∀ failure, ¬ Latches bound calls call failure) :
    Latched bound (calls ++ [call]) other ↔ Latched bound calls other := by
  constructor
  · intro latched
    rcases latched with ⟨before, last, found, latched, none⟩
    rcases List.prefix_concat_iff.mp found with whole | earlier
    · rcases List.append_singleton_inj.mp whole with ⟨rfl, rfl⟩
      exact absurd latched (quiet other)
    · refine ⟨before, last, earlier, latched, fun later next longer found => ?_⟩
      exact none later next longer (found.trans (List.prefix_append calls [call]))
  · intro latched
    rcases latched with ⟨before, last, found, latched, none⟩
    refine ⟨before, last, found.trans (List.prefix_append calls [call]), latched, ?_⟩
    intro later next longer found
    rcases List.prefix_concat_iff.mp found with whole | earlier
    · rcases List.append_singleton_inj.mp whole with ⟨rfl, rfl⟩
      exact quiet
    · exact none later next longer earlier

/-! ## What each call does -/

variable {accumulator : Accumulator} {documents : List Nat}

theorem receive_abort (accumulator : Accumulator) (reason : String) :
    Sink.receive accumulator (.abort reason) =
      ({ accumulator with failure := some (.aborted reason) }, none) := rfl

theorem receive_accept_failed (failed : accumulator.failure.isSome) (id : DocumentId) :
    Sink.receive accumulator (.accept id) = (accumulator, some .alreadyFailed) :=
  if_pos failed

theorem receive_holding_of_failed (failed : accumulator.failure.isSome) (call : Call) :
    (Sink.receive accumulator call).1.holding = accumulator.holding := by
  cases call with
  | enter segment =>
      change (accumulator.enter segment).1.holding = _
      unfold enter
      split
      · rfl
      · rfl
  | accept id => rw [receive_accept_failed failed]
  | abort reason => rfl

theorem after_failed (failed : accumulator.failure.isSome) (calls : List Call) :
    (Sink.after accumulator calls).failure.isSome ∧
      (Sink.after accumulator calls).holding = accumulator.holding := by
  induction calls generalizing accumulator with
  | nil => exact ⟨failed, rfl⟩
  | cons call rest induction =>
      rw [Sink.after_cons, ← receive_holding_of_failed failed call]
      exact induction (receive_failed failed call)

/-! ## What an accumulator remembers of the calls -/

structure Follows (bound : Nat) (calls : List Call) (accumulator : Accumulator) : Prop where
  within : bound ≤ DocumentId.count
  bounded : accumulator.bound = bound
  size : accumulator.segmentSize = Call.currentSize bound calls
  inside : accumulator.base.toNat + accumulator.segmentSize ≤ bound
  kept : ∃ documents, (∀ document ∈ documents, document < bound) ∧
    accumulator.holding.Keeps bound accumulator.limit documents
  failed : accumulator.failure.isSome ↔ Breached bound calls
  latched : ∀ failure, accumulator.failure = some failure ↔ Latched bound calls failure

namespace Follows

theorem start {policy : Policy} {blank : Accumulator}
    (started : Accumulator.start bound policy = .ok blank) : Follows bound [] blank := by
  rw [Accumulator.start] at started
  split at started
  · cases started
  · next within =>
      cases started
      refine ⟨Nat.le_of_not_lt within, rfl, rfl, Nat.zero_le bound, ⟨[], by simp, ?_⟩,
        iff_of_false Bool.false_ne_true not_breached_nil,
        fun failure => iff_of_false (by simp) not_latched_nil⟩
      exact ⟨Nat.zero_le _, fun _ => .nil, fun document => Iff.rfl⟩

variable (follows : Follows bound calls accumulator)

include follows

theorem fail (latches : Latches bound calls call failure) :
    Follows bound (calls ++ [call]) { accumulator with failure := some failure } := by
  refine ⟨follows.within, follows.bounded, ?_, follows.inside, follows.kept, ?_, fun other => ?_⟩
  · rw [Call.currentSize_concat_of_none latches.1.entered?]
    exact follows.size
  · exact iff_of_true rfl (breached_concat.mpr (.inr ⟨failure, latches.1⟩))
  · rw [latched_concat_of_latches latches, Option.some.injEq, eq_comm]

theorem unfailed (sound : ∀ failure, ¬ Breaches bound calls call failure)
    {next : Accumulator} (same : next.failure = accumulator.failure) :
    (next.failure.isSome ↔ Breached bound (calls ++ [call])) ∧
      ∀ failure, next.failure = some failure ↔ Latched bound (calls ++ [call]) failure := by
  have quiet : ∀ failure, ¬ Latches bound calls call failure := fun failure latches =>
    sound failure latches.1
  constructor
  · rw [same, follows.failed, breached_concat, or_iff_left]
    intro wrong
    rcases wrong with ⟨failure, breaches⟩
    exact sound failure breaches
  · intro failure
    rw [same, follows.latched, latched_concat_of_not_latches quiet]

theorem enter (segment : Segment) :
    Follows bound (calls ++ [.enter segment])
      (Sink.receive accumulator (.enter segment)).1 := by
  have same := follows.bounded
  by_cases fits : segment.stop ≤ bound
  · have sound : ∀ failure, ¬ Breaches bound calls (.enter segment) failure := by
      intro failure breaches
      cases breaches with
      | beyond beyond => omega
    have entered : (Call.enter segment).entered? bound = some segment := if_pos fits
    rw [receive_enter (same ▸ fits)]
    rcases follows.unfailed sound rfl with ⟨failed, latched⟩
    exact ⟨follows.within, same, (Call.currentSize_concat_of_some entered).symm, fits,
      follows.kept, failed, latched⟩
  · have beyond := Nat.lt_of_not_le fits
    rw [receive_enter_beyond (same ▸ beyond), same]
    exact follows.fail ⟨.beyond beyond, fun id accepts => nomatch accepts⟩

theorem abort (reason : String) :
    Follows bound (calls ++ [.abort reason])
      (Sink.receive accumulator (.abort reason)).1 := by
  rw [receive_abort]
  exact follows.fail ⟨.aborted reason, fun id accepts => nomatch accepts⟩

theorem receive_accept (whole : accumulator.failure = none) (id : DocumentId) :
    (accumulator.segmentSize ≤ id.toNat ∧ Sink.receive accumulator (.accept id) =
      accumulator.reject (.outsideSegment id.toNat accumulator.segmentSize)) ∨
    ∃ documents holding, id.toNat < accumulator.segmentSize ∧
      Sink.receive accumulator (.accept id) = ({ accumulator with holding }, none) ∧
      (∀ document ∈ documents, document < bound) ∧
        holding.Keeps bound accumulator.limit documents := by
  by_cases inside : id.toNat < accumulator.segmentSize
  · rcases follows.kept with ⟨documents, below, kept⟩
    have gathers : accumulator.Gathers documents :=
      ⟨follows.bounded ▸ follows.within, follows.bounded ▸ follows.inside,
        follows.bounded ▸ below, follows.bounded ▸ kept, whole⟩
    rcases gathers.accept inside with ⟨holding, accepted, more⟩
    have moreBelow := more.below
    have moreKept := more.kept
    rw [← follows.bounded]
    exact .inr ⟨_, holding, inside, accepted, moreBelow, moreKept⟩
  · exact .inl ⟨Nat.le_of_not_lt inside, receive_accept_outside whole (Nat.le_of_not_lt inside)⟩

theorem accept (id : DocumentId) :
    Follows bound (calls ++ [.accept id]) (Sink.receive accumulator (.accept id)).1 := by
  have quiet : (Call.accept id).entered? bound = none := rfl
  have size := follows.size
  rw [← Call.currentSize_concat_of_none quiet] at size
  cases whole : accumulator.failure with
  | some failure =>
      -- Nothing is looked at any more, so the id may well lie outside the segment.
      have failed : accumulator.failure.isSome := by
        rw [whole]
        rfl
      have breached := follows.failed.mp failed
      have ignored : ∀ failure, ¬ Latches bound calls (.accept id) failure :=
        fun failure latches => latches.2 id rfl breached
      rw [receive_accept_failed failed]
      refine ⟨follows.within, follows.bounded, size, follows.inside, follows.kept,
        iff_of_true failed (breached_concat.mpr (.inl breached)), fun failure => ?_⟩
      rw [follows.latched, latched_concat_of_not_latches ignored]
  | none =>
      rcases follows.receive_accept whole id with
        ⟨outside, received⟩ | ⟨documents, holding, inside, received, below, kept⟩
      · have unbreached : ¬ Breached bound calls := by
          rw [← follows.failed, whole]
          exact Bool.false_ne_true
        have latches : Latches bound calls (.accept id)
            (.rejected (.outsideSegment id.toNat accumulator.segmentSize)) := by
          rw [follows.size] at outside ⊢
          exact ⟨.outside outside, fun _ _ => unbreached⟩
        rw [received]
        exact follows.fail latches
      · have sound : ∀ failure, ¬ Breaches bound calls (.accept id) failure := by
          intro failure breaches
          cases breaches with
          | outside outside =>
              rw [← follows.size] at outside
              omega
        have same : ({ accumulator with holding } : Accumulator).failure = accumulator.failure :=
          rfl
        rw [received]
        rcases follows.unfailed sound same with ⟨failed, latched⟩
        exact ⟨follows.within, follows.bounded, size, follows.inside, ⟨documents, below, kept⟩,
          failed, latched⟩

theorem receive (call : Call) :
    Follows bound (calls ++ [call]) (Sink.receive accumulator call).1 := by
  cases call with
  | enter segment => exact follows.enter segment
  | accept id => exact follows.accept id
  | abort reason => exact follows.abort reason

theorem after (more : List Call) :
    Follows bound (calls ++ more) (Sink.after accumulator more) := by
  induction more generalizing calls accumulator with
  | nil =>
      rw [List.append_nil]
      exact follows
  | cons call rest induction =>
      have next := induction (follows.receive call)
      rw [List.append_assoc] at next
      exact next

theorem receive_failure_eq_none_iff (call : Call) :
    (Sink.receive accumulator call).1.failure = none ↔
      accumulator.failure = none ∧ (∀ reason, call ≠ .abort reason) ∧
        (Sink.receive accumulator call).2 = none := by
  cases call with
  | enter segment =>
      by_cases fits : segment.stop ≤ accumulator.bound
      · rw [receive_enter fits]
        simp
      · rw [receive_enter_beyond (Nat.lt_of_not_le fits), reject]
        simp
  | abort reason =>
      rw [receive_abort]
      simp
  | accept id =>
      cases whole : accumulator.failure with
      | some failure =>
          rw [receive_accept_failed (by rw [whole]; rfl), whole]
          simp
      | none =>
          rcases follows.receive_accept whole id with
            ⟨_, received⟩ | ⟨_, holding, _, received, _⟩
          · rw [received, reject]
            simp
          · rw [received]
            simp [whole]

end Follows

theorem finish_isOk_iff (accumulator : Accumulator) :
    (∃ set, accumulator.finish = .ok set) ↔ accumulator.failure = none := by
  rw [finish]
  split
  · next failed => simp [failed]
  · next failed => simp [failed]
  · next whole => simp [whole]

theorem finish_eq_error_iff (accumulator : Accumulator) (error : Error) :
    accumulator.finish = .error error ↔
      (∃ reason, accumulator.failure = some (.aborted reason) ∧
        error = .collectionAborted reason) ∨
      ∃ cause, accumulator.failure = some (.rejected cause) ∧
        error = .collectionFailed cause := by
  rw [finish]
  split
  · next failed => simp [failed, eq_comm]
  · next failed => simp [failed, eq_comm]
  · next whole => simp [whole]

theorem Follows.after_failure_eq_none_iff {blank : Accumulator}
    (follows : Follows bound [] blank) (calls : List Call) :
    (Sink.after blank calls).failure = none ↔
      (∀ reason, Call.abort reason ∉ calls) ∧ ¬ Sink.Refuses blank calls := by
  induction calls using List.reverseRecOn with
  | nil =>
      have unrefused : ¬ Sink.Refuses blank [] := not_exists_prefix_nil
      have whole : blank.failure = none := by
        rw [← Option.not_isSome_iff_eq_none, follows.failed]
        exact not_breached_nil
      exact iff_of_true whole ⟨by simp, unrefused⟩
  | append_singleton calls call induction =>
      have step := (follows.after calls).receive_failure_eq_none_iff call
      rw [Sink.after_concat, step, induction, Sink.refuses_concat, not_or,
        Option.not_isSome_iff_eq_none]
      have aborts : (∀ reason, Call.abort reason ∉ calls ++ [call]) ↔
          (∀ reason, Call.abort reason ∉ calls) ∧ ∀ reason, call ≠ .abort reason := by
        simp only [List.mem_append, List.mem_singleton, not_or, forall_and, ne_eq, eq_comm]
      rw [aborts, and_and_and_comm, and_assoc]

/-- Whatever an accumulator is given, and however it answers, it can be finished exactly if no
call was refused and none was an abort. After either, it accepts no id and what it holds stays
as it is. The error of finishing is that of the last call to make it fail. -/
theorem failure_latches {policy : Policy} {blank : Accumulator}
    (started : Accumulator.start bound policy = .ok blank) (calls : List Call) :
    ((∃ set, (Sink.after blank calls).finish = .ok set) ↔
      (∀ reason, Call.abort reason ∉ calls) ∧ ¬ Sink.Refuses blank calls) ∧
    (∀ before later, calls = before ++ later →
      (∃ reason, Call.abort reason ∈ before) ∨ Sink.Refuses blank before →
        (∀ id, ∃ refusal, refusal.isInternal = true ∧
          Sink.receive (Sink.after blank before) (.accept id) =
            (Sink.after blank before, some refusal)) ∧
        (Sink.after blank calls).size = (Sink.after blank before).size ∧
        (Sink.after blank calls).holding = (Sink.after blank before).holding) ∧
    ∀ error, (Sink.after blank calls).finish = .error error ↔
      (∃ reason, Latched bound calls (.aborted reason) ∧ error = .collectionAborted reason ∧
        error.isResourceExhausted = true ∧
        error.detail = "collection was aborted: " ++ reason) ∨
      ∃ cause, Latched bound calls (.rejected cause) ∧ error = .collectionFailed cause ∧
        error.isInternal = true ∧ error.detail = "collection failed: " ++ cause.text := by
  have follows := Follows.start started
  refine ⟨?_, ?_, fun error => ?_⟩
  · rw [finish_isOk_iff, follows.after_failure_eq_none_iff]
  · intro before later split wrong
    subst split
    have failed : (Sink.after blank before).failure.isSome := by
      rw [Option.isSome_iff_ne_none, ne_eq, follows.after_failure_eq_none_iff]
      intro sound
      rcases wrong with ⟨reason, aborted⟩ | refused
      · exact sound.1 reason aborted
      · exact sound.2 refused
    have kept := (after_failed failed later).2
    rw [← Sink.after_append] at kept
    refine ⟨fun id => ⟨.alreadyFailed, rfl, receive_accept_failed failed id⟩, ?_, kept⟩
    rw [size, size, kept]
  · have latched := (follows.after calls).latched
    rw [List.nil_append] at latched
    rw [finish_eq_error_iff]
    simp only [latched]
    constructor
    · intro failed
      rcases failed with ⟨reason, last, rfl⟩ | ⟨cause, last, rfl⟩
      · exact .inl ⟨reason, last, rfl, rfl, rfl⟩
      · exact .inr ⟨cause, last, rfl, rfl, rfl⟩
    · intro failed
      rcases failed with ⟨reason, last, same, _⟩ | ⟨cause, last, same, _⟩
      · exact .inl ⟨reason, last, same⟩
      · exact .inr ⟨cause, last, same⟩

/-- An id outside the first segment is refused, the delivery is aborted, and then a segment is
refused. Another id outside the first segment does not replace that. -/
theorem failure_latches_last :
    ∃ blank, Accumulator.start 100 {} = .ok blank ∧
      (Sink.after blank [.enter { base := 0, size := 10 }, .accept 10, .abort "stop",
        .enter { base := 90, size := 20 }, .accept 11]).finish =
          .error (.collectionFailed (.segmentBeyondBound 90 110 100)) := by
  let calls : List Call := [.enter { base := 0, size := 10 }, .accept 10, .abort "stop"]
  let late : Call := .enter { base := 90, size := 20 }
  have started : Accumulator.start 100 {} =
      .ok { bound := 100, limit := Policy.sparseLimit {} 100 } := rfl
  have latches : Latches 100 calls late (.rejected (.segmentBeyondBound 90 110 100)) :=
    ⟨.beyond (by decide), fun id accepts => nomatch accepts⟩
  have breached : Breached 100 (calls ++ [late]) :=
    breached_concat.mpr (.inr ⟨_, latches.1⟩)
  have ignored : ∀ failure, ¬ Latches 100 (calls ++ [late]) (.accept 11) failure :=
    fun failure latches => latches.2 11 rfl breached
  have latched : Latched 100 (calls ++ [late] ++ [.accept 11])
      (.rejected (.segmentBeyondBound 90 110 100)) :=
    (latched_concat_of_not_latches ignored).mpr ((latched_concat_of_latches latches).mpr rfl)
  have finished := (failure_latches started (calls ++ [late] ++ [.accept 11])).2.2
  exact ⟨_, started, (finished _).mpr (.inr ⟨_, latched, rfl, rfl, rfl⟩)⟩

end Accumulator

end ResultSets
