import Mathlib.Data.List.Destutter
import ResultSets.Proofs.Delivery.Runs

namespace ResultSets

/-! How many documents an accumulator says that it holds. A row drops an id that comes again at
once, but keeps one that comes again later, so it may count a document several times. A bitmap
counts each document once. The count is therefore only exact once there is a bitmap, or as
long as no document comes back after another; when a row with repetitions moves into a bitmap
the count drops. -/

/-! ## Equal neighbours -/

section Destutter

variable {documents : List Nat} {document : Nat}

private theorem destutter'_concat (first : Nat) (rest : List Nat) (last : Nat) :
    (rest ++ [last]).destutter' (· ≠ ·) first =
      if (first :: rest).getLast? = some last then rest.destutter' (· ≠ ·) first
      else rest.destutter' (· ≠ ·) first ++ [last] := by
  induction rest generalizing first with
  | nil => simp [List.destutter'_singleton]
  | cons second rest induction =>
      rw [List.cons_append, List.getLast?_cons_cons]
      by_cases different : first ≠ second
      · rw [List.destutter'_cons_pos _ different, List.destutter'_cons_pos _ different,
          induction second]
        split
        · rfl
        · rfl
      · rw [List.destutter'_cons_neg _ different, List.destutter'_cons_neg _ different,
          induction first, not_not.mp different]

theorem destutter_concat (documents : List Nat) (document : Nat) :
    (documents ++ [document]).destutter (· ≠ ·) =
      if documents.getLast? = some document then documents.destutter (· ≠ ·)
      else documents.destutter (· ≠ ·) ++ [document] := by
  cases documents with
  | nil => rfl
  | cons first rest => exact destutter'_concat first rest document

theorem getLast?_destutter (documents : List Nat) :
    (documents.destutter (· ≠ ·)).getLast? = documents.getLast? := by
  induction documents using List.reverseRecOn with
  | nil => rfl
  | append_singleton documents last induction =>
      rw [destutter_concat, List.getLast?_concat]
      split
      · next same => rw [induction, same]
      · rw [List.getLast?_concat]

theorem mem_destutter : document ∈ documents.destutter (· ≠ ·) ↔ document ∈ documents := by
  constructor
  · exact fun member => (List.destutter_sublist _ documents).subset member
  · induction documents using List.reverseRecOn with
    | nil => exact id
    | append_singleton documents last induction =>
        intro member
        rw [destutter_concat]
        rcases List.mem_append.mp member with earlier | equal
        · split
          · exact induction earlier
          · exact List.mem_append_left _ (induction earlier)
        · cases List.mem_singleton.mp equal
          split
          · next same => exact induction (List.mem_of_getLast? same)
          · exact List.mem_append_right _ (List.mem_singleton_self document)

theorem toFinset_destutter (documents : List Nat) :
    (documents.destutter (· ≠ ·)).toFinset = documents.toFinset := by
  ext document
  rw [List.mem_toFinset, List.mem_toFinset, mem_destutter]

theorem length_destutter_append (documents more : List Nat) :
    (documents.destutter (· ≠ ·)).length ≤ ((documents ++ more).destutter (· ≠ ·)).length := by
  induction more using List.reverseRecOn with
  | nil => rw [List.append_nil]
  | append_singleton more last induction =>
      rw [← List.append_assoc, destutter_concat]
      split
      · exact induction
      · rw [List.length_append]
        exact Nat.le_add_right_of_le induction

end Destutter

namespace Accumulator

namespace Holding

variable {bound limit : Nat} {documents : List Nat} {id : DocumentId}

def Condenses (limit : Nat) (documents : List Nat) : Holding → Prop
  | .row ids _ => ids.toList.map UInt32.toNat = documents.destutter (· ≠ ·)
  | .packed _ _ => limit < (documents.destutter (· ≠ ·)).length

theorem Adds.condenses {holding next : Holding} (adds : Adds bound limit id holding next)
    (condenses : holding.Condenses limit documents) :
    next.Condenses limit (documents ++ [id.toNat]) := by
  have concat := destutter_concat documents id.toNat
  -- Equal neighbours are told from the last id of the row, which is the last document.
  have again : ∀ {ids : Array DocumentId},
      ids.toList.map UInt32.toNat = documents.destutter (· ≠ ·) →
        (ids.back? = some id ↔ documents.getLast? = some id.toNat) := by
    intro ids row
    rw [← getLast?_destutter, ← row, List.getLast?_map, Array.getLast?_toList,
      Option.map_eq_some_iff]
    constructor
    · intro last
      exact ⟨id, last, rfl⟩
    · intro last
      rcases last with ⟨other, last, same⟩
      rw [last, UInt32.toNat_inj.mp same]
  have more : limit < (documents.destutter (· ≠ ·)).length →
      limit < ((documents ++ [id.toNat]).destutter (· ≠ ·)).length := fun many =>
    Nat.lt_of_lt_of_le many (length_destutter_append documents [id.toNat])
  cases adds with
  | again last =>
      rw [if_pos ((again condenses).mp last)] at concat
      exact Eq.trans condenses concat.symm
  | @pushed ids _ other room =>
      rw [if_neg (mt (again condenses).mpr other)] at concat
      change (ids.push id).toList.map UInt32.toNat = _
      rw [concat, Array.toList_push, List.map_append]
      exact congrArg (· ++ [id.toNat]) condenses
  | @moved ids _ _ other full _ _ _ =>
      have row : ids.toList.map UInt32.toNat = documents.destutter (· ≠ ·) := condenses
      rw [if_neg (mt (again row).mpr other), ← row] at concat
      change limit < _
      rw [concat, List.length_append, List.length_map, Array.length_toList]
      exact Nat.lt_succ_of_le full
  | present member => exact more condenses
  | inserted length spare counted members => exact more condenses

end Holding

variable {accumulator last : Accumulator} {documents : List Nat} {calls : List Call}

theorem Gathers.handOver_condenses (gathers : accumulator.Gathers documents)
    (condenses : accumulator.holding.Condenses accumulator.limit documents)
    (whole : ∀ reason, Call.abort reason ∉ calls)
    (accepted : Delivery.handOver none calls accumulator = (last, none)) :
    last.holding.Condenses last.limit (documents ++ Call.offered accumulator.base calls) := by
  refine gathers.run_induction
    (motive := fun current gathered => current.holding.Condenses current.limit gathered)
    (fun segment fits kept => kept) (fun gathers inside adds kept => ?_) condenses whole accepted
  have condensed := adds.condenses kept
  rwa [toNat_base_add gathers.within gathers.inside inside] at condensed

theorem Gathers.size_eq (gathers : accumulator.Gathers documents)
    (condenses : accumulator.holding.Condenses accumulator.limit documents) :
    accumulator.size =
      if (documents.destutter (· ≠ ·)).length ≤ accumulator.limit then
        (documents.destutter (· ≠ ·)).length
      else documents.toFinset.card := by
  have kept := gathers.kept
  rw [size]
  cases held : accumulator.holding with
  | row ids ascending =>
      rw [held] at kept condenses
      have row : ids.toList.map UInt32.toNat = documents.destutter (· ≠ ·) := condenses
      rw [← row, List.length_map, Array.length_toList, if_pos kept.1]
      rfl
  | packed bitmap count =>
      rw [held] at kept condenses
      rcases kept with ⟨_, _, counted, _, members⟩
      have more : ¬ (documents.destutter (· ≠ ·)).length ≤ accumulator.limit :=
        Nat.not_le_of_lt condenses
      rw [if_neg more, List.card_toFinset]
      refine counted.trans (Bitmap.card_eq_length (List.nodup_dedup documents) fun document => ?_)
      rw [List.mem_dedup, members]

theorem Gathers.size_exact_iff (gathers : accumulator.Gathers documents)
    (condenses : accumulator.holding.Condenses accumulator.limit documents) :
    documents.toFinset.card ≤ accumulator.size ∧
      (accumulator.size = documents.toFinset.card ↔
        accumulator.limit < (documents.destutter (· ≠ ·)).length ∨
          (documents.destutter (· ≠ ·)).Nodup) := by
  rw [gathers.size_eq condenses]
  split
  · next few =>
      rw [← toFinset_destutter]
      refine ⟨List.toFinset_card_le _, ?_⟩
      rw [or_iff_right (Nat.not_lt_of_le few), eq_comm]
      exact Multiset.toFinset_card_eq_card_iff_nodup
  · next many =>
      exact ⟨Nat.le_refl _, iff_of_true rfl (.inl (Nat.lt_of_not_le many))⟩

end Accumulator

def Call.condensed (calls : List Call) : List Nat :=
  (Call.offered 0 calls).destutter (· ≠ ·)

namespace Accumulator

/-- A run in which nothing fails can be finished with a set of the different documents that it
offers. What it is said to hold are these or more: exactly these if they were moved into a bitmap
or if no document came back after another, and only then. An exact count does not decrease. -/
theorem size_exact {bound : Nat} {policy : Policy} {blank last : Accumulator}
    {calls : List Call} (started : start bound policy = .ok blank)
    (whole : ∀ reason, Call.abort reason ∉ calls)
    (accepted : Delivery.handOver none calls blank = (last, none)) :
    (∃ set, last.finish = .ok set ∧ set.size = (Call.offered 0 calls).toFinset.card) ∧
    last.size = (if (Call.condensed calls).length ≤ policy.sparseLimit bound then
      (Call.condensed calls).length else (Call.offered 0 calls).toFinset.card) ∧
    (Call.offered 0 calls).toFinset.card ≤ last.size ∧
    (last.size = (Call.offered 0 calls).toFinset.card ↔
      policy.sparseLimit bound < (Call.condensed calls).length ∨ (Call.condensed calls).Nodup) ∧
    (last.size = (Call.offered 0 calls).toFinset.card →
      ∀ more later, (∀ reason, Call.abort reason ∉ more) →
        Delivery.handOver none more last = (later, none) → last.size ≤ later.size) := by
  rcases gathers_of_start started with ⟨gathers, _, limited, base, nothing⟩
  have blankCondenses : blank.holding.Condenses blank.limit [] := by
    rw [nothing]
    rfl
  have condenses := gathers.handOver_condenses blankCondenses whole accepted
  rcases gathers.handOver whole accepted with ⟨all, _, sameLimit⟩
  rw [List.nil_append, base] at condenses all
  rcases all.finish with ⟨set, finished, settles⟩
  have size := all.size_eq condenses
  have exact_iff := all.size_exact_iff condenses
  rw [sameLimit, limited] at size exact_iff
  refine ⟨⟨set, finished, IdSet.size_eq_card settles.1 settles.2.1⟩, size, exact_iff.1,
    exact_iff.2, fun exact more later moreWhole moreAccepted => ?_⟩
  have laterCondenses := all.handOver_condenses condenses moreWhole moreAccepted
  have laterAll := (all.handOver moreWhole moreAccepted).1
  have atLeast := (laterAll.size_exact_iff laterCondenses).1
  rw [exact]
  refine Nat.le_trans (Finset.card_le_card ?_) atLeast
  rw [List.toFinset_append]
  exact Finset.subset_union_left

theorem size_exact_four :
    ∃ blank last, start 100 { shift := 6, slack := 2 } = .ok blank ∧
      Delivery.handOver none
        [.enter { base := 50, size := 10 }, .accept 3, .accept 1, .accept 3, .accept 1] blank =
          (last, none) ∧
      last.size = 2 ∧ ∃ set, last.finish = .ok set ∧ set.size = 2 := by
  have started : start 100 { shift := 6, slack := 2 } = .ok { bound := 100, limit := 3 } := rfl
  have accepted : ∃ last, Delivery.handOver none
      [.enter { base := 50, size := 10 }, .accept 3, .accept 1, .accept 3, .accept 1]
      ({ bound := 100, limit := 3 } : Accumulator) = (last, none) := ⟨_, rfl⟩
  rcases accepted with ⟨last, accepted⟩
  rcases size_exact started (by simp) accepted with ⟨finished, _, _, exact_iff, _⟩
  exact ⟨_, last, started, accepted, exact_iff.mpr (.inl (by decide)), finished⟩

/-- A row says that it holds three documents where the first of two came back. -/
theorem not_forall_size_exact :
    ¬ ∀ (bound : Nat) (policy : Policy) (blank last : Accumulator) (calls : List Call),
      start bound policy = .ok blank → (∀ reason, Call.abort reason ∉ calls) →
        Delivery.handOver none calls blank = (last, none) →
          last.size = (Call.offered 0 calls).toFinset.card := by
  intro all
  have equal := all 64 {} _ _
    [.enter { base := 0, size := 10 }, .accept 3, .accept 1, .accept 3] rfl (by simp) rfl
  revert equal
  decide +kernel

end Accumulator

end ResultSets
