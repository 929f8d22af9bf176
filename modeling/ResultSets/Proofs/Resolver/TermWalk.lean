import ResultSets.Proofs.Resolver.Reading

namespace ResultSets.TermWalk

/-! What a term resolves to. The postings that promise something are read in the order of the
bases, and where that goes through the set has the live ids as its members. How many documents
are promised decides about its form, and how many may be read. -/

variable {bound : Nat} {policy : Policy} {lists : List (Segment × Postings)}
  {ids : Array DocumentId} {set : IdSet}

/-! ## Sets -/

def MadeOf (ids : Array DocumentId) (set : IdSet) : Prop :=
  set.WellFormed ∧ ∀ document, set.Holds document ↔ document ∈ ids.toList.map UInt32.toNat

theorem MadeOf.size (made : MadeOf ids set) (ascending : Ascending ids.toList) :
    set.size = ids.size := by
  rw [IdSet.size_eq_card made.1 made.2,
    List.toFinset_card_of_nodup (Ascending.nodup_toNat ascending), List.length_map,
    Array.length_toList]

theorem madeOf_empty : MadeOf #[] .empty := by
  constructor
  · trivial
  · intro document
    exact iff_of_false (IdSet.not_holds_empty document) List.not_mem_nil

/-- The form of a set with members: a row if few were promised, or if few are left and the
policy is to shrink, and a bitmap otherwise. -/
def Formed (bound : Nat) (policy : Policy) (promised : Nat) (set : IdSet) : Prop :=
  set.size ≠ 0 →
    if promised ≤ policy.sparseLimit bound ∨
        policy.shrink ∧ set.size < policy.sparseLimit bound then set.IsSparse
    else set.IsDense bound

theorem sparseSet_eq (bound : Nat) (lists : List (Segment × Postings)) :
    sparseSet bound lists =
      if rowLimit < promised lists then .error .capacityOverflow
      else walk bound (some (promised lists)) lists >>= fun ids => .ok (.ofAscending ids) := by
  rw [sparseSet]
  split
  · rfl
  · rfl

theorem sparseSet_outcome (fits : ∀ entry ∈ itemsOf lists, entry.1.stop ≤ DocumentId.count) :
    Outcome (sparseSet bound lists)
      (¬ rowLimit < promised lists ∧ InOrder bound (some (promised lists)) (itemsOf lists))
      (fun set => MadeOf (idsOf (itemsOf lists)) set ∧ (set.size ≠ 0 → set.IsSparse))
      (fun error => rowLimit < promised lists ∧ error = .capacityOverflow ∨
        ¬ rowLimit < promised lists ∧
          Breaks bound (some (promised lists)) (itemsOf lists) error) := by
  rw [sparseSet_eq]
  refine .guard ?_
  refine (walk_outcome bound (some (promised lists)) fits).bind_ok fun inOrder ids same => ?_
  have ascending := idsOf_ascending inOrder (inOrder.lt_count fits)
  subst same
  refine ⟨.ofAscending _, rfl, ⟨IdSet.ofAscending_wellFormed ascending, fun document => ?_⟩,
    IdSet.ofAscending_isSparse⟩
  simp only [IdSet.Holds, IdSet.mem_ofAscending ascending, List.mem_map, Array.mem_toList_iff]

theorem denseSet_outcome (policy : Policy)
    (fits : ∀ entry ∈ itemsOf lists, entry.1.stop ≤ DocumentId.count) :
    Outcome (denseSet bound policy lists) (InOrder bound none (itemsOf lists))
      (fun set => MadeOf (idsOf (itemsOf lists)) set ∧
        (set.size ≠ 0 →
          if policy.shrink ∧ set.size < policy.sparseLimit bound then set.IsSparse
          else set.IsDense bound))
      (Breaks bound none (itemsOf lists)) := by
  refine (walk_outcome bound none fits).bind_ok fun inOrder ids same => ?_
  have narrow := inOrder.lt_count fits
  have ascending := idsOf_ascending inOrder narrow
  have listed := toNat_idsOf narrow
  rw [← same] at ascending listed ⊢
  have inside : ∀ position ∈ ids.toList.map UInt32.toNat, position < bound := by
    rw [listed]
    exact inOrder.fits.below
  rcases Bitmap.ofPositions_eq_ok bound _ inside with ⟨bitmap, built, length, _, members⟩
  have within : ∀ position, position ∈ bitmap → position < DocumentId.count := by
    intro position member
    apply narrow
    rw [← listed]
    exact (members position).mp member
  -- The ids are counted as they are read, and ascend, so no position is counted twice.
  have counted : ids.size = bitmap.card := by
    rw [Bitmap.card_eq_length (Ascending.nodup_toNat ascending) members, List.length_map,
      Array.length_toList]
  have dense : MadeOf ids (.dense bitmap ids.size) := by
    refine ⟨⟨within, counted⟩, fun document => ?_⟩
    rw [IdSet.holds_dense within, members]
  have shrunk : MadeOf ids (.ofMembers bitmap) := by
    refine ⟨IdSet.ofMembers_wellFormed within, fun document => ?_⟩
    rw [← dense.2]
    simp only [IdSet.Holds, IdSet.mem_ofMembers within, IdSet.mem_dense]
  simp only [bind, Except.bind, built]
  split
  · next nothing =>
      rw [Array.isEmpty_iff.mp nothing]
      exact ⟨.empty, rfl, madeOf_empty, fun some => absurd rfl some⟩
  · split
    · next few =>
        rw [Bool.and_eq_true, decide_eq_true_eq] at few
        refine ⟨.ofMembers bitmap, rfl, shrunk, fun _ => ?_⟩
        rw [if_pos ⟨few.1, (shrunk.size ascending).trans_lt few.2⟩]
        trivial
    · next many =>
        rw [Bool.and_eq_true, decide_eq_true_eq] at many
        refine ⟨.dense bitmap ids.size, rfl, dense, fun _ => ?_⟩
        rw [if_neg fun both => many ⟨both.1, both.2⟩]
        exact length

/-! ## Terms

Where so few are promised that a row is filled, no more may be read, and there must be room to
ask for as many. -/

variable {segments : List Segment} {term : Term}

theorem streams_eq_nil (nothing : promised (streams term segments) = 0) :
    streams term segments = [] := by
  cases listed : streams term segments with
  | nil => rfl
  | cons row rest =>
      have member : row ∈ streams term segments := by
        rw [listed]
        exact .head _
      have sum : promised (row :: rest) = row.2.frequency + promised rest := rfl
      have some := (mem_streams.mp member).2.2
      rw [listed, sum] at nothing
      omega

def itemsIn (term : Term) (segments : List Segment) : Items :=
  itemsOf (streams term (Segment.ordered segments))

def promisedIn (term : Term) (segments : List Segment) : Nat :=
  promised (streams term (Segment.ordered segments))

def roomFor (limit promised : Nat) : Option Nat :=
  if promised ≤ limit then some promised else none

theorem forall_roomFor {limit promised count : Nat} :
    (∀ most, roomFor limit promised = some most → count ≤ most) ↔
      limit < promised ∨ count ≤ promised := by
  rw [roomFor]
  split
  · next few => simp [Nat.not_lt_of_le few]
  · next many => simp [Nat.lt_of_not_le many]

def RowFits (limit promised : Nat) : Prop := promised ≤ limit → promised ≤ rowLimit

theorem rowFits_of_le {limit promised : Nat} (few : promised ≤ DocumentId.count) :
    promised < UInt64.size ∧ RowFits limit promised := by
  have countable : DocumentId.count < UInt64.size := by decide
  have roomy : DocumentId.count ≤ rowLimit := by decide
  exact ⟨Nat.lt_of_le_of_lt few countable, fun _ => Nat.le_trans few roomy⟩

theorem mem_itemsIn {entry : Segment × Except Error DocumentId} :
    entry ∈ itemsIn term segments ↔
      entry.1 ∈ segments ∧ ∃ postings, entry.1.postings term = .ok (some postings) ∧
        postings.frequency ≠ 0 ∧ entry.2 ∈ postings.items := by
  rw [itemsIn, mem_itemsOf_streams, Segment.ordered, List.mem_mergeSort]

theorem available_ordered :
    Available term (Segment.ordered segments) ↔ Available term segments := by
  simp only [Available, Segment.ordered, List.mem_mergeSort]

/-- Resolving a term fails if postings cannot be gathered, if there is no room for a row, or if
an item cannot be read, and otherwise ends in the set of the live documents. -/
theorem resolve_outcome (bound : Nat) (policy : Policy) (term : Term)
    (fits : ∀ segment ∈ segments, segment.stop ≤ DocumentId.count) :
    Outcome (resolve bound policy segments term)
      ((Available term (Segment.ordered segments) ∧ promisedIn term segments < UInt64.size) ∧
        RowFits (policy.sparseLimit bound) (promisedIn term segments) ∧
          InOrder bound (roomFor (policy.sparseLimit bound) (promisedIn term segments))
            (itemsIn term segments))
      (fun set => MadeOf (idsOf (itemsIn term segments)) set ∧
        Formed bound policy (promisedIn term segments) set)
      (fun error => Halts term (Segment.ordered segments) error ∨
        (Available term (Segment.ordered segments) ∧ promisedIn term segments < UInt64.size) ∧
          (¬ RowFits (policy.sparseLimit bound) (promisedIn term segments) ∧
              error = .capacityOverflow ∨
            RowFits (policy.sparseLimit bound) (promisedIn term segments) ∧
              Breaks bound (roomFor (policy.sparseLimit bound) (promisedIn term segments))
                (itemsIn term segments) error)) := by
  have within : ∀ entry ∈ itemsIn term segments, entry.1.stop ≤ DocumentId.count :=
    fun entry member => fits entry.1 (mem_itemsIn.mp member).1
  refine (gather_outcome term _).bind fun lists same => ?_
  subst same
  split
  · next nothing =>
      -- Nothing is promised, so nothing is read that could fail.
      have none : promisedIn term segments = 0 := nothing
      have rowFits : RowFits (policy.sparseLimit bound) 0 := fun _ => Nat.zero_le _
      rw [none, itemsIn, streams_eq_nil nothing]
      refine ⟨fun _ => ⟨.empty, rfl, madeOf_empty, fun some => absurd rfl some⟩,
        fun error why => ?_, .inl ⟨rowFits, inOrder_nil bound _⟩⟩
      rcases why with ⟨unfit, _⟩ | ⟨_, before, entry, after, split, _⟩
      · exact absurd rowFits unfit
      · exact absurd split (by simp [itemsOf])
  · split
    · next few =>
        have rowFits : RowFits (policy.sparseLimit bound) (promisedIn term segments) ↔
            ¬ rowLimit < promisedIn term segments :=
          (imp_iff_right few).trans Nat.not_lt.symm
        rw [rowFits, not_not, promisedIn, roomFor, if_pos few]
        refine (sparseSet_outcome within).imp fun set result => ⟨result.1, fun some => ?_⟩
        rw [if_pos (.inl few)]
        exact result.2 some
    · next many =>
        have rowFits : RowFits (policy.sparseLimit bound) (promisedIn term segments) :=
          fun few => absurd few many
        simp only [rowFits, not_true, false_and, false_or, true_and]
        rw [promisedIn, roomFor, if_neg many]
        refine (denseSet_outcome policy within).imp fun set result => ⟨result.1, fun some => ?_⟩
        simp only [many, false_or]
        exact result.2 some

theorem resolve_wellFormed (fits : ∀ segment ∈ segments, segment.stop ≤ DocumentId.count)
    (resolved : resolve bound policy segments term = .ok set) : set.WellFormed :=
  ((resolve_outcome bound policy term fits).of_ok resolved).2.1.1

theorem rowFits_of_resolve (fits : ∀ segment ∈ segments, segment.stop ≤ DocumentId.count)
    (resolved : resolve bound policy segments term = .ok set) :
    RowFits (policy.sparseLimit bound) (promisedIn term segments) :=
  ((resolve_outcome bound policy term fits).of_ok resolved).1.2.1

theorem yields_of_resolve (fits : ∀ segment ∈ segments, segment.stop ≤ DocumentId.count)
    (truthful : ∀ segment ∈ segments, segment.Truthful term)
    (resolved : resolve bound policy segments term = .ok set) :
    ∀ segment ∈ segments, ∃ ids, segment.Yields term ids ∧
      ∀ id ∈ ids, id.toNat < segment.size := by
  rcases ((resolve_outcome bound policy term fits).of_ok resolved).1 with
    ⟨⟨available, _⟩, _, inOrder⟩
  intro segment member
  rcases available_ordered.mp available segment member with ⟨_ | postings, found⟩
  · exact ⟨[], .inl ⟨found, rfl⟩, by simp⟩
  · apply Segment.exists_yields found
    by_cases nothing : postings.frequency = 0
    · rw [truthful segment member postings found nothing]
      simp
    · intro item read
      exact inOrder.readable (segment, item)
        (mem_itemsIn.mpr ⟨member, postings, found, nothing, read⟩)

end ResultSets.TermWalk
