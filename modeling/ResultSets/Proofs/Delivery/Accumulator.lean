import ResultSets.Delivery.Accumulator
import ResultSets.Proofs.IdSet.Members

namespace ResultSets

/-! What an accumulator holds of the documents that it was given. The documents of a run
are numbered by the base of the segment they were accepted in plus their local id. While
no call is refused, a row or a bitmap keeps exactly these numbers, and finishing makes
the set of them. -/

def Call.offered : (base : DocumentId) → List Call → List Nat
  | _, [] => []
  | _, .enter segment :: rest => offered segment.base rest
  | base, .accept id :: rest => (base.toNat + id.toNat) :: offered base rest
  | base, .abort _ :: rest => offered base rest

namespace Accumulator

open IdSet

/-! ## What a holding keeps

A row may keep a document several times, and ascends when it says so. A bitmap is only begun for
a document, and counts what it keeps. What becomes of a holding when an id is added is told once,
by `Adds`; what adding keeps is then shown case by case. -/

namespace Holding

def Keeps (bound limit : Nat) (documents : List Nat) : Holding → Prop
  | .row ids ascending =>
      ids.size ≤ limit ∧ (ascending = true → Ascending ids.toList) ∧
        ∀ document, document ∈ documents ↔ document ∈ ids.toList.map UInt32.toNat
  | .packed bitmap count =>
      bitmap.length = bound ∧ bitmap.spare = 0 ∧ count = bitmap.card ∧ documents ≠ [] ∧
        ∀ document, document ∈ documents ↔ document ∈ bitmap

def Within (bound : Nat) : Holding → Prop
  | .row ids _ => ∀ id ∈ ids, id.toNat < bound
  | .packed bitmap _ => bitmap.length = bound

/-- What becomes of a holding when an id is added. The constructors are in the order of the
checks. -/
inductive Adds (bound limit : Nat) (id : DocumentId) : Holding → Holding → Prop
  | again {ids : Array DocumentId} {ascending : Bool} (last : ids.back? = some id) :
      Adds bound limit id (.row ids ascending) (.row ids ascending)
  | pushed {ids : Array DocumentId} {ascending : Bool} (other : ids.back? ≠ some id)
      (room : ids.size < limit) :
      Adds bound limit id (.row ids ascending)
        (.row (ids.push id) (ascending && ids.back?.all (· < id)))
  | moved {ids : Array DocumentId} {ascending : Bool} {bitmap : Bitmap}
      (other : ids.back? ≠ some id) (full : limit ≤ ids.size) (length : bitmap.length = bound)
      (spare : bitmap.spare = 0)
      (members : ∀ position,
        position ∈ bitmap ↔ position ∈ (ids.push id).toList.map UInt32.toNat) :
      Adds bound limit id (.row ids ascending) (.packed bitmap bitmap.card)
  | present {bitmap : Bitmap} {count : Nat} (member : id.toNat ∈ bitmap) :
      Adds bound limit id (.packed bitmap count) (.packed bitmap count)
  | inserted {bitmap grown : Bitmap} {count : Nat} (length : grown.length = bitmap.length)
      (spare : grown.spare = bitmap.spare) (counted : grown.card = bitmap.card + 1)
      (members : ∀ position, position ∈ grown ↔ position = id.toNat ∨ position ∈ bitmap) :
      Adds bound limit id (.packed bitmap count) (.packed grown (count + 1))

variable {bound limit : Nat} {documents : List Nat} {holding next : Holding} {id : DocumentId}

theorem add_eq_ok (limit : Nat) (within : holding.Within bound) (inside : id.toNat < bound) :
    ∃ next, holding.add bound limit id = .ok next ∧ Adds bound limit id holding next := by
  cases holding with
  | row ids ascending =>
      rw [add]
      split
      · next last => exact ⟨_, rfl, .again last⟩
      · next other =>
          split
          · next room => exact ⟨_, rfl, .pushed other room⟩
          · next full =>
              have below : ∀ position ∈ (ids.push id).toList.map UInt32.toNat,
                  position < bound := by
                intro position listed
                rcases List.mem_map.mp listed with ⟨held, member, rfl⟩
                rcases Array.mem_push.mp (Array.mem_toList_iff.mp member) with old | rfl
                · exact within held old
                · exact inside
              rcases Bitmap.ofPositions_eq_ok bound _ below with
                ⟨bitmap, built, length, spare, members⟩
              refine ⟨.packed bitmap bitmap.card, ?_,
                .moved other (Nat.le_of_not_lt full) length spare members⟩
              rw [built]
              rfl
  | packed bitmap count =>
      have length : bitmap.length = bound := within
      rw [add]
      split
      · next present => exact ⟨_, rfl, .present present⟩
      · next absent =>
          rcases bitmap.insert_eq_ok (length ▸ inside) with
            ⟨grown, inserted, sameLength, sameSpare, members⟩
          refine ⟨.packed grown (count + 1), ?_, .inserted sameLength sameSpare
            (Bitmap.card_of_insert inserted absent) members⟩
          rw [inserted]
          rfl

theorem ascending_push {ids : Array DocumentId} {ascending : Bool}
    (ordered : ascending = true → Ascending ids.toList)
    (both : (ascending && ids.back?.all (· < id)) = true) : Ascending (ids.push id).toList := by
  rw [Bool.and_eq_true] at both
  apply (ordered both.1).push
  intro last found
  simpa [found] using both.2

theorem Keeps.within (kept : holding.Keeps bound limit documents)
    (below : ∀ document, document ∈ documents → document < bound) : holding.Within bound := by
  cases holding with
  | row ids ascending =>
      intro id member
      apply below
      exact (kept.2.2 _).mpr (List.mem_map_of_mem (Array.mem_toList_iff.mpr member))
  | packed bitmap count => exact kept.1

theorem Adds.keeps (adds : Adds bound limit id holding next)
    (kept : holding.Keeps bound limit documents) :
    next.Keeps bound limit (documents ++ [id.toNat]) := by
  have pushed : ∀ {ids : Array DocumentId},
      (∀ document, document ∈ documents ↔ document ∈ ids.toList.map UInt32.toNat) →
        ∀ document, document ∈ documents ++ [id.toNat] ↔
          document ∈ (ids.push id).toList.map UInt32.toNat := by
    intro ids members document
    rw [Array.toList_push, List.map_append, List.mem_append, List.mem_append, members]
    rfl
  have again : id.toNat ∈ documents →
      ∀ document, document ∈ documents ++ [id.toNat] ↔ document ∈ documents := by
    intro present document
    rw [List.mem_append, List.mem_singleton]
    apply or_iff_left_of_imp
    rintro rfl
    exact present
  cases adds with
  | again last =>
      rcases kept with ⟨few, ordered, members⟩
      refine ⟨few, ordered, fun document => (again ?_ document).trans (members document)⟩
      have present := Array.mem_toList_iff.mpr (Array.mem_of_back? last)
      exact (members _).mpr (List.mem_map_of_mem present)
  | pushed other room =>
      rcases kept with ⟨few, ordered, members⟩
      refine ⟨?_, ascending_push ordered, pushed members⟩
      rw [Array.size_push]
      exact room
  | moved other full length spare bitmapMembers =>
      rcases kept with ⟨few, ordered, members⟩
      refine ⟨length, spare, rfl, by simp, fun document => ?_⟩
      rw [pushed members, bitmapMembers]
  | present member =>
      rcases kept with ⟨length, spare, counted, nonempty, members⟩
      refine ⟨length, spare, counted, by simp, fun document => ?_⟩
      rw [again ((members _).mpr member), members]
  | inserted sameLength sameSpare grows grownMembers =>
      rcases kept with ⟨length, spare, counted, nonempty, members⟩
      refine ⟨sameLength.trans length, sameSpare.trans spare, ?_, by simp, fun document => ?_⟩
      · rw [grows, counted]
      · rw [List.mem_append, List.mem_singleton, members, grownMembers, or_comm]

/-! ## Finishing -/

/-- The set that documents are to end up in: in the shared empty form when there is none,
as a row of at most `limit` ids, and in a bitmap over the whole index from there on. -/
def Settles (bound limit : Nat) (documents : List Nat) (set : IdSet) : Prop :=
  set.WellFormed ∧ (∀ document, set.Holds document ↔ document ∈ documents) ∧
    match set with
    | .empty => documents = []
    | .sparse ids => documents ≠ [] ∧ ids.size ≤ limit
    | .dense bitmap size => limit < size ∧ bitmap.length = bound ∧ bitmap.spare = 0

private theorem settles_row {ids : Array DocumentId} {row : List DocumentId}
    (ascending : Ascending row) (same : ∀ id, id ∈ row ↔ id ∈ ids.toList)
    (few : row.length ≤ limit) (nonempty : ids ≠ #[])
    (members : ∀ document, document ∈ documents ↔ document ∈ ids.toList.map UInt32.toNat) :
    Settles bound limit documents (.sparse row.toArray) := by
  have rowAscending : Ascending row.toArray.toList := ascending
  refine ⟨rowAscending, fun document => ?_, ?_, by simpa using few⟩
  · rw [holds_sparse rowAscending, members, List.mem_map, List.mem_map]
    simp only [same]
  · rintro rfl
    rcases ids with ⟨_ | ⟨first, rest⟩⟩
    · exact nonempty rfl
    · exact List.not_mem_nil ((members first.toNat).mpr (List.mem_cons_self ..))

theorem settles_toIdSet {holding : Holding} (kept : holding.Keeps bound limit documents)
    (within : bound ≤ DocumentId.count) :
    Settles bound limit documents (holding.toIdSet limit) := by
  cases holding with
  | row ids ascending =>
      rcases kept with ⟨few, ordered, members⟩
      rw [toIdSet]
      split
      · next none =>
          have nothing : ids = #[] := Array.isEmpty_iff.mp none
          subst nothing
          have empty : documents = [] := List.eq_nil_iff_forall_not_mem.mpr fun document member =>
            List.not_mem_nil ((members document).mp member)
          refine ⟨trivial, fun document => ?_, empty⟩
          rw [empty]
          exact iff_of_false (not_holds_empty document) List.not_mem_nil
      · next some =>
          have nonempty : ids ≠ #[] := fun equal => some (Array.isEmpty_iff.mpr equal)
          split
          · next flag =>
              exact settles_row (ordered flag) (fun _ => Iff.rfl) (by simpa using few) nonempty
                members
          · exact settles_row (Ascending.normalize_ascending _) (Ascending.mem_normalize _)
              ((Ascending.length_normalize_le _).trans (by simpa using few)) nonempty members
  | packed bitmap count =>
      rcases kept with ⟨length, spare, counted, nonempty, members⟩
      have inside : ∀ position, position ∈ bitmap → position < DocumentId.count := by
        intro position member
        have := Bitmap.lt_length_of_mem member
        omega
      rw [toIdSet]
      split
      · next few =>
          refine ⟨ofMembers_wellFormed inside, fun document => ?_, nonempty, ?_⟩
          · rw [members, ← holds_dense inside count]
            simp only [Holds, mem_ofMembers inside, mem_dense]
          · simpa [← counted] using few
      · next many =>
          refine ⟨⟨inside, counted⟩, fun document => ?_, by omega, length, spare⟩
          rw [holds_dense inside, members]

theorem Settles.form {set : IdSet} (settles : Settles bound limit documents set) :
    (documents.toFinset.card = 0 → set = .empty) ∧
      (0 < documents.toFinset.card → documents.toFinset.card ≤ limit →
        ∃ ids, set = .sparse ids ∧ Ascending ids.toList ∧
          ids.size = documents.toFinset.card) ∧
      (limit < documents.toFinset.card →
        ∃ bitmap, set = .dense bitmap documents.toFinset.card ∧ bitmap.length = bound ∧
          bitmap.card = documents.toFinset.card) := by
  rcases settles with ⟨wellFormed, members, form⟩
  have distinct := size_eq_card wellFormed members
  rw [← distinct]
  cases set with
  | empty =>
      have size : IdSet.empty.size = 0 := rfl
      exact ⟨fun _ => rfl, fun some => by omega, fun many => by omega⟩
  | sparse ids =>
      have some : 0 < (IdSet.sparse ids).size := by
        rw [distinct, Finset.card_pos, List.toFinset_nonempty_iff]
        exact form.1
      have size : (IdSet.sparse ids).size = ids.size := rfl
      refine ⟨fun none => by omega, fun _ _ => ⟨ids, rfl, wellFormed, rfl⟩, fun many => ?_⟩
      have few := form.2
      omega
  | dense bitmap size =>
      have many := form.1
      have same : (IdSet.dense bitmap size).size = size := rfl
      exact ⟨fun none => by omega, fun _ few => by omega,
        fun _ => ⟨bitmap, rfl, form.2.1, wellFormed.2.symm⟩⟩

theorem Settles.form_of_size {set : IdSet} (settles : Settles bound limit documents set)
    (some : set.size ≠ 0) :
    if set.size ≤ limit then set.IsSparse else set.IsDense bound := by
  rcases settles with ⟨_, _, form⟩
  cases set with
  | empty => exact absurd rfl some
  | sparse ids =>
      have few : (IdSet.sparse ids).size ≤ limit := form.2
      rw [if_pos few]
      trivial
  | dense bitmap size =>
      have many : ¬ (IdSet.dense bitmap size).size ≤ limit := Nat.not_le_of_lt form.1
      rw [if_neg many]
      exact form.2.1

theorem Settles.unique {others : List Nat} {set other : IdSet}
    (settles : Settles bound limit documents set) (otherSettles : Settles bound limit others other)
    (same : ∀ document, document ∈ documents ↔ document ∈ others) : set = other := by
  rcases settles with ⟨wellFormed, members, form⟩
  rcases otherSettles with ⟨otherWellFormed, otherMembers, otherForm⟩
  have finset : documents.toFinset = others.toFinset := by
    ext document
    rw [List.mem_toFinset, List.mem_toFinset, same]
  have sizes : set.size = other.size := by
    rw [size_eq_card wellFormed members, size_eq_card otherWellFormed otherMembers, finset]
  have none : documents = [] ↔ others = [] := by
    rw [← List.toFinset_eq_empty_iff, ← List.toFinset_eq_empty_iff, finset]
  have holds : ∀ document, set.Holds document ↔ other.Holds document := fun document =>
    (members document).trans ((same document).trans (otherMembers document).symm)
  have shared : ∀ id, id ∈ set ↔ id ∈ other := fun id => by
    rw [← holds_toNat, holds, holds_toNat]
  -- The sizes agree, so sets of different forms would lie on either side of the limit.
  cases set with
  | empty =>
      cases other with
      | empty => rfl
      | sparse ids => exact absurd (none.mp form) otherForm.1
      | dense bitmap size =>
          have : 0 = size := sizes
          omega
  | sparse ids =>
      cases other with
      | empty => exact absurd (none.mpr otherForm) form.1
      | sparse otherIds =>
          congr 1
          apply Array.toList_inj.mp
          apply Ascending.eq_of_mem_iff wellFormed otherWellFormed
          intro id
          rw [← mem_sparse wellFormed, shared, mem_sparse otherWellFormed]
      | dense bitmap size =>
          have : ids.size = size := sizes
          omega
  | dense bitmap size =>
      cases other with
      | empty =>
          have : size = 0 := sizes
          omega
      | sparse ids =>
          have : size = ids.size := sizes
          omega
      | dense otherBitmap otherSize =>
          cases (sizes : size = otherSize)
          congr 1
          apply Bitmap.eq_of_contains (form.2.1.trans otherForm.2.1.symm)
            (form.2.2.trans otherForm.2.2.symm)
          intro position
          apply Bool.eq_iff_iff.mpr
          change position ∈ bitmap ↔ position ∈ otherBitmap
          rw [← holds_dense wellFormed.1 size, holds, holds_dense otherWellFormed.1]

end Holding

/-! ## What an accumulator gathers

As long as nothing has failed, the current segment lies below the bound, and so does every
document taken from it, whose number does not overflow then. -/

structure Gathers (accumulator : Accumulator) (documents : List Nat) : Prop where
  within : accumulator.bound ≤ DocumentId.count
  inside : accumulator.base.toNat + accumulator.segmentSize ≤ accumulator.bound
  below : ∀ document, document ∈ documents → document < accumulator.bound
  kept : accumulator.holding.Keeps accumulator.bound accumulator.limit documents
  whole : accumulator.failure = none

theorem start_eq_ok {bound : Nat} (within : bound ≤ DocumentId.count) (policy : Policy) :
    ∃ blank, start bound policy = .ok blank ∧ blank.Gathers [] ∧ blank.bound = bound ∧
      blank.limit = policy.sparseLimit bound ∧ blank.base = 0 := by
  refine ⟨_, if_neg (by omega), ⟨within, Nat.zero_le _, by simp, ?_, rfl⟩, rfl, rfl, rfl⟩
  exact ⟨Nat.zero_le _, fun _ => .nil, fun document => Iff.rfl⟩

theorem gathers_of_start {bound : Nat} {policy : Policy} {blank : Accumulator}
    (started : start bound policy = .ok blank) :
    blank.Gathers [] ∧ blank.bound = bound ∧ blank.limit = policy.sparseLimit bound ∧
      blank.base = 0 ∧ blank.holding = .row #[] true := by
  rw [start] at started
  split at started
  · cases started
  · next within =>
      rcases start_eq_ok (Nat.le_of_not_lt within) policy with
        ⟨other, alsoStarted, gathers, bounded, limited, base⟩
      rw [start, if_neg within] at alsoStarted
      cases started.symm.trans alsoStarted
      cases started
      exact ⟨gathers, bounded, limited, base, rfl⟩

variable {accumulator : Accumulator} {documents : List Nat}

theorem receive_enter {segment : Segment} (fits : segment.stop ≤ accumulator.bound) :
    Sink.receive accumulator (.enter segment) =
      ({ accumulator with base := segment.base, segmentSize := segment.size }, none) :=
  if_neg (by omega)

theorem receive_enter_beyond {segment : Segment} (beyond : accumulator.bound < segment.stop) :
    Sink.receive accumulator (.enter segment) =
      accumulator.reject
        (.segmentBeyondBound segment.base.toNat segment.stop accumulator.bound) :=
  if_pos beyond

theorem receive_enter_refused {segment : Segment}
    (beyond : accumulator.bound < segment.stop) :
    ∃ cause, Sink.receive accumulator (.enter segment) =
      ({ accumulator with failure := some (.rejected cause) }, some (.rejected cause)) :=
  ⟨_, receive_enter_beyond beyond⟩

theorem receive_accept_outside (whole : accumulator.failure = none) {id : DocumentId}
    (outside : accumulator.segmentSize ≤ id.toNat) :
    Sink.receive accumulator (.accept id) =
      accumulator.reject (.outsideSegment id.toNat accumulator.segmentSize) := by
  change accumulator.accept id = _
  rw [accept, if_neg (by simp [whole]), if_pos outside]

theorem receive_accept_refused (whole : accumulator.failure = none) {id : DocumentId}
    (outside : accumulator.segmentSize ≤ id.toNat) :
    ∃ cause, Sink.receive accumulator (.accept id) =
      ({ accumulator with failure := some (.rejected cause) }, some (.rejected cause)) :=
  ⟨_, receive_accept_outside whole outside⟩

section Numbers

variable (within : accumulator.bound ≤ DocumentId.count)
  (fits : accumulator.base.toNat + accumulator.segmentSize ≤ accumulator.bound) {id : DocumentId}
  (inside : id.toNat < accumulator.segmentSize)

include within fits inside

theorem toNat_base_add : (accumulator.base + id).toNat = accumulator.base.toNat + id.toNat := by
  have count : DocumentId.count = 2 ^ 32 := rfl
  rw [UInt32.toNat_add, Nat.mod_eq_of_lt (by omega)]

theorem receive_accept_inside (whole : accumulator.failure = none)
    (held : accumulator.holding.Within accumulator.bound) :
    ∃ holding, Holding.Adds accumulator.bound accumulator.limit (accumulator.base + id)
        accumulator.holding holding ∧
      Sink.receive accumulator (.accept id) = ({ accumulator with holding }, none) := by
  have number := toNat_base_add within fits inside
  rcases Holding.add_eq_ok accumulator.limit held (show (accumulator.base + id).toNat < _ by omega)
    with ⟨holding, added, adds⟩
  refine ⟨holding, adds, ?_⟩
  change accumulator.accept id = _
  rw [accept, if_neg (by simp [whole]), if_neg (by omega)]
  simp only [added]

end Numbers

theorem Gathers.enter (gathers : accumulator.Gathers documents) {segment : Segment}
    (fits : segment.stop ≤ accumulator.bound) :
    ({ accumulator with base := segment.base, segmentSize := segment.size } :
      Accumulator).Gathers documents :=
  ⟨gathers.within, fits, gathers.below, gathers.kept, gathers.whole⟩

theorem Gathers.finish (gathers : accumulator.Gathers documents) :
    ∃ set, accumulator.finish = .ok set ∧
      Holding.Settles accumulator.bound accumulator.limit documents set := by
  refine ⟨accumulator.holding.toIdSet accumulator.limit, ?_,
    Holding.settles_toIdSet gathers.kept gathers.within⟩
  rw [Accumulator.finish, gathers.whole]

theorem Gathers.adds (gathers : accumulator.Gathers documents) {id : DocumentId}
    (inside : id.toNat < accumulator.segmentSize) {holding : Holding}
    (adds : Holding.Adds accumulator.bound accumulator.limit (accumulator.base + id)
      accumulator.holding holding) :
    ({ accumulator with holding } : Accumulator).Gathers
      (documents ++ [accumulator.base.toNat + id.toNat]) := by
  have current := gathers.inside
  have kept := adds.keeps gathers.kept
  rw [toNat_base_add gathers.within current inside] at kept
  refine ⟨gathers.within, current, ?_, kept, gathers.whole⟩
  rw [List.forall_mem_append, List.forall_mem_singleton]
  exact ⟨gathers.below, show _ < accumulator.bound by omega⟩

theorem Gathers.receive_accept (gathers : accumulator.Gathers documents) {id : DocumentId}
    (inside : id.toNat < accumulator.segmentSize) :
    ∃ holding, Holding.Adds accumulator.bound accumulator.limit (accumulator.base + id)
        accumulator.holding holding ∧
      Sink.receive accumulator (.accept id) = ({ accumulator with holding }, none) :=
  receive_accept_inside gathers.within gathers.inside inside gathers.whole
    (gathers.kept.within gathers.below)

theorem Gathers.accept (gathers : accumulator.Gathers documents) {id : DocumentId}
    (inside : id.toNat < accumulator.segmentSize) :
    ∃ holding, Sink.receive accumulator (.accept id) = ({ accumulator with holding }, none) ∧
      ({ accumulator with holding } : Accumulator).Gathers
        (documents ++ [accumulator.base.toNat + id.toNat]) := by
  rcases gathers.receive_accept inside with ⟨holding, adds, received⟩
  exact ⟨holding, received, gathers.adds inside adds⟩

end Accumulator

end ResultSets
