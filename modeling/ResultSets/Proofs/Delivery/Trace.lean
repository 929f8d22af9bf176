import ResultSets.Delivery.Recorder
import ResultSets.Proofs.Delivery.Latch
import ResultSets.Proofs.Delivery.Silent
import ResultSets.Proofs.Fallible
import ResultSets.Proofs.Index.Layout

namespace ResultSets

/-! The calls by which a set is delivered. In the order of their bases, each segment that has
members of the set is entered once and accepts them, and no other segment is entered. A member
that lies in no segment ends the delivery before it is accepted. A sink that refuses a call gets
no further one. -/

theorem Call.offered_concat_enter (base : DocumentId) (calls : List Call) (segment : Segment) :
    offered base (calls ++ [.enter segment]) = offered base calls := by
  induction calls generalizing base with
  | nil => rfl
  | cons call rest induction =>
      cases call with
      | enter other => exact induction other.base
      | accept id => rw [List.cons_append, offered, offered, induction]
      | abort reason => exact induction base

theorem Delivery.prepend_prepend (first second : List Call) (delivery : Delivery) :
    (delivery.prepend second).prepend first = delivery.prepend (first ++ second) := by
  rw [prepend, prepend, prepend, List.append_assoc]

/-! ## What belongs to a segment

Each segment that has some of the ids is visited: it is entered and accepts them there. -/

namespace Segment

variable {segment : Segment} {segments others : List Segment} {id : DocumentId}
  {ids : List DocumentId}

def Covers (segments : List Segment) (id : DocumentId) : Prop :=
  ∃ segment ∈ segments, segment.span.Holds id.toNat

instance (segments : List Segment) (id : DocumentId) : Decidable (Covers segments id) :=
  inferInstanceAs (Decidable (∃ segment ∈ segments, segment.span.Holds id.toNat))

def own (segment : Segment) (ids : List DocumentId) : List DocumentId :=
  ids.filter fun id => segment.span.Holds id.toNat

def accepts (segment : Segment) (ids : List DocumentId) : List Call :=
  (segment.own ids).map fun id => .accept (id - segment.base)

def having (ids : List DocumentId) (segments : List Segment) : List Segment :=
  segments.filter fun segment => segment.own ids ≠ []

def visits (segments : List Segment) (ids : List DocumentId) : List Call :=
  (having ids segments).flatMap fun segment => .enter segment :: segment.accepts ids

theorem own_cons_of_holds (holds : segment.span.Holds id.toNat) :
    segment.own (id :: ids) = id :: segment.own ids :=
  List.filter_cons_of_pos (by simpa using holds)

theorem own_cons_of_not_holds (outside : ¬ segment.span.Holds id.toNat) :
    segment.own (id :: ids) = segment.own ids :=
  List.filter_cons_of_neg (by simpa using outside)

theorem own_eq_nil_iff :
    segment.own ids = [] ↔ ∀ id ∈ ids, ¬ segment.span.Holds id.toNat := by
  rw [own, List.filter_eq_nil_iff]
  simp only [decide_eq_true_eq]

theorem mem_having :
    segment ∈ having ids segments ↔
      segment ∈ segments ∧ ∃ id ∈ ids, segment.span.Holds id.toNat := by
  rw [having, List.mem_filter, decide_eq_true_eq, ne_eq, own_eq_nil_iff, not_forall]
  simp only [not_forall, not_not, exists_prop]

theorem accepts_cons_of_holds (holds : segment.span.Holds id.toNat) :
    segment.accepts (id :: ids) = .accept (id - segment.base) :: segment.accepts ids := by
  rw [accepts, own_cons_of_holds holds, List.map_cons]
  rfl

theorem accepts_eq_nil (outside : ∀ id ∈ ids, ¬ segment.span.Holds id.toNat) :
    segment.accepts ids = [] := by
  rw [accepts, own_eq_nil_iff.mpr outside, List.map_nil]

theorem base_ne_of_disjoint {left right : Segment} {first second : Nat}
    (disjoint : left.Disjoint right) (inLeft : left.span.Holds first)
    (inRight : right.span.Holds second) : left.base.toNat ≠ right.base.toNat := by
  intro same
  apply disjoint left.base.toNat ⟨Nat.le_refl _, Nat.lt_of_le_of_lt inLeft.1 inLeft.2⟩
  rw [same]
  exact ⟨Nat.le_refl _, Nat.lt_of_le_of_lt inRight.1 inRight.2⟩

structure Visited (segments : List Segment) (ids : List DocumentId) (visited : List Segment) :
    Prop where
  ascending : visited.Pairwise fun left right => left.base < right.base
  mem_iff : ∀ segment, segment ∈ visited ↔
    segment ∈ segments ∧ ∃ id ∈ ids, segment.span.Holds id.toNat

theorem visited_having (disjoint : segments.Pairwise Segment.Disjoint) (ids : List DocumentId) :
    Visited segments ids (having ids (ordered segments)) := by
  constructor
  · apply ((ordered_disjoint disjoint).filter _).imp_of_mem
    intro left right leftMember rightMember both
    rcases both with ⟨before, apart⟩
    rcases (mem_having.mp leftMember).2 with ⟨first, _, inLeft⟩
    rcases (mem_having.mp rightMember).2 with ⟨second, _, inRight⟩
    have different := base_ne_of_disjoint apart inLeft inRight
    exact UInt32.lt_iff_toNat_lt.mpr (Nat.lt_of_le_of_ne before different)
  · intro segment
    rw [mem_having, ordered, List.mem_mergeSort]

/-! ## Visits -/

theorem visits_append (segments others : List Segment) (ids : List DocumentId) :
    visits (segments ++ others) ids = visits segments ids ++ visits others ids := by
  rw [visits, having, List.filter_append, List.flatMap_append]
  rfl

theorem visits_eq_nil
    (outside : ∀ segment ∈ segments, ∀ id ∈ ids, ¬ segment.span.Holds id.toNat) :
    visits segments ids = [] := by
  have none : having ids segments = [] := by
    apply List.eq_nil_iff_forall_not_mem.mpr
    intro segment member
    rcases mem_having.mp member with ⟨listed, id, given, holds⟩
    exact outside segment listed id given holds
  rw [visits, none, List.flatMap_nil]

theorem mem_of_enter_mem_visits (entered : Call.enter segment ∈ visits segments ids) :
    segment ∈ segments := by
  rcases List.mem_flatMap.mp entered with ⟨visited, member, call⟩
  rcases List.mem_cons.mp call with same | accepted
  · cases same
    exact (mem_having.mp member).1
  · rcases List.mem_map.mp accepted with ⟨id, _, other⟩
    cases other

theorem visits_cons_of_not_holds
    (outside : ∀ segment ∈ segments, ¬ segment.span.Holds id.toNat) :
    visits segments (id :: ids) = visits segments ids := by
  have same : ∀ segment ∈ segments, segment.own (id :: ids) = segment.own ids :=
    fun segment member => own_cons_of_not_holds (outside segment member)
  have alike : having (id :: ids) segments = having ids segments :=
    List.filter_congr fun segment member => by rw [same segment member]
  rw [visits, visits, alike]
  apply List.flatMap_congr
  intro segment member
  rw [accepts, accepts, same segment (mem_having.mp member).1]

theorem visits_cons_of_holds (holds : segment.span.Holds id.toNat)
    (outside : ∀ other ∈ others, ¬ other.span.Holds id.toNat) :
    visits (segment :: others) (id :: ids) =
      .enter segment :: .accept (id - segment.base) :: segment.accepts ids ++
        visits others ids := by
  have first : having (id :: ids) (segment :: others) = segment :: having (id :: ids) others := by
    apply List.filter_cons_of_pos
    rw [own_cons_of_holds holds]
    rfl
  rw [← visits_cons_of_not_holds outside, visits, first, List.flatMap_cons,
    accepts_cons_of_holds holds]
  rfl

end Segment

namespace IdSet

variable {current : Option Segment} {following : List Segment} {id : DocumentId}
  {ids : List DocumentId}

/-! ## One id -/

theorem segmentFor?_of_passed (passed : ∀ segment ∈ current, segment.stop ≤ id.toNat)
    (following : List Segment) :
    segmentFor? current following id = segmentFor? none following id := by
  have left : current.filter (id.toNat < ·.stop) = none := by
    rw [Option.filter_eq_none_iff]
    intro segment present
    simpa using passed segment present
  rw [segmentFor?, left, segmentFor?, Option.filter_none]

theorem deliverFrom_of_holds {segment : Segment} (holds : segment.span.Holds id.toNat)
    (following : List Segment) (ids : List DocumentId) :
    deliverFrom (some segment) following (id :: ids) =
      (deliverFrom (some segment) following ids).prepend [.accept (id - segment.base)] := by
  have found : segmentFor? (some segment) following id = some ([], segment, following) := by
    have behind : decide (id.toNat < segment.stop) = true := decide_eq_true holds.2
    rw [segmentFor?, Option.filter_some, if_pos behind]
  have reached : ¬ id < segment.base := UInt32.not_lt.mpr (UInt32.le_iff_toNat_le.mpr holds.1)
  rw [deliverFrom, found]
  simp only [reached, if_false, List.nil_append]

theorem deliverFrom_of_passed (passed : ∀ segment ∈ current, segment.stop ≤ id.toNat)
    (ordered : following.Pairwise fun left right => left.base.toNat ≤ right.base.toNat)
    (inside : ∃ segment ∈ following, segment.span.Holds id.toNat) :
    ∃ before segment rest, following = before ++ segment :: rest ∧
      segment.span.Holds id.toNat ∧ (∀ other ∈ before, other.stop ≤ id.toNat) ∧
      ∀ ids, deliverFrom current following (id :: ids) =
        (deliverFrom (some segment) rest ids).prepend
          [.enter segment, .accept (id - segment.base)] := by
  rcases Segment.exists_first_of_holds ordered inside with ⟨segment, rest, dropped, holds⟩
  refine ⟨following.takeWhile (·.stop ≤ id.toNat), segment, rest, ?_, holds, ?_, fun ids => ?_⟩
  · rw [← dropped, List.takeWhile_append_dropWhile]
  · intro other taken
    simpa using List.all_eq_true.mp List.all_takeWhile other taken
  · have reached : ¬ id < segment.base :=
      UInt32.not_lt.mpr (UInt32.le_iff_toNat_le.mpr holds.1)
    rw [deliverFrom, segmentFor?_of_passed passed, segmentFor?, Option.filter_none, dropped]
    simp only [reached, if_false, List.singleton_append]

theorem deliverFrom_of_stray (passed : ∀ segment ∈ current, segment.stop ≤ id.toNat)
    (outside : ∀ segment ∈ following, ¬ segment.span.Holds id.toNat) (ids : List DocumentId) :
    deliverFrom current following (id :: ids) =
        { calls := [], failure := some (.idBeyondSegments id.toNat) } ∨
      ∃ segment ∈ following, id < segment.base ∧
        deliverFrom current following (id :: ids) =
          { calls := [.enter segment]
            failure := some (.idBeforeSegment id.toNat segment.base.toNat) } := by
  rw [deliverFrom, segmentFor?_of_passed passed, segmentFor?, Option.filter_none]
  cases dropped : following.dropWhile (·.stop ≤ id.toNat) with
  | nil => exact .inl rfl
  | cons segment rest =>
      rcases Segment.lt_stop_of_dropWhile dropped with ⟨member, below⟩
      have before : id < segment.base := by
        apply UInt32.not_le.mp
        intro reached
        exact outside segment member ⟨UInt32.le_iff_toNat_le.mp reached, below⟩
      refine .inr ⟨segment, member, before, ?_⟩
      simp only [before, if_true]

/-! ## Ids that lie in the segments

The ids to come ascend, and each lies in the current segment or in one of those that follow it in
the order of their bases. -/

structure Placed (current : Option Segment) (following : List Segment)
    (ids : List DocumentId) : Prop where
  ordered : (current.toList ++ following).Pairwise fun left right =>
    left.base.toNat ≤ right.base.toNat ∧ left.Disjoint right
  ascending : Ascending ids
  inside : ∀ id ∈ ids, Segment.Covers (current.toList ++ following) id

theorem Placed.leave {passed : List Segment} {segment : Segment} {rest : List Segment}
    (placed : Placed current following (id :: ids))
    (split : current.toList ++ following = passed ++ segment :: rest)
    (ended : ∀ other ∈ passed, other.stop ≤ id.toNat) : Placed (some segment) rest ids := by
  have ordered := placed.ordered
  have inside := placed.inside
  rw [split] at ordered inside
  refine ⟨(List.pairwise_append.mp ordered).2.1, placed.ascending.of_cons, fun later member => ?_⟩
  have least := (List.pairwise_cons.mp placed.ascending).1
  have further := UInt32.lt_iff_toNat_lt.mp (least later member)
  rcases inside later (.tail _ member) with ⟨own, listed, holds⟩
  rcases List.mem_append.mp listed with before | ahead
  · have stop := ended own before
    have behind : later.toNat < own.stop := holds.2
    omega
  · exact ⟨own, ahead, holds⟩

/-- The next id lies in the current segment, or in one that is entered for it. The others are
then as well placed as they were before. -/
theorem Placed.step (placed : Placed current following (id :: ids)) :
    (∃ segment, current = some segment ∧ segment.span.Holds id.toNat ∧
      Placed (some segment) following ids) ∨
    ∃ before segment rest, following = before ++ segment :: rest ∧
      segment.span.Holds id.toNat ∧
      (∀ other ∈ current.toList ++ before, other.stop ≤ id.toNat) ∧
      Placed (some segment) rest ids ∧
      ∀ tail, deliverFrom current following (id :: tail) =
        (deliverFrom (some segment) rest tail).prepend
          [.enter segment, .accept (id - segment.base)] := by
  have ordered := placed.ordered.imp And.left
  have inside := placed.inside id (.head _)
  by_cases passed : ∀ segment ∈ current, segment.stop ≤ id.toNat
  · right
    have ended : ∀ segment ∈ current.toList, segment.stop ≤ id.toNat := fun segment present =>
      passed segment (Option.mem_toList.mp present)
    have further : ∃ segment ∈ following, segment.span.Holds id.toNat := by
      rcases inside with ⟨own, member, holds⟩
      rcases List.mem_append.mp member with present | later
      · exact absurd holds.2 (Nat.not_lt_of_le (ended own present))
      · exact ⟨own, later, holds⟩
    rcases deliverFrom_of_passed passed (List.pairwise_append.mp ordered).2.1 further with
      ⟨before, segment, rest, split, holds, beforeEnded, delivered⟩
    have allEnded : ∀ other ∈ current.toList ++ before, other.stop ≤ id.toNat :=
      List.forall_mem_append.mpr ⟨ended, beforeEnded⟩
    have whole : current.toList ++ following = (current.toList ++ before) ++ segment :: rest := by
      rw [split, List.append_assoc]
    exact ⟨before, segment, rest, split, holds, allEnded, placed.leave whole allEnded, delivered⟩
  · left
    simp only [not_forall, Nat.not_le, exists_prop] at passed
    rcases passed with ⟨segment, rfl, below⟩
    have alone : (some segment).toList ++ following = [] ++ segment :: following := rfl
    exact ⟨segment, rfl, Segment.holds_of_lt_stop ordered inside below,
      placed.leave alone (List.forall_mem_nil _)⟩

theorem Placed.not_holds_of_ended (placed : Placed current following (id :: ids))
    {segment : Segment} (ended : segment.stop ≤ id.toNat) :
    ∀ later ∈ id :: ids, ¬ segment.span.Holds later.toNat := by
  intro later member holds
  have behind : later.toNat < segment.stop := holds.2
  rcases List.mem_cons.mp member with rfl | listed
  · omega
  · have further :=
      UInt32.lt_iff_toNat_lt.mp ((List.pairwise_cons.mp placed.ascending).1 later listed)
    omega

/-- Ids that lie in the segments are delivered whatever follows them: the current segment accepts
those that are its own, and those that follow are visited. -/
theorem Placed.deliverFrom_append (placed : Placed current following ids) :
    ∃ last rest, last.toList ++ rest ⊆ current.toList ++ following ∧
      (∀ segment ∈ last, segment ∈ current ∨ ∃ id ∈ ids, segment.span.Holds id.toNat) ∧
      ∀ tail, deliverFrom current following (ids ++ tail) =
        (deliverFrom last rest tail).prepend
          (current.toList.flatMap (·.accepts ids) ++ Segment.visits following ids) := by
  induction ids generalizing current following with
  | nil =>
      have none : current.toList.flatMap (·.accepts []) ++ Segment.visits following [] = [] := by
        rw [Segment.visits_eq_nil (by simp), List.append_nil, List.flatMap_eq_nil_iff]
        exact fun segment _ => rfl
      refine ⟨current, following, List.Subset.refl _, fun segment => .inl, fun tail => ?_⟩
      rw [none]
      rfl
  | cons id ids induction =>
      rcases placed.step with
        ⟨segment, rfl, holds, stays⟩ | ⟨before, segment, rest, rfl, holds, ended, moves, entered⟩
      -- The id lies in the current segment.
      · rcases induction stays with ⟨last, rest, within, reached, delivered⟩
        have outside : ∀ other ∈ following, ¬ other.span.Holds id.toNat := fun other member =>
          ((List.pairwise_cons.mp placed.ordered).1 other member).2 id.toNat holds
        refine ⟨last, rest, within, fun own present => ?_, fun tail => ?_⟩
        · exact (reached own present).imp_right fun ⟨later, member, holds⟩ =>
            ⟨later, .tail _ member, holds⟩
        · rw [List.cons_append, deliverFrom_of_holds holds, delivered, Delivery.prepend_prepend,
            Segment.visits_cons_of_not_holds outside, Option.toList_some, List.flatMap_singleton,
            List.flatMap_singleton, Segment.accepts_cons_of_holds holds]
          rfl
      -- The segment of the id is entered, and those before it are left behind without ids.
      · rcases induction moves with ⟨last, later, within, reached, delivered⟩
        have gone : ∀ other ∈ current.toList ++ before, ∀ given ∈ id :: ids,
            ¬ other.span.Holds given.toNat := fun other member =>
          placed.not_holds_of_ended (ended other member)
        have left : current.toList.flatMap (·.accepts (id :: ids)) = [] :=
          List.flatMap_eq_nil_iff.mpr fun other member =>
            Segment.accepts_eq_nil (gone other (List.mem_append_left _ member))
        have passedOver : Segment.visits before (id :: ids) = [] :=
          Segment.visits_eq_nil fun other member =>
            gone other (List.mem_append_right _ member)
        have outside : ∀ other ∈ rest, ¬ other.span.Holds id.toNat := fun other member =>
          ((List.pairwise_cons.mp moves.ordered).1 other member).2 id.toNat holds
        refine ⟨last, later, fun other member => ?_, fun own present => ?_, fun tail => ?_⟩
        · rw [← List.append_assoc]
          exact List.mem_append_right _ (within member)
        · right
          rcases reached own present with same | ⟨given, member, holdsGiven⟩
          · cases same
            exact ⟨id, .head _, holds⟩
          · exact ⟨given, .tail _ member, holdsGiven⟩
        · rw [List.cons_append, entered, delivered, Delivery.prepend_prepend, left,
            Segment.visits_append, passedOver, Segment.visits_cons_of_holds holds outside,
            Option.toList_some, List.flatMap_singleton]
          rfl

theorem Placed.offers {base : DocumentId} (placed : Placed current following ids)
    (entered : ∀ segment ∈ current, base = segment.base) :
    (deliverFrom current following ids).failure = none ∧
      Call.offered base (deliverFrom current following ids).calls = ids.map UInt32.toNat := by
  induction ids generalizing current following base with
  | nil => exact ⟨rfl, rfl⟩
  | cons id ids induction =>
      rcases placed.step with
        ⟨segment, rfl, holds, stays⟩ | ⟨before, segment, rest, rfl, holds, _, moves, delivered⟩
      · rcases induction stays entered with ⟨whole, offered⟩
        rw [deliverFrom_of_holds holds]
        refine ⟨whole, ?_⟩
        rw [Delivery.prepend, List.singleton_append, Call.offered, offered, entered segment rfl,
          ← (Segment.toNat_sub_base holds).2, List.map_cons]
      · have own : ∀ other ∈ some segment, segment.base = other.base := by
          intro other same
          cases same
          rfl
        rcases induction moves own with ⟨whole, offered⟩
        rw [delivered]
        refine ⟨whole, ?_⟩
        rw [Delivery.prepend, List.cons_append, List.singleton_append, Call.offered, Call.offered,
          offered, ← (Segment.toNat_sub_base holds).2, List.map_cons]

/-! ## Delivering a set -/

theorem placed_ordered {segments : List Segment} (disjoint : segments.Pairwise Segment.Disjoint)
    (ascending : Ascending ids) (inside : ∀ id ∈ ids, Segment.Covers segments id) :
    Placed none (Segment.ordered segments) ids := by
  refine ⟨Segment.ordered_disjoint disjoint, ascending, fun id member => ?_⟩
  rcases inside id member with ⟨segment, listed, holds⟩
  exact ⟨segment, List.mem_mergeSort.mpr listed, holds⟩

theorem Placed.deliverFrom_eq (placed : Placed none following ids) :
    deliverFrom none following ids = { calls := Segment.visits following ids } := by
  rcases placed.deliverFrom_append with ⟨last, rest, _, _, delivered⟩
  have whole := delivered []
  rw [List.append_nil, deliverFrom, Delivery.prepend, List.append_nil] at whole
  exact whole

theorem Placed.deliverFrom_stray (placed : Placed none following ids) {stray : DocumentId}
    (above : ∀ id ∈ ids, id < stray) (outside : ¬ Segment.Covers following stray)
    (others : List DocumentId) :
    ∃ opening error,
      deliverFrom none following (ids ++ stray :: others) =
        { calls := Segment.visits following ids ++ opening, failure := some error } ∧
      error.isInternal = true ∧
      (opening = [] ∨
        ∃ segment ∈ following, stray < segment.base ∧ opening = [.enter segment]) := by
  rcases placed.deliverFrom_append with ⟨last, rest, within, reached, delivered⟩
  have notIn : ∀ segment ∈ following, ¬ segment.span.Holds stray.toNat :=
    fun segment member holds => outside ⟨segment, member, holds⟩
  have passed : ∀ segment ∈ last, segment.stop ≤ stray.toNat := by
    intro segment same
    rcases reached segment same with absent | ⟨id, member, holds⟩
    · cases absent
    · have further := UInt32.lt_iff_toNat_lt.mp (above id member)
      have listed : segment ∈ following :=
        within (List.mem_append_left _ (Option.mem_toList.mpr same))
      apply Nat.le_of_not_lt
      intro behind
      exact notIn segment listed ⟨Nat.le_trans holds.1 (Nat.le_of_lt further), behind⟩
  have later : ∀ segment ∈ rest, segment ∈ following := fun segment member =>
    within (List.mem_append_right _ member)
  rw [delivered]
  rcases deliverFrom_of_stray passed (fun segment member => notIn segment (later segment member))
    others with ended | ⟨segment, member, before, ended⟩
  · exact ⟨[], _, by rw [ended]; rfl, rfl, .inl rfl⟩
  · exact ⟨[.enter segment], _, by rw [ended]; rfl, rfl,
      .inr ⟨segment, later segment member, before, rfl⟩⟩

theorem deliver_of_covered {docs : IdSet} (wellFormed : docs.WellFormed)
    {segments : List Segment} (disjoint : segments.Pairwise Segment.Disjoint)
    (covered : ∀ id ∈ docs, Segment.Covers segments id) :
    docs.deliver segments =
      { calls := Segment.visits (Segment.ordered segments) docs.toList } :=
  (placed_ordered disjoint (toList_ascending wellFormed) fun id member =>
    covered id ((mem_toList wellFormed id).mp member)).deliverFrom_eq

theorem deliver_of_stray {docs : IdSet} (wellFormed : docs.WellFormed) {segments : List Segment}
    (disjoint : segments.Pairwise Segment.Disjoint)
    (strays : ∃ id ∈ docs, ¬ Segment.Covers segments id) :
    ∃ stray ∈ docs, ¬ Segment.Covers segments stray ∧
      (∀ id ∈ docs, id < stray → Segment.Covers segments id) ∧
      ∃ opening error,
        docs.deliver segments =
          { calls := Segment.visits (Segment.ordered segments)
              (docs.toList.filter (· < stray)) ++ opening
            failure := some error } ∧
        error.isInternal = true ∧
        (opening = [] ∨
          ∃ segment ∈ segments, stray < segment.base ∧ opening = [.enter segment]) ∧
        ∀ base, Call.offered base (docs.deliver segments).calls =
          (docs.toList.filter (· < stray)).map UInt32.toNat := by
  have ascending := toList_ascending wellFormed
  have listed := mem_toList wellFormed
  have breached : ¬ ∀ id ∈ docs.toList, Segment.Covers segments id := by
    intro all
    rcases strays with ⟨id, member, outside⟩
    exact outside (all id ((listed id).mpr member))
  rcases exists_first_not breached with ⟨below, stray, above, split, covered, outside⟩
  have least : docs.toList.filter (· < stray) = below := by
    rw [split] at ascending ⊢
    exact ascending.filter_lt
  have member : stray ∈ docs := (listed stray).mp (by rw [split]; simp)
  refine ⟨stray, member, outside, fun id held before => ?_, ?_⟩
  · apply covered id
    rw [← least, List.mem_filter]
    exact ⟨(listed id).mpr held, by simpa using before⟩
  · rw [least]
    rw [split] at ascending
    have placed := placed_ordered disjoint (List.pairwise_append.mp ascending).1 covered
    have notCovered : ¬ Segment.Covers (Segment.ordered segments) stray := fun inside =>
      outside (inside.imp fun segment both => ⟨List.mem_mergeSort.mp both.1, both.2⟩)
    rcases placed.deliverFrom_stray
      (fun id first => (List.pairwise_append.mp ascending).2.2 id first stray (.head _))
      notCovered above with ⟨opening, error, delivered, internal, opened⟩
    rw [← split] at delivered
    refine ⟨opening, error, delivered, internal, ?_, fun base => ?_⟩
    · exact opened.imp_right fun ⟨segment, entered, before, alone⟩ =>
        ⟨segment, List.mem_mergeSort.mp entered, before, alone⟩
    · have offered := (@Placed.offers _ _ _ base placed (by simp)).2
      rw [placed.deliverFrom_eq] at offered
      rw [deliver, delivered]
      rcases opened with rfl | ⟨segment, _, _, rfl⟩
      · rw [List.append_nil]
        exact offered
      · rw [Call.offered_concat_enter]
        exact offered

/-- What a set delivers. If each member lies in a segment, the segments that have some are
entered in the order of their bases, and each accepts its own in theirs. If some members lie in
none, the delivery ends with an internal error at the least of them, when exactly the members
below it have been accepted. A sink that refuses a call gets no further one. -/
theorem deliver_traces {docs : IdSet} (wellFormed : docs.WellFormed) {segments : List Segment}
    (disjoint : segments.Pairwise Segment.Disjoint) :
    (Ascending docs.toList ∧ ∀ id, id ∈ docs.toList ↔ id ∈ docs) ∧
    ((∀ id ∈ docs, Segment.Covers segments id) →
      ∃ visited, Segment.Visited segments docs.toList visited ∧
        docs.deliver segments =
          { calls := visited.flatMap fun segment =>
              .enter segment :: segment.accepts docs.toList }) ∧
    ((∃ id ∈ docs, ¬ Segment.Covers segments id) →
      ∃ stray ∈ docs, ¬ Segment.Covers segments stray ∧
        (∀ id ∈ docs, id < stray → Segment.Covers segments id) ∧
        ∃ visited opening error,
          Segment.Visited segments (docs.toList.filter (· < stray)) visited ∧
          docs.deliver segments =
            { calls := (visited.flatMap fun segment =>
                .enter segment :: segment.accepts (docs.toList.filter (· < stray))) ++ opening
              failure := some error } ∧
          error.isInternal = true ∧
          (opening = [] ∨
            ∃ segment ∈ segments, stray < segment.base ∧ opening = [.enter segment]) ∧
          ∀ base, Call.offered base (docs.deliver segments).calls =
            (docs.toList.filter (· < stray)).map UInt32.toNat) ∧
    ∀ {σ : Type} [Sink σ] (sink : σ),
      (¬ Sink.Refuses sink (docs.deliver segments).calls →
        (docs.deliver segments).into sink =
          (Sink.after sink (docs.deliver segments).calls, (docs.deliver segments).failure)) ∧
      ∀ before call rest refusal, (docs.deliver segments).calls = before ++ call :: rest →
        ¬ Sink.Refuses sink before →
        (Sink.receive (Sink.after sink before) call).2 = some refusal →
          (docs.deliver segments).into sink =
            (Sink.after sink (before ++ [call]), some refusal) := by
  refine ⟨⟨toList_ascending wellFormed, mem_toList wellFormed⟩, fun covered => ?_,
    fun strays => ?_, fun sink => ⟨fun accepts => ?_, ?_⟩⟩
  · exact ⟨_, Segment.visited_having disjoint docs.toList,
      deliver_of_covered wellFormed disjoint covered⟩
  · rcases deliver_of_stray wellFormed disjoint strays with
      ⟨stray, member, outside, least, opening, error, delivered⟩
    exact ⟨stray, member, outside, least, _, opening, error,
      Segment.visited_having disjoint _, delivered⟩
  · exact Delivery.handOver_of_not_refuses accepts _
  · intro before call rest refusal split accepts refused
    rw [Delivery.into, split]
    exact Delivery.handOver_of_first_refusal accepts refused _

/-- Three segments in no order, one of them empty and inside another, and a gap between the
others. A set without members in the gap is delivered as a whole, unless the sink is full before.
A set with a member in the gap is delivered up to there. -/
theorem deliver_traces_gap :
    let early : Segment := { base := 0, size := 5 }
    let late : Segment := { base := 8, size := 8 }
    let segments : List Segment := [late, { base := 2, size := 0 }, early]
    (∃ visited, Segment.Visited segments [1, 4, 8] visited ∧
      (sparse #[1, 4, 8]).deliver segments =
        { calls := visited.flatMap fun segment => .enter segment :: segment.accepts [1, 4, 8] }) ∧
    ((sparse #[1, 4, 8]).deliver segments).into ({ limit := some 1 } : Recorder) =
      (Sink.after { limit := some 1 } [.enter early, .accept 1, .accept 4],
        some (.reported .other "recorder is full")) ∧
    ∃ stray ∈ sparse #[1, 6, 8], ¬ Segment.Covers segments stray ∧
      (∀ id ∈ sparse #[1, 6, 8], id < stray → Segment.Covers segments id) ∧
      ((sparse #[1, 6, 8]).deliver segments).failure.any Error.isInternal ∧
      ∀ base, Call.offered base ((sparse #[1, 6, 8]).deliver segments).calls =
        ([1, 6, 8].filter (· < stray)).map UInt32.toNat := by
  intro early late segments
  have wholeFormed : (sparse #[1, 4, 8]).WellFormed := by
    change Ascending [1, 4, 8]
    decide
  have strayFormed : (sparse #[1, 6, 8]).WellFormed := by
    change Ascending [1, 6, 8]
    decide
  have disjoint : segments.Pairwise Segment.Disjoint := by
    have beyond : late.Apart { base := 2, size := 0 } ∧ late.Apart early := by decide
    have hollow : Segment.Disjoint { base := 2, size := 0 } early := by
      intro document inside
      have bounds : 2 ≤ document ∧ document < 2 := inside
      omega
    refine .cons ?_ (.cons ?_ (List.pairwise_singleton _ _))
    · simpa using ⟨beyond.1.disjoint, beyond.2.disjoint⟩
    · simpa using hollow
  have covered : ∀ id ∈ sparse #[1, 4, 8], Segment.Covers segments id := by
    intro id held
    have listed : id ∈ [1, 4, 8] := (mem_toList wholeFormed id).mpr held
    simp only [List.mem_cons, List.not_mem_nil, or_false] at listed
    rcases listed with rfl | rfl | rfl
    · exact ⟨early, .tail _ (.tail _ (.head _)), by decide⟩
    · exact ⟨early, .tail _ (.tail _ (.head _)), by decide⟩
    · exact ⟨late, .head _, by decide⟩
  have outside : ¬ Segment.Covers segments 6 := by decide
  have member : (6 : DocumentId) ∈ sparse #[1, 6, 8] :=
    (mem_toList strayFormed 6).mp (.tail _ (.head _))
  have calls : ((sparse #[1, 4, 8]).deliver segments).calls =
      [.enter early, .accept 1] ++ .accept 4 :: [.enter late, .accept 0] := by
    have sorted : Segment.ordered segments = [early, { base := 2, size := 0 }, late] := by
      simp [Segment.ordered, List.mergeSort, segments, early, late]
    have listed : (sparse #[1, 4, 8]).toList = [1, 4, 8] := rfl
    rw [deliver, sorted, listed]
    simp [deliverFrom, segmentFor?, Option.filter_some, Delivery.prepend, Segment.stop, early, late]
  have accepts : ¬ Sink.Refuses ({ limit := some 1 } : Recorder) [.enter early, .accept 1] := by
    rw [Sink.refuses_cons, Sink.refuses_cons]
    intro refuses
    rcases refuses with refused | refused | refuses
    · cases refused
    · cases refused
    · exact Sink.not_refuses_nil refuses
  rcases deliver_traces wholeFormed disjoint with ⟨_, whole, _, intoSink⟩
  rcases deliver_traces strayFormed disjoint with ⟨_, _, stray, _⟩
  refine ⟨whole covered, (intoSink _).2 _ _ _ _ calls accepts rfl, ?_⟩
  rcases stray ⟨6, member, outside⟩ with
    ⟨least, held, notCovered, below, _, _, error, _, delivered, internal, _, offered⟩
  refine ⟨least, held, notCovered, below, ?_, offered⟩
  rw [delivered]
  exact internal

end IdSet

end ResultSets
