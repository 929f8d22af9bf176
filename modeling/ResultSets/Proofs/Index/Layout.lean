import Mathlib.Data.Finset.Card
import Mathlib.Data.List.Sort
import ResultSets.Index.Basic
import ResultSets.Proofs.Bitmap.Paste
import ResultSets.Proofs.IdSet.Members

namespace ResultSets

/-! How the segments of an index lie, and which of its documents are live. Segments that
do not overlap have no document in common, so the live documents are as many as the
segments count together. A set of that many documents, all of them live, leaves none out. -/

/-! ## Spans -/

namespace Span

theorem pairwise_of_overlap?_eq_none {spans : List Span}
    (proper : ∀ span ∈ spans, span.start ≤ span.stop) (apart : overlap? spans = none) :
    spans.Pairwise fun earlier later => earlier.stop ≤ later.start := by
  induction spans with
  | nil => exact .nil
  | cons earlier rest induction =>
      cases rest with
      | nil => exact List.pairwise_singleton _ _
      | cons later others =>
          rw [overlap?] at apart
          split at apart
          · cases apart
          · next notBefore =>
              have tail := induction (fun span member => proper span (.tail _ member)) apart
              refine List.pairwise_cons.mpr ⟨fun span member => ?_, tail⟩
              rcases List.mem_cons.mp member with rfl | further
              · omega
              · have middle := proper later (.tail _ (.head _))
                have beyond := (List.pairwise_cons.mp tail).1 span further
                omega

theorem stop_le_getLast {spans : List Span} (proper : ∀ span ∈ spans, span.start ≤ span.stop)
    (sorted : spans.Pairwise fun earlier later => earlier.stop ≤ later.start) {span : Span}
    (member : span ∈ spans) : span.stop ≤ (spans.getLast?.map stop).getD 0 := by
  induction spans generalizing span with
  | nil => cases member
  | cons earlier rest induction =>
      cases rest with
      | nil =>
          rw [List.mem_singleton.mp member]
          exact Nat.le_refl _
      | cons later others =>
          rcases List.pairwise_cons.mp sorted with ⟨beyond, tail⟩
          have atMost := fun span : Span =>
            @induction (fun span member => proper span (.tail _ member)) tail span
          rw [List.getLast?_cons_cons]
          rcases List.mem_cons.mp member with rfl | further
          · have next := beyond later (.head _)
            have middle := proper later (.tail _ (.head _))
            have last := atMost later (.head _)
            omega
          · exact atMost span further

end Span

/-! ## Segments -/

namespace Segment

def Apart (left right : Segment) : Prop :=
  left.stop ≤ right.base.toNat ∨ right.stop ≤ left.base.toNat

instance (left right : Segment) : Decidable (left.Apart right) :=
  inferInstanceAs (Decidable (_ ∨ _))

theorem Apart.symm {left right : Segment} (apart : left.Apart right) : right.Apart left :=
  Or.symm apart

/-- No document lies in both segments. A segment without documents may lie inside another. -/
def Disjoint (left right : Segment) : Prop :=
  ∀ document, left.span.Holds document → ¬ right.span.Holds document

theorem Disjoint.symm {left right : Segment} (disjoint : left.Disjoint right) :
    right.Disjoint left := fun document inRight inLeft => disjoint document inLeft inRight

theorem Apart.disjoint {left right : Segment} (apart : left.Apart right) :
    left.Disjoint right := by
  intro document inLeft inRight
  rcases inLeft with ⟨leftReached, leftBefore⟩
  rcases inRight with ⟨rightReached, rightBefore⟩
  rcases apart with before | after
  · exact absurd (Nat.le_trans before rightReached) (Nat.not_le_of_lt leftBefore)
  · exact absurd (Nat.le_trans after leftReached) (Nat.not_le_of_lt rightBefore)

def Lives (segment : Segment) (document : Nat) : Prop :=
  ∃ position, position < segment.size ∧ segment.live.all (·.get position) ∧
    document = segment.base.toNat + position

def liveList (segment : Segment) : List Nat :=
  ((List.range segment.size).filter fun position => segment.live.all (·.get position)).map
    (segment.base.toNat + ·)

variable {segment : Segment} {document : Nat}

theorem Lives.inside (lives : segment.Lives document) :
    segment.base.toNat ≤ document ∧ document < segment.stop := by
  rcases lives with ⟨position, inside, _, rfl⟩
  have stop : segment.stop = segment.base.toNat + segment.size := rfl
  omega

theorem toNat_sub_base {id : DocumentId} (inside : segment.span.Holds id.toNat) :
    (id - segment.base).toNat < segment.size ∧
      id.toNat = segment.base.toNat + (id - segment.base).toNat := by
  have reached : segment.base.toNat ≤ id.toNat := inside.1
  have before : id.toNat < segment.base.toNat + segment.size := inside.2
  have offset := UInt32.toNat_sub_of_le _ _ (UInt32.le_iff_toNat_le.mpr reached)
  omega

theorem mem_liveList : document ∈ segment.liveList ↔ segment.Lives document := by
  rw [liveList, List.mem_map]
  constructor
  · rintro ⟨position, member, rfl⟩
    rcases List.mem_filter.mp member with ⟨inside, live⟩
    exact ⟨position, List.mem_range.mp inside, live, rfl⟩
  · rintro ⟨position, inside, live, rfl⟩
    exact ⟨position, List.mem_filter.mpr ⟨List.mem_range.mpr inside, live⟩, rfl⟩

theorem nodup_liveList (segment : Segment) : segment.liveList.Nodup :=
  (List.nodup_range.filter _).map fun left right same => by omega

theorem nodup_flatMap {segments : List Segment} (apart : segments.Pairwise Apart)
    {listed : Segment → List Nat} (each : ∀ segment ∈ segments, (listed segment).Nodup)
    (inside : ∀ segment ∈ segments, ∀ document ∈ listed segment,
      segment.base.toNat ≤ document ∧ document < segment.stop) :
    (segments.flatMap listed).Nodup := by
  rw [List.nodup_flatMap]
  apply And.intro each
  apply apart.imp_of_mem
  intro left right leftMember rightMember apart document inLeft inRight
  have leftBounds := inside left leftMember document inLeft
  have rightBounds := inside right rightMember document inRight
  rcases apart with before | after
  · omega
  · omega

theorem length_liveList (segment : Segment) : segment.liveList.length = segment.liveCount := by
  rw [liveList, List.length_map, ← List.countP_eq_length_filter, liveCount]
  cases segment.live with
  | none => simp
  | some live => rfl

theorem ordered_ascending (segments : List Segment) :
    (ordered segments).Pairwise fun left right => left.base.toNat ≤ right.base.toNat := by
  have sorted : (ordered segments).Pairwise fun left right => decide (left.base ≤ right.base) :=
    List.pairwise_mergeSort
      (fun _ _ _ before after => by
        simp only [decide_eq_true_eq, UInt32.le_iff_toNat_le] at *
        omega)
      (fun _ _ => by
        simp only [Bool.or_eq_true, decide_eq_true_eq, UInt32.le_iff_toNat_le]
        omega) segments
  apply sorted.imp
  intro left right before
  simpa [UInt32.le_iff_toNat_le] using before

theorem ordered_related {segments : List Segment} {Related : Segment → Segment → Prop}
    (symmetric : ∀ {left right}, Related left right → Related right left)
    (related : segments.Pairwise Related) :
    (ordered segments).Pairwise fun left right =>
      left.base.toNat ≤ right.base.toNat ∧ Related left right := by
  have stillRelated : (ordered segments).Pairwise Related :=
    ((List.mergeSort_perm segments _).pairwise_iff symmetric).mpr related
  exact (ordered_ascending segments).and stillRelated

theorem ordered_pairwise {segments : List Segment} (apart : segments.Pairwise Apart) :
    (ordered segments).Pairwise fun left right =>
      left.base.toNat ≤ right.base.toNat ∧ left.Apart right :=
  ordered_related Apart.symm apart

theorem ordered_disjoint {segments : List Segment}
    (disjoint : segments.Pairwise Segment.Disjoint) :
    (ordered segments).Pairwise fun left right =>
      left.base.toNat ≤ right.base.toNat ∧ left.Disjoint right :=
  ordered_related Disjoint.symm disjoint

theorem ordered_pair {early late : Segment} (before : early.base < late.base) :
    ordered [late, early] = [early, late] := by
  simp [ordered, List.mergeSort, UInt32.not_le.mpr before]

theorem mergeSort_spans_pair {early late : Segment} (before : early.base < late.base) :
    ([late, early].map span).mergeSort Span.le = [early.span, late.span] := by
  have after : late.span.le early.span = false := by
    have start : early.span.start < late.span.start := UInt32.lt_iff_toNat_lt.mp before
    rw [Span.le, Bool.or_eq_false_iff, Bool.and_eq_false_iff]
    exact ⟨by simpa using Nat.le_of_lt start, .inl (by simpa using Nat.ne_of_gt start)⟩
  simp [List.mergeSort, after]

/-! A position is looked for by passing over the segments that end before it. If it lies in one
of the segments, it lies in the first that is left. -/

theorem mem_dropWhile_of_lt_stop {segments : List Segment} {position : Nat}
    (member : segment ∈ segments) (behind : position < segment.stop) :
    segment ∈ segments.dropWhile (·.stop ≤ position) := by
  rw [← List.takeWhile_append_dropWhile (p := fun segment : Segment => segment.stop ≤ position)
    (l := segments), List.mem_append] at member
  rcases member with passed | left
  · have before := List.all_eq_true.mp List.all_takeWhile segment passed
    simp only [decide_eq_true_eq] at before
    omega
  · exact left

theorem lt_stop_of_dropWhile {segments rest : List Segment} {position : Nat}
    (dropped : segments.dropWhile (·.stop ≤ position) = segment :: rest) :
    segment ∈ segments ∧ position < segment.stop := by
  have listed : segment ∈ segments.dropWhile (·.stop ≤ position) := by
    rw [dropped]
    exact .head _
  have behind := List.head?_dropWhile_not (fun segment : Segment => segment.stop ≤ position)
    segments
  rw [dropped] at behind
  exact ⟨(List.dropWhile_sublist _).subset listed, by simpa using behind⟩

theorem holds_of_lt_stop {rest : List Segment} {position : Nat}
    (ordered : (segment :: rest).Pairwise fun left right => left.base.toNat ≤ right.base.toNat)
    (inside : ∃ own ∈ segment :: rest, own.span.Holds position)
    (below : position < segment.stop) : segment.span.Holds position := by
  rcases inside with ⟨own, member, reached, _⟩
  rcases List.mem_cons.mp member with rfl | later
  · exact ⟨reached, below⟩
  · exact ⟨Nat.le_trans ((List.pairwise_cons.mp ordered).1 own later) reached, below⟩

theorem exists_first_of_holds {segments : List Segment} {position : Nat}
    (ordered : segments.Pairwise fun left right => left.base.toNat ≤ right.base.toNat)
    (inside : ∃ segment ∈ segments, segment.span.Holds position) :
    ∃ segment rest, segments.dropWhile (·.stop ≤ position) = segment :: rest ∧
      segment.span.Holds position := by
  have orderedLeft := ordered.sublist
    (List.dropWhile_sublist (fun segment : Segment => segment.stop ≤ position))
  have left : ∃ own ∈ segments.dropWhile (·.stop ≤ position), own.span.Holds position := by
    rcases inside with ⟨own, member, holds⟩
    exact ⟨own, mem_dropWhile_of_lt_stop member holds.2, holds⟩
  cases dropped : segments.dropWhile (·.stop ≤ position) with
  | nil =>
      rw [dropped] at left
      rcases left with ⟨_, absent, _⟩
      cases absent
  | cons segment rest =>
      rw [dropped] at orderedLeft left
      exact ⟨segment, rest, rfl, holds_of_lt_stop orderedLeft left (lt_stop_of_dropWhile dropped).2⟩

end Segment

/-! ## Indexes -/

namespace Index

structure LaidOut (index : Index) : Prop where
  apart : index.segments.Pairwise Segment.Apart
  inside : ∀ segment ∈ index.segments, segment.stop ≤ index.bound
  within : index.bound ≤ DocumentId.count
  counted : index.liveCount = total (index.segments.map Segment.liveCount)

theorem ofSegments_laidOut {segments : List Segment} {budget : Option Nat} {index : Index}
    (made : ofSegments segments budget = .ok index) :
    index.LaidOut ∧ index.segments = segments ∧ index.budget = budget := by
  rw [ofSegments] at made
  have proper : ∀ span ∈ (segments.map Segment.span).mergeSort Span.le,
      span.start ≤ span.stop := by
    intro span member
    rcases List.mem_map.mp (List.mem_mergeSort.mp member) with ⟨segment, _, rfl⟩
    exact Nat.le_add_right _ _
  split at made
  · cases made
  · next none =>
      dsimp only at made
      split at made
      · cases made
      · next within =>
          have sorted := Span.pairwise_of_overlap?_eq_none proper none
          have perm := List.mergeSort_perm (segments.map Segment.span) Span.le
          simp only [Except.ok.injEq] at made
          subst made
          refine ⟨⟨?_, fun segment member => ?_, Nat.le_of_not_lt within, rfl⟩, rfl, rfl⟩
          · have symmetric : ((segments.map Segment.span).mergeSort Span.le).Pairwise
                fun left right => left.stop ≤ right.start ∨ right.stop ≤ left.start :=
              sorted.imp .inl
            have listed := (perm.pairwise_iff Or.symm).mp symmetric
            rw [List.pairwise_map] at listed
            exact listed
          · have listed := perm.mem_iff.mpr (List.mem_map_of_mem (f := Segment.span) member)
            exact Span.stop_le_getLast proper sorted listed

theorem LaidOut.stop_le_count {index : Index} (laidOut : index.LaidOut) :
    ∀ segment ∈ index.segments, segment.stop ≤ DocumentId.count :=
  fun segment member => Nat.le_trans (laidOut.inside segment member) laidOut.within

def IsLive (index : Index) (document : Nat) : Prop :=
  ∃ segment ∈ index.segments, segment.Lives document

def liveList (index : Index) : List Nat := index.segments.flatMap Segment.liveList

variable {index : Index} {document : Nat}

theorem mem_liveList : document ∈ index.liveList ↔ index.IsLive document := by
  simp only [liveList, List.mem_flatMap, Segment.mem_liveList, IsLive]

theorem nodup_liveList (laidOut : index.LaidOut) : index.liveList.Nodup :=
  Segment.nodup_flatMap laidOut.apart (fun segment _ => segment.nodup_liveList)
    fun _ _ _ listed => (Segment.mem_liveList.mp listed).inside

theorem length_liveList (laidOut : index.LaidOut) : index.liveList.length = index.liveCount := by
  rw [laidOut.counted, liveList, List.length_flatMap, total, List.sum]
  simp only [Segment.length_liveList]

theorem IsLive.lt_bound (laidOut : index.LaidOut) (live : index.IsLive document) :
    document < index.bound := by
  rcases live with ⟨segment, member, lives⟩
  exact Nat.lt_of_lt_of_le lives.inside.2 (laidOut.inside segment member)

/-! ## Sets of live documents -/

def IsLiveSet (index : Index) (set : IdSet) : Prop :=
  set.WellFormed ∧ ∀ document, set.Holds document ↔ index.IsLive document

variable {set : IdSet}

theorem IsLiveSet.size (laidOut : index.LaidOut) (liveSet : index.IsLiveSet set) :
    set.size = index.liveCount := by
  have members : ∀ document, set.Holds document ↔ document ∈ index.liveList := fun document =>
    (liveSet.2 document).trans mem_liveList.symm
  rw [IdSet.size_eq_card liveSet.1 members, List.toFinset_card_of_nodup (nodup_liveList laidOut),
    length_liveList laidOut]

/-- As many members as there are live documents, all of them live, are all there are. -/
theorem isLiveSet_of_size (laidOut : index.LaidOut) (wellFormed : set.WellFormed)
    (live : ∀ document, set.Holds document → index.IsLive document)
    (size : set.size = index.liveCount) : index.IsLiveSet set := by
  refine ⟨wellFormed, fun document => ⟨live document, fun isLive => ?_⟩⟩
  have within : set.toList.map UInt32.toNat ⊆ index.liveList := fun document member =>
    mem_liveList.mpr (live document ((IdSet.holds_iff_mem_toList wellFormed document).mpr member))
  have full : index.liveList.length ≤ (set.toList.map UInt32.toNat).length := by
    rw [length_liveList laidOut, List.length_map, IdSet.length_toList wellFormed, size]
  have nodup := IdSet.nodup_toList_toNat wellFormed
  have perm := (List.subperm_of_subset nodup within).perm_of_length_le full
  rw [IdSet.holds_iff_mem_toList wellFormed, perm.mem_iff]
  exact mem_liveList.mpr isLive

end Index

end ResultSets
