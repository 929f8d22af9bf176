import ResultSets.Proofs.Index.Exact
import ResultSets.Proofs.Index.Listing

namespace ResultSets

/-! Which segments can be laid out in an index. Only neighbours in the order of their spans are
compared, and only the last stop is checked against the ids there are. Together this decides
whether any two of the segments overlap and whether any of them reaches too far. -/

/-! ## Neighbours -/

namespace Span

theorem stop_le_start_of_le {left right : Span} (proper : right.start ≤ right.stop)
    (order : left.le right) (apart : left.stop ≤ right.start ∨ right.stop ≤ left.start) :
    left.stop ≤ right.start := by
  rw [le_iff] at order
  omega

theorem overlap?_eq_none_iff {spans : List Span} (proper : ∀ span ∈ spans, span.start ≤ span.stop)
    (ordered : spans.Pairwise fun left right => left.le right) :
    overlap? spans = none ↔
      spans.Pairwise fun left right => left.stop ≤ right.start ∨ right.stop ≤ left.start := by
  constructor
  · intro none
    exact (pairwise_of_overlap?_eq_none proper none).imp .inl
  · intro apart
    induction spans with
    | nil => rfl
    | cons earlier rest induction =>
        cases rest with
        | nil => rfl
        | cons later others =>
            have neighbours := (List.pairwise_cons.mp apart).1 later (.head _)
            have order := (List.pairwise_cons.mp ordered).1 later (.head _)
            have before := stop_le_start_of_le (proper later (.tail _ (.head _))) order neighbours
            rw [overlap?, if_neg (Nat.not_lt_of_le before)]
            exact induction (fun span member => proper span (.tail _ member))
              ordered.of_cons apart.of_cons

end Span

namespace Segment

variable {segments : List Segment}

def orderedSpans (segments : List Segment) : List Span := (segments.map span).mergeSort Span.le

theorem orderedSpans_proper (segments : List Segment) :
    ∀ span ∈ orderedSpans segments, span.start ≤ span.stop := by
  intro span member
  rcases List.mem_map.mp (List.mem_mergeSort.mp member) with ⟨segment, _, rfl⟩
  exact Nat.le_add_right _ _

theorem overlap?_orderedSpans_eq_none_iff :
    Span.overlap? (orderedSpans segments) = none ↔ segments.Pairwise Apart := by
  rw [Span.overlap?_eq_none_iff (orderedSpans_proper segments) (Span.mergeSort_pairwise _),
    orderedSpans, (List.mergeSort_perm _ Span.le).pairwise_iff Or.symm, List.pairwise_map]
  rfl

/-! ## The last stop -/

def lastStop (segments : List Segment) : Nat := ((segments.map stop).max?).getD 0

theorem lastStop_le_iff {bound : Nat} :
    lastStop segments ≤ bound ↔ ∀ segment ∈ segments, segment.stop ≤ bound := by
  rw [lastStop, ← List.forall_mem_map (P := (· ≤ bound))]
  cases greatest : (segments.map stop).max? with
  | none =>
      rw [List.max?_eq_none_iff.mp greatest]
      exact iff_of_true (Nat.zero_le bound) nofun
  | some last =>
      rcases List.max?_eq_some_iff.mp greatest with ⟨member, most⟩
      constructor
      · exact fun within stop listed => Nat.le_trans (most stop listed) within
      · exact fun all => all last member

theorem getLast?_orderedSpans (apart : segments.Pairwise Apart) :
    ((orderedSpans segments).getLast?.map Span.stop).getD 0 = lastStop segments := by
  have sorted := Span.pairwise_of_overlap?_eq_none (orderedSpans_proper segments)
    (overlap?_orderedSpans_eq_none_iff.mpr apart)
  have listed : ∀ segment ∈ segments, segment.span ∈ orderedSpans segments :=
    fun segment member => List.mem_mergeSort.mpr (List.mem_map_of_mem member)
  apply Nat.le_antisymm
  · cases final : (orderedSpans segments).getLast? with
    | none => exact Nat.zero_le _
    | some last =>
        have member := List.mem_mergeSort.mp (List.mem_of_getLast? final)
        rcases List.mem_map.mp member with ⟨segment, own, rfl⟩
        exact lastStop_le_iff.mp (Nat.le_refl _) segment own
  · apply lastStop_le_iff.mpr
    intro segment member
    exact Span.stop_le_getLast (orderedSpans_proper segments) sorted (listed segment member)

end Segment

/-! ## Laying out -/

namespace Index

variable {segments : List Segment}

theorem ofSegments_of_apart (apart : segments.Pairwise Segment.Apart) (budget : Option Nat) :
    ofSegments segments budget =
      if DocumentId.count < Segment.lastStop segments then
        .error (.boundBeyondIds (Segment.lastStop segments))
      else .ok { segments, bound := Segment.lastStop segments, budget,
                 liveCount := total (segments.map Segment.liveCount) } := by
  have none := Segment.overlap?_orderedSpans_eq_none_iff.mpr apart
  have last := Segment.getLast?_orderedSpans apart
  rw [Segment.orderedSpans] at none last
  rw [ofSegments]
  simp only [none, last]

theorem ofSegments_of_not_apart (overlapping : ¬ segments.Pairwise Segment.Apart)
    (budget : Option Nat) :
    ∃ earlier later : Span, ofSegments segments budget =
      .error (.segmentsOverlap later.start later.stop earlier.start earlier.stop) := by
  have some := Segment.overlap?_orderedSpans_eq_none_iff.not.mpr overlapping
  rcases Option.ne_none_iff_exists'.mp some with ⟨⟨earlier, later⟩, found⟩
  rw [Segment.orderedSpans] at found
  refine ⟨earlier, later, ?_⟩
  rw [ofSegments]
  simp only [found]

/-- Segments can be laid out exactly if no two of them overlap and none ends beyond the ids there
are. A segment without documents overlaps another one if it lies strictly inside, and does not if
it lies at a boundary. Anything else is an invalid argument. The index ends where its farthest
segment does, no document lies in two of its segments, and it counts the documents that are live
in any of them. -/
theorem ofSegments_admits (segments : List Segment) (budget : Option Nat) :
    ((∃ index, ofSegments segments budget = .ok index) ↔
      segments.Pairwise Segment.Apart ∧
        ∀ segment ∈ segments, segment.stop ≤ DocumentId.count) ∧
    (∀ error, ofSegments segments budget = .error error → error.isInvalidArgument = true) ∧
    ∀ index, ofSegments segments budget = .ok index →
      index.segments = segments ∧
      index.bound = ((segments.map Segment.stop).max?).getD 0 ∧
      segments.Pairwise Segment.Disjoint ∧
      index.liveCount = {document | index.IsLive document}.ncard := by
  have laidOut : ∀ index, ofSegments segments budget = .ok index → index.LaidOut :=
    fun index made => (ofSegments_laidOut made).1
  by_cases apart : segments.Pairwise Segment.Apart
  · rw [ofSegments_of_apart apart] at laidOut
    rw [ofSegments_of_apart apart, and_iff_right apart, ← Segment.lastStop_le_iff]
    by_cases within : Segment.lastStop segments ≤ DocumentId.count
    · rw [if_neg (Nat.not_lt_of_le within)] at laidOut ⊢
      refine ⟨iff_of_true ⟨_, rfl⟩ within, nofun, fun index made => ?_⟩
      have counted := (laidOut index made).liveCount_eq_ncard
      cases made
      exact ⟨rfl, rfl, apart.imp Segment.Apart.disjoint, counted⟩
    · rw [if_pos (Nat.lt_of_not_le within)]
      refine ⟨iff_of_false nofun within, fun error refused => ?_, nofun⟩
      cases refused
      rfl
  · rcases ofSegments_of_not_apart apart budget with ⟨earlier, later, overlaps⟩
    rw [overlaps]
    refine ⟨iff_of_false nofun fun both => apart both.1, fun error refused => ?_, nofun⟩
    cases refused
    rfl

/-- A segment without documents at the boundary of two others, and inside one. -/
theorem ofSegments_admits_boundary :
    (∃ index, ofSegments [{ base := 5, size := 0 }, { base := 5, size := 2 },
        { base := 0, size := 5 }] = .ok index ∧ index.bound = 7) ∧
      ∃ error, ofSegments [{ base := 3, size := 0 }, { base := 0, size := 5 }] = .error error ∧
        error.isInvalidArgument = true := by
  constructor
  · rcases ofSegments_admits [{ base := 5, size := 0 }, { base := 5, size := 2 },
      { base := 0, size := 5 }] none with ⟨possible, _, made⟩
    rcases possible.mpr ⟨by decide, by decide⟩ with ⟨index, laidOut⟩
    exact ⟨index, laidOut, (made index laidOut).2.1⟩
  · rcases ofSegments_admits [{ base := 3, size := 0 }, { base := 0, size := 5 }] none with
      ⟨possible, refused, _⟩
    cases outcome : ofSegments [{ base := 3, size := 0 }, { base := 0, size := 5 }] with
    | ok index => exact absurd (possible.mp ⟨index, outcome⟩).1 (by decide)
    | error error => exact ⟨error, rfl, refused error outcome⟩

end Index

end ResultSets
