import ResultSets.Proofs.Index.Session
import ResultSets.Proofs.Segment.Postings

namespace ResultSets

/-! Indexes of segments whose histories are known. Nothing bounds an evaluation there,
deletions are recorded for all documents, and postings are read as they are meant. -/

theorem SegmentHistory.toSegments_readable (histories : List SegmentHistory) :
    ∀ segment ∈ histories.map (·.toSegment), ∃ indexed, segment.Readable indexed := by
  rw [List.forall_mem_map]
  intro history _
  exact ⟨history.Indexed, history.toSegment_readable⟩

structure Index.Records (index : Index) (histories : List SegmentHistory) : Prop where
  segments : index.segments = histories.map (·.toSegment)
  laidOut : index.LaidOut
  unbounded : index.budget = none

namespace Index.Records

variable {index : Index} {histories : List SegmentHistory}

theorem of_ofSegments (made : Index.ofSegments (histories.map (·.toSegment)) = .ok index) :
    index.Records histories := by
  rcases Index.ofSegments_laidOut made with ⟨laidOut, segments, unbounded⟩
  exact ⟨segments, laidOut, unbounded⟩

variable (records : index.Records histories)

include records

theorem mem_segments {segment : Segment} :
    segment ∈ index.segments ↔ ∃ history ∈ histories, history.toSegment = segment := by
  rw [records.segments, List.mem_map]

theorem covered : ∀ segment ∈ index.segments, segment.Covered := by
  rw [records.segments, List.forall_mem_map]
  intro history _
  exact history.toSegment_covered

theorem readable : ∀ segment ∈ index.segments, ∃ indexed, segment.Readable indexed := by
  rw [records.segments]
  exact SegmentHistory.toSegments_readable histories

theorem isLive_iff {document : Nat} :
    index.IsLive document ↔ ∃ history ∈ histories, ∃ position, history.Live position ∧
      document = history.base.toNat + position := by
  simp only [Index.IsLive, records.segments, List.mem_map, exists_exists_and_eq_and]
  apply exists_congr
  intro history
  apply and_congr_right
  intro _
  apply exists_congr
  intro position
  rw [history.toSegment_base, history.toSegment_size, ← and_assoc]
  apply and_congr_left
  intro _
  constructor
  · intro both
    exact (history.shows_draft.live position both.1).mp both.2
  · intro live
    exact ⟨live.1, (history.shows_draft.live position live.1).mpr live⟩

theorem knows {session : Session} (reached : Session.Evolves index {} session) :
    session.Knows index :=
  reached.knows records.laidOut (Session.knows_blank index)

end Index.Records

end ResultSets
