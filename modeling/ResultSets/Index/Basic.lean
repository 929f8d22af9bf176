import ResultSets.Segment.Basic

namespace ResultSets

/-! An index lays segments side by side in one order of ids. The segments may be
listed in any order and may leave gaps, but no two overlap. -/

structure Index where
  segments : List Segment
  bound : Nat
  liveCount : Nat
  /-- The most documents that an evaluation may deliver. -/
  budget : Option Nat := none

namespace Index

/-- Lay out segments that do not overlap and stay within the ids there are. -/
def ofSegments (segments : List Segment) (budget : Option Nat := none) : Except Error Index :=
  let spans := (segments.map Segment.span).mergeSort Span.le
  match Span.overlap? spans with
  | some (earlier, later) =>
      .error (.segmentsOverlap later.start later.stop earlier.start earlier.stop)
  | none =>
      let bound := (spans.getLast?.map Span.stop).getD 0
      if DocumentId.count < bound then .error (.boundBeyondIds bound)
      else .ok { segments, bound, budget, liveCount := total (segments.map Segment.liveCount) }

end Index

end ResultSets
