import ResultSets.Delivery.Basic
import ResultSets.IdSet.Basic

namespace ResultSets.IdSet

/-! Delivering the members of a set, segment by segment. Each member must lie in one
of the segments; segments without members are passed over. -/

/-- The segment that an id belongs to, unless it lies before it: the current one, or
the first of the following that ends behind the id. Also returns the calls that
make it the current one, and the segments that follow it. -/
def segmentFor? (current : Option Segment) (following : List Segment) (id : DocumentId) :
    Option (List Call × Segment × List Segment) :=
  match current.filter (id.toNat < ·.stop) with
  | some segment => some ([], segment, following)
  | none =>
      match following.dropWhile (·.stop ≤ id.toNat) with
      | [] => none
      | segment :: rest => some ([.enter segment], segment, rest)

/-- Deliver ascending ids to the current segment and those that follow it. -/
def deliverFrom : (current : Option Segment) → (following : List Segment) →
    List DocumentId → Delivery
  | _, _, [] => { calls := [] }
  | current, following, id :: ids =>
      match segmentFor? current following id with
      | none => { calls := [], failure := some (.idBeyondSegments id.toNat) }
      | some (opening, segment, rest) =>
          if id < segment.base then
            { calls := opening
              failure := some (.idBeforeSegment id.toNat segment.base.toNat) }
          else
            (deliverFrom (some segment) rest ids).prepend
              (opening ++ [.accept (id - segment.base)])

def deliver (set : IdSet) (segments : List Segment) : Delivery :=
  deliverFrom none (Segment.ordered segments) set.toList

end ResultSets.IdSet
