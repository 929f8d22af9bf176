import ResultSets.Delivery.Basic
import ResultSets.Query.Basic

namespace ResultSets

/-! Delivering the live matches of a query, in the listed order of the segments and
in ascending order within each. A budget bounds how many are delivered; the
delivery is aborted when there is one more. -/

namespace Segment

def liveIn (segment : Segment) (hits : Bitmap) : List DocumentId :=
  hits.ids.filter segment.isLive

end Segment

namespace Query

/-- Deliver the live matches in the given segments, of which `left` may be delivered
out of a budget. -/
def deliverFrom (query : Query) (budget : Option Nat) : (left : Nat) → List Segment → Delivery
  | _, [] => { calls := [] }
  | left, segment :: rest =>
      match query.hits segment with
      | .error error => { calls := [.enter segment], failure := some error }
      | .ok hits =>
          let found := segment.liveIn hits
          match budget with
          | none =>
              (query.deliverFrom none left rest).prepend
                (.enter segment :: found.map .accept)
          | some limit =>
              if left < found.length then
                { calls := .enter segment :: (found.take left).map .accept ++
                    [.abort (Error.budgetText limit)]
                  failure := some (.budgetExceeded limit) }
              else
                (query.deliverFrom (some limit) (left - found.length) rest).prepend
                  (.enter segment :: found.map .accept)

def deliver (query : Query) (index : Index) : Delivery :=
  query.deliverFrom index.budget (index.budget.getD 0) index.segments

end Query

end ResultSets
