import ResultSets.Delivery.Basic
import ResultSets.IdSet.Basic
import ResultSets.Policy.Basic

namespace ResultSets

/-! A sink that accumulates the documents it accepts into a set. Few documents are
kept in a row, in the order in which they come; once there are more than the policy
allows for a sparse set they move into a bitmap. A sink that has refused a call, or
whose delivery was aborted, yields no set. -/

namespace Accumulator

inductive Holding where
  /-- The ids as they came, equal neighbours once, and whether they ascend. -/
  | row (ids : Array DocumentId) (ascending : Bool)
  | packed (bitmap : Bitmap) (count : Nat)

/-- Why no set can be had. -/
inductive Failure where
  | aborted (reason : String)
  | rejected (cause : Rejection)
  deriving DecidableEq, Repr

namespace Holding

def size : Holding → Nat
  | .row ids _ => ids.size
  | .packed _ count => count

/-- Hold another id. A row with more than `limit` ids moves into a bitmap. -/
def add (bound limit : Nat) (id : DocumentId) : Holding → Except Error Holding
  | .packed bitmap count =>
      if bitmap.contains id.toNat then .ok (.packed bitmap count)
      else (bitmap.insert id.toNat).map (.packed · (count + 1))
  | .row ids ascending =>
      if ids.back? = some id then .ok (.row ids ascending)
      else if ids.size < limit then
        .ok (.row (ids.push id) (ascending && ids.back?.all (· < id)))
      else do
        let bitmap ← Bitmap.ofPositions bound ((ids.push id).toList.map (·.toNat))
        return .packed bitmap bitmap.card

/-- The set of the ids held: sparse when there are at most `limit`. -/
def toIdSet (limit : Nat) : Holding → IdSet
  | .packed bitmap count =>
      if count ≤ limit then .ofMembers bitmap else .dense bitmap count
  | .row ids ascending =>
      if ids.isEmpty then .empty
      else if ascending then .sparse ids
      else .sparse (Ascending.normalize ids.toList).toArray

end Holding

end Accumulator

structure Accumulator where
  bound : Nat
  /-- The most ids of a sparse set. -/
  limit : Nat
  holding : Accumulator.Holding := .row #[] true
  base : DocumentId := 0
  segmentSize : Nat := 0
  failure : Option Accumulator.Failure := none

namespace Accumulator

def start (bound : Nat) (policy : Policy) : Except Error Accumulator :=
  if DocumentId.count < bound then .error (.boundBeyondIds bound)
  else .ok { bound, limit := policy.sparseLimit bound }

def size (accumulator : Accumulator) : Nat := accumulator.holding.size

def reject (accumulator : Accumulator) (cause : Rejection) : Accumulator × Option Error :=
  ({ accumulator with failure := some (.rejected cause) }, some (.rejected cause))

def enter (accumulator : Accumulator) (segment : Segment) : Accumulator × Option Error :=
  if accumulator.bound < segment.stop then
    accumulator.reject
      (.segmentBeyondBound segment.base.toNat segment.stop accumulator.bound)
  else
    ({ accumulator with base := segment.base, segmentSize := segment.size }, none)

/-- Accept a local id of the current segment. What is held is taken out of the
accumulator while the id is added, so that it can grow in place. -/
def accept (accumulator : Accumulator) (id : DocumentId) : Accumulator × Option Error :=
  if accumulator.failure.isSome then (accumulator, some .alreadyFailed)
  else if accumulator.segmentSize ≤ id.toNat then
    accumulator.reject (.outsideSegment id.toNat accumulator.segmentSize)
  else
    let holding := accumulator.holding
    let emptied := { accumulator with holding := .row #[] true }
    match holding.add emptied.bound emptied.limit (emptied.base + id) with
    | .ok holding => ({ emptied with holding }, none)
    | .error error => (emptied, some error)

def abort (accumulator : Accumulator) (reason : String) : Accumulator :=
  { accumulator with failure := some (.aborted reason) }

instance : Sink Accumulator where
  enter := enter
  accept := accept
  abort := abort

/-- The set of all documents accepted, unless some are missing. -/
def finish (accumulator : Accumulator) : Except Error IdSet :=
  match accumulator.failure with
  | some (.aborted reason) => .error (.collectionAborted reason)
  | some (.rejected cause) => .error (.collectionFailed cause)
  | none => .ok (accumulator.holding.toIdSet accumulator.limit)

end Accumulator

end ResultSets
