import ResultSets.Bitmap.Paste
import ResultSets.IdSet.Ascending

namespace ResultSets

/-! An index is made of segments, each a stretch of the ids of all documents. What is
read from a segment are its deletions and, for a term, the documents that contain
the term. Both may come from anywhere, so reading may fail. -/

structure Term where
  field : String
  text : String
  deriving DecidableEq, Repr

/-- The documents of a segment that contain a term, deleted ones included. -/
structure Postings where
  /-- How many there are said to be. -/
  frequency : Nat
  /-- What reading yields, one local id after the other, until it fails or ends. -/
  items : List (Except Error DocumentId)

namespace Postings

/-- The next id and the postings after it. Postings that have ended stay so. -/
def next (postings : Postings) : Except Error (Option DocumentId) × Postings :=
  match postings.items with
  | [] => (.ok none, postings)
  | item :: rest => (item.map some, { postings with items := rest })

/-- Read to the end. Returns the ids and the postings that are left. -/
def drain (postings : Postings) : Except Error (List DocumentId × Postings) :=
  (postings.items.mapM id).map fun ids => (ids, { postings with items := [] })

end Postings

structure Segment where
  base : DocumentId
  size : Nat
  /-- The local ids that are not deleted, if any are. -/
  live : Option BitView := none
  postings : Term → Except Error (Option Postings) := fun _ => .ok none

namespace Segment

def stop (segment : Segment) : Nat := segment.base.toNat + segment.size

def span (segment : Segment) : Span := ⟨segment.base.toNat, segment.stop⟩

/-- A document is live unless it is deleted. Where there are deletions, ids beyond
what is recorded count as deleted. -/
def isLive (segment : Segment) (id : DocumentId) : Bool :=
  segment.live.all (·.get id.toNat)

def liveCount (segment : Segment) : Nat :=
  match segment.live with
  | none => segment.size
  | some live => (List.range segment.size).countP live.get

def ordered (segments : List Segment) : List Segment :=
  segments.mergeSort fun left right => left.base ≤ right.base

end Segment

end ResultSets
