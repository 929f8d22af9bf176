import ResultSets.Policy.Basic
import ResultSets.Query.Basic

namespace ResultSets

/-! Walking over the postings of one term in all segments. The live documents are
read in ascending order of their global ids; anything else in the postings is an
error. -/

namespace TermWalk

/-- The postings to read, from the first segment to the last. Before them, `counted`
documents have been promised, and all that are promised are counted in a machine
word. -/
def gather (term : Term) : (counted : Nat) → List Segment →
    Except Error (List (Segment × Postings))
  | _, [] => .ok []
  | counted, segment :: rest => do
      match ← segment.postings term with
      | none => gather term counted rest
      | some postings =>
          if postings.frequency = 0 then gather term counted rest
          else if UInt64.size ≤ counted + postings.frequency then throw .sumOverflow
          else
            let others ← gather term (counted + postings.frequency) rest
            return (segment, postings) :: others

def promised (lists : List (Segment × Postings)) : Nat :=
  total (lists.map (·.2.frequency))

/-- Read one item. A live document joins those walked over, which lie below `bound`,
ascend, and are at most as many as there is `room` for. -/
def step (bound : Nat) (room : Option Nat) (walked : Array DocumentId)
    (entry : Segment × Except Error DocumentId) : Except Error (Array DocumentId) := do
  let (segment, item) := entry
  let id ← item
  if segment.size ≤ id.toNat then
    throw (.postingBeyondSegment id.toNat segment.size)
  if !segment.isLive id then return walked
  let global := segment.base.toNat + id.toNat
  if bound ≤ global then throw (.idBeyondBound global bound)
  match walked.back? with
  | some previous =>
      if global ≤ previous.toNat then throw (.idNotAscending global previous.toNat)
  | none => pure ()
  if room = some walked.size then throw (.postingsTooMany walked.size)
  return walked.push (UInt32.ofNat global)

/-- The live documents of postings, as global ids. -/
def walk (bound : Nat) (room : Option Nat) (lists : List (Segment × Postings)) :
    Except Error (Array DocumentId) :=
  let entries := lists.flatMap fun (segment, postings) => postings.items.map (segment, ·)
  entries.foldlM (step bound room) #[]

/-- The longest row that room can be asked for: a row takes four bytes for an id, and
less than half of the bytes that a word can count. -/
def rowLimit : Nat := (UInt64.size / 2 - 1) / 4

/-- The live documents as a row, when so few are promised that a row suffices. There is
room for as many as are promised from the start. -/
def sparseSet (bound : Nat) (lists : List (Segment × Postings)) : Except Error IdSet := do
  if rowLimit < promised lists then throw .capacityOverflow
  let ids ← walk bound (some (promised lists)) lists
  return IdSet.ofAscending ids

/-- The live documents as a bitmap, unless deletions leave few and the policy is to
shrink such bitmaps. -/
def denseSet (bound : Nat) (policy : Policy) (lists : List (Segment × Postings)) :
    Except Error IdSet := do
  let ids ← walk bound none lists
  let bitmap ← Bitmap.ofPositions bound (ids.toList.map (·.toNat))
  if ids.isEmpty then return .empty
  else if policy.shrink && ids.size < policy.sparseLimit bound then
    return .ofMembers bitmap
  else return .dense bitmap ids.size

/-- The live documents that contain a term, in segments listed in any order. The form
is chosen by the number of documents promised. -/
def resolve (bound : Nat) (policy : Policy) (segments : List Segment) (term : Term) :
    Except Error IdSet := do
  let lists ← gather term 0 (Segment.ordered segments)
  if promised lists = 0 then return .empty
  else if promised lists ≤ policy.sparseLimit bound then sparseSet bound lists
  else denseSet bound policy lists

end TermWalk

end ResultSets
