import ResultSets.Index.Basic
import ResultSets.Index.Session

namespace ResultSets

/-! The set of all live documents of an index. It is made on first demand, unless a
set that holds exactly the live documents has been offered before; from then on
every set that turns out to hold just these documents is given up for it. -/

namespace Segment

/-- Set the live documents of a segment in a bitmap over the whole index. -/
def addLiveTo (bitmap : Bitmap) (segment : Segment) : Except Error Bitmap :=
  match segment.live with
  | none => bitmap.insertRange segment.base.toNat segment.stop
  | some live => (bitmap.paste live 0 segment.size segment.base.toNat).map (·.1)

end Segment

namespace Index

def liveBitmap (index : Index) : Except Error Bitmap :=
  index.segments.foldlM Segment.addLiveTo (Bitmap.blank index.bound)

/-- The set of all live documents, the one remembered if there is one. -/
def liveSet (index : Index) : Sharing Shared := do
  match (← get).live with
  | some live => return live
  | none =>
      let live ←
        if index.liveCount = 0 then pure Shared.empty
        else do
          let bitmap ← index.liveBitmap
          modifyGet (Session.issue (.dense bitmap index.liveCount))
      modify ({ · with live := some live })
      return live

/-- Whether ascending ids are all live, where the ids of the first segment to look at
and of all later ones ascend too. -/
def onlyLive : List Segment → List DocumentId → Bool
  | _, [] => true
  | segments, id :: ids =>
      match segments.dropWhile (·.stop ≤ id.toNat) with
      | [] => false
      | segment :: rest =>
          segment.base ≤ id && segment.isLive (id - segment.base) &&
            onlyLive (segment :: rest) ids

/-- Whether every member of a set is a live document. -/
def holdsOnlyLive (index : Index) (set : IdSet) : Bool :=
  onlyLive (Segment.ordered index.segments) set.toList

/-- Offer a set of a given size as the set of all live documents. If it is one, it is
given up for the one remembered, or else remembered itself. -/
def offer (index : Index) (candidate : Shared) (size : Nat) (session : Session) :
    Shared × Session :=
  if size ≠ index.liveCount ∨ candidate.set.size ≠ size then (candidate, session)
  else if !index.holdsOnlyLive candidate.set then (candidate, session)
  else
    match session.live with
    | some live => (live, session)
    | none => (candidate, { session with live := some candidate })

end Index

end ResultSets
