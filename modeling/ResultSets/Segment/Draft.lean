import ResultSets.IdSet.Ascending
import ResultSets.Segment.Basic

namespace ResultSets

/-! A segment in the making: terms are added to documents and documents are deleted,
in any order. The documents of a term ascend at all times. Deletions are recorded
from the first one on. -/

structure SegmentDraft where
  base : DocumentId
  size : Nat
  /-- Which documents are live, once one is deleted. -/
  live : Option (Array Bool) := none
  /-- The documents of each term that has been added to any. -/
  postings : List (Term × Array DocumentId) := []

namespace SegmentDraft

def check (draft : SegmentDraft) (id : DocumentId) : Except Error Unit :=
  if id.toNat < draft.size then .ok ()
  else .error (.localIdOutOfRange id.toNat draft.size)

/-- Enter a document in the row of its term, or in a new one. -/
def enter (term : Term) (id : DocumentId) :
    List (Term × Array DocumentId) → List (Term × Array DocumentId)
  | [] => [(term, Ascending.insert #[] id)]
  | (other, ids) :: rest =>
      if other = term then (other, Ascending.insert ids id) :: rest
      else (other, ids) :: enter term id rest

def add (draft : SegmentDraft) (term : Term) (id : DocumentId) :
    Except Error SegmentDraft := do
  draft.check id
  return { draft with postings := enter term id draft.postings }

def addAll (draft : SegmentDraft) (term : Term) (ids : List DocumentId) :
    Except Error SegmentDraft :=
  ids.foldlM (fun draft id => draft.add term id) draft

/-- Delete a document. Also returns whether it was live before. -/
def delete (draft : SegmentDraft) (id : DocumentId) : Except Error (Bool × SegmentDraft) := do
  draft.check id
  let live := draft.live.getD (Array.replicate draft.size true)
  return (live.getD id.toNat false,
    { draft with live := some (live.setIfInBounds id.toNat false) })

def deleteAll (draft : SegmentDraft) (ids : List DocumentId) : Except Error SegmentDraft :=
  ids.foldlM (fun draft id => return (← draft.delete id).2) draft

def idsOf? (draft : SegmentDraft) (term : Term) : Option (Array DocumentId) :=
  draft.postings.lookup term

def toSegment (draft : SegmentDraft) : Segment where
  base := draft.base
  size := draft.size
  live := draft.live.map BitView.ofFlags
  postings term :=
    .ok ((draft.idsOf? term).map fun ids =>
      { frequency := ids.size, items := ids.toList.map .ok })

end SegmentDraft

end ResultSets
