import ResultSets.IdSet.Ascending
import ResultSets.Index.Live

namespace ResultSets

/-! Queries. A query is evaluated one segment at a time, to the bitmap of the local
ids that match, deletions not considered. Some queries know their set of documents
without being evaluated. -/

/-- An index as it shows itself: its bound and its number of live documents may be
given differently than they are. -/
structure Searcher where
  index : Index
  bound : Nat := index.bound
  liveCount : Nat := index.liveCount

inductive Occur where
  | must
  /-- At least one such clause must match if none must match. -/
  | should
  | mustNot
  /-- As `must`, for clauses that restrict and do not describe. -/
  | filter
  deriving DecidableEq, Repr

inductive Query where
  | term (term : Term)
  | all
  | members (docs : Shared)
  | boolean (clauses : List (Occur × Query))
  /-- A query of the caller's own. -/
  | custom (hits : Segment → Except Error Bitmap)
  /-- A query of the caller's own that makes its set itself. -/
  | producer (produce : Searcher → Sharing Shared) (hits : Segment → Except Error Bitmap)

namespace Segment

def termHits (segment : Segment) (term : Term) : Except Error Bitmap := do
  match ← segment.postings term with
  | none => return Bitmap.blank segment.size
  | some postings =>
      postings.items.foldlM
        (fun bitmap item => do
          let id ← item
          if segment.size ≤ id.toNat then
            throw (.postingBeyondSegment id.toNat segment.size)
          bitmap.insert id.toNat)
        (Bitmap.blank segment.size)

def allHits (segment : Segment) : Except Error Bitmap :=
  (Bitmap.blank segment.size).insertRange 0 segment.size

def memberHits (segment : Segment) (set : IdSet) : Except Error Bitmap :=
  let blank := Bitmap.blank segment.size
  let base := segment.base.toNat
  match set with
  | .empty => .ok blank
  | .dense bitmap _ =>
      let limit := min segment.stop bitmap.length
      if base < limit then (blank.paste bitmap.view base limit 0).map (·.1) else .ok blank
  | .sparse ids =>
      let inside := (ids.toList.drop (Ascending.lowerBound ids segment.base)).takeWhile
        (·.toNat < segment.stop)
      inside.foldlM (fun bitmap id => bitmap.insert (id.toNat - base)) blank

end Segment

namespace Query

/-! ## Clauses -/

def requiredHits (evaluated : List (Occur × Bitmap)) : List Bitmap :=
  evaluated.filterMap fun (occur, hits) =>
    if occur = .must ∨ occur = .filter then some hits else none

def optionalHits (evaluated : List (Occur × Bitmap)) : List Bitmap :=
  evaluated.filterMap fun (occur, hits) => if occur = .should then some hits else none

def excludedHits (evaluated : List (Occur × Bitmap)) : List Bitmap :=
  evaluated.filterMap fun (occur, hits) => if occur = .mustNot then some hits else none

/-- The hits of a boolean query in a segment of the given size. Clauses that must
match decide alone; without them one should match; where there is neither, all
documents match unless there is no clause at all. -/
def combineHits (size : Nat) (evaluated : List (Occur × Bitmap)) : Except Error Bitmap := do
  let excluded := excludedHits evaluated
  let described ←
    match requiredHits evaluated, optionalHits evaluated with
    | first :: rest, _ => pure (rest.foldl Bitmap.inter first)
    | [], first :: rest => pure (rest.foldl Bitmap.union first)
    | [], [] =>
        if excluded.isEmpty then pure (Bitmap.blank size)
        else (Bitmap.blank size).insertRange 0 size
  return excluded.foldl Bitmap.diff described

end Query

/-! ## Evaluation -/

mutual

def Query.hits (segment : Segment) : Query → Except Error Bitmap
  | .term term => segment.termHits term
  | .all => segment.allHits
  | .members docs => segment.memberHits docs.set
  | .boolean clauses => do
      let evaluated ← clauseHits segment clauses
      Query.combineHits segment.size evaluated
  | .custom hits => hits segment
  | .producer _ hits => hits segment

def clauseHits (segment : Segment) : List (Occur × Query) → Except Error (List (Occur × Bitmap))
  | [] => .ok []
  | (occur, query) :: rest => do
      let hits ← query.hits segment
      let others ← clauseHits segment rest
      return (occur, hits) :: others

end

namespace Query

/-- How a query makes its set itself, if it can. -/
def producer? : Query → Option (Searcher → Sharing Shared)
  | .members docs => some fun _ => pure docs
  | .producer produce _ => some produce
  | _ => none

/-- The documents that match a query and are members of a filter. All documents
restricted to a filter are the filter itself. -/
def restrict (query : Query) (filter : Shared) : Query :=
  match query with
  | .all => .members filter
  | query => .boolean [(.must, query), (.filter, .members filter)]

end Query

end ResultSets
