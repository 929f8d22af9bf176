namespace ResultSets

/-! A document of an index is named by a global id, its position in the order of
all documents. Within a segment the same numbers name positions counted from
the segment's base. -/

abbrev DocumentId := UInt32

namespace DocumentId

/-- How many ids there are. No index reaches beyond this bound. -/
def count : Nat := UInt32.size

end DocumentId

/-! Rows of ids in strictly ascending order. The operations take the order of their
arguments for granted and keep it. -/

def Ascending (ids : List DocumentId) : Prop := ids.Pairwise (· < ·)

instance (ids : List DocumentId) : Decidable (Ascending ids) :=
  inferInstanceAs (Decidable (ids.Pairwise (· < ·)))

namespace Ascending

/-! ## Binary search -/

/-- Halve the stretch `[low, high)` until it is empty, keeping the ids before it
below `id` and the ids after it not below. -/
def lowerBoundIn (ids : Array DocumentId) (id : DocumentId) (low high : Nat) : Nat :=
  if low < high then
    let middle := (low + high) / 2
    if ids.getD middle 0 < id then lowerBoundIn ids id (middle + 1) high
    else lowerBoundIn ids id low middle
  else low
termination_by high - low

/-- The position of the first id that is not below the given one. -/
def lowerBound (ids : Array DocumentId) (id : DocumentId) : Nat :=
  lowerBoundIn ids id 0 ids.size

def contains (ids : Array DocumentId) (id : DocumentId) : Bool :=
  ids[lowerBound ids id]? == some id

theorem lowerBoundIn_le (ids : Array DocumentId) (id : DocumentId) (low high : Nat)
    (ordered : low ≤ high) : lowerBoundIn ids id low high ≤ high := by
  fun_induction lowerBoundIn ids id low high with
  | case1 low high inside middle _ induction =>
      exact induction (by omega)
  | case2 low high inside middle _ induction =>
      exact Nat.le_trans (induction (by omega)) (by omega)
  | case3 => exact ordered

theorem lowerBound_le (ids : Array DocumentId) (id : DocumentId) :
    lowerBound ids id ≤ ids.size :=
  lowerBoundIn_le ids id 0 ids.size (Nat.zero_le _)

/-- Put an id into its place, once. -/
def insert (ids : Array DocumentId) (id : DocumentId) : Array DocumentId :=
  if contains ids id then ids
  else ids.insertIdx (lowerBound ids id) id (lowerBound_le ids id)

example : insert #[2, 5, 9] 7 = #[2, 5, 7, 9] := by decide +kernel
example : insert #[2, 5, 9] 5 = #[2, 5, 9] := by decide +kernel

/-! ## Merging and normalising -/

/-- The ids of either row. An id in both is kept once. -/
def merge : List DocumentId → List DocumentId → List DocumentId
  | [], others => others
  | ids, [] => ids
  | id :: ids, other :: others =>
      if id < other then id :: merge ids (other :: others)
      else if other < id then other :: merge (id :: ids) others
      else id :: merge ids others
termination_by ids others => ids.length + others.length

/-- Keep one of several equal neighbours. -/
def dropRepeats : List DocumentId → List DocumentId
  | [] => []
  | id :: ids => if ids.head? = some id then dropRepeats ids else id :: dropRepeats ids

/-- The ids of any row in ascending order, each once. -/
def normalize (ids : List DocumentId) : List DocumentId :=
  dropRepeats (ids.mergeSort (· ≤ ·))

end Ascending

end ResultSets
