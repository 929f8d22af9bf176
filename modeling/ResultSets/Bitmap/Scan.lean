import ResultSets.Bitmap.Basic

namespace ResultSets

/-! Searching a bitmap in either direction, and walking over its set positions in
ascending order. A search looks at the rest of one word, then at whole words. -/

/-- The first set bit of a row of words at or after bit `start` of word `index`. -/
def firstBitFrom? (words : Array Word) (index start : Nat) : Option Nat :=
  if inside : index < words.size then
    match words[index].firstFrom? start with
    | some position => some (64 * index + position)
    | none => firstBitFrom? words (index + 1) 0
  else none
termination_by words.size - index

/-- The last set bit of a row of words before bit `stop` of word `index`. -/
def lastBitBefore? (words : Array Word) : (index stop : Nat) → Option Nat
  | 0, stop => (words.getD 0 0).lastBelow? stop
  | index + 1, stop =>
      match (words.getD (index + 1) 0).lastBelow? stop with
      | some position => some (64 * (index + 1) + position)
      | none => lastBitBefore? words index 64

namespace Bitmap

/-- The first set position at or after a position. -/
def next? (bitmap : Bitmap) (position : Nat) : Option Nat :=
  if position < bitmap.length then
    firstBitFrom? bitmap.words (position / 64) (position % 64)
  else none

/-- The last set position at or before a position. -/
def previous? (bitmap : Bitmap) (position : Nat) : Option Nat :=
  if bitmap.length = 0 then none
  else
    let last := min position (bitmap.length - 1)
    lastBitBefore? bitmap.words (last / 64) (last % 64 + 1)

end Bitmap

/-! ## What a search finds -/

namespace Word

theorem firstFrom?_eq_some {word : Word} {start position : Nat}
    (found : word.firstFrom? start = some position) :
    start ≤ position ∧ position < 64 ∧ word.getLsbD position = true ∧
      ∀ other, start ≤ other → other < position → word.getLsbD other = false := by
  simp only [firstFrom?, List.find?_range'_eq_some, List.mem_range'_1] at found
  rcases found with ⟨set, inside, below⟩
  refine ⟨by omega, by omega, set, fun other late early => ?_⟩
  simpa using below other late early

theorem firstFrom?_eq_none {word : Word} {start : Nat}
    (missing : word.firstFrom? start = none) (position : Nat) (late : start ≤ position)
    (inside : position < 64) : word.getLsbD position = false := by
  simp only [firstFrom?, List.find?_eq_none, List.mem_range'_1] at missing
  simpa using missing position (by omega)

end Word

theorem firstBitFrom?_eq_some {words : Array Word} {index start position : Nat}
    (early : start ≤ 64) (found : firstBitFrom? words index start = some position) :
    64 * index + start ≤ position ∧ bitAt words position = true ∧
      ∀ other, 64 * index + start ≤ other → other < position → bitAt words other = false := by
  fun_induction firstBitFrom? words index start with
  | case1 index start inside offset here =>
      cases found
      rcases Word.firstFrom?_eq_some here with ⟨late, below, set, first⟩
      have word : (64 * index + offset) / 64 = index := by omega
      have place : (64 * index + offset) % 64 = offset := by omega
      refine ⟨by omega, by simp [bitAt, word, place, inside, set], fun other after before => ?_⟩
      have otherWord : other / 64 = index := by omega
      simp only [bitAt, otherWord, Array.getElem?_eq_getElem inside, Option.any_some]
      exact first _ (by omega) (by omega)
  | case2 index start inside here induction =>
      rcases induction (by omega) found with ⟨late, set, first⟩
      refine ⟨by omega, set, fun other after before => ?_⟩
      by_cases skipped : other < 64 * (index + 1)
      · have otherWord : other / 64 = index := by omega
        simp only [bitAt, otherWord, Array.getElem?_eq_getElem inside, Option.any_some]
        exact Word.firstFrom?_eq_none here _ (by omega) (by omega)
      · exact first other (by omega) before
  | case3 => cases found

namespace Bitmap

/-- A forward search finds the least set position at or after its start. -/
theorem next?_eq_some {bitmap : Bitmap} {start position : Nat}
    (found : bitmap.next? start = some position) :
    start ≤ position ∧ position ∈ bitmap ∧
      ∀ other, start ≤ other → other < position → other ∉ bitmap := by
  unfold next? at found
  split at found
  · rcases firstBitFrom?_eq_some (by omega) found with ⟨late, set, first⟩
    refine ⟨by omega, ?_, fun other after before member => ?_⟩
    · exact (contains_eq_bitAt bitmap position).trans set
    · have clear := first other (by omega) before
      rw [← contains_eq_bitAt] at clear
      exact Bool.false_ne_true (clear.symm.trans member)
  · cases found

theorem lt_length_of_next? {bitmap : Bitmap} {start position : Nat}
    (found : bitmap.next? start = some position) : position < bitmap.length :=
  lt_length_of_mem (next?_eq_some found).2.1

/-! ## Walking

A walk yields the set positions in ascending order; `toList` lists those to come. -/

/-- A walk over the set positions that has passed all positions before its own. -/
structure Cursor where
  bitmap : Bitmap
  position : Nat := 0

def cursor (bitmap : Bitmap) : Cursor := { bitmap }

/-- The next set position and the walk beyond it. A walk that has ended stays where it is. -/
def Cursor.next (cursor : Cursor) : Option Nat × Cursor :=
  match cursor.bitmap.next? cursor.position with
  | none => (none, cursor)
  | some found => (some found, { cursor with position := found + 1 })

def Cursor.toList (cursor : Cursor) : List Nat :=
  match step : cursor.bitmap.next? cursor.position with
  | none => []
  | some found =>
      have := (next?_eq_some step).1
      have := lt_length_of_next? step
      found :: Cursor.toList { cursor with position := found + 1 }
termination_by cursor.bitmap.length - cursor.position
decreasing_by omega

def toList (bitmap : Bitmap) : List Nat := bitmap.cursor.toList

example : ((ofPositions 130 [128, 3, 64]).map toList).toOption = some [3, 64, 128] := by
  decide +kernel

end Bitmap

end ResultSets
