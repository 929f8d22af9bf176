import ResultSets.Bitmap.Basic

namespace ResultSets

/-! A stretch of consecutive positions. -/

structure Span where
  start : Nat
  stop : Nat
  deriving DecidableEq, Repr

namespace Span

/-- The order of spans: by their starts, then by their stops. -/
def le (left right : Span) : Bool :=
  left.start < right.start || (left.start == right.start && left.stop ≤ right.stop)

/-- The first two neighbours of a row of spans of which the later begins before the
earlier ends. -/
def overlap? : List Span → Option (Span × Span)
  | earlier :: later :: rest =>
      if later.start < earlier.stop then some (earlier, later) else overlap? (later :: rest)
  | _ => none

example : overlap? [⟨0, 5⟩, ⟨5, 5⟩, ⟨5, 9⟩, ⟨8, 8⟩] = some (⟨5, 9⟩, ⟨8, 8⟩) := by decide

end Span

/-! Pasting a stretch of bits into a bitmap at another place. The source may be any
row of bits of known length; it is read backwards as its maximal runs of set bits,
and each run is set in the destination as one range. -/

structure BitView where
  length : Nat
  bit : Nat → Bool

namespace BitView

/-- Positions at or beyond the length are unset. -/
def get (view : BitView) (position : Nat) : Bool :=
  position < view.length && view.bit position

def isEmpty (view : BitView) : Bool := view.length == 0

def ofFlags (flags : Array Bool) : BitView where
  length := flags.size
  bit position := flags.getD position false

/-- Step back from a position over bits of one value, but not below `start`. -/
def skipBack (bit : Nat → Bool) (value : Bool) (start : Nat) : (position : Nat) → Nat
  | 0 => 0
  | position + 1 =>
      if start ≤ position ∧ bit position = value then skipBack bit value start position
      else position + 1

theorem skipBack_le (bit : Nat → Bool) (value : Bool) (start position : Nat) :
    skipBack bit value start position ≤ position := by
  induction position with
  | zero => exact Nat.le_refl _
  | succ position induction =>
      rw [skipBack]
      split
      · exact Nat.le_succ_of_le induction
      · exact Nat.le_refl _

/-- Where stepping back stops above `start`, the bit before has another value. -/
theorem bit_of_skipBack {bit : Nat → Bool} {value : Bool} {start position last : Nat}
    (stopped : skipBack bit value start position = last + 1) (above : start ≤ last) :
    bit last ≠ value := by
  induction position with
  | zero => cases stopped
  | succ position induction =>
      rw [skipBack] at stopped
      split at stopped
      · exact induction stopped
      · next different =>
          cases stopped
          exact fun same => different ⟨above, same⟩

/-- Behind a bit of the value there is a step back to take. -/
theorem skipBack_lt {bit : Nat → Bool} {value : Bool} {start last : Nat} (above : start ≤ last)
    (same : bit last = value) : skipBack bit value start (last + 1) < last + 1 := by
  rw [skipBack, if_pos ⟨above, same⟩]
  exact Nat.lt_succ_of_le (skipBack_le bit value start last)

theorem skipBack_false_true_lt {bit : Nat → Bool} {start position : Nat}
    (found : start < skipBack bit false start position) :
    skipBack bit true start (skipBack bit false start position) < position := by
  have atMost := skipBack_le bit false start position
  cases stopped : skipBack bit false start position with
  | zero => omega
  | succ last =>
      rw [stopped] at found atMost
      have set := bit_of_skipBack stopped (Nat.le_of_lt_succ found)
      have less := skipBack_lt (Nat.le_of_lt_succ found) (by simpa using set)
      omega

/-- The maximal runs of set bits in `[start, position)`, the last one first: step back over
unset bits, then over the run that ends there. -/
def runsBack (bit : Nat → Bool) (start position : Nat) : List Span :=
  if start < skipBack bit false start position then
    let stop := skipBack bit false start position
    let first := skipBack bit true start stop
    ⟨first, stop⟩ :: runsBack bit start first
  else []
termination_by position
decreasing_by exact skipBack_false_true_lt ‹_›

/-- The maximal runs of set bits in `[start, stop)`, in descending order. -/
def runs (view : BitView) (start stop : Nat) : List Span :=
  runsBack view.get start stop

example : (ofFlags #[true, true, false, true]).runs 0 4 = [⟨3, 4⟩, ⟨0, 2⟩] := by
  decide +kernel

end BitView

namespace Bitmap

def view (bitmap : Bitmap) : BitView where
  length := bitmap.length
  bit := bitmap.contains

/-- Set the bits of `[start, stop)` of a source that are set there, beginning at
`offset`. Also returns the number of runs that were set. -/
def paste (destination : Bitmap) (source : BitView) (start stop offset : Nat) :
    Except Error (Bitmap × Nat) :=
  if stop < start then .error (.sourceReversed start stop)
  else if source.length < stop then .error (.sourceTooShort stop source.length)
  else if destination.length < offset + (stop - start) then
    .error (.destinationTooShort offset (stop - start) destination.length)
  else do
    let runs := source.runs start stop
    let pasted ← runs.foldlM
      (fun bitmap run =>
        bitmap.insertRange (run.start + offset - start) (run.stop + offset - start))
      destination
    return (pasted, runs.length)

end Bitmap

end ResultSets
