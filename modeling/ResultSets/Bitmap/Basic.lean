import ResultSets.Bitmap.Word
import ResultSets.Error

namespace ResultSets

/-! A bitmap: a set of the numbers below a fixed length, packed into words. The
row of words is exactly as long as the length needs, and no bit at or beyond the
length is set, so that whole words can be counted and searched. Both facts are
fields of the type; `mem_*` says what each operation does to the set. -/

structure Bitmap where
  length : Nat
  words : Array Word
  /-- Words of storage held beyond those in use. -/
  spare : Nat
  size_words : words.size = wordsFor length
  clear_beyond : ∀ position, length ≤ position → bitAt words position = false

namespace Bitmap

/-! ## Reading -/

/-- Positions at or beyond the length are unset. -/
def contains (bitmap : Bitmap) (position : Nat) : Bool :=
  position < bitmap.length && bitAt bitmap.words position

instance : Membership Nat Bitmap where
  mem bitmap position := bitmap.contains position = true

instance (position : Nat) (bitmap : Bitmap) : Decidable (position ∈ bitmap) :=
  inferInstanceAs (Decidable (bitmap.contains position = true))

theorem contains_eq_bitAt (bitmap : Bitmap) (position : Nat) :
    bitmap.contains position = bitAt bitmap.words position := by
  by_cases inside : position < bitmap.length
  · simp [contains, inside]
  · simp [contains, inside, bitmap.clear_beyond position (by omega)]

theorem lt_length_of_mem {bitmap : Bitmap} {position : Nat} (member : position ∈ bitmap) :
    position < bitmap.length := by
  change bitmap.contains position = true at member
  simp only [contains, Bool.and_eq_true, decide_eq_true_eq] at member
  exact member.1

/-- Bitmaps are equal when they agree in length and bits, whatever storage they hold. -/
instance : BEq Bitmap where
  beq left right := left.length == right.length && left.words == right.words

def isEmpty (bitmap : Bitmap) : Bool := bitmap.length == 0

def card (bitmap : Bitmap) : Nat := total (bitmap.words.toList.map Word.count)

/-- The bytes of storage held. -/
def memory (bitmap : Bitmap) : Nat := 8 * (bitmap.words.size + bitmap.spare)

def summary (bitmap : Bitmap) : String :=
  let length := bitmap.length
  let card := bitmap.card
  s!"FixedBitSet \x7b len: {length}, cardinality: {card} \x7d"

/-! ## Building -/

def blank (length : Nat) : Bitmap where
  length := length
  words := Array.replicate (wordsFor length) 0#64
  spare := 0
  size_words := by simp
  clear_beyond := by simp

@[simp] theorem contains_blank (length position : Nat) :
    (blank length).contains position = false := by
  simp [contains, blank]

/-- The bitmap with the first `length` bits of a row of words. The words beyond
those needed are dropped, but their storage is kept. -/
def ofWords (words : Array Word) (length : Nat) : Except Error Bitmap :=
  if enough : wordsFor length ≤ words.size then
    .ok {
      length
      words := (words.take (wordsFor length)).modify (length / 64) (· &&& Word.low (length % 64))
      spare := words.size - wordsFor length
      size_words := by simp [enough]
      clear_beyond := by
        intro position beyond
        simp only [bitAt_modify, bitAt_take]
        split
        · next last =>
            have masked : ¬ position % 64 < length % 64 := by omega
            cases (words.take (wordsFor length))[length / 64]? <;>
              simp [Word.getLsbD_low, masked]
        · next dropped =>
            have late : ¬ position / 64 < wordsFor length := by unfold wordsFor; omega
            simp [late] }
  else .error (.wordsTooFew words.size length)

theorem contains_of_ofWords {words : Array Word} {length : Nat} {bitmap : Bitmap}
    (built : ofWords words length = .ok bitmap) (position : Nat) :
    bitmap.contains position = (decide (position < length) && bitAt words position) := by
  unfold ofWords at built
  split at built
  · next enough =>
      cases built
      by_cases inside : position < length
      · have early := div_lt_wordsFor inside
        simp only [contains, bitAt_modify, bitAt_take, inside, early]
        split
        · next last =>
            have kept : position % 64 < length % 64 := by omega
            have within : length / 64 < wordsFor length := by omega
            have held : position / 64 < words.size := by omega
            have cut : position / 64 < min (wordsFor length) words.size := by omega
            have below : position % 64 < 64 := by omega
            simp [bitAt, last, held, cut, Word.getLsbD_low, kept, below]
        · simp
      · simp [contains, inside]
  · cases built

/-- A copy holds no spare storage. -/
def copy (bitmap : Bitmap) : Bitmap := { bitmap with spare := 0 }

@[simp] theorem contains_copy (bitmap : Bitmap) (position : Nat) :
    bitmap.copy.contains position = bitmap.contains position := rfl

/-! ## Single positions -/

private def withBit (bitmap : Bitmap) (position : Nat) (inside : position < bitmap.length) :
    Bitmap where
  length := bitmap.length
  words := bitmap.words.modify (position / 64) (· ||| BitVec.twoPow 64 (position % 64))
  spare := bitmap.spare
  size_words := by simp [bitmap.size_words]
  clear_beyond := by
    intro other beyond
    rw [bitAt_modify]
    split
    · next same =>
        have clear := bitmap.clear_beyond other beyond
        have different : ¬ position % 64 = other % 64 := by omega
        simp only [bitAt, ← same] at clear
        revert clear
        cases bitmap.words[position / 64]? <;> simp [BitVec.getLsbD_twoPow, different]
    · exact bitmap.clear_beyond other beyond

def insert (bitmap : Bitmap) (position : Nat) : Except Error Bitmap :=
  if inside : position < bitmap.length then .ok (bitmap.withBit position inside)
  else .error (.bitOutOfBounds position bitmap.length)

theorem contains_of_insert {bitmap result : Bitmap} {position : Nat}
    (inserted : bitmap.insert position = .ok result) (other : Nat) :
    result.contains other = (other == position || bitmap.contains other) := by
  unfold insert at inserted
  split at inserted
  · next inside =>
      cases inserted
      have held : position / 64 < bitmap.words.size := by
        rw [bitmap.size_words]; exact div_lt_wordsFor inside
      simp only [contains_eq_bitAt, withBit, bitAt_modify]
      split
      · next same =>
          by_cases equal : other = position
          · subst equal
            have below : other % 64 < 64 := by omega
            simp only [Array.getElem?_eq_getElem held, Option.any_some, BitVec.getLsbD_or,
              BitVec.getLsbD_twoPow]
            simp [below]
          · have different : ¬ position % 64 = other % 64 := by omega
            simp [held, bitAt, ← same, BitVec.getLsbD_twoPow, different, equal]
      · next apart =>
          have different : other ≠ position := by omega
          simp [different]
  · cases inserted

theorem length_of_insert {bitmap result : Bitmap} {position : Nat}
    (inserted : bitmap.insert position = .ok result) : result.length = bitmap.length := by
  unfold insert at inserted
  split at inserted
  · cases inserted; rfl
  · cases inserted

theorem insert_isOk_iff (bitmap : Bitmap) (position : Nat) :
    (∃ result, bitmap.insert position = .ok result) ↔ position < bitmap.length := by
  unfold insert
  split <;> simp_all

/-- Unset the bit at a position. Nothing changes at or beyond the length. -/
def erase (bitmap : Bitmap) (position : Nat) : Bitmap where
  length := bitmap.length
  words := bitmap.words.modify (position / 64) (· &&& ~~~BitVec.twoPow 64 (position % 64))
  spare := bitmap.spare
  size_words := by simp [bitmap.size_words]
  clear_beyond := by
    intro other beyond
    rw [bitAt_modify]
    split
    · next same =>
        have clear := bitmap.clear_beyond other beyond
        simp only [bitAt, ← same] at clear
        revert clear
        cases bitmap.words[position / 64]? <;> simp +contextual
    · exact bitmap.clear_beyond other beyond

@[simp] theorem length_erase (bitmap : Bitmap) (position : Nat) :
    (bitmap.erase position).length = bitmap.length := rfl

theorem contains_erase (bitmap : Bitmap) (position other : Nat) :
    (bitmap.erase position).contains other = (other != position && bitmap.contains other) := by
  simp only [contains_eq_bitAt, erase, bitAt_modify]
  split
  · next same =>
      by_cases equal : other = position
      · subst equal
        cases bitmap.words[other / 64]? <;> simp
      · have different : ¬ position % 64 = other % 64 := by omega
        simp only [bitAt, ← same]
        have below : other % 64 < 64 := by omega
        cases bitmap.words[position / 64]? with
        | none => simp
        | some word =>
            simp only [Option.any_some, BitVec.getLsbD_and, BitVec.getLsbD_not,
              BitVec.getLsbD_twoPow, different, below]
            simp [equal]
  · next apart =>
      have different : other ≠ position := by omega
      simp [different]

def ofPositions (length : Nat) (positions : List Nat) : Except Error Bitmap :=
  positions.foldlM insert (blank length)

/-! ## Ranges -/

/-- Set the bits in `[start, stop)`, a range that must lie below the length. -/
def insertRange (bitmap : Bitmap) (start stop : Nat) : Except Error Bitmap :=
  if inside : start ≤ stop ∧ stop ≤ bitmap.length then
    .ok {
      length := bitmap.length
      words := modifySpan
        (fun index word => word ||| Word.span (start - 64 * index) (stop - 64 * index))
        (wordsFor stop - start / 64) (start / 64) bitmap.words
      spare := bitmap.spare
      size_words := by simp [bitmap.size_words]
      clear_beyond := by
        intro position beyond
        have clear := bitmap.clear_beyond position beyond
        have late : ¬ position % 64 < stop - 64 * (position / 64) := by omega
        simp only [bitAt, getElem?_modifySpan] at clear ⊢
        split
        · revert clear
          cases bitmap.words[position / 64]? <;> simp [Word.getLsbD_span, late]
        · exact clear }
  else .error (.rangeOutOfBounds start stop bitmap.length)

theorem contains_of_insertRange {bitmap result : Bitmap} {start stop : Nat}
    (inserted : bitmap.insertRange start stop = .ok result) (position : Nat) :
    result.contains position =
      ((decide (start ≤ position) && decide (position < stop)) || bitmap.contains position) := by
  unfold insertRange at inserted
  split at inserted
  · next inside =>
      cases inserted
      simp only [contains_eq_bitAt, bitAt, getElem?_modifySpan]
      by_cases touched : start / 64 ≤ position / 64 ∧
          position / 64 < start / 64 + (wordsFor stop - start / 64)
      · have held : position / 64 < bitmap.words.size := by
          rw [bitmap.size_words]
          have touched := touched.2
          unfold wordsFor at *
          omega
        have first : (start - 64 * (position / 64) ≤ position % 64) = (start ≤ position) := by
          simp only [eq_iff_iff]; omega
        have last : (position % 64 < stop - 64 * (position / 64)) = (position < stop) := by
          simp only [eq_iff_iff]; omega
        have below : position % 64 < 64 := by omega
        simp only [if_pos touched, Array.getElem?_eq_getElem held, Option.map_some,
          Option.any_some, BitVec.getLsbD_or, Word.getLsbD_span, first, last, below,
          decide_true, Bool.and_true, Bool.or_comm]
      · have outside : ¬ (start ≤ position ∧ position < stop) := by
          unfold wordsFor at touched; omega
        rw [if_neg touched, ← Bool.decide_and, decide_eq_false outside, Bool.false_or]
  · cases inserted

theorem length_of_insertRange {bitmap result : Bitmap} {start stop : Nat}
    (inserted : bitmap.insertRange start stop = .ok result) :
    result.length = bitmap.length := by
  unfold insertRange at inserted
  split at inserted
  · cases inserted; rfl
  · cases inserted

theorem insertRange_isOk_iff (bitmap : Bitmap) (start stop : Nat) :
    (∃ result, bitmap.insertRange start stop = .ok result) ↔
      start ≤ stop ∧ stop ≤ bitmap.length := by
  unfold insertRange
  split <;> simp_all

/-! ## Whole bitmaps

The other bitmap may have any length. The result has the length of the first, and
positions beyond it are left out. -/

/-- Combine every word with the word of the same index of another bitmap, or with
zero where the other has none. The bits of the result must lie below the length. -/
private def combine (left right : Bitmap) (operation : Nat → Word → Word → Word)
    (bounded : ∀ position word other, left.length ≤ position →
      word.getLsbD (position % 64) = false →
      (operation (position / 64) word other).getLsbD (position % 64) = false) : Bitmap where
  length := left.length
  words := left.words.mapIdx fun index word => operation index word (right.words.getD index 0)
  spare := left.spare
  size_words := by simp [left.size_words]
  clear_beyond := by
    intro position beyond
    have clear := left.clear_beyond position beyond
    rw [bitAt_mapIdx]
    simp only [bitAt] at clear
    revert clear
    cases left.words[position / 64]? with
    | none => simp
    | some word => exact fun clear => bounded position word _ beyond (by simpa using clear)

def inter (left right : Bitmap) : Bitmap :=
  left.combine right (fun _ word other => word &&& other)
    (by intro position word other _ clear; simp [clear])

def union (left right : Bitmap) : Bitmap :=
  left.combine right
    (fun index word other => word ||| (other &&& Word.low (left.length - 64 * index)))
    (by
      intro position word other beyond clear
      have late : ¬ position % 64 < left.length - 64 * (position / 64) := by omega
      simp [clear, Word.getLsbD_low, late])

def diff (left right : Bitmap) : Bitmap :=
  left.combine right (fun _ word other => word &&& ~~~other)
    (by intro position word other _ clear; simp [clear])

@[simp] theorem length_inter (left right : Bitmap) :
    (left.inter right).length = left.length := rfl

@[simp] theorem length_union (left right : Bitmap) :
    (left.union right).length = left.length := rfl

@[simp] theorem length_diff (left right : Bitmap) :
    (left.diff right).length = left.length := rfl

private theorem bitAt_combine (left right : Bitmap) (operation : Nat → Word → Word → Word)
    {bounded} (position : Nat) (inside : position < left.length) :
    bitAt (left.combine right operation bounded).words position =
      (operation (position / 64) (left.words.getD (position / 64) 0)
        (right.words.getD (position / 64) 0)).getLsbD (position % 64) := by
  have held : position / 64 < left.words.size := by
    rw [left.size_words]; exact div_lt_wordsFor inside
  simp [combine, bitAt_mapIdx, held]

private theorem getLsbD_getD (bitmap : Bitmap) (position : Nat) :
    (bitmap.words.getD (position / 64) 0).getLsbD (position % 64) =
      bitmap.contains position := by
  rw [contains_eq_bitAt, bitAt]
  simp only [Array.getD_eq_getD_getElem?]
  cases bitmap.words[position / 64]? <;> simp

theorem contains_inter (left right : Bitmap) (position : Nat) :
    (left.inter right).contains position =
      (left.contains position && right.contains position) := by
  by_cases inside : position < left.length
  · rw [contains_eq_bitAt, inter, bitAt_combine left right _ position inside,
      BitVec.getLsbD_and, getLsbD_getD, getLsbD_getD]
  · simp [contains, inside]

theorem contains_union (left right : Bitmap) (position : Nat) :
    (left.union right).contains position =
      (left.contains position ||
        (right.contains position && decide (position < left.length))) := by
  by_cases inside : position < left.length
  · have low : position % 64 < left.length - 64 * (position / 64) := by omega
    have below : position % 64 < 64 := by omega
    rw [contains_eq_bitAt, union, bitAt_combine left right _ position inside,
      BitVec.getLsbD_or, BitVec.getLsbD_and, getLsbD_getD, getLsbD_getD, Word.getLsbD_low]
    simp [low, below, inside]
  · simp [contains, inside]

theorem contains_diff (left right : Bitmap) (position : Nat) :
    (left.diff right).contains position =
      (left.contains position && !right.contains position) := by
  by_cases inside : position < left.length
  · have below : position % 64 < 64 := by omega
    rw [contains_eq_bitAt, diff, bitAt_combine left right _ position inside,
      BitVec.getLsbD_and, BitVec.getLsbD_not, getLsbD_getD, getLsbD_getD]
    simp [below]
  · simp [contains, inside]

def interCard (left right : Bitmap) : Nat :=
  total (List.zipWith (fun word other => Word.count (word &&& other))
    left.words.toList right.words.toList)

end Bitmap

end ResultSets
