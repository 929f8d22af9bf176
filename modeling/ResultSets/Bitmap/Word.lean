namespace ResultSets

/-! Bits packed into words of 64, bit zero in the lowest place. Bit `i` of a row of
words is bit `i % 64` of word `i / 64`; a bit beyond the last word is unset. -/

abbrev Word := BitVec 64

namespace Word

/-! ## Masks

`low count` has the bits below `count` set, `span start stop` those in
`[start, stop)`. -/

def low (count : Nat) : Word := BitVec.allOnes 64 >>> (64 - count)

def span (start stop : Nat) : Word := low stop &&& ~~~low start

theorem getLsbD_low (count position : Nat) :
    (low count).getLsbD position = (decide (position < count) && decide (position < 64)) := by
  simp only [low, BitVec.getLsbD_ushiftRight, BitVec.getLsbD_allOnes, ← Bool.decide_and]
  apply decide_eq_decide.mpr
  omega

theorem getLsbD_span (start stop position : Nat) :
    (span start stop).getLsbD position =
      (decide (start ≤ position) && decide (position < stop) && decide (position < 64)) := by
  simp only [span, BitVec.getLsbD_and, BitVec.getLsbD_not, getLsbD_low]
  by_cases inside : position < 64 <;> by_cases early : position < start <;>
    simp [inside, early, ← Nat.not_lt]

/-! ## Counting and searching

The searches find the lowest set bit at or above a start, and the highest set bit
below a stop. -/

def count (word : Word) : Nat := (List.range 64).countP word.getLsbD

def firstFrom? (word : Word) (start : Nat) : Option Nat :=
  (List.range' start (64 - start)).find? word.getLsbD

def lastBelow? (word : Word) : (stop : Nat) → Option Nat
  | 0 => none
  | position + 1 => if word.getLsbD position then some position else word.lastBelow? position

example : (0b10100 : Word).count = 2 := by decide
example : (0b10100 : Word).firstFrom? 3 = some 4 := by decide
example : (0b10100 : Word).lastBelow? 4 = some 2 := by decide

end Word

/-! ## Totals -/

def total (counts : List Nat) : Nat := counts.foldr (· + ·) 0

theorem total_append (first second : List Nat) :
    total (first ++ second) = total first + total second := by
  induction first with
  | nil => exact (Nat.zero_add _).symm
  | cons count rest induction =>
      change count + total (rest ++ second) = count + total rest + total second
      rw [induction, Nat.add_assoc]

theorem total_map_le {α : Type} {items : List α} {first second : α → Nat}
    (each : ∀ item ∈ items, first item ≤ second item) :
    total (items.map first) ≤ total (items.map second) := by
  induction items with
  | nil => exact Nat.le_refl 0
  | cons item rest induction =>
      exact Nat.add_le_add (each item (.head _))
        (induction fun other member => each other (.tail _ member))

/-! ## Rows of words -/

def wordsFor (length : Nat) : Nat := (length + 63) / 64

def bitAt (words : Array Word) (position : Nat) : Bool :=
  words[position / 64]?.any (·.getLsbD (position % 64))

theorem div_lt_wordsFor {position length : Nat} (inside : position < length) :
    position / 64 < wordsFor length := by
  unfold wordsFor; omega

theorem bitAt_eq_false_of_size_le {words : Array Word} {position : Nat}
    (outside : words.size ≤ position / 64) : bitAt words position = false := by
  simp [bitAt, Array.getElem?_eq_none outside]

@[simp] theorem bitAt_replicate_zero (size position : Nat) :
    bitAt (Array.replicate size 0#64) position = false := by
  simp only [bitAt, Array.getElem?_replicate]
  split <;> simp

theorem bitAt_modify (words : Array Word) (index : Nat) (change : Word → Word) (position : Nat) :
    bitAt (words.modify index change) position =
      if index = position / 64 then
        words[index]?.any fun word => (change word).getLsbD (position % 64)
      else bitAt words position := by
  simp only [bitAt, Array.getElem?_modify]
  split
  · next equal => simp [equal, Option.any_map]
  · rfl

theorem bitAt_mapIdx (words : Array Word) (change : Nat → Word → Word) (position : Nat) :
    bitAt (words.mapIdx change) position =
      words[position / 64]?.any fun word =>
        (change (position / 64) word).getLsbD (position % 64) := by
  simp [bitAt, Option.any_map]

theorem bitAt_take (words : Array Word) (count position : Nat) :
    bitAt (words.take count) position =
      (decide (position / 64 < count) && bitAt words position) := by
  simp only [bitAt, Array.take_eq_extract, Array.getElem?_extract, Nat.zero_add, Nat.sub_zero]
  by_cases early : position / 64 < count
  · by_cases held : position / 64 < words.size
    · have both : position / 64 < min count words.size := by omega
      simp [early, held, both]
    · have outside : ¬ position / 64 < min count words.size := by omega
      simp [early, held, outside]
  · have outside : ¬ position / 64 < min count words.size := by omega
    simp [early, outside]

/-- Change the words `index`, `index + 1`, … of a row, `count` of them. -/
def modifySpan (change : Nat → Word → Word) :
    (count index : Nat) → Array Word → Array Word
  | 0, _, words => words
  | count + 1, index, words =>
      modifySpan change count (index + 1) (words.modify index (change index))

@[simp] theorem size_modifySpan (change : Nat → Word → Word) (count index : Nat)
    (words : Array Word) : (modifySpan change count index words).size = words.size := by
  induction count generalizing index words with
  | zero => rfl
  | succ count induction => simp [modifySpan, induction]

theorem getElem?_modifySpan (change : Nat → Word → Word) (count index : Nat)
    (words : Array Word) (position : Nat) :
    (modifySpan change count index words)[position]? =
      if index ≤ position ∧ position < index + count then
        words[position]?.map (change position)
      else words[position]? := by
  induction count generalizing index words with
  | zero =>
      have outside : ¬ (index ≤ position ∧ position < index + 0) := by omega
      rw [modifySpan, if_neg outside]
  | succ count induction =>
      rw [modifySpan, induction, Array.getElem?_modify]
      by_cases here : index = position
      · have before : ¬ (index + 1 ≤ position ∧ position < index + 1 + count) := by omega
        have within : index ≤ position ∧ position < index + (count + 1) := by omega
        rw [if_neg before, if_pos within, if_pos here, here]
      · have same : (index + 1 ≤ position ∧ position < index + 1 + count) =
            (index ≤ position ∧ position < index + (count + 1)) := by
          apply propext
          omega
        rw [if_neg here]
        simp only [same]

end ResultSets
