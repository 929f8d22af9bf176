import Mathlib.Data.Finset.Card
import Mathlib.Order.Interval.Finset.Nat
import ResultSets.Proofs.Bitmap.Paste

namespace ResultSets.Bitmap

/-! Bitmaps as they come about: they start without members or from given words, and are then
changed position by position, by ranges and by other bitmaps, which come about in the same ways.
Whatever the steps are, the bitmap has the members that a finite set would have after the same
steps. A construction fits if words are enough for the length, positions and ranges lie below it,
and no longer bitmap is joined. -/

inductive Construction where
  | blank (length : Nat)
  | ofWords (words : Array Word) (length : Nat)
  | insert (before : Construction) (position : Nat)
  | erase (before : Construction) (position : Nat)
  | insertRange (before : Construction) (start stop : Nat)
  | inter (left right : Construction)
  | union (left right : Construction)
  | diff (left right : Construction)

namespace Construction

def build : Construction → Except Error Bitmap
  | .blank length => .ok (Bitmap.blank length)
  | .ofWords words length => Bitmap.ofWords words length
  | .insert before position => do
      let bitmap ← before.build
      bitmap.insert position
  | .erase before position => do
      let bitmap ← before.build
      return bitmap.erase position
  | .insertRange before start stop => do
      let bitmap ← before.build
      bitmap.insertRange start stop
  | .inter left right => do
      let bitmap ← left.build
      let other ← right.build
      return bitmap.inter other
  | .union left right => do
      let bitmap ← left.build
      let other ← right.build
      return bitmap.union other
  | .diff left right => do
      let bitmap ← left.build
      let other ← right.build
      return bitmap.diff other

def length : Construction → Nat
  | .blank length => length
  | .ofWords _ length => length
  | .insert before _ => before.length
  | .erase before _ => before.length
  | .insertRange before _ _ => before.length
  | .inter left _ => left.length
  | .union left _ => left.length
  | .diff left _ => left.length

def Fits : Construction → Prop
  | .blank _ => True
  | .ofWords words length => length ≤ 64 * words.size
  | .insert before position => before.Fits ∧ position < before.length
  | .erase before _ => before.Fits
  | .insertRange before start stop => before.Fits ∧ start ≤ stop ∧ stop ≤ before.length
  | .inter left right => left.Fits ∧ right.Fits
  | .union left right => left.Fits ∧ right.Fits ∧ right.length ≤ left.length
  | .diff left right => left.Fits ∧ right.Fits

def members : Construction → Finset Nat
  | .blank _ => ∅
  | .ofWords words length => {position ∈ Finset.range length | bitAt words position}
  | .insert before position => Insert.insert position before.members
  | .erase before position => before.members.erase position
  | .insertRange before start stop => before.members ∪ Finset.Ico start stop
  | .inter left right => left.members ∩ right.members
  | .union left right => left.members ∪ right.members
  | .diff left right => left.members \ right.members

end Construction

def Represents (bitmap : Bitmap) (length : Nat) (members : Finset Nat) : Prop :=
  bitmap.length = length ∧ ∀ position, position ∈ bitmap ↔ position ∈ members

namespace Represents

variable {bitmap other : Bitmap} {length otherLength : Nat} {members otherMembers : Finset Nat}

/-! ## Steps -/

theorem blank (length : Nat) : (blank length).Represents length ∅ :=
  ⟨rfl, fun position => iff_of_false (not_mem_blank length position) (Finset.notMem_empty _)⟩

theorem ofWords {words : Array Word} (enough : length ≤ 64 * words.size) :
    ∃ result, ofWords words length = .ok result ∧
      result.Represents length {position ∈ Finset.range length | bitAt words position} := by
  have held : wordsFor length ≤ words.size := by
    unfold wordsFor
    omega
  have built : ∃ result, Bitmap.ofWords words length = .ok result ∧ result.length = length := by
    rw [Bitmap.ofWords, dif_pos held]
    exact ⟨_, rfl, rfl⟩
  rcases built with ⟨result, built, sameLength⟩
  refine ⟨result, built, sameLength, fun position => ?_⟩
  change result.contains position = true ↔ _
  rw [contains_of_ofWords built, Bool.and_eq_true, decide_eq_true_eq, Finset.mem_filter,
    Finset.mem_range]

theorem insert (represents : bitmap.Represents length members) {position : Nat}
    (inside : position < length) :
    ∃ result, bitmap.insert position = .ok result ∧
      result.Represents length (Insert.insert position members) := by
  rcases represents with ⟨rfl, same⟩
  rcases bitmap.insert_eq_ok inside with ⟨result, inserted, sameLength, _, added⟩
  refine ⟨result, inserted, sameLength, fun other => ?_⟩
  rw [added, same, Finset.mem_insert]

theorem erase (represents : bitmap.Represents length members) (position : Nat) :
    (bitmap.erase position).Represents length (members.erase position) := by
  apply And.intro represents.1
  intro other
  rw [mem_erase, Finset.mem_erase, represents.2]

theorem insertRange (represents : bitmap.Represents length members) {start stop : Nat}
    (ordered : start ≤ stop) (inside : stop ≤ length) :
    ∃ result, bitmap.insertRange start stop = .ok result ∧
      result.Represents length (members ∪ Finset.Ico start stop) := by
  rcases represents with ⟨rfl, same⟩
  rcases bitmap.insertRange_eq_ok ordered inside with ⟨result, inserted, sameLength, added⟩
  refine ⟨result, inserted, sameLength, fun position => ?_⟩
  rw [added, same, Finset.mem_union, Finset.mem_Ico, or_comm]

theorem inter (represents : bitmap.Represents length members)
    (otherRepresents : other.Represents otherLength otherMembers) :
    (bitmap.inter other).Represents length (members ∩ otherMembers) := by
  apply And.intro represents.1
  intro position
  rw [mem_inter, represents.2, otherRepresents.2, Finset.mem_inter]

theorem union (represents : bitmap.Represents length members)
    (otherRepresents : other.Represents otherLength otherMembers)
    (short : otherLength ≤ length) :
    (bitmap.union other).Represents length (members ∪ otherMembers) := by
  apply And.intro represents.1
  intro position
  have atMost : other.length ≤ bitmap.length := by
    rw [represents.1, otherRepresents.1]
    exact short
  rw [mem_union_of_length_le atMost, represents.2, otherRepresents.2, Finset.mem_union]

theorem diff (represents : bitmap.Represents length members)
    (otherRepresents : other.Represents otherLength otherMembers) :
    (bitmap.diff other).Represents length (members \ otherMembers) := by
  apply And.intro represents.1
  intro position
  rw [mem_diff, represents.2, otherRepresents.2, Finset.mem_sdiff]

/-! ## What is read from a bitmap -/

theorem card (represents : bitmap.Represents length members) : bitmap.card = members.card := by
  rw [← Finset.length_toList]
  apply card_eq_length members.nodup_toList
  intro position
  rw [represents.2, Finset.mem_toList]

theorem beq_iff (represents : bitmap.Represents length members)
    (otherRepresents : other.Represents otherLength otherMembers) :
    (bitmap == other) = true ↔ length = otherLength ∧ members = otherMembers := by
  rw [Bitmap.beq_iff, represents.1, otherRepresents.1, Finset.ext_iff]
  simp only [represents.2, otherRepresents.2]

end Represents

namespace Construction

theorem exists_represents {construction : Construction} (fits : construction.Fits) :
    ∃ bitmap, construction.build = .ok bitmap ∧
      bitmap.Represents construction.length construction.members := by
  induction construction with
  | blank length => exact ⟨_, rfl, .blank length⟩
  | ofWords words length => exact Represents.ofWords fits
  | insert before position induction =>
      rcases induction fits.1 with ⟨bitmap, built, represents⟩
      rw [build, built]
      exact represents.insert fits.2
  | erase before position induction =>
      rcases induction fits with ⟨bitmap, built, represents⟩
      rw [build, built]
      exact ⟨_, rfl, represents.erase position⟩
  | insertRange before start stop induction =>
      rcases induction fits.1 with ⟨bitmap, built, represents⟩
      rw [build, built]
      exact represents.insertRange fits.2.1 fits.2.2
  | inter left right leftInduction rightInduction =>
      rcases leftInduction fits.1 with ⟨bitmap, built, represents⟩
      rcases rightInduction fits.2 with ⟨other, otherBuilt, otherRepresents⟩
      rw [build, built, otherBuilt]
      exact ⟨_, rfl, represents.inter otherRepresents⟩
  | union left right leftInduction rightInduction =>
      rcases leftInduction fits.1 with ⟨bitmap, built, represents⟩
      rcases rightInduction fits.2.1 with ⟨other, otherBuilt, otherRepresents⟩
      rw [build, built, otherBuilt]
      exact ⟨_, rfl, represents.union otherRepresents fits.2.2⟩
  | diff left right leftInduction rightInduction =>
      rcases leftInduction fits.1 with ⟨bitmap, built, represents⟩
      rcases rightInduction fits.2 with ⟨other, otherBuilt, otherRepresents⟩
      rw [build, built, otherBuilt]
      exact ⟨_, rfl, represents.diff otherRepresents⟩

/-- A construction that fits yields a bitmap with the members that a finite set would have
after the same steps. It has no more words than the length needs and no bit set beyond the
length, so it counts the members, and is equal to just the bitmaps of the same length and
with the same members. -/
theorem build_refines {construction : Construction} (fits : construction.Fits) :
    ∃ bitmap, construction.build = .ok bitmap ∧ bitmap.length = construction.length ∧
      bitmap.words.size = (construction.length + 63) / 64 ∧
      (∀ index place, place < 64 → construction.length ≤ 64 * index + place →
        (bitmap.words.getD index 0).getLsbD place = false) ∧
      (∀ position, bitmap.contains position = true ↔ position ∈ construction.members) ∧
      bitmap.card = construction.members.card ∧
      ∀ (other : Construction) (otherBitmap : Bitmap), other.Fits →
        other.build = .ok otherBitmap →
          ((bitmap == otherBitmap) = true ↔
            construction.length = other.length ∧ construction.members = other.members) := by
  rcases exists_represents fits with ⟨bitmap, built, represents⟩
  have length := represents.1
  refine ⟨bitmap, built, length, ?_, fun index place below beyond => ?_, represents.2,
    represents.card, fun other otherBitmap otherFits otherBuilt => ?_⟩
  · rw [← length]
    exact bitmap.size_words
  · rw [← contains_at bitmap below, contains_eq_bitAt]
    exact bitmap.clear_beyond _ (length ▸ beyond)
  · rcases exists_represents otherFits with ⟨_, same, otherRepresents⟩
    cases otherBuilt.symm.trans same
    exact represents.beq_iff otherRepresents

theorem build_refines_cut :
    ∃ bitmap other,
      build (.inter (.insertRange (.blank 130) 60 128)
        (.ofWords #[BitVec.allOnes 64, BitVec.allOnes 64] 70)) = .ok bitmap ∧
      build (.insertRange (.blank 130) 60 70) = .ok other ∧
      bitmap.words.size = 3 ∧ bitmap.card = 10 ∧ (bitmap == other) = true := by
  have fits : Fits (.inter (.insertRange (.blank 130) 60 128)
      (.ofWords #[BitVec.allOnes 64, BitVec.allOnes 64] 70)) :=
    ⟨⟨trivial, by decide, by decide⟩, by rw [Fits]; decide⟩
  have otherFits : Fits (.insertRange (.blank 130) 60 70) :=
    ⟨trivial, by decide, by decide⟩
  rcases build_refines fits with ⟨bitmap, built, _, words, _, _, card, equal⟩
  rcases exists_represents otherFits with ⟨other, otherBuilt, _⟩
  refine ⟨bitmap, other, built, otherBuilt, words, card.trans ?_,
    (equal _ other otherFits otherBuilt).mpr ⟨rfl, ?_⟩⟩
  · decide +kernel
  · decide +kernel

end Construction

end ResultSets.Bitmap
