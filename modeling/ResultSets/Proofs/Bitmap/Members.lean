import Mathlib.Data.List.Sort
import ResultSets.Bitmap.Scan

namespace ResultSets

/-! What a bitmap lists and what it counts. The walk over a bitmap lists exactly its
members, each once and in ascending order, and the count of its words is their number. -/

theorem bitAt_at (words : Array Word) {index place : Nat} (below : place < 64) :
    bitAt words (64 * index + place) = (words.getD index 0).getLsbD place := by
  have word : (64 * index + place) / 64 = index := by omega
  have rest : (64 * index + place) % 64 = place := by omega
  rw [bitAt, word, rest, Array.getD_eq_getD_getElem?]
  cases words[index]? with
  | none => simp
  | some held => rfl

/-! ## Listing -/

theorem firstBitFrom?_eq_none {words : Array Word} {index start : Nat}
    (missing : firstBitFrom? words index start = none) (position : Nat)
    (late : 64 * index + start ≤ position) : bitAt words position = false := by
  fun_induction firstBitFrom? words index start with
  | case1 => cases missing
  | case2 index start inside here induction =>
      by_cases word : position / 64 = index
      · simp only [bitAt, word, Array.getElem?_eq_getElem inside, Option.any_some]
        exact Word.firstFrom?_eq_none here _ (by omega) (by omega)
      · exact induction missing (by omega)
  | case3 index start outside =>
      exact bitAt_eq_false_of_size_le (by omega)

namespace Bitmap

theorem next?_eq_none {bitmap : Bitmap} {start : Nat} (missing : bitmap.next? start = none)
    (position : Nat) (late : start ≤ position) : position ∉ bitmap := by
  intro member
  have inside := lt_length_of_mem member
  unfold next? at missing
  rw [if_pos (by omega)] at missing
  have clear := firstBitFrom?_eq_none missing position (by omega)
  rw [← contains_eq_bitAt] at clear
  exact Bool.false_ne_true (clear.symm.trans member)

theorem Cursor.mem_toList (cursor : Cursor) (position : Nat) :
    position ∈ cursor.toList ↔ cursor.position ≤ position ∧ position ∈ cursor.bitmap := by
  fun_induction Cursor.toList cursor with
  | case1 cursor missing =>
      simp only [List.not_mem_nil, false_iff, not_and]
      exact next?_eq_none missing position
  | case2 cursor found step _ _ induction =>
      rcases next?_eq_some step with ⟨late, member, first⟩
      rw [List.mem_cons, induction]
      constructor
      · rintro (rfl | ⟨after, inside⟩)
        · exact ⟨late, member⟩
        · exact ⟨by dsimp only at after; omega, inside⟩
      · rintro ⟨after, inside⟩
        by_cases early : position < found
        · exact absurd inside (first position after early)
        · by_cases equal : position = found
          · exact .inl equal
          · exact .inr ⟨by dsimp only; omega, inside⟩

theorem Cursor.toList_pairwise (cursor : Cursor) : cursor.toList.Pairwise (· < ·) := by
  fun_induction Cursor.toList cursor with
  | case1 => exact .nil
  | case2 cursor found step _ _ induction =>
      apply List.Pairwise.cons _ induction
      intro position later
      have := ((Cursor.mem_toList _ _).mp later).1
      dsimp only at this
      omega

theorem Cursor.next_eq (cursor : Cursor) :
    cursor.next.1 = cursor.toList.head? ∧ cursor.next.2.toList = cursor.toList.tail := by
  rw [next]
  fun_cases Cursor.toList cursor with
  | case1 missing =>
      rw [missing]
      apply And.intro rfl
      apply List.eq_nil_iff_forall_not_mem.mpr
      intro position listed
      rcases (Cursor.mem_toList cursor position).mp listed with ⟨late, member⟩
      exact next?_eq_none missing position late member
  | case2 found step =>
      rw [step]
      exact ⟨rfl, rfl⟩

theorem mem_toList {bitmap : Bitmap} {position : Nat} :
    position ∈ bitmap.toList ↔ position ∈ bitmap := by
  rw [toList, Cursor.mem_toList]
  exact ⟨And.right, fun member => ⟨Nat.zero_le _, member⟩⟩

theorem toList_pairwise (bitmap : Bitmap) : bitmap.toList.Pairwise (· < ·) :=
  bitmap.cursor.toList_pairwise

theorem toList_eq_filter (bitmap : Bitmap) :
    bitmap.toList = (List.range bitmap.length).filter bitmap.contains := by
  apply bitmap.toList_pairwise.eq_of_mem_iff (List.pairwise_lt_range.filter _)
  intro position
  rw [mem_toList, List.mem_filter, List.mem_range]
  exact ⟨fun member => ⟨lt_length_of_mem member, member⟩, And.right⟩

end Bitmap

/-! ## Equality

A bitmap is determined by its length, its members and the storage it holds to spare. The
storage is left out of account when bitmaps are compared. -/

namespace Bitmap

theorem contains_at (bitmap : Bitmap) {index place : Nat} (below : place < 64) :
    bitmap.contains (64 * index + place) = (bitmap.words.getD index 0).getLsbD place := by
  rw [contains_eq_bitAt, bitAt_at bitmap.words below]

theorem words_eq_of_contains {left right : Bitmap} (length : left.length = right.length)
    (same : ∀ position, left.contains position = right.contains position) :
    left.words = right.words := by
  have size : left.words.size = right.words.size := by
    rw [left.size_words, right.size_words, length]
  apply Array.ext size
  intro index inLeft inRight
  apply BitVec.eq_of_getLsbD_eq
  intro place below
  have bit := same (64 * index + place)
  rw [contains_at left below, contains_at right below] at bit
  simpa [inLeft, inRight] using bit

theorem beq_iff (left right : Bitmap) :
    (left == right) = true ↔
      left.length = right.length ∧ ∀ position, position ∈ left ↔ position ∈ right := by
  change (left.length == right.length && left.words == right.words) = true ↔ _
  rw [Bool.and_eq_true, beq_iff_eq, beq_iff_eq]
  apply and_congr_right
  intro length
  constructor
  · intro words position
    change left.contains position = true ↔ right.contains position = true
    rw [contains_eq_bitAt, contains_eq_bitAt, words]
  · intro same
    exact words_eq_of_contains length fun position => Bool.eq_iff_iff.mpr (same position)

theorem eq_of_contains {left right : Bitmap} (length : left.length = right.length)
    (spare : left.spare = right.spare)
    (same : ∀ position, left.contains position = right.contains position) : left = right := by
  have words := words_eq_of_contains length same
  cases left
  cases right
  cases length
  cases spare
  cases words
  rfl

end Bitmap

/-! ## Whole bitmaps -/

namespace Bitmap

theorem mem_inter (left right : Bitmap) (position : Nat) :
    position ∈ left.inter right ↔ position ∈ left ∧ position ∈ right := by
  change (left.inter right).contains position = true ↔ _
  rw [contains_inter, Bool.and_eq_true]
  rfl

theorem mem_union (left right : Bitmap) {position : Nat} (inside : position < left.length) :
    position ∈ left.union right ↔ position ∈ left ∨ position ∈ right := by
  change (left.union right).contains position = true ↔ _
  rw [contains_union, decide_eq_true inside, Bool.and_true, Bool.or_eq_true]
  rfl

theorem mem_union_of_length_le {left right : Bitmap} (short : right.length ≤ left.length)
    (position : Nat) : position ∈ left.union right ↔ position ∈ left ∨ position ∈ right := by
  by_cases inside : position < left.length
  · exact mem_union left right inside
  · have outside : ∀ bitmap : Bitmap, bitmap.length ≤ left.length → position ∉ bitmap := by
      intro bitmap atMost member
      have := lt_length_of_mem member
      omega
    apply iff_of_false (outside (left.union right) (Nat.le_refl _))
    exact not_or.mpr ⟨outside left (Nat.le_refl _), outside right short⟩

theorem mem_diff (left right : Bitmap) (position : Nat) :
    position ∈ left.diff right ↔ position ∈ left ∧ position ∉ right := by
  change (left.diff right).contains position = true ↔ _ ∧ ¬ right.contains position = true
  rw [contains_diff, Bool.and_eq_true, Bool.not_eq_true', Bool.not_eq_true]
  rfl

end Bitmap

/-! ## Building -/

namespace Bitmap

theorem insert_eq_ok (bitmap : Bitmap) {position : Nat} (inside : position < bitmap.length) :
    ∃ result, bitmap.insert position = .ok result ∧ result.length = bitmap.length ∧
      result.spare = bitmap.spare ∧
      ∀ other, other ∈ result ↔ other = position ∨ other ∈ bitmap := by
  rcases (insert_isOk_iff bitmap position).mpr inside with ⟨result, inserted⟩
  refine ⟨result, inserted, length_of_insert inserted, ?_, fun other => ?_⟩
  · unfold insert at inserted
    rw [dif_pos inside] at inserted
    cases inserted
    rfl
  · change result.contains other = true ↔ other = position ∨ bitmap.contains other = true
    rw [contains_of_insert inserted, Bool.or_eq_true, beq_iff_eq]

theorem foldlM_insert (positions : List Nat) (bitmap : Bitmap)
    (inside : ∀ position, position ∈ positions → position < bitmap.length) :
    ∃ result, positions.foldlM insert bitmap = .ok result ∧ result.length = bitmap.length ∧
      result.spare = bitmap.spare ∧
      ∀ position, position ∈ result ↔ position ∈ positions ∨ position ∈ bitmap := by
  induction positions generalizing bitmap with
  | nil => exact ⟨bitmap, rfl, rfl, rfl, fun position => by simp⟩
  | cons head tail induction =>
      rcases bitmap.insert_eq_ok (inside head (List.mem_cons_self ..)) with
        ⟨next, inserted, length, spare, members⟩
      rcases induction next fun position member => by
          rw [length]
          exact inside position (List.mem_cons_of_mem head member) with
        ⟨result, folded, resultLength, resultSpare, resultMembers⟩
      refine ⟨result, ?_, resultLength.trans length, resultSpare.trans spare,
        fun position => ?_⟩
      · rw [List.foldlM_cons, inserted]
        exact folded
      · rw [resultMembers, members, List.mem_cons, or_left_comm, or_assoc]

theorem mem_erase (bitmap : Bitmap) (position other : Nat) :
    other ∈ bitmap.erase position ↔ other ≠ position ∧ other ∈ bitmap := by
  change (bitmap.erase position).contains other = true ↔ _
  rw [contains_erase, Bool.and_eq_true, bne_iff_ne]
  rfl

theorem foldl_erase (positions : List Nat) (bitmap : Bitmap) :
    (positions.foldl erase bitmap).length = bitmap.length ∧
      ∀ position, position ∈ positions.foldl erase bitmap ↔
        position ∈ bitmap ∧ position ∉ positions := by
  induction positions generalizing bitmap with
  | nil => exact ⟨rfl, fun position => by simp⟩
  | cons head tail induction =>
      rcases induction (bitmap.erase head) with ⟨length, members⟩
      apply And.intro length
      intro position
      rw [List.foldl_cons, members, mem_erase, List.mem_cons, not_or, and_left_comm, and_assoc]

theorem not_mem_blank (length position : Nat) : position ∉ blank length := by
  intro member
  exact Bool.false_ne_true ((contains_blank length position).symm.trans member)

theorem ofPositions_eq_ok (length : Nat) (positions : List Nat)
    (inside : ∀ position, position ∈ positions → position < length) :
    ∃ bitmap, ofPositions length positions = .ok bitmap ∧ bitmap.length = length ∧
      bitmap.spare = 0 ∧ ∀ position, position ∈ bitmap ↔ position ∈ positions := by
  rcases foldlM_insert positions (blank length) inside with
    ⟨bitmap, built, sameLength, spare, members⟩
  refine ⟨bitmap, built, sameLength, spare, fun position => ?_⟩
  rw [members]
  exact or_iff_left (not_mem_blank length position)

end Bitmap

/-! ## Counting -/

private theorem countP_range_bitAt (words : Array Word) (count : Nat)
    (held : count ≤ words.size) :
    total ((words.toList.take count).map Word.count) =
      (List.range (64 * count)).countP (bitAt words) := by
  induction count with
  | zero => rfl
  | succ count induction =>
      have inside : count < words.size := by omega
      have last : (words.toList.take (count + 1)).map Word.count =
          (words.toList.take count).map Word.count ++ [words[count].count] := by
        rw [List.take_succ_eq_append_getElem (by simpa using inside), List.map_append]
        simp
      have word : words[count].count =
          ((List.range 64).map (64 * count + ·)).countP (bitAt words) := by
        rw [List.countP_map, Word.count]
        apply List.countP_congr
        intro place below
        have below := List.mem_range.mp below
        have index : (64 * count + place) / 64 = count := by omega
        have rest : (64 * count + place) % 64 = place := by omega
        simp [bitAt, index, rest, Array.getElem?_eq_getElem inside]
      rw [last, total_append, induction (by omega), Nat.mul_succ, List.range_add,
        List.countP_append, ← word]
      rfl

namespace Bitmap

theorem card_eq_countP (bitmap : Bitmap) :
    bitmap.card = (List.range bitmap.length).countP bitmap.contains := by
  have whole := countP_range_bitAt bitmap.words bitmap.words.size (Nat.le_refl _)
  have enough : 64 * bitmap.words.size =
      bitmap.length + (64 * bitmap.words.size - bitmap.length) := by
    rw [bitmap.size_words, wordsFor]; omega
  have beyond : ((List.range (64 * bitmap.words.size - bitmap.length)).map
      (bitmap.length + ·)).countP (bitAt bitmap.words) = 0 := by
    rw [List.countP_eq_zero]
    intro position member
    rcases List.mem_map.mp member with ⟨rest, _, rfl⟩
    simp [bitmap.clear_beyond (bitmap.length + rest) (by omega)]
  rw [List.take_of_length_le (by simp), enough, List.range_add, List.countP_append, beyond]
    at whole
  rw [card, whole, Nat.add_zero]
  exact List.countP_congr fun position _ => by rw [contains_eq_bitAt]

theorem length_toList (bitmap : Bitmap) : bitmap.toList.length = bitmap.card := by
  rw [toList_eq_filter, card_eq_countP, List.countP_eq_length_filter]

theorem card_eq_length {bitmap : Bitmap} {positions : List Nat} (distinct : positions.Nodup)
    (members : ∀ position, position ∈ bitmap ↔ position ∈ positions) :
    bitmap.card = positions.length := by
  have listed : bitmap.toList.Perm positions := by
    refine (List.perm_ext_iff_of_nodup (bitmap.toList_pairwise.imp Nat.ne_of_lt)
      distinct).mpr fun position => ?_
    rw [mem_toList, members]
  rw [← length_toList, listed.length_eq]

theorem card_of_insert {bitmap result : Bitmap} {position : Nat}
    (inserted : bitmap.insert position = .ok result) (absent : position ∉ bitmap) :
    result.card = bitmap.card + 1 := by
  have fresh : position ∉ bitmap.toList := fun member => absent (mem_toList.mp member)
  have distinct : (position :: bitmap.toList).Nodup :=
    List.nodup_cons.mpr ⟨fresh, bitmap.toList_pairwise.imp Nat.ne_of_lt⟩
  rw [← length_toList bitmap, ← List.length_cons]
  apply card_eq_length distinct
  intro other
  change result.contains other = true ↔ _
  rw [contains_of_insert inserted, Bool.or_eq_true, beq_iff_eq, List.mem_cons, mem_toList]
  rfl

end Bitmap

end ResultSets
