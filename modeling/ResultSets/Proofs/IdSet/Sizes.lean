import ResultSets.Proofs.IdSet.Algebra

namespace ResultSets

/-! The sizes of results. Each result knows its own size, and the members that two sets share can
be counted without making a set of them. That count agrees with the sizes of the intersection,
the union and the difference, whatever forms the sets have. -/

/-! ## Counting shared members

Counting takes the ways of the intersection, but makes no set. Rows of words are compared as far
as the shorter one goes; beyond it nothing is shared. -/

theorem total_count_zipWith (left right : List Word) :
    total (List.zipWith (fun word other => Word.count (word &&& other)) left right) =
      total ((left.mapIdx fun index word => word &&& right.getD index 0).map Word.count) := by
  induction left generalizing right with
  | nil => rfl
  | cons word left induction =>
      rw [List.mapIdx_cons, List.map_cons]
      cases right with
      | nil =>
          have nothing := induction []
          rw [List.zipWith_nil_right] at nothing
          have clear : Word.count (word &&& 0) = 0 := by simp [Word.count]
          change 0 = Word.count (word &&& 0) + total _
          rw [clear, Nat.zero_add]
          exact nothing
      | cons other right =>
          change Word.count (word &&& other) + total _ = Word.count (word &&& other) + total _
          rw [induction right]
          rfl

theorem Bitmap.interCard_eq_card (left right : Bitmap) :
    left.interCard right = (left.inter right).card := by
  have words : (left.inter right).words.toList =
      left.words.toList.mapIdx fun index word => word &&& right.words.toList.getD index 0 := by
    change (left.words.mapIdx fun index word => word &&& right.words.getD index 0).toList = _
    rw [Array.toList_mapIdx]
    simp only [Array.getD_eq_getD_getElem?, List.getD_eq_getElem?_getD, Array.getElem?_toList]
  rw [interCard, card, words]
  exact total_count_zipWith left.words.toList right.words.toList

namespace IdSet

@[simp] theorem size_ofAscending (ids : Array DocumentId) : (ofAscending ids).size = ids.size := by
  unfold ofAscending
  split
  · next none => exact (Array.isEmpty_iff_size_eq_zero.mp none).symm
  · rfl

@[simp] theorem size_ofBitmap (bitmap : Bitmap) : (ofBitmap bitmap).size = bitmap.card := by
  unfold ofBitmap
  split
  · next none => exact none.symm
  · rfl

variable {left right set : IdSet}

theorem interSize_eq_size (left right : IdSet) :
    left.interSize right = (left.inter right).size := by
  cases left with
  | empty => rfl
  | sparse ids =>
      cases right with
      | empty => rfl
      | sparse others => exact (size_ofAscending _).symm
      | dense bitmap size => exact (size_ofAscending _).symm
  | dense bitmap size =>
      cases right with
      | empty => rfl
      | sparse ids => exact (size_ofAscending _).symm
      | dense other otherSize =>
          rw [inter, size_ofBitmap]
          exact bitmap.interCard_eq_card other

/-! ## The members as a finite set -/

def toFinset (set : IdSet) : Finset DocumentId := set.toList.toFinset

theorem mem_toFinset (wellFormed : set.WellFormed) (id : DocumentId) :
    id ∈ set.toFinset ↔ id ∈ set := by
  rw [toFinset, List.mem_toFinset, mem_toList wellFormed]

theorem card_toFinset (wellFormed : set.WellFormed) : set.toFinset.card = set.size := by
  have nodup : set.toList.Nodup := (toList_ascending wellFormed).nodup
  rw [toFinset, List.toFinset_card_of_nodup nodup, length_toList wellFormed]

theorem Comprises.size_eq_card {bound : Nat} {included : DocumentId → Prop}
    (comprises : set.Comprises bound included) {members : Finset DocumentId}
    (same : ∀ id, id ∈ members ↔ included id) : set.size = members.card := by
  rw [← card_toFinset comprises.wellFormed]
  congr 1
  ext id
  rw [mem_toFinset comprises.wellFormed, comprises.mem_iff, same]

/-! ## Sizes of results -/

section Results

variable (leftWellFormed : left.WellFormed) (rightWellFormed : right.WellFormed)

include leftWellFormed rightWellFormed

theorem size_inter : (left.inter right).size = (left.toFinset ∩ right.toFinset).card := by
  apply (inter_comprises leftWellFormed rightWellFormed).size_eq_card
  intro id
  rw [Finset.mem_inter, mem_toFinset leftWellFormed, mem_toFinset rightWellFormed]

theorem size_diff : (left.diff right).size = (left.toFinset \ right.toFinset).card := by
  apply (diff_comprises leftWellFormed rightWellFormed).size_eq_card
  intro id
  rw [Finset.mem_sdiff, mem_toFinset leftWellFormed, mem_toFinset rightWellFormed]

theorem size_union {both : IdSet} (joined : left.union right = .ok both) :
    both.size = (left.toFinset ∪ right.toFinset).card := by
  rcases union_comprises leftWellFormed rightWellFormed with ⟨other, otherJoined, comprises⟩
  cases joined.symm.trans otherJoined
  apply comprises.size_eq_card
  intro id
  rw [Finset.mem_union, mem_toFinset leftWellFormed, mem_toFinset rightWellFormed]

/-- The members that two sets share can be counted from either side, and are as many as the
intersection has. A union has that many fewer than its operands have together, and a difference
that many fewer than its left operand. All of these are the sizes that the sets carry. -/
theorem sizes_balance :
    left.interSize right = right.interSize left ∧
    left.interSize right = (left.inter right).size ∧
    (∃ both, left.union right = .ok both ∧
      both.size + left.interSize right = left.size + right.size) ∧
    (left.diff right).size + left.interSize right = left.size := by
  have shared : left.interSize right = (left.toFinset ∩ right.toFinset).card :=
    (interSize_eq_size left right).trans (size_inter leftWellFormed rightWellFormed)
  refine ⟨?_, interSize_eq_size left right, ?_, ?_⟩
  · rw [shared, interSize_eq_size right left, size_inter rightWellFormed leftWellFormed,
      Finset.inter_comm]
  · rcases union_comprises leftWellFormed rightWellFormed with ⟨both, joined, _⟩
    refine ⟨both, joined, ?_⟩
    rw [size_union leftWellFormed rightWellFormed joined, shared, ← card_toFinset leftWellFormed,
      ← card_toFinset rightWellFormed]
    exact Finset.card_union_add_card_inter _ _
  · rw [size_diff leftWellFormed rightWellFormed, shared, ← card_toFinset leftWellFormed]
    exact Finset.card_sdiff_add_card_inter _ _

end Results

theorem sizes_balance_unequal :
    ∃ long short both, Bitmap.ofPositions 70 [3, 64, 69] = .ok long ∧
      Bitmap.ofPositions 4 [0, 3] = .ok short ∧
      (dense long long.card).union (dense short short.card) = .ok both ∧
      both.size = 4 ∧ ((dense long long.card).diff (dense short short.card)).size = 2 ∧
      ((dense short short.card).inter (dense long long.card)).size = 1 := by
  rcases Bitmap.ofPositions_eq_ok 70 [3, 64, 69] (by decide) with
    ⟨long, longBuilt, longLength, _, longMembers⟩
  rcases Bitmap.ofPositions_eq_ok 4 [0, 3] (by decide) with
    ⟨short, shortBuilt, shortLength, _, shortMembers⟩
  have longCard : long.card = 3 := Bitmap.card_eq_length (by decide) longMembers
  have shortCard : short.card = 2 := Bitmap.card_eq_length (by decide) shortMembers
  have counted : (do
      let long ← Bitmap.ofPositions 70 [3, 64, 69]
      let short ← Bitmap.ofPositions 4 [0, 3]
      return long.interCard short).toOption = some 1 := by decide +kernel
  rw [longBuilt, shortBuilt] at counted
  have shared : (dense long long.card).interSize (dense short short.card) = 1 :=
    Option.some.inj counted
  have longWellFormed : (dense long long.card).WellFormed :=
    dense_wellFormed (by rw [longLength]; decide)
  have shortWellFormed : (dense short short.card).WellFormed :=
    dense_wellFormed (by rw [shortLength]; decide)
  rcases sizes_balance longWellFormed shortWellFormed with
    ⟨symmetric, _, ⟨both, joined, union⟩, diff⟩
  have longSize : (dense long long.card).size = 3 := longCard
  have shortSize : (dense short short.card).size = 2 := shortCard
  refine ⟨long, short, both, longBuilt, shortBuilt, joined, by omega, by omega, ?_⟩
  rw [← interSize_eq_size, ← symmetric, shared]

end IdSet

end ResultSets
