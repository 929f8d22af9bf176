import ResultSets.Proofs.IdSet.Algebra

namespace ResultSets.IdSet

/-! The forms of results. An operation that makes a new set collapses it to the empty form if it
has no members, and otherwise chooses the form by the forms of the operands. An operand that is
handed on because the other one has the empty form stays as it is, also if it has no members. -/

def Hollow (set : IdSet) : Prop := (∀ id, id ∉ set) ∧ set ≠ .empty

variable {left right set both : IdSet}

/-! ## Sets without members -/

theorem size_eq_zero_iff (wellFormed : set.WellFormed) : set.size = 0 ↔ ∀ id, id ∉ set := by
  rw [← length_toList wellFormed, List.length_eq_zero_iff, List.eq_nil_iff_forall_not_mem]
  exact forall_congr' fun id => not_congr (mem_toList wellFormed id)

theorem size_ne_zero_of_mem (wellFormed : set.WellFormed) (some : ∃ id, id ∈ set) :
    set.size ≠ 0 := by
  intro none
  rcases some with ⟨id, member⟩
  exact (size_eq_zero_iff wellFormed).mp none id member

theorem not_hollow_of_collapse (wellFormed : set.WellFormed)
    (collapse : set.size = 0 → set = .empty) : ¬ set.Hollow := fun hollow =>
  hollow.2 (collapse ((size_eq_zero_iff wellFormed).mpr hollow.1))

theorem hollow_copy : set.copy.Hollow ↔ set.Hollow := by
  cases set with
  | empty => exact Iff.rfl
  | sparse ids => exact Iff.rfl
  | dense bitmap size => exact and_congr Iff.rfl (iff_of_true nofun nofun)

/-! ## Sets that are made -/

theorem ofAscending_eq_empty {ids : Array DocumentId} (none : (ofAscending ids).size = 0) :
    ofAscending ids = .empty := by
  unfold ofAscending at none ⊢
  split at none
  · next nothing => exact if_pos nothing
  · next some => exact absurd (Array.isEmpty_iff_size_eq_zero.mpr none) some

theorem ofBitmap_eq_empty {bitmap : Bitmap} (none : (ofBitmap bitmap).size = 0) :
    ofBitmap bitmap = .empty := by
  unfold ofBitmap at none ⊢
  split at none
  · next nothing => exact if_pos nothing
  · next some => exact absurd none some

theorem ofBitmap_isDense {bitmap : Bitmap} (some : (ofBitmap bitmap).size ≠ 0) :
    (ofBitmap bitmap).IsDense bitmap.length := by
  unfold ofBitmap at some ⊢
  split at some
  · exact absurd rfl some
  · next present =>
      rw [if_neg present]
      rfl

/-! ## Intersection -/

theorem inter_eq_empty (none : (left.inter right).size = 0) : left.inter right = .empty := by
  cases left with
  | empty => rfl
  | sparse ids =>
      cases right with
      | empty => rfl
      | sparse others => exact ofAscending_eq_empty none
      | dense bitmap size => exact ofAscending_eq_empty none
  | dense bitmap size =>
      cases right with
      | empty => rfl
      | sparse ids => exact ofAscending_eq_empty none
      | dense other otherSize => exact ofBitmap_eq_empty none

theorem inter_isSparse (some : (left.inter right).size ≠ 0)
    (either : left.IsSparse ∨ right.IsSparse) : (left.inter right).IsSparse := by
  cases left with
  | empty => exact absurd rfl some
  | sparse ids =>
      cases right with
      | empty => exact absurd rfl some
      | sparse others => exact ofAscending_isSparse some
      | dense bitmap size => exact ofAscending_isSparse some
  | dense bitmap size =>
      cases right with
      | empty => exact absurd rfl some
      | sparse ids => exact ofAscending_isSparse some
      | dense other otherSize => exact either.elim False.elim False.elim

theorem inter_isDense {length otherLength : Nat} (some : (left.inter right).size ≠ 0)
    (leftDense : left.IsDense length) (rightDense : right.IsDense otherLength) :
    (left.inter right).IsDense length := by
  cases left with
  | empty => exact leftDense.elim
  | sparse ids => exact leftDense.elim
  | dense bitmap size =>
      cases right with
      | empty => exact rightDense.elim
      | sparse ids => exact rightDense.elim
      | dense other otherSize =>
          cases leftDense
          exact ofBitmap_isDense some

/-! ## Difference -/

theorem diff_empty (set : IdSet) : set.diff .empty = set.copy := by
  cases set with
  | empty => rfl
  | sparse ids => rfl
  | dense bitmap size => rfl

theorem diff_eq_empty (present : right ≠ .empty) (none : (left.diff right).size = 0) :
    left.diff right = .empty := by
  cases right with
  | empty => exact absurd rfl present
  | sparse others =>
      cases left with
      | empty => rfl
      | sparse ids => exact ofAscending_eq_empty none
      | dense bitmap size => exact ofBitmap_eq_empty none
  | dense other otherSize =>
      cases left with
      | empty => rfl
      | sparse ids => exact ofAscending_eq_empty none
      | dense bitmap size => exact ofBitmap_eq_empty none

theorem diff_isSparse (some : (left.diff right).size ≠ 0) (leftSparse : left.IsSparse) :
    (left.diff right).IsSparse := by
  cases left with
  | empty => exact leftSparse.elim
  | sparse ids =>
      cases right with
      | empty => exact leftSparse
      | sparse others => exact ofAscending_isSparse some
      | dense bitmap size => exact ofAscending_isSparse some
  | dense bitmap size => exact leftSparse.elim

theorem diff_isDense {length : Nat} (some : (left.diff right).size ≠ 0)
    (leftDense : left.IsDense length) : (left.diff right).IsDense length := by
  cases left with
  | empty => exact leftDense.elim
  | sparse ids => exact leftDense.elim
  | dense bitmap size =>
      cases leftDense
      cases right with
      | empty => rfl
      | sparse ids =>
          have kept : (ids.foldl (fun rest id => rest.erase id.toNat) bitmap.copy).length =
              bitmap.length := by
            rw [← Array.foldl_toList, ← List.foldl_map]
            exact (Bitmap.foldl_erase (ids.toList.map UInt32.toNat) bitmap.copy).1
          rw [← kept]
          exact ofBitmap_isDense some
      | dense other otherSize => exact ofBitmap_isDense some

/-! ## Union -/

theorem union_empty (set : IdSet) : set.union .empty = .ok set.copy := by
  cases set with
  | empty => rfl
  | sparse ids => rfl
  | dense bitmap size => rfl

theorem union_sparse (leftSparse : left.IsSparse) (rightSparse : right.IsSparse) :
    ∃ ids, left.union right = .ok (ofAscending ids) := by
  cases left with
  | empty => exact leftSparse.elim
  | sparse ids =>
      cases right with
      | empty => exact rightSparse.elim
      | sparse others => exact ⟨_, rfl⟩
      | dense bitmap size => exact rightSparse.elim
  | dense bitmap size => exact leftSparse.elim

theorem IsDense.ne_empty {length : Nat} (dense : set.IsDense length) : set ≠ .empty := by
  intro empty
  subst empty
  exact dense

section Union

variable (leftWellFormed : left.WellFormed) (rightWellFormed : right.WellFormed)
  (joined : left.union right = .ok both)

include leftWellFormed rightWellFormed joined

theorem union_eq_empty (leftPresent : left ≠ .empty) (rightPresent : right ≠ .empty)
    (none : both.size = 0) : both = .empty := by
  by_cases sparse : left.IsSparse ∧ right.IsSparse
  · rcases union_sparse sparse.1 sparse.2 with ⟨ids, merged⟩
    cases joined.symm.trans merged
    exact ofAscending_eq_empty none
  · rcases union_eq_ofBitmap leftWellFormed rightWellFormed leftPresent rightPresent sparse with
      ⟨bitmap, packed, _⟩
    cases joined.symm.trans packed
    exact ofBitmap_eq_empty none

theorem union_isDense (leftPresent : left ≠ .empty) (rightPresent : right ≠ .empty)
    (packed : ¬ (left.IsSparse ∧ right.IsSparse)) (some : both.size ≠ 0) :
    both.IsDense (max left.bound right.bound) := by
  rcases union_eq_ofBitmap leftWellFormed rightWellFormed leftPresent rightPresent packed with
    ⟨bitmap, made, length, _⟩
  cases joined.symm.trans made
  rw [← length]
  exact ofBitmap_isDense some

theorem union_hollow_iff :
    both.Hollow ↔ left = .empty ∧ right.Hollow ∨ right = .empty ∧ left.Hollow := by
  rcases union_comprises leftWellFormed rightWellFormed with ⟨other, otherJoined, comprises⟩
  cases joined.symm.trans otherJoined
  by_cases leftEmpty : left = .empty
  · subst leftEmpty
    cases joined
    rw [hollow_copy]
    constructor
    · exact fun hollow => .inl ⟨rfl, hollow⟩
    · intro either
      rcases either with ⟨_, hollow⟩ | ⟨_, hollow⟩
      · exact hollow
      · exact absurd rfl hollow.2
  · by_cases rightEmpty : right = .empty
    · subst rightEmpty
      cases joined.symm.trans (union_empty left)
      rw [hollow_copy]
      constructor
      · exact fun hollow => .inr ⟨rfl, hollow⟩
      · intro either
        rcases either with ⟨empty, _⟩ | ⟨_, hollow⟩
        · exact absurd empty leftEmpty
        · exact hollow
    · apply iff_of_false
      · exact not_hollow_of_collapse comprises.wellFormed
          (union_eq_empty leftWellFormed rightWellFormed joined leftEmpty rightEmpty)
      · exact not_or.mpr ⟨fun both => leftEmpty both.1, fun both => rightEmpty both.1⟩

end Union

theorem diff_hollow_iff (leftWellFormed : left.WellFormed) (rightWellFormed : right.WellFormed) :
    (left.diff right).Hollow ↔ right = .empty ∧ left.Hollow := by
  by_cases rightEmpty : right = .empty
  · subst rightEmpty
    rw [diff_empty, hollow_copy]
    exact (and_iff_right rfl).symm
  · apply iff_of_false
    · exact not_hollow_of_collapse (diff_comprises leftWellFormed rightWellFormed).wellFormed
        (diff_eq_empty rightEmpty)
    · exact fun both => rightEmpty both.1

/-! ## All three operations -/

/-- A result without members has the empty form, unless it is a union with the empty form, or a
difference from which the empty form is taken, and the other operand has another form without
having members. A result with members has a form that its operands decide: an intersection is
sparse if either operand is, a union only if both are, and a difference has the form of its left
operand. -/
theorem results_collapse (leftWellFormed : left.WellFormed) (rightWellFormed : right.WellFormed) :
    ¬ (left.inter right).Hollow ∧
    ((left.diff right).Hollow ↔ right = .empty ∧ left.Hollow) ∧
    ((∃ id, id ∈ left.inter right) →
      (left.IsSparse ∨ right.IsSparse → (left.inter right).IsSparse) ∧
      ∀ length otherLength, left.IsDense length → right.IsDense otherLength →
        (left.inter right).IsDense length) ∧
    ((∃ id, id ∈ left.diff right) →
      (left.IsSparse → (left.diff right).IsSparse) ∧
      ∀ length, left.IsDense length → (left.diff right).IsDense length) ∧
    ∃ both, left.union right = .ok both ∧
      (both.Hollow ↔ left = .empty ∧ right.Hollow ∨ right = .empty ∧ left.Hollow) ∧
      ((∃ id, id ∈ both) →
        (left.IsSparse → right.IsSparse → both.IsSparse) ∧
        ∀ length, left.IsDense length ∧ right ≠ .empty ∨ left ≠ .empty ∧ right.IsDense length →
          both.IsDense (max left.bound right.bound)) := by
  have interWellFormed := (inter_comprises leftWellFormed rightWellFormed).wellFormed
  have diffWellFormed := (diff_comprises leftWellFormed rightWellFormed).wellFormed
  refine ⟨not_hollow_of_collapse interWellFormed inter_eq_empty,
    diff_hollow_iff leftWellFormed rightWellFormed, fun some => ?_, fun some => ?_, ?_⟩
  · have present := size_ne_zero_of_mem interWellFormed some
    exact ⟨inter_isSparse present, fun length otherLength => inter_isDense present⟩
  · have present := size_ne_zero_of_mem diffWellFormed some
    exact ⟨diff_isSparse present, fun length => diff_isDense present⟩
  · rcases union_comprises leftWellFormed rightWellFormed with ⟨both, joined, comprises⟩
    refine ⟨both, joined, union_hollow_iff leftWellFormed rightWellFormed joined, fun some => ?_⟩
    have present := size_ne_zero_of_mem comprises.wellFormed some
    constructor
    · intro leftSparse rightSparse
      rcases union_sparse leftSparse rightSparse with ⟨ids, merged⟩
      cases joined.symm.trans merged
      exact ofAscending_isSparse present
    · intro length dense
      rcases dense with ⟨leftDense, rightPresent⟩ | ⟨leftPresent, rightDense⟩
      · exact union_isDense leftWellFormed rightWellFormed joined leftDense.ne_empty rightPresent
          (fun sparse => sparse.1.not_isDense length leftDense) present
      · exact union_isDense leftWellFormed rightWellFormed joined leftPresent rightDense.ne_empty
          (fun sparse => sparse.2.not_isDense length rightDense) present

theorem results_collapse_mixed :
    ∃ bitmap both, Bitmap.ofPositions 8 [5, 7] = .ok bitmap ∧
      (sparse #[1, 5]).union (dense bitmap bitmap.card) = .ok both ∧ both.IsDense 8 ∧
      ((sparse #[1, 5]).inter (dense bitmap bitmap.card)).IsSparse ∧
      ((dense bitmap bitmap.card).diff (sparse #[1, 5])).IsDense 8 := by
  rcases Bitmap.ofPositions_eq_ok 8 [5, 7] (by decide) with ⟨bitmap, built, length, _, members⟩
  have row : (sparse #[1, 5]).WellFormed := by change Ascending [1, 5]; decide
  have packed : (dense bitmap bitmap.card).WellFormed :=
    dense_wellFormed (by rw [length]; decide)
  have five : (5 : DocumentId) ∈ sparse #[1, 5] ∧ (5 : DocumentId) ∈ dense bitmap bitmap.card :=
    ⟨by decide +kernel, (members 5).mpr (by decide)⟩
  have seven : (7 : DocumentId) ∈ dense bitmap bitmap.card ∧ (7 : DocumentId) ∉ sparse #[1, 5] :=
    ⟨(members 7).mpr (by decide), by decide +kernel⟩
  have longest : max (sparse #[1, 5]).bound (dense bitmap bitmap.card).bound = 8 := by
    change max 6 bitmap.length = 8
    rw [length]
    rfl
  rcases results_collapse row packed with ⟨_, _, inter, _, both, joined, _, union⟩
  rcases results_collapse packed row with ⟨_, _, _, diff, _⟩
  rcases union_comprises row packed with ⟨other, otherJoined, comprises⟩
  cases joined.symm.trans otherJoined
  refine ⟨bitmap, both, built, joined, ?_, ?_, ?_⟩
  · rw [← longest]
    exact (union ⟨5, (comprises.mem_iff 5).mpr (.inl five.1)⟩).2 8 (.inr ⟨nofun, length⟩)
  · exact (inter ⟨5, ((inter_comprises row packed).mem_iff 5).mpr five⟩).1 (.inl trivial)
  · exact (diff ⟨7, ((diff_comprises packed row).mem_iff 7).mpr seven⟩).2 8 length

/-- The empty form is joined with a row of no ids, and the row is handed on. -/
theorem not_forall_union_eq_empty :
    ¬ ∀ left right both : IdSet, left.WellFormed → right.WellFormed →
      left.union right = .ok both → (∀ id, id ∉ both) → both = .empty := by
  intro all
  have row : (sparse #[]).WellFormed := List.Pairwise.nil
  have none : ∀ id, id ∉ sparse #[] := (size_eq_zero_iff row).mp rfl
  have collapsed := all .empty (sparse #[]) (sparse #[]) trivial row rfl none
  cases collapsed

end ResultSets.IdSet
