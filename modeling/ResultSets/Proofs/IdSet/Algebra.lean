import ResultSets.IdSet.Algebra
import ResultSets.Proofs.IdSet.Forms

namespace ResultSets.IdSet

/-! Intersection, union and difference, for operands in any forms. The results are well
formed and have the members that the operation is named for, so it makes no difference in
which forms the operands come. -/

variable {left right set : IdSet}

/-! ## Bounds

A set fits in a bitmap that has room for its members. A bitmap is taken as a whole there,
anything else id by id. -/

def FitsIn (set : IdSet) (length : Nat) : Prop :=
  match set with
  | .dense bitmap _ => bitmap.length ≤ length
  | set => ∀ id ∈ set.toList, id.toNat < length

theorem lt_bound (wellFormed : set.WellFormed) {id : DocumentId} (member : id ∈ set) :
    id.toNat < set.bound := by
  cases set with
  | empty => exact absurd member (not_mem_empty id)
  | sparse ids =>
      have listed := (mem_sparse wellFormed id).mp member
      rw [bound]
      cases final : ids.back? with
      | none =>
          rw [Array.back?_eq_none_iff.mp final] at listed
          cases listed
      | some last =>
          have least := UInt32.le_iff_toNat_le.mp (Ascending.le_back wellFormed final id listed)
          exact Nat.lt_succ_of_le least
  | dense bitmap size => exact Bitmap.lt_length_of_mem member

theorem fitsIn_of_bound_le (wellFormed : set.WellFormed) {length : Nat}
    (enough : set.bound ≤ length) : set.FitsIn length := by
  cases set with
  | empty => exact fun id listed => nomatch listed
  | sparse ids =>
      intro id listed
      exact Nat.lt_of_lt_of_le
        (lt_bound wellFormed ((mem_toList wellFormed id).mp listed)) enough
  | dense bitmap size => exact enough

/-! ## Results -/

/-- The set is well formed, its members are the ids that are included, and none of its forms
reaches beyond the bound. -/
structure Comprises (set : IdSet) (bound : Nat) (included : DocumentId → Prop) : Prop where
  wellFormed : set.WellFormed
  mem_iff : ∀ id, id ∈ set ↔ included id
  bound_le : set.bound ≤ bound

section Results

variable {bound : Nat} {included : DocumentId → Prop}

theorem comprises_empty (none : ∀ id, ¬ included id) : IdSet.empty.Comprises bound included where
  wellFormed := trivial
  mem_iff id := iff_of_false (not_mem_empty id) (none id)
  bound_le := Nat.zero_le bound

theorem comprises_copy (wellFormed : set.WellFormed) (members : ∀ id, id ∈ set ↔ included id)
    (least : set.bound ≤ bound) : set.copy.Comprises bound included := by
  cases set with
  | empty => exact ⟨wellFormed, members, least⟩
  | sparse ids => exact ⟨wellFormed, members, least⟩
  | dense bitmap size => exact ⟨wellFormed, members, least⟩

theorem comprises_ofAscending {ids : Array DocumentId} (ascending : Ascending ids.toList)
    (members : ∀ id, id ∈ ids.toList ↔ included id)
    (below : ∀ id, included id → id.toNat < bound) :
    (ofAscending ids).Comprises bound included where
  wellFormed := ofAscending_wellFormed ascending
  mem_iff id := (mem_ofAscending ascending id).trans (members id)
  bound_le := by
    unfold ofAscending
    split
    · exact Nat.zero_le bound
    · rw [IdSet.bound]
      cases final : ids.back? with
      | none => exact Nat.zero_le bound
      | some last =>
          have listed := Array.mem_toList_iff.mpr (Array.mem_of_back? final)
          exact below last ((members last).mp listed)

theorem comprises_filter {ids : Array DocumentId} (ascending : Ascending ids.toList)
    {kept : DocumentId → Bool}
    (members : ∀ id, id ∈ ids.toList ∧ kept id = true ↔ included id)
    (below : ∀ id, included id → id.toNat < bound) :
    (ofAscending (ids.filter kept)).Comprises bound included := by
  apply comprises_ofAscending
  · rw [Array.toList_filter]
    exact ascending.filter kept
  · intro id
    rw [Array.toList_filter, List.mem_filter, members]
  · exact below

theorem comprises_ofBitmap {bitmap : Bitmap} (length : bitmap.length ≤ bound)
    (inside : ∀ position, position ∈ bitmap → position < DocumentId.count)
    (members : ∀ id : DocumentId, id.toNat ∈ bitmap ↔ included id) :
    (ofBitmap bitmap).Comprises bound included := by
  unfold ofBitmap
  split
  · next none =>
      apply comprises_empty
      intro id held
      have listed := Bitmap.mem_toList.mpr ((members id).mpr held)
      rw [← Bitmap.length_toList, List.length_eq_zero_iff] at none
      rw [none] at listed
      cases listed
  · exact ⟨⟨inside, rfl⟩, members, length⟩

theorem Comprises.beq {other : IdSet} {otherBound : Nat} {otherIncluded : DocumentId → Prop}
    (comprises : set.Comprises bound included)
    (otherComprises : other.Comprises otherBound otherIncluded)
    (same : ∀ id, included id ↔ otherIncluded id) : (set == other) = true := by
  apply (beq_iff_mem comprises.wellFormed otherComprises.wellFormed).mpr
  intro id
  rw [comprises.mem_iff, otherComprises.mem_iff, same]

theorem Comprises.toList_eq {ids : List DocumentId} (comprises : set.Comprises bound included)
    (ascending : Ascending ids) (members : ∀ id, included id ↔ id ∈ ids) : set.toList = ids := by
  apply Ascending.eq_of_mem_iff (toList_ascending comprises.wellFormed) ascending
  intro id
  rw [mem_toList comprises.wellFormed, comprises.mem_iff, members]

end Results

/-! ## Intersection -/

theorem inter_comprises (leftWellFormed : left.WellFormed) (rightWellFormed : right.WellFormed) :
    (left.inter right).Comprises left.bound fun id => id ∈ left ∧ id ∈ right := by
  have below : ∀ id, id ∈ left ∧ id ∈ right → id.toNat < left.bound := fun id both =>
    lt_bound leftWellFormed both.1
  cases left with
  | empty => exact comprises_empty fun id both => not_mem_empty id both.1
  | sparse ids =>
      cases right with
      | empty => exact comprises_empty fun id both => not_mem_empty id both.2
      | sparse others =>
          refine comprises_filter leftWellFormed (fun id => ?_) below
          exact and_congr_left' (mem_sparse leftWellFormed id).symm
      | dense bitmap size =>
          refine comprises_filter leftWellFormed (fun id => ?_) below
          exact and_congr_left' (mem_sparse leftWellFormed id).symm
  | dense bitmap size =>
      cases right with
      | empty => exact comprises_empty fun id both => not_mem_empty id both.2
      | sparse ids =>
          refine comprises_filter rightWellFormed (fun id => ?_) below
          rw [and_comm]
          exact and_congr_right' (mem_sparse rightWellFormed id).symm
      | dense other otherSize =>
          apply comprises_ofBitmap (Nat.le_refl _)
          · intro position member
            exact leftWellFormed.1 position ((Bitmap.mem_inter _ _ position).mp member).1
          · exact fun id => Bitmap.mem_inter _ _ id.toNat

/-! ## Union -/

theorem addTo_eq_ok (wellFormed : set.WellFormed) {target : Bitmap}
    (fits : set.FitsIn target.length) :
    ∃ result, set.addTo target = .ok result ∧ result.length = target.length ∧
      ∀ position, position ∈ result ↔ set.Holds position ∨ position ∈ target := by
  have row : ∀ ids : List DocumentId, (∀ id ∈ ids, id.toNat < target.length) →
      ∃ result, ids.foldlM (fun target id => target.insert id.toNat) target = .ok result ∧
        result.length = target.length ∧
        ∀ position, position ∈ result ↔ position ∈ ids.map UInt32.toNat ∨ position ∈ target := by
    intro ids inside
    rcases Bitmap.foldlM_insert (ids.map UInt32.toNat) target (List.forall_mem_map.mpr inside)
      with ⟨result, inserted, length, _, members⟩
    rw [List.foldlM_map] at inserted
    exact ⟨result, inserted, length, members⟩
  cases set with
  | empty =>
      rcases row [] (by simp) with ⟨result, inserted, length, members⟩
      refine ⟨result, inserted, length, fun position => ?_⟩
      rw [members, holds_iff_mem_toList wellFormed]
      rfl
  | sparse ids =>
      rcases row ids.toList fits with ⟨result, inserted, length, members⟩
      refine ⟨result, inserted, length, fun position => ?_⟩
      rw [members, holds_sparse wellFormed]
  | dense bitmap size =>
      refine ⟨target.union bitmap, rfl, rfl, fun position => ?_⟩
      rw [Bitmap.mem_union_of_length_le fits, holds_dense wellFormed.1, or_comm]

theorem addTo_both_eq_ok (leftWellFormed : left.WellFormed) (rightWellFormed : right.WellFormed) :
    ∃ bitmap, (do
        let withLeft ← left.addTo (Bitmap.blank (max left.bound right.bound))
        let withBoth ← right.addTo withLeft
        return ofBitmap withBoth) = Except.ok (ofBitmap bitmap) ∧
      bitmap.length = max left.bound right.bound ∧
      (ofBitmap bitmap).Comprises (max left.bound right.bound) fun id =>
        id ∈ left ∨ id ∈ right := by
  have fits : left.FitsIn (Bitmap.blank (max left.bound right.bound)).length :=
    fitsIn_of_bound_le leftWellFormed (Nat.le_max_left _ _)
  rcases addTo_eq_ok leftWellFormed fits with ⟨withLeft, leftAdded, leftLength, leftMembers⟩
  have room : max left.bound right.bound = withLeft.length := leftLength.symm
  rcases addTo_eq_ok rightWellFormed
    (fitsIn_of_bound_le rightWellFormed (room ▸ Nat.le_max_right _ _)) with
    ⟨withBoth, rightAdded, rightLength, rightMembers⟩
  have members : ∀ position, position ∈ withBoth ↔
      left.Holds position ∨ right.Holds position := by
    intro position
    rw [rightMembers, leftMembers, or_iff_left (Bitmap.not_mem_blank _ position), or_comm]
  refine ⟨withBoth, by rw [leftAdded]; simp only [bind, Except.bind, rightAdded]; rfl,
    rightLength.trans leftLength, ?_⟩
  apply comprises_ofBitmap (Nat.le_of_eq (rightLength.trans leftLength))
  · intro position member
    rcases (members position).mp member with ⟨id, _, rfl⟩ | ⟨id, _, rfl⟩
    · exact id.toNat_lt
    · exact id.toNat_lt
  · intro id
    rw [members, holds_toNat, holds_toNat]

theorem union_eq_ofBitmap (leftWellFormed : left.WellFormed) (rightWellFormed : right.WellFormed)
    (leftPresent : left ≠ .empty) (rightPresent : right ≠ .empty)
    (packed : ¬ (left.IsSparse ∧ right.IsSparse)) :
    ∃ bitmap, left.union right = .ok (ofBitmap bitmap) ∧
      bitmap.length = max left.bound right.bound ∧
      (ofBitmap bitmap).Comprises (max left.bound right.bound) fun id =>
        id ∈ left ∨ id ∈ right := by
  cases left with
  | empty => exact absurd rfl leftPresent
  | sparse ids =>
      cases right with
      | empty => exact absurd rfl rightPresent
      | sparse others => exact absurd ⟨trivial, trivial⟩ packed
      | dense bitmap size => exact addTo_both_eq_ok leftWellFormed rightWellFormed
  | dense bitmap size =>
      cases right with
      | empty => exact absurd rfl rightPresent
      | sparse ids => exact addTo_both_eq_ok leftWellFormed rightWellFormed
      | dense other otherSize => exact addTo_both_eq_ok leftWellFormed rightWellFormed

theorem union_comprises (leftWellFormed : left.WellFormed) (rightWellFormed : right.WellFormed) :
    ∃ both, left.union right = .ok both ∧
      both.Comprises (max left.bound right.bound) fun id => id ∈ left ∨ id ∈ right := by
  have onePacked : left ≠ .empty → right ≠ .empty → ¬ (left.IsSparse ∧ right.IsSparse) →
      ∃ both, left.union right = .ok both ∧
        both.Comprises (max left.bound right.bound) fun id => id ∈ left ∨ id ∈ right := by
    intro leftPresent rightPresent packed
    rcases union_eq_ofBitmap leftWellFormed rightWellFormed leftPresent rightPresent packed with
      ⟨bitmap, joined, _, comprises⟩
    exact ⟨_, joined, comprises⟩
  cases left with
  | empty =>
      refine ⟨_, rfl, comprises_copy rightWellFormed (fun id => ?_) (Nat.le_max_right _ _)⟩
      exact (or_iff_right (not_mem_empty id)).symm
  | sparse ids =>
      cases right with
      | empty =>
          refine ⟨_, rfl, comprises_copy leftWellFormed (fun id => ?_) (Nat.le_max_left _ _)⟩
          exact (or_iff_left (not_mem_empty id)).symm
      | sparse others =>
          refine ⟨_, rfl, comprises_ofAscending ?_ (fun id => ?_) fun id either => ?_⟩
          · exact Ascending.merge_ascending leftWellFormed rightWellFormed
          · rw [Ascending.mem_merge, mem_sparse leftWellFormed, mem_sparse rightWellFormed]
          · rcases either with member | member
            · exact Nat.lt_of_lt_of_le (lt_bound leftWellFormed member) (Nat.le_max_left _ _)
            · exact Nat.lt_of_lt_of_le (lt_bound rightWellFormed member) (Nat.le_max_right _ _)
      | dense bitmap size => exact onePacked nofun nofun And.right
  | dense bitmap size =>
      cases right with
      | empty =>
          refine ⟨_, rfl, comprises_copy leftWellFormed (fun id => ?_) (Nat.le_max_left _ _)⟩
          exact (or_iff_left (not_mem_empty id)).symm
      | sparse ids => exact onePacked nofun nofun And.left
      | dense other otherSize => exact onePacked nofun nofun And.left

/-! ## Difference -/

theorem diff_comprises (leftWellFormed : left.WellFormed) (rightWellFormed : right.WellFormed) :
    (left.diff right).Comprises left.bound fun id => id ∈ left ∧ id ∉ right := by
  have below : ∀ id, id ∈ left ∧ id ∉ right → id.toNat < left.bound := fun id both =>
    lt_bound leftWellFormed both.1
  have whole : ∀ id, id ∈ left ↔ id ∈ left ∧ id ∉ IdSet.empty := fun id =>
    (and_iff_left (not_mem_empty id)).symm
  have outside : ∀ (other : IdSet) (id : DocumentId), (!other.contains id) = true ↔ id ∉ other :=
    fun other id => by rw [Bool.not_eq_true', ← Bool.not_eq_true]; rfl
  cases left with
  | empty => exact comprises_empty fun id both => not_mem_empty id both.1
  | sparse ids =>
      cases right with
      | empty => exact comprises_copy leftWellFormed whole (Nat.le_refl _)
      | sparse others =>
          refine comprises_filter leftWellFormed (fun id => ?_) below
          exact and_congr (mem_sparse leftWellFormed id).symm (outside _ id)
      | dense bitmap size =>
          refine comprises_filter leftWellFormed (fun id => ?_) below
          exact and_congr (mem_sparse leftWellFormed id).symm (outside _ id)
  | dense bitmap size =>
      cases right with
      | empty => exact comprises_copy leftWellFormed whole (Nat.le_refl _)
      | sparse ids =>
          have removed : ids.foldl (fun rest id => rest.erase id.toNat) bitmap.copy =
              (ids.toList.map UInt32.toNat).foldl Bitmap.erase bitmap.copy := by
            rw [← Array.foldl_toList, List.foldl_map]
          rcases Bitmap.foldl_erase (ids.toList.map UInt32.toNat) bitmap.copy with
            ⟨length, members⟩
          rw [diff, removed]
          apply comprises_ofBitmap (Nat.le_of_eq length)
          · intro position member
            exact leftWellFormed.1 position ((members position).mp member).1
          · intro id
            rw [members, ← holds_sparse rightWellFormed, holds_toNat]
            rfl
      | dense other otherSize =>
          apply comprises_ofBitmap (Nat.le_refl _)
          · intro position member
            exact leftWellFormed.1 position ((Bitmap.mem_diff _ _ position).mp member).1
          · exact fun id => Bitmap.mem_diff _ _ id.toNat

/-! ## All three operations -/

/-- In whatever forms two sets come, their intersection, union and difference are well formed
sets of the members that they are named for. The bitmap of a union is long enough for both
operands, so nothing is set beyond its end and no longer bitmap is joined to it; an
intersection and a difference reach no further than their left operand. A set that is equal to
an operand may take its place: the results are equal as well. -/
theorem algebra_comprises (leftWellFormed : left.WellFormed) (rightWellFormed : right.WellFormed) :
    (left.inter right).Comprises left.bound (fun id => id ∈ left ∧ id ∈ right) ∧
    (left.diff right).Comprises left.bound (fun id => id ∈ left ∧ id ∉ right) ∧
    (∃ both, left.union right = .ok both ∧
      both.Comprises (max left.bound right.bound) (fun id => id ∈ left ∨ id ∈ right) ∧
      left.FitsIn (max left.bound right.bound) ∧ right.FitsIn (max left.bound right.bound)) ∧
    ∀ otherLeft otherRight : IdSet, otherLeft.WellFormed → otherRight.WellFormed →
      (otherLeft == left) = true → (otherRight == right) = true →
        (otherLeft.inter otherRight == left.inter right) = true ∧
        (otherLeft.diff otherRight == left.diff right) = true ∧
        ∃ otherBoth both, otherLeft.union otherRight = .ok otherBoth ∧
          left.union right = .ok both ∧ (otherBoth == both) = true := by
  have inter := inter_comprises leftWellFormed rightWellFormed
  have diff := diff_comprises leftWellFormed rightWellFormed
  rcases union_comprises leftWellFormed rightWellFormed with ⟨both, joined, union⟩
  refine ⟨inter, diff, ⟨both, joined, union,
    fitsIn_of_bound_le leftWellFormed (Nat.le_max_left _ _),
    fitsIn_of_bound_le rightWellFormed (Nat.le_max_right _ _)⟩, ?_⟩
  intro otherLeft otherRight otherLeftWellFormed otherRightWellFormed sameLeft sameRight
  rw [beq_iff_mem otherLeftWellFormed leftWellFormed] at sameLeft
  rw [beq_iff_mem otherRightWellFormed rightWellFormed] at sameRight
  refine ⟨?_, ?_, ?_⟩
  · apply (inter_comprises otherLeftWellFormed otherRightWellFormed).beq inter
    exact fun id => and_congr (sameLeft id) (sameRight id)
  · apply (diff_comprises otherLeftWellFormed otherRightWellFormed).beq diff
    exact fun id => and_congr (sameLeft id) (not_congr (sameRight id))
  · rcases union_comprises otherLeftWellFormed otherRightWellFormed with
      ⟨otherBoth, otherJoined, otherUnion⟩
    refine ⟨otherBoth, both, otherJoined, joined, otherUnion.beq union ?_⟩
    exact fun id => or_congr (sameLeft id) (sameRight id)

theorem algebra_comprises_short :
    ∃ bitmap both, Bitmap.ofPositions 4 [0, 3] = .ok bitmap ∧
      (dense bitmap bitmap.card).union (sparse #[3, 4, 70]) = .ok both ∧
      both.toList = [0, 3, 4, 70] ∧
      ((dense bitmap bitmap.card).diff (sparse #[3, 4, 70])).toList = [0] ∧
      ((dense bitmap bitmap.card).inter (sparse #[3, 4, 70])).toList = [3] := by
  rcases Bitmap.ofPositions_eq_ok 4 [0, 3] (by decide) with ⟨bitmap, built, length, _, members⟩
  have row : (sparse #[3, 4, 70]).WellFormed := by change Ascending _; decide
  have held : ∀ id, id ∈ dense bitmap bitmap.card ↔ id ∈ [(0 : DocumentId), 3] := by
    intro id
    rw [mem_dense, members]
    exact List.mem_map_of_injective (l := [0, 3]) fun _ _ => UInt32.toNat_inj.mp
  rcases algebra_comprises (dense_wellFormed (by rw [length]; decide)) row with
    ⟨inter, diff, ⟨both, joined, union, _⟩, _⟩
  refine ⟨bitmap, both, built, joined, union.toList_eq (by decide) fun id => ?_,
    diff.toList_eq (by decide) fun id => ?_, inter.toList_eq (by decide) fun id => ?_⟩
  · rw [held, mem_sparse row]; grind
  · rw [held, mem_sparse row]; grind
  · rw [held, mem_sparse row]; grind

end ResultSets.IdSet
