import Mathlib.Data.List.Sort
import ResultSets.IdSet.Ascending

namespace ResultSets

/-! Rows of ids in ascending order: what the binary search finds in them, and what the
operations that build them keep. -/

namespace Ascending

/-! ## Order -/

theorem eq_of_mem_iff {ids others : List DocumentId} (ascending : Ascending ids)
    (othersAscending : Ascending others) (same : ∀ id, id ∈ ids ↔ id ∈ others) :
    ids = others := by
  have perm : ids.Perm others :=
    (List.perm_ext_iff_of_nodup (ascending.imp UInt32.ne_of_lt)
      (othersAscending.imp UInt32.ne_of_lt)).mpr same
  exact perm.eq_of_pairwise
    (fun _ _ _ _ less more => absurd more (UInt32.lt_asymm less)) ascending othersAscending

theorem nodup {ids : List DocumentId} (ascending : Ascending ids) : ids.Nodup :=
  ascending.imp UInt32.ne_of_lt

theorem nodup_toNat {ids : List DocumentId} (ascending : Ascending ids) :
    (ids.map UInt32.toNat).Nodup :=
  (nodup ascending).map fun _ _ => UInt32.toNat_inj.mp

theorem filter_lt {below above : List DocumentId} {middle : DocumentId}
    (ascending : Ascending (below ++ middle :: above)) :
    (below ++ middle :: above).filter (· < middle) = below := by
  rcases List.pairwise_append.mp ascending with ⟨_, rest, before⟩
  have after := (List.pairwise_cons.mp rest).1
  have none : (middle :: above).filter (· < middle) = [] := by
    rw [List.filter_eq_nil_iff, List.forall_mem_cons]
    refine ⟨by simp, fun id member => ?_⟩
    simpa using UInt32.le_of_lt (after id member)
  have all : below.filter (· < middle) = below :=
    List.filter_eq_self.mpr fun id member => by simpa using before id member middle (.head _)
  rw [List.filter_append, none, all, List.append_nil]

theorem lt_getElem {ids : Array DocumentId} (ascending : Ascending ids.toList)
    {first second : Nat} (inside : second < ids.size) (before : first < second) :
    ids[first] < ids[second] :=
  List.pairwise_iff_getElem.mp ascending first second (by simpa using by omega)
    (by simpa using inside) before

theorem le_back {ids : Array DocumentId} (ascending : Ascending ids.toList)
    {last : DocumentId} (final : ids.back? = some last) : ∀ id ∈ ids.toList, id ≤ last := by
  intro id member
  rcases List.getElem_of_mem member with ⟨index, inside, rfl⟩
  have held : index < ids.size := by simpa using inside
  have nonempty : ids.size - 1 < ids.size := by omega
  rw [Array.back?, Array.getElem?_eq_getElem nonempty, Option.some.injEq] at final
  subst final
  by_cases same : index = ids.size - 1
  · simp [same]
  · simpa using UInt32.le_of_lt (lt_getElem ascending nonempty (by omega))

theorem push {ids : Array DocumentId} (ascending : Ascending ids.toList) {id : DocumentId}
    (above : ∀ last, ids.back? = some last → last < id) : Ascending (ids.push id).toList := by
  rw [Array.toList_push]
  refine List.pairwise_append.mpr ⟨ascending, List.pairwise_singleton _ _, ?_⟩
  intro other member new equal
  rw [List.mem_singleton.mp equal]
  cases final : ids.back? with
  | none =>
      rw [Array.back?_eq_none_iff.mp final] at member
      cases member
  | some last =>
      exact UInt32.lt_of_le_of_lt (le_back ascending final other member) (above last final)

/-! ## Binary search -/

private theorem lowerBoundIn_spec {ids : Array DocumentId} {id : DocumentId}
    (ascending : Ascending ids.toList) {low high : Nat} (ordered : low ≤ high)
    (inside : high ≤ ids.size)
    (below : ∀ index (held : index < ids.size), index < low → ids[index] < id)
    (above : ∀ index (held : index < ids.size), high ≤ index → id ≤ ids[index]) :
    (∀ index (held : index < ids.size), index < lowerBoundIn ids id low high →
        ids[index] < id) ∧
      ∀ index (held : index < ids.size), lowerBoundIn ids id low high ≤ index →
        id ≤ ids[index] := by
  -- `below` and `above` are the invariant: what lies before `low` is less, and what lies from
  -- `high` on is not.
  fun_induction lowerBoundIn ids id low high with
  | case1 low high nonempty middle less induction =>
      have held : middle < ids.size := by omega
      rw [Array.getD_eq_getD_getElem?, Array.getElem?_eq_getElem held, Option.getD_some]
        at less
      apply induction (by omega) inside _ above
      intro index heldIndex early
      by_cases equal : index = middle
      · simpa only [equal] using less
      · exact UInt32.lt_trans (lt_getElem ascending held (by omega)) less
  | case2 low high nonempty middle notLess induction =>
      have held : middle < ids.size := by omega
      rw [Array.getD_eq_getD_getElem?, Array.getElem?_eq_getElem held, Option.getD_some]
        at notLess
      apply induction (by omega) (by omega) below
      intro index heldIndex late
      by_cases equal : index = middle
      · simpa only [equal] using UInt32.not_lt.mp notLess
      · exact UInt32.le_trans (UInt32.not_lt.mp notLess)
          (UInt32.le_of_lt (lt_getElem ascending heldIndex (by omega)))
  | case3 low high empty =>
      have equal : low = high := by omega
      subst equal
      exact ⟨below, above⟩

theorem lt_of_lt_lowerBound {ids : Array DocumentId} {id : DocumentId}
    (ascending : Ascending ids.toList) {index : Nat} (held : index < ids.size)
    (early : index < lowerBound ids id) : ids[index] < id :=
  (lowerBoundIn_spec ascending (Nat.zero_le _) (Nat.le_refl _) (fun _ _ early => by omega)
    (fun _ _ late => by omega)).1 index held early

theorem le_of_lowerBound_le {ids : Array DocumentId} {id : DocumentId}
    (ascending : Ascending ids.toList) {index : Nat} (held : index < ids.size)
    (late : lowerBound ids id ≤ index) : id ≤ ids[index] :=
  (lowerBoundIn_spec ascending (Nat.zero_le _) (Nat.le_refl _) (fun _ _ early => by omega)
    (fun _ _ late => by omega)).2 index held late

theorem contains_iff_mem {ids : Array DocumentId} (ascending : Ascending ids.toList)
    (id : DocumentId) : contains ids id = true ↔ id ∈ ids.toList := by
  rw [contains, beq_iff_eq]
  constructor
  · intro found
    exact Array.mem_toList_iff.mpr (Array.mem_of_getElem? found)
  · intro member
    rcases List.getElem_of_mem member with ⟨index, inside, equal⟩
    have held : index < ids.size := by simpa using inside
    have here : ids[index] = id := by simpa using equal
    have first : lowerBound ids id = index := by
      apply Nat.le_antisymm
      · apply Nat.le_of_not_lt
        intro early
        have less := lt_of_lt_lowerBound ascending held early
        rw [here] at less
        exact UInt32.lt_irrefl id less
      · apply Nat.le_of_not_lt
        intro late
        have inside : lowerBound ids id < ids.size := by omega
        have more : id ≤ ids[lowerBound ids id] :=
          le_of_lowerBound_le ascending inside (Nat.le_refl _)
        have less := lt_getElem ascending held late
        rw [here] at less
        exact UInt32.not_le.mpr less more
    rw [first, Array.getElem?_eq_getElem held, here]

theorem mem_drop_lowerBound {ids : Array DocumentId} (ascending : Ascending ids.toList)
    (start id : DocumentId) :
    id ∈ ids.toList.drop (lowerBound ids start) ↔ id ∈ ids.toList ∧ start ≤ id := by
  rw [List.mem_iff_getElem, List.mem_iff_getElem]
  constructor
  · rintro ⟨offset, inside, rfl⟩
    rw [List.length_drop, Array.length_toList] at inside
    refine ⟨⟨lowerBound ids start + offset, by simpa using by omega, by simp⟩, ?_⟩
    simpa using le_of_lowerBound_le ascending (by omega) (Nat.le_add_right _ offset)
  · rintro ⟨⟨index, inside, rfl⟩, late⟩
    rw [Array.length_toList] at inside
    have after : lowerBound ids start ≤ index := by
      apply Nat.le_of_not_lt
      intro early
      exact UInt32.not_le.mpr (lt_of_lt_lowerBound ascending inside early)
        (by simpa using late)
    have place : lowerBound ids start + (index - lowerBound ids start) = index := by omega
    exact ⟨index - lowerBound ids start, by simpa using by omega, by simp [place]⟩

theorem mem_takeWhile_lt {row : List DocumentId} (ascending : Ascending row) (stop : Nat)
    (id : DocumentId) : id ∈ row.takeWhile (·.toNat < stop) ↔ id ∈ row ∧ id.toNat < stop := by
  induction row with
  | nil => simp
  | cons head tail induction =>
      have parts := List.pairwise_cons.mp ascending
      by_cases inside : head.toNat < stop
      · rw [List.takeWhile_cons, if_pos (by simpa using inside), List.mem_cons,
          List.mem_cons, induction parts.2]
        constructor
        · rintro (rfl | ⟨member, below⟩)
          · exact ⟨.inl rfl, inside⟩
          · exact ⟨.inr member, below⟩
        · rintro ⟨rfl | member, below⟩
          · exact .inl rfl
          · exact .inr ⟨member, below⟩
      · rw [List.takeWhile_cons, if_neg (by simpa using inside)]
        constructor
        · intro member
          cases member
        · rintro ⟨member, below⟩
          rcases List.mem_cons.mp member with rfl | member
          · exact absurd below inside
          · have := UInt32.lt_iff_toNat_lt.mp (parts.1 id member)
            omega

theorem mem_takeWhile_drop {ids : Array DocumentId} (ascending : Ascending ids.toList)
    (start : DocumentId) (stop : Nat) (id : DocumentId) :
    id ∈ (ids.toList.drop (lowerBound ids start)).takeWhile (·.toNat < stop) ↔
      id ∈ ids.toList ∧ start ≤ id ∧ id.toNat < stop := by
  rw [mem_takeWhile_lt (List.Pairwise.drop ascending), mem_drop_lowerBound ascending, and_assoc]

/-! ## Inserting -/

theorem mem_insert {ids : Array DocumentId} (ascending : Ascending ids.toList)
    (id other : DocumentId) :
    other ∈ (insert ids id).toList ↔ other = id ∨ other ∈ ids.toList := by
  unfold insert
  split
  · next present =>
      constructor
      · exact .inr
      · rintro (rfl | member)
        · exact (contains_iff_mem ascending other).mp present
        · exact member
  · rw [Array.mem_toList_iff, Array.mem_insertIdx, Array.mem_toList_iff]

theorem insert_ascending {ids : Array DocumentId} (ascending : Ascending ids.toList)
    (id : DocumentId) : Ascending (insert ids id).toList := by
  unfold insert
  split
  · exact ascending
  · next absent =>
      have fresh : id ∉ ids.toList := fun member =>
        absent ((contains_iff_mem ascending id).mpr member)
      have above : ∀ index (held : index < ids.size), lowerBound ids id ≤ index →
          id < ids[index] := fun index held late =>
        UInt32.lt_of_le_of_ne (le_of_lowerBound_le ascending held late)
          fun equal => fresh (equal ▸ Array.mem_toList_iff.mpr (Array.getElem_mem held))
      have bounded := lowerBound_le ids id
      have length : (ids.toList.insertIdx (lowerBound ids id) id).length = ids.size + 1 := by
        rw [List.length_insertIdx_of_le_length (by simpa using bounded), Array.length_toList]
      rw [Array.toList_insertIdx]
      apply List.pairwise_iff_getElem.mpr
      intro first second firstInside secondInside before
      have held : second ≤ ids.size := by omega
      -- The new id has the ids before the bound below it and all others above it.
      rw [List.getElem_insertIdx, List.getElem_insertIdx]
      by_cases firstEarly : first < lowerBound ids id
      · rw [dif_pos firstEarly]
        by_cases secondEarly : second < lowerBound ids id
        · have inside : second < ids.size := by omega
          rw [dif_pos secondEarly]
          simpa using lt_getElem ascending inside before
        · rw [dif_neg secondEarly]
          by_cases secondNew : second = lowerBound ids id
          · have inside : first < ids.size := by omega
            rw [dif_pos secondNew]
            simpa using lt_of_lt_lowerBound ascending inside firstEarly
          · have inside : second - 1 < ids.size := by omega
            have between : first < second - 1 := by omega
            rw [dif_neg secondNew]
            simpa using lt_getElem ascending inside between
      · have inside : second - 1 < ids.size := by omega
        have secondLate : ¬ second < lowerBound ids id := by omega
        have secondOld : ¬ second = lowerBound ids id := by omega
        rw [dif_neg firstEarly, dif_neg secondLate, dif_neg secondOld]
        by_cases firstNew : first = lowerBound ids id
        · rw [dif_pos firstNew]
          simpa using above (second - 1) inside (by omega)
        · have between : first - 1 < second - 1 := by omega
          rw [dif_neg firstNew]
          simpa using lt_getElem ascending inside between

/-! ## Merging -/

theorem lt_of_lt_head {least head : DocumentId} {tail : List DocumentId}
    (ascending : Ascending (head :: tail)) (less : least < head) :
    ∀ id ∈ head :: tail, least < id := by
  intro id member
  rcases List.mem_cons.mp member with rfl | later
  · exact less
  · exact UInt32.lt_trans less ((List.pairwise_cons.mp ascending).1 id later)

theorem mem_merge (ids others : List DocumentId) (id : DocumentId) :
    id ∈ merge ids others ↔ id ∈ ids ∨ id ∈ others := by
  fun_induction merge ids others with
  | case1 others => simp
  | case2 ids nonempty => simp
  | case3 head tail other others less induction =>
      simp only [List.mem_cons, induction, or_assoc]
  | case4 head tail other others _ less induction =>
      simp only [List.mem_cons, induction]
      exact or_left_comm
  | case5 head tail other others notLess notMore induction =>
      have same : head = other :=
        UInt32.le_antisymm (UInt32.not_lt.mp notMore) (UInt32.not_lt.mp notLess)
      rw [List.mem_cons, induction, same, List.mem_cons, List.mem_cons, ← or_or_distrib_left]

theorem merge_ascending {ids others : List DocumentId} (ascending : Ascending ids)
    (othersAscending : Ascending others) : Ascending (merge ids others) := by
  -- The lesser head is put first, and is less than all that is merged behind it.
  fun_induction merge ids others with
  | case1 others => exact othersAscending
  | case2 ids nonempty => exact ascending
  | case3 head tail other others less induction =>
      have parts := List.pairwise_cons.mp ascending
      apply List.Pairwise.cons _ (induction parts.2 othersAscending)
      intro id member
      rcases (mem_merge _ _ id).mp member with own | foreign
      · exact parts.1 id own
      · exact lt_of_lt_head othersAscending less id foreign
  | case4 head tail other others _ less induction =>
      have parts := List.pairwise_cons.mp othersAscending
      apply List.Pairwise.cons _ (induction ascending parts.2)
      intro id member
      rcases (mem_merge _ _ id).mp member with foreign | own
      · exact lt_of_lt_head ascending less id foreign
      · exact parts.1 id own
  | case5 head tail other others notLess notMore induction =>
      have same : head = other :=
        UInt32.le_antisymm (UInt32.not_lt.mp notMore) (UInt32.not_lt.mp notLess)
      subst same
      have parts := List.pairwise_cons.mp ascending
      have otherParts := List.pairwise_cons.mp othersAscending
      apply List.Pairwise.cons _ (induction parts.2 otherParts.2)
      intro id member
      rcases (mem_merge _ _ id).mp member with own | foreign
      · exact parts.1 id own
      · exact otherParts.1 id foreign

/-! ## Normalising -/

theorem mem_dropRepeats (ids : List DocumentId) (id : DocumentId) :
    id ∈ dropRepeats ids ↔ id ∈ ids := by
  induction ids with
  | nil => rfl
  | cons head tail induction =>
      rw [dropRepeats]
      split
      · next repeated =>
          rw [induction, List.mem_cons]
          constructor
          · exact .inr
          · rintro (rfl | member)
            · exact List.mem_of_mem_head? repeated
            · exact member
      · rw [List.mem_cons, List.mem_cons, induction]

theorem dropRepeats_ascending {ids : List DocumentId} (ordered : ids.Pairwise (· ≤ ·)) :
    Ascending (dropRepeats ids) := by
  induction ids with
  | nil => exact .nil
  | cons head tail induction =>
      have parts := List.pairwise_cons.mp ordered
      rw [dropRepeats]
      split
      · exact induction parts.2
      · next different =>
          apply List.Pairwise.cons _ (induction parts.2)
          intro other member
          have inTail := (mem_dropRepeats tail other).mp member
          cases tail with
          | nil => cases inTail
          | cons next rest =>
              have unequal : next ≠ head := fun equal => different (congrArg some equal)
              have step : head < next :=
                UInt32.lt_of_le_of_ne (parts.1 next (List.mem_cons_self ..)) unequal.symm
              rcases List.mem_cons.mp inTail with rfl | later
              · exact step
              · exact UInt32.lt_of_lt_of_le step
                  ((List.pairwise_cons.mp parts.2).1 other later)

theorem dropRepeats_sublist (ids : List DocumentId) : (dropRepeats ids).Sublist ids := by
  induction ids with
  | nil => exact .slnil
  | cons head tail induction =>
      rw [dropRepeats]
      split
      · exact induction.cons head
      · exact induction.cons_cons head

theorem length_normalize_le (ids : List DocumentId) :
    (normalize ids).length ≤ ids.length := by
  rw [normalize]
  exact (dropRepeats_sublist _).length_le.trans (Nat.le_of_eq (List.length_mergeSort ids))

theorem mem_normalize (ids : List DocumentId) (id : DocumentId) :
    id ∈ normalize ids ↔ id ∈ ids := by
  rw [normalize, mem_dropRepeats, List.mem_mergeSort]

theorem normalize_ascending (ids : List DocumentId) : Ascending (normalize ids) := by
  apply dropRepeats_ascending
  have sorted := @List.pairwise_mergeSort DocumentId (fun left right => left ≤ right)
    (by simpa using fun first second third => UInt32.le_trans)
    (by simpa using UInt32.le_total) ids
  exact sorted.imp (by simp)

end Ascending

end ResultSets
