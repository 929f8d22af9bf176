import Mathlib.Data.Finset.Card
import ResultSets.IdSet.Basic
import ResultSets.Proofs.Bitmap.Members
import ResultSets.Proofs.IdSet.Ascending

namespace ResultSets

/-! The members of a set of ids in its different forms. A well-formed set lists its
members in ascending order, as many as its size tells. -/

/-! ## The ids of a bitmap -/

namespace Bitmap

variable {bitmap : Bitmap}

theorem mem_ids (inside : ∀ position, position ∈ bitmap → position < DocumentId.count)
    (id : DocumentId) : id ∈ bitmap.ids ↔ id.toNat ∈ bitmap := by
  rw [ids, List.mem_map]
  constructor
  · rintro ⟨position, listed, rfl⟩
    have member := mem_toList.mp listed
    rw [UInt32.toNat_ofNat_of_lt' (inside position member)]
    exact member
  · intro member
    exact ⟨id.toNat, mem_toList.mpr member, UInt32.ofNat_toNat⟩

theorem ids_ascending (inside : ∀ position, position ∈ bitmap → position < DocumentId.count) :
    Ascending bitmap.ids := by
  rw [Ascending, ids, List.pairwise_map]
  refine bitmap.toList_pairwise.imp_of_mem fun {first second} firstListed secondListed less => ?_
  rw [UInt32.lt_iff_toNat_lt,
    UInt32.toNat_ofNat_of_lt' (inside first (mem_toList.mp firstListed)),
    UInt32.toNat_ofNat_of_lt' (inside second (mem_toList.mp secondListed))]
  exact less

@[simp] theorem length_ids (bitmap : Bitmap) : bitmap.ids.length = bitmap.card := by
  rw [ids, List.length_map, length_toList]

end Bitmap

namespace IdSet

/-! ## Listing a set -/

theorem toList_ascending {set : IdSet} (wellFormed : set.WellFormed) :
    Ascending set.toList := by
  cases set with
  | empty => exact .nil
  | sparse ids => exact wellFormed
  | dense bitmap size => exact Bitmap.ids_ascending wellFormed.1

theorem mem_toList {set : IdSet} (wellFormed : set.WellFormed) (id : DocumentId) :
    id ∈ set.toList ↔ id ∈ set := by
  cases set with
  | empty => exact ⟨fun member => (List.not_mem_nil member).elim, Bool.false_ne_true.elim⟩
  | sparse ids => exact (Ascending.contains_iff_mem wellFormed id).symm
  | dense bitmap size => exact Bitmap.mem_ids wellFormed.1 id

theorem length_toList {set : IdSet} (wellFormed : set.WellFormed) :
    set.toList.length = set.size := by
  cases set with
  | empty => rfl
  | sparse ids => exact Array.length_toList
  | dense bitmap size => exact bitmap.length_ids.trans wellFormed.2.symm

theorem mem_sparse {ids : Array DocumentId} (ascending : Ascending ids.toList)
    (id : DocumentId) : id ∈ IdSet.sparse ids ↔ id ∈ ids.toList :=
  Ascending.contains_iff_mem ascending id

theorem mem_dense (bitmap : Bitmap) (size : Nat) (id : DocumentId) :
    id ∈ IdSet.dense bitmap size ↔ id.toNat ∈ bitmap := Iff.rfl

theorem not_mem_empty (id : DocumentId) : id ∉ IdSet.empty := Bool.false_ne_true

/-! ## Sets made of the members of a bitmap or a row -/

theorem ofMembers_wellFormed {bitmap : Bitmap}
    (inside : ∀ position, position ∈ bitmap → position < DocumentId.count) :
    (ofMembers bitmap).WellFormed := by
  simpa [ofMembers, WellFormed] using Bitmap.ids_ascending inside

theorem mem_ofMembers {bitmap : Bitmap}
    (inside : ∀ position, position ∈ bitmap → position < DocumentId.count)
    (id : DocumentId) : id ∈ ofMembers bitmap ↔ id.toNat ∈ bitmap := by
  rw [ofMembers, mem_sparse (by simpa using Bitmap.ids_ascending inside)]
  exact Bitmap.mem_ids inside id

theorem ofAscending_wellFormed {ids : Array DocumentId} (ascending : Ascending ids.toList) :
    (ofAscending ids).WellFormed := by
  unfold ofAscending
  split
  · trivial
  · exact ascending

theorem mem_ofAscending {ids : Array DocumentId} (ascending : Ascending ids.toList)
    (id : DocumentId) : id ∈ ofAscending ids ↔ id ∈ ids.toList := by
  unfold ofAscending
  split
  · next none =>
      have nothing : ids = #[] := Array.isEmpty_iff.mp none
      subst nothing
      exact ⟨fun member => (not_mem_empty id member).elim,
        fun member => (List.not_mem_nil member).elim⟩
  · exact mem_sparse ascending id

/-! ## Members as numbers

Documents come as sums of a base and a local id. A set holds such a number when it is
that of a member. -/

def Holds (set : IdSet) (document : Nat) : Prop :=
  ∃ id, id ∈ set ∧ id.toNat = document

theorem holds_toNat (set : IdSet) (id : DocumentId) : set.Holds id.toNat ↔ id ∈ set := by
  constructor
  · rintro ⟨other, member, equal⟩
    rw [← UInt32.toNat_inj.mp equal]
    exact member
  · intro member
    exact ⟨id, member, rfl⟩

theorem not_holds_empty (document : Nat) : ¬ IdSet.empty.Holds document := by
  rintro ⟨id, member, _⟩
  exact not_mem_empty id member

theorem holds_sparse {ids : Array DocumentId} (ascending : Ascending ids.toList)
    (document : Nat) :
    (IdSet.sparse ids).Holds document ↔ document ∈ ids.toList.map UInt32.toNat := by
  simp only [Holds, mem_sparse ascending, List.mem_map]

theorem holds_dense {bitmap : Bitmap}
    (inside : ∀ position, position ∈ bitmap → position < DocumentId.count) (size : Nat)
    (document : Nat) : (IdSet.dense bitmap size).Holds document ↔ document ∈ bitmap := by
  constructor
  · rintro ⟨id, member, rfl⟩
    exact member
  · intro member
    have same := UInt32.toNat_ofNat_of_lt' (inside document member)
    refine ⟨UInt32.ofNat document, ?_, same⟩
    rw [mem_dense, same]
    exact member

theorem holds_iff_mem_toList {set : IdSet} (wellFormed : set.WellFormed) (document : Nat) :
    set.Holds document ↔ document ∈ set.toList.map UInt32.toNat := by
  rw [Holds, List.mem_map]
  simp only [mem_toList wellFormed]

theorem nodup_toList_toNat {set : IdSet} (wellFormed : set.WellFormed) :
    (set.toList.map UInt32.toNat).Nodup :=
  Ascending.nodup_toNat (toList_ascending wellFormed)

theorem size_eq_card {set : IdSet} (wellFormed : set.WellFormed) {documents : List Nat}
    (members : ∀ document, set.Holds document ↔ document ∈ documents) :
    set.size = documents.toFinset.card := by
  have same : documents.toFinset = (set.toList.map UInt32.toNat).toFinset := by
    ext document
    rw [List.mem_toFinset, List.mem_toFinset, ← members, holds_iff_mem_toList wellFormed]
  rw [same, List.toFinset_card_of_nodup (nodup_toList_toNat wellFormed), List.length_map,
    length_toList wellFormed]

variable {left right : IdSet}

theorem toList_eq_of_holds (leftWellFormed : left.WellFormed)
    (rightWellFormed : right.WellFormed)
    (same : ∀ document, left.Holds document ↔ right.Holds document) :
    left.toList = right.toList := by
  apply Ascending.eq_of_mem_iff (toList_ascending leftWellFormed)
    (toList_ascending rightWellFormed)
  intro id
  rw [mem_toList leftWellFormed, mem_toList rightWellFormed, ← holds_toNat, same, holds_toNat]

theorem beq_of_holds (leftWellFormed : left.WellFormed) (rightWellFormed : right.WellFormed)
    (same : ∀ document, left.Holds document ↔ right.Holds document) :
    (left == right) = true := by
  change (left.toList == right.toList) = true
  rw [toList_eq_of_holds leftWellFormed rightWellFormed same]
  exact beq_self_eq_true _

theorem size_eq_of_holds (leftWellFormed : left.WellFormed)
    (rightWellFormed : right.WellFormed)
    (same : ∀ document, left.Holds document ↔ right.Holds document) :
    left.size = right.size := by
  rw [← length_toList leftWellFormed, ← length_toList rightWellFormed,
    toList_eq_of_holds leftWellFormed rightWellFormed same]

/-! ## Forms -/

def IsSparse : IdSet → Prop
  | .sparse _ => True
  | _ => False

def IsDense (length : Nat) : IdSet → Prop
  | .dense bitmap _ => bitmap.length = length
  | _ => False

theorem IsSparse.not_isDense {set : IdSet} (sparse : set.IsSparse) (length : Nat) :
    ¬ set.IsDense length := by
  cases set with
  | empty => exact sparse.elim
  | sparse ids => exact id
  | dense bitmap size => exact sparse.elim

theorem ofAscending_isSparse {ids : Array DocumentId} (some : (ofAscending ids).size ≠ 0) :
    (ofAscending ids).IsSparse := by
  unfold ofAscending at *
  split at some
  · exact absurd rfl some
  · next present =>
      rw [if_neg present]
      trivial

end IdSet

end ResultSets
