import ResultSets.Proofs.IdSet.Members

namespace ResultSets

/-! The forms of a set of ids are interchangeable. A walk over a set yields its members in
ascending order whatever the form is, and two sets are equal just when they contain the
same ids. -/

/-! ## Walks

A step of a walk takes the first of the members to come. -/

namespace IdSet

namespace Cursor

theorem next_eq (cursor : Cursor) :
    cursor.next.1 = cursor.toList.head? ∧ cursor.next.2.toList = cursor.toList.tail := by
  cases cursor with
  | ended => exact ⟨rfl, rfl⟩
  | ids rest =>
      cases rest with
      | nil => exact ⟨rfl, rfl⟩
      | cons id rest => exact ⟨rfl, rfl⟩
  | bits cursor =>
      rcases cursor.next_eq with ⟨first, later⟩
      constructor
      · change cursor.next.1.map UInt32.ofNat = (cursor.toList.map UInt32.ofNat).head?
        rw [first, List.head?_map]
      · change cursor.next.2.toList.map UInt32.ofNat = (cursor.toList.map UInt32.ofNat).tail
        rw [later, List.map_tail]

theorem take_eq (count : Nat) (cursor : Cursor) :
    (cursor.take count).1 = cursor.toList.take count ∧
      (cursor.take count).2.toList = cursor.toList.drop count := by
  induction count generalizing cursor with
  | zero => exact ⟨rfl, rfl⟩
  | succ count induction =>
      rcases cursor.next_eq with ⟨first, later⟩
      rw [take]
      rcases step : cursor.next with ⟨_ | id, rest⟩
      · rw [step] at first later
        rw [List.head?_eq_none_iff.mp first.symm] at later ⊢
        exact ⟨rfl, later⟩
      · rw [step] at first later
        rcases List.head?_eq_some_iff.mp first.symm with ⟨others, listed⟩
        rw [listed] at later ⊢
        rcases induction rest with ⟨taken, left⟩
        rw [later] at taken left
        exact ⟨congrArg (id :: ·) taken, left⟩

end Cursor

/-! ## Equality -/

variable {first second : IdSet}

theorem beq_iff_mem (firstWellFormed : first.WellFormed) (secondWellFormed : second.WellFormed) :
    (first == second) = true ↔ ∀ id, id ∈ first ↔ id ∈ second := by
  change (first.toList == second.toList) = true ↔ _
  rw [beq_iff_eq]
  constructor
  · intro same id
    rw [← mem_toList firstWellFormed, same, mem_toList secondWellFormed]
  · intro same
    apply toList_eq_of_holds firstWellFormed secondWellFormed
    intro document
    exact exists_congr fun id => and_congr_left' (same id)

theorem beq_iff_contains (firstWellFormed : first.WellFormed)
    (secondWellFormed : second.WellFormed) :
    (first == second) = true ↔ ∀ id, first.contains id = second.contains id := by
  rw [beq_iff_mem firstWellFormed secondWellFormed]
  apply forall_congr'
  intro id
  exact Bool.eq_iff_iff.symm

/-! ## Sets of the same ids -/

theorem dense_wellFormed {bitmap : Bitmap} (within : bitmap.length ≤ DocumentId.count) :
    (dense bitmap bitmap.card).WellFormed := by
  constructor
  · intro position member
    exact Nat.lt_of_lt_of_le (Bitmap.lt_length_of_mem member) within
  · rfl

def forms (ids : Array DocumentId) (bitmap : Bitmap) : List IdSet :=
  [ofAscending ids, dense bitmap bitmap.card, ofMembers bitmap]

theorem forms_hold {ids : Array DocumentId} {bitmap : Bitmap}
    (ascending : Ascending ids.toList)
    (members : ∀ position, position ∈ bitmap ↔ position ∈ ids.toList.map UInt32.toNat) :
    ∀ form ∈ forms ids bitmap, form.WellFormed ∧ ∀ id, id ∈ form ↔ id ∈ ids.toList := by
  have inside : ∀ position, position ∈ bitmap → position < DocumentId.count := by
    intro position member
    rcases List.mem_map.mp ((members position).mp member) with ⟨id, _, rfl⟩
    exact id.toNat_lt
  have listed : ∀ id : DocumentId, id.toNat ∈ bitmap ↔ id ∈ ids.toList := by
    intro id
    rw [members]
    exact List.mem_map_of_injective fun _ _ => UInt32.toNat_inj.mp
  intro form member
  simp only [forms, List.mem_cons, List.not_mem_nil, or_false] at member
  rcases member with rfl | rfl | rfl
  · exact ⟨ofAscending_wellFormed ascending, mem_ofAscending ascending⟩
  · exact ⟨⟨inside, rfl⟩, listed⟩
  · exact ⟨ofMembers_wellFormed inside, fun id => (mem_ofMembers inside id).trans (listed id)⟩

/-- Well-formed sets list what they contain, in ascending order and as many ids as their sizes
tell, and two of them are equal in either order just when they contain the same ids. So the
sets made of a row of ids, of a bitmap that is long enough to hold them, and of the row of its
members are all equal to each other. -/
theorem forms_interchangeable (firstWellFormed : first.WellFormed)
    (secondWellFormed : second.WellFormed) :
    (Ascending first.toList ∧ first.toList.length = first.size ∧
      (∀ count, (first.cursor.take count).1 = first.toList.take count) ∧
      ∀ id, first.contains id = true ↔ id ∈ first.toList) ∧
    ((first == second) = true ↔ ∀ id, first.contains id = second.contains id) ∧
    ((second == first) = true ↔ ∀ id, first.contains id = second.contains id) ∧
    ∀ (ids : Array DocumentId) (length : Nat), Ascending ids.toList →
      (∀ id ∈ ids, id.toNat < length) →
        ∃ bitmap, Bitmap.ofPositions length (ids.toList.map UInt32.toNat) = .ok bitmap ∧
          bitmap.length = length ∧
          ∀ form ∈ forms ids bitmap, form.toList = ids.toList ∧
            ∀ other ∈ forms ids bitmap, (form == other) = true := by
  refine ⟨⟨toList_ascending firstWellFormed, length_toList firstWellFormed,
    fun count => (Cursor.take_eq count first.cursor).1,
    fun id => (mem_toList firstWellFormed id).symm⟩,
    beq_iff_contains firstWellFormed secondWellFormed, ?_, ?_⟩
  · rw [beq_iff_contains secondWellFormed firstWellFormed]
    simp only [eq_comm]
  · intro ids length ascending enough
    have inside : ∀ position ∈ ids.toList.map UInt32.toNat, position < length := by
      intro position member
      rcases List.mem_map.mp member with ⟨id, listed, rfl⟩
      exact enough id (Array.mem_toList_iff.mp listed)
    rcases Bitmap.ofPositions_eq_ok length _ inside with ⟨bitmap, built, same, _, members⟩
    have hold := forms_hold ascending members
    refine ⟨bitmap, built, same, fun form member => ?_⟩
    rcases hold form member with ⟨wellFormed, holds⟩
    constructor
    · apply Ascending.eq_of_mem_iff (toList_ascending wellFormed) ascending
      intro id
      rw [mem_toList wellFormed, holds]
    · intro other otherMember
      rcases hold other otherMember with ⟨otherWellFormed, otherHolds⟩
      apply (beq_iff_mem wellFormed otherWellFormed).mpr
      intro id
      rw [holds, otherHolds]

theorem forms_interchangeable_three :
    (sparse #[0, 63, 64] == empty) = false ∧
      ∃ bitmap, Bitmap.ofPositions 65 [0, 63, 64] = .ok bitmap ∧
        (dense bitmap bitmap.card).toList = [0, 63, 64] ∧
        (ofAscending #[0, 63, 64] == ofMembers bitmap) = true := by
  have ascending : Ascending [0, 63, 64] := by decide
  have wellFormed : (sparse #[0, 63, 64]).WellFormed := ascending
  rcases @forms_interchangeable _ empty wellFormed trivial with ⟨_, equal, _, alike⟩
  rcases alike #[0, 63, 64] 65 ascending (by simp) with ⟨bitmap, built, _, equalForms⟩
  refine ⟨?_, bitmap, built, ?_, ?_⟩
  · rw [← Bool.not_eq_true, equal, not_forall]
    exact ⟨0, by decide +kernel⟩
  · exact (equalForms (dense bitmap bitmap.card) (by simp [forms])).1
  · exact (equalForms (ofAscending _) (by simp [forms])).2 (ofMembers bitmap) (by simp [forms])

end IdSet

end ResultSets
