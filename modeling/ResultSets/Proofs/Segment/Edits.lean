import Mathlib.Data.Set.Card
import ResultSets.Proofs.Bitmap.Scan
import ResultSets.Proofs.Segment.History

namespace ResultSets

/-! What edits of a segment answer, and what can be read from the segment after any of them:
the postings of every term, which documents are live, and how many. -/

/-! ## Reading postings -/

theorem Postings.yields {postings : Postings} {ids : List DocumentId}
    (whole : postings.items = ids.map .ok) : Yields Postings.next Except.ok postings ids := by
  have items : Yields Postings.next
      (fun item => (item.map (Except.map some)).getD (.ok none)) postings postings.items := by
    apply yields_of_steps
    · intro postings
      rcases postings with ⟨frequency, _ | ⟨item, rest⟩⟩
      · rfl
      · rfl
    · intro postings
      rcases postings with ⟨frequency, _ | ⟨item, rest⟩⟩
      · rfl
      · rfl
  intro count
  rw [items count, whole, List.getElem?_map]
  cases ids[count]? with
  | none => rfl
  | some id => rfl

theorem BitView.get_ofFlags (flags : Array Bool) (position : Nat) :
    (ofFlags flags).get position = flags.getD position false := by
  rw [get, ofFlags, Array.getD_eq_getD_getElem?]
  by_cases inside : position < flags.size
  · simp [inside]
  · simp [inside]

theorem Ascending.insert_ne_empty (ids : Array DocumentId) (id : DocumentId) :
    Ascending.insert ids id ≠ #[] := by
  rw [insert]
  split
  · next held =>
      intro nothing
      subst nothing
      simp [contains] at held
  · apply Array.ne_empty_of_size_pos
    rw [Array.size_insertIdx]
    exact Nat.succ_pos _

theorem countP_add_ncard {size : Nat} {kept : Nat → Bool} {gone : Set Nat}
    (split : ∀ position, position ∈ gone ↔ position < size ∧ ¬ kept position = true) :
    (List.range size).countP kept + gone.ncard = size := by
  have listed : gone = ↑((List.range size).filter (¬ kept ·)).toFinset := by
    ext position
    rw [split, Finset.mem_coe, List.mem_toFinset, List.mem_filter, List.mem_range,
      decide_eq_true_eq]
  rw [listed, Set.ncard_coe_finset, List.toFinset_card_of_nodup (List.nodup_range.filter _),
    ← List.countP_eq_length_filter, ← List.length_eq_countP_add_countP, List.length_range]

/-! ## Single edits -/

namespace SegmentDraft

variable {draft : SegmentDraft} {id : DocumentId}

theorem check_outside (outside : draft.size ≤ id.toNat) :
    draft.check id = .error (.localIdOutOfRange id.toNat draft.size) :=
  if_neg (Nat.not_lt_of_le outside)

theorem add_outside (outside : draft.size ≤ id.toNat) (term : Term) :
    draft.add term id = .error (.localIdOutOfRange id.toNat draft.size) ∧
      draft.edit (.add term id) = draft := by
  constructor
  · rw [add, check_outside outside]
    rfl
  · rw [edit_add_eq, if_neg (Nat.not_lt_of_le outside)]

theorem delete_outside (outside : draft.size ≤ id.toNat) :
    draft.delete id = .error (.localIdOutOfRange id.toNat draft.size) ∧
      draft.edit (.delete id) = draft := by
  constructor
  · rw [delete, check_outside outside]
    rfl
  · rw [edit_delete_eq, if_neg (Nat.not_lt_of_le outside)]

theorem add_inside (inside : id.toNat < draft.size) (term : Term) :
    draft.add term id = .ok (draft.edit (.add term id)) := by
  rw [edit_add_eq, if_pos inside, add, check, if_pos inside]
  rfl

theorem delete_inside (inside : id.toNat < draft.size) :
    draft.delete id =
      .ok ((draft.live.map BitView.ofFlags).all (·.get id.toNat), draft.edit (.delete id)) := by
  have wasLive : (draft.live.getD (Array.replicate draft.size true)).getD id.toNat false =
      (draft.live.map BitView.ofFlags).all (·.get id.toNat) := by
    cases draft.live with
    | none => simp [inside]
    | some flags => exact (BitView.get_ofFlags flags id.toNat).symm
  rw [edit_delete_eq, if_pos inside, delete, check, if_pos inside, ← wasLive]
  rfl

/-! ## Rows of documents -/

theorem idsOf?_edit_ne_empty (filled : ∀ term, draft.idsOf? term ≠ some #[]) (edit : Edit)
    (term : Term) : (draft.edit edit).idsOf? term ≠ some #[] := by
  cases edit with
  | add entered id =>
      rw [edit_add_eq]
      split
      · change (enter entered id draft.postings).lookup term ≠ some #[]
        rw [lookup_enter]
        split
        · intro same
          exact Ascending.insert_ne_empty _ id (Option.some.inj same)
        · exact filled term
      · exact filled term
  | delete id =>
      rw [edit_delete_eq]
      split
      · exact filled term
      · exact filled term

theorem idsOf?_foldl_ne_empty (filled : ∀ term, draft.idsOf? term ≠ some #[])
    (edits : List Edit) (term : Term) : (edits.foldl edit draft).idsOf? term ≠ some #[] := by
  induction edits generalizing draft with
  | nil => exact filled term
  | cons first rest induction => exact induction (idsOf?_edit_ne_empty filled first)

end SegmentDraft

namespace SegmentHistory

def Added (history : SegmentHistory) (term : Term) (id : DocumentId) : Prop :=
  id.toNat < history.size ∧ .add term id ∈ history.edits

def Deleted (history : SegmentHistory) (id : DocumentId) : Prop :=
  id.toNat < history.size ∧ .delete id ∈ history.edits

variable {history other : SegmentHistory} {term : Term}

theorem idsOf?_eq_none (none : ∀ id, ¬ history.Added term id) :
    history.draft.idsOf? term = Option.none := by
  cases row : history.draft.idsOf? term with
  | none => rfl
  | some ids =>
      have filled : history.draft.idsOf? term ≠ some #[] :=
        SegmentDraft.idsOf?_foldl_ne_empty (by simp [SegmentDraft.idsOf?]) history.edits term
      have listed := history.shows_draft.listed term
      rw [row] at filled listed
      have nothing : ids = #[] := by
        apply Array.toList_eq_nil_iff.mp
        apply List.eq_nil_iff_forall_not_mem.mpr
        intro id member
        exact none id ((listed id).mp member)
      exact absurd (congrArg some nothing) filled

theorem idsOf?_eq_some {id : DocumentId} (added : history.Added term id) :
    ∃ ids, history.draft.idsOf? term = some ids ∧ Ascending ids.toList ∧
      ∀ id, id ∈ ids.toList ↔ history.Added term id := by
  have listed := history.shows_draft.listed term
  have ascending := history.shows_draft.ascending term
  cases row : history.draft.idsOf? term with
  | none =>
      rw [row] at listed
      cases (listed id).mpr added
  | some ids =>
      rw [row] at listed ascending
      exact ⟨ids, rfl, ascending, listed⟩

theorem idsOf?_eq_of_added (same : ∀ id, other.Added term id ↔ history.Added term id) :
    other.draft.idsOf? term = history.draft.idsOf? term := by
  by_cases some : ∃ id, history.Added term id
  · rcases some with ⟨id, added⟩
    rcases idsOf?_eq_some added with ⟨ids, row, ascending, listed⟩
    rcases idsOf?_eq_some ((same id).mpr added) with
      ⟨otherIds, otherRow, otherAscending, otherListed⟩
    have equal : otherIds.toList = ids.toList := by
      apply Ascending.eq_of_mem_iff otherAscending ascending
      intro id
      rw [otherListed, same, listed]
    rw [row, otherRow, Array.toList_inj.mp equal]
  · have none := not_exists.mp some
    rw [idsOf?_eq_none none, idsOf?_eq_none fun id added => none id ((same id).mp added)]

/-! ## Deletions -/

variable (history)

theorem live_iff {id : DocumentId} (inside : id.toNat < history.size) :
    history.Live id.toNat ↔ .delete id ∉ history.edits := by
  constructor
  · intro live deleted
    exact live.2 id deleted rfl
  · intro kept
    apply And.intro inside
    intro other deleted same
    exact kept (UInt32.toNat_inj.mp same ▸ deleted)

theorem not_live_iff {position : Nat} (inside : position < history.size) :
    ¬ history.Live position ↔ position ∈ UInt32.toNat '' {id | history.Deleted id} := by
  constructor
  · intro dead
    apply by_contra
    intro kept
    apply dead
    apply And.intro inside
    intro id deleted same
    exact kept ⟨id, ⟨same ▸ inside, deleted⟩, same⟩
  · intro gone live
    rcases gone with ⟨id, deleted, same⟩
    exact live.2 id deleted.2 same

theorem liveCount_add_ncard :
    history.toSegment.liveCount + {id | history.Deleted id}.ncard = history.size := by
  rw [← Segment.length_liveList, Segment.liveList, List.length_map,
    ← List.countP_eq_length_filter, toSegment_size,
    ← Set.ncard_image_of_injective _ fun _ _ => UInt32.toNat_inj.mp]
  apply countP_add_ncard
  intro position
  constructor
  · intro gone
    have inside : position < history.size := by
      rcases gone with ⟨id, deleted, rfl⟩
      exact deleted.1
    have dead := (history.not_live_iff inside).mpr gone
    rw [← history.shows_draft.live position inside] at dead
    exact ⟨inside, dead⟩
  · intro dead
    have shown := history.shows_draft.live position dead.1
    exact (history.not_live_iff dead.1).mp (mt shown.mpr dead.2)

/-- Edits are refused for documents that the segment does not have, and then change nothing.
Others are made, and a deletion tells whether it is the first of its document. Afterwards a
term that was put to no document has no postings. Those of another term are its documents in
ascending order, each once and counted, whatever the order of the edits and whatever was put
under other terms; reading yields them in turn and then nothing any more. A document is live
unless it was deleted, and the live documents are counted without the deleted ones. -/
theorem edits_exact (history : SegmentHistory) :
    (∀ id, history.size ≤ id.toNat →
      (∀ term, ∃ error, history.draft.add term id = .error error ∧
        error.isInvalidArgument = true ∧ history.draft.edit (.add term id) = history.draft) ∧
      ∃ error, history.draft.delete id = .error error ∧
        error.isInvalidArgument = true ∧ history.draft.edit (.delete id) = history.draft) ∧
    (∀ id, id.toNat < history.size →
      (∀ term, history.draft.add term id = .ok (history.draft.edit (.add term id))) ∧
      ∃ wasLive, history.draft.delete id = .ok (wasLive, history.draft.edit (.delete id)) ∧
        (wasLive = true ↔ .delete id ∉ history.edits)) ∧
    (∀ term,
      ((∀ id, ¬ history.Added term id) → history.toSegment.postings term = .ok none) ∧
      ((∃ id, history.Added term id) → ∃ postings ids,
        history.toSegment.postings term = .ok (some postings) ∧ Ascending ids ∧
        (∀ id, id ∈ ids ↔ history.Added term id) ∧ postings.frequency = ids.length ∧
        Yields Postings.next Except.ok postings ids) ∧
      ∀ other : SegmentHistory, (∀ id, other.Added term id ↔ history.Added term id) →
        other.toSegment.postings term = history.toSegment.postings term) ∧
    (∀ id, id.toNat < history.size →
      (history.toSegment.isLive id = true ↔ .delete id ∉ history.edits)) ∧
    history.toSegment.liveCount + {id | history.Deleted id}.ncard = history.size := by
  have size : history.draft.size = history.size := history.toSegment_size
  have postings : ∀ (shown : SegmentHistory) term, shown.toSegment.postings term =
      .ok ((shown.draft.idsOf? term).map fun ids =>
        { frequency := ids.size, items := ids.toList.map .ok }) := fun shown term => rfl
  refine ⟨fun id outside => ?_, fun id inside => ?_, fun term => ⟨fun none => ?_, fun some => ?_,
    fun other same => ?_⟩, fun id inside => ?_, history.liveCount_add_ncard⟩
  · have outside : history.draft.size ≤ id.toNat := by omega
    exact ⟨fun term => ⟨_, (SegmentDraft.add_outside outside term).1, rfl,
        (SegmentDraft.add_outside outside term).2⟩,
      _, (SegmentDraft.delete_outside outside).1, rfl, (SegmentDraft.delete_outside outside).2⟩
  · have within : id.toNat < history.draft.size := by omega
    refine ⟨SegmentDraft.add_inside within, _, SegmentDraft.delete_inside within, ?_⟩
    rw [← history.live_iff inside]
    exact history.isLive_iff inside
  · rw [postings, idsOf?_eq_none none]
    rfl
  · rcases some with ⟨id, added⟩
    rcases idsOf?_eq_some added with ⟨ids, row, ascending, listed⟩
    rw [postings, row]
    exact ⟨_, ids.toList, rfl, ascending, listed, rfl, Postings.yields rfl⟩
  · rw [postings, postings, idsOf?_eq_of_added same]
  · rw [history.isLive_iff inside, history.live_iff inside]

end SegmentHistory

end ResultSets
