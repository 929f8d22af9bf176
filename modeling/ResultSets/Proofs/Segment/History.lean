import ResultSets.Proofs.IdSet.Ascending
import ResultSets.Proofs.Index.Live
import ResultSets.Segment.Draft

namespace ResultSets

/-! Segments as they come about: a draft without documents under any term is edited, and then
becomes a segment. What can be read from the segment is what the edits say, whatever their order.
Edits of documents that the segment does not have are refused, and leave the draft as it is. -/

namespace SegmentDraft

inductive Edit where
  | add (term : Term) (id : DocumentId)
  | delete (id : DocumentId)

def edit (draft : SegmentDraft) : Edit → SegmentDraft
  | .add term id => (draft.add term id).toOption.getD draft
  | .delete id => (draft.delete id).toOption.elim draft (·.2)

theorem edit_add_eq (draft : SegmentDraft) (term : Term) (id : DocumentId) :
    draft.edit (.add term id) =
      if id.toNat < draft.size then { draft with postings := enter term id draft.postings }
      else draft := by
  by_cases inside : id.toNat < draft.size
  · simp only [edit, add, check, inside, if_true]
    rfl
  · simp only [edit, add, check, inside, if_false]
    rfl

theorem edit_delete_eq (draft : SegmentDraft) (id : DocumentId) :
    draft.edit (.delete id) =
      if id.toNat < draft.size then
        { draft with
          live := some ((draft.live.getD (Array.replicate draft.size true)).setIfInBounds
            id.toNat false) }
      else draft := by
  by_cases inside : id.toNat < draft.size
  · simp only [edit, delete, check, inside, if_true]
    rfl
  · simp only [edit, delete, check, inside, if_false]
    rfl

private theorem lookup_cons_eq (entry : Term × Array DocumentId)
    (rest : List (Term × Array DocumentId)) (term : Term) :
    (entry :: rest).lookup term = if term = entry.1 then some entry.2 else rest.lookup term := by
  rw [List.lookup_cons]
  by_cases same : term = entry.1
  · rw [if_pos same, beq_iff_eq.mpr same]
  · rw [if_neg same, beq_eq_false_iff_ne.mpr same]

theorem lookup_enter (term other : Term) (id : DocumentId)
    (postings : List (Term × Array DocumentId)) :
    (enter term id postings).lookup other =
      if other = term then some (Ascending.insert ((postings.lookup term).getD #[]) id)
      else postings.lookup other := by
  induction postings with
  | nil => exact lookup_cons_eq _ [] other
  | cons entry rest induction =>
      rcases entry with ⟨entered, ids⟩
      rw [enter, lookup_cons_eq, lookup_cons_eq]
      by_cases found : entered = term
      · subst found
        rw [if_pos rfl, if_pos rfl, lookup_cons_eq]
        split
        · rfl
        · rfl
      · rw [if_neg found, if_neg (Ne.symm found), lookup_cons_eq, induction]
        split
        · next here =>
            subst here
            rw [if_neg found]
        · rfl

end SegmentDraft

structure SegmentHistory where
  base : DocumentId
  size : Nat
  edits : List SegmentDraft.Edit

namespace SegmentHistory

open SegmentDraft

def draft (history : SegmentHistory) : SegmentDraft :=
  history.edits.foldl edit { base := history.base, size := history.size }

def toSegment (history : SegmentHistory) : Segment := history.draft.toSegment

def Indexed (history : SegmentHistory) (position : Nat) (term : Term) : Prop :=
  ∃ id, .add term id ∈ history.edits ∧ id.toNat = position

def Live (history : SegmentHistory) (position : Nat) : Prop :=
  position < history.size ∧ ∀ id, .delete id ∈ history.edits → id.toNat ≠ position

structure Shows (history : SegmentHistory) (draft : SegmentDraft) : Prop where
  base : draft.base = history.base
  size : draft.size = history.size
  covered : ∀ flags, draft.live = some flags → flags.size = history.size
  live : ∀ position, position < history.size →
    ((draft.live.map BitView.ofFlags).all (·.get position) ↔ history.Live position)
  ascending : ∀ term, Ascending ((draft.idsOf? term).getD #[]).toList
  listed : ∀ term id, id ∈ ((draft.idsOf? term).getD #[]).toList ↔
    id.toNat < history.size ∧ .add term id ∈ history.edits

variable {base : DocumentId} {size : Nat} {edits : List Edit} {draft : SegmentDraft}

theorem Shows.add (shows : Shows ⟨base, size, edits⟩ draft) (term : Term) (id : DocumentId) :
    Shows ⟨base, size, edits ++ [.add term id]⟩ (draft.edit (.add term id)) := by
  have live : ∀ position, Live ⟨base, size, edits ++ [.add term id]⟩ position ↔
      Live ⟨base, size, edits⟩ position := fun position => by simp [Live]
  have listed : ∀ other document,
      (document.toNat < size ∧ .add other document ∈ edits ++ [.add term id]) ↔
        document ∈ ((draft.idsOf? other).getD #[]).toList ∨
          (other = term ∧ document = id ∧ id.toNat < size) := by
    intro other document
    rw [shows.listed, List.mem_append, List.mem_singleton, Edit.add.injEq]
    constructor
    · rintro ⟨below, old | ⟨rfl, rfl⟩⟩
      · exact .inl ⟨below, old⟩
      · exact .inr ⟨rfl, rfl, below⟩
    · rintro (⟨below, old⟩ | ⟨rfl, rfl, below⟩)
      · exact ⟨below, .inl old⟩
      · exact ⟨below, .inr ⟨rfl, rfl⟩⟩
  have sameSize : draft.size = size := shows.size
  rw [edit_add_eq, sameSize]
  split
  · next inside =>
      -- The row of the term takes the document in, and all other rows stay.
      have row : ∀ other, idsOf? { draft with postings := enter term id draft.postings } other =
          if other = term then some (Ascending.insert ((draft.idsOf? term).getD #[]) id)
          else draft.idsOf? other := fun other => lookup_enter term other id draft.postings
      rw [sameSize] at row
      refine ⟨shows.base, rfl, shows.covered, fun position below => ?_,
        fun other => ?_, fun other document => ?_⟩
      · rw [live]
        exact shows.live position below
      · rw [row]
        split
        · exact Ascending.insert_ascending (shows.ascending term) id
        · exact shows.ascending other
      · rw [listed, row]
        split
        · next same =>
            subst same
            rw [Option.getD_some, Ascending.mem_insert (shows.ascending other)]
            simp [inside, or_comm]
        · next different => simp [different]
  · next beyond =>
      refine ⟨shows.base, shows.size, shows.covered, fun position below => ?_,
        shows.ascending, fun other document => ?_⟩
      · rw [live]
        exact shows.live position below
      · rw [listed]
        simp [beyond]

theorem Shows.delete (shows : Shows ⟨base, size, edits⟩ draft) (id : DocumentId) :
    Shows ⟨base, size, edits ++ [.delete id]⟩ (draft.edit (.delete id)) := by
  have live : ∀ position, Live ⟨base, size, edits ++ [.delete id]⟩ position ↔
      Live ⟨base, size, edits⟩ position ∧ id.toNat ≠ position := by
    intro position
    simp only [Live, List.mem_append, List.mem_singleton, Edit.delete.injEq, or_imp, forall_and,
      forall_eq, and_assoc]
  have sameSize : draft.size = size := shows.size
  rw [edit_delete_eq, sameSize]
  split
  · next inside =>
      -- The flags before the edit, all set when nothing was deleted.
      have sizeBefore : (draft.live.getD (Array.replicate size true)).size = size := by
        cases recorded : draft.live with
        | none => simp
        | some flags => exact shows.covered flags recorded
      have before : ∀ position, position < size →
          ((draft.live.getD (Array.replicate size true)).getD position false ↔
            Live ⟨base, size, edits⟩ position) := by
        intro position below
        have shown := shows.live position below
        cases recorded : draft.live with
        | none =>
            rw [recorded] at shown
            simpa [below] using shown
        | some flags =>
            have length := shows.covered flags recorded
            rw [recorded] at shown
            simpa [BitView.get, BitView.ofFlags, length, below] using shown
      refine ⟨shows.base, rfl, fun flags recorded => ?_, fun position below => ?_,
        shows.ascending, fun other document => ?_⟩
      · cases recorded
        rw [Array.size_setIfInBounds]
        exact sizeBefore
      · rw [live, ← before position below]
        simp only [Option.map_some, Option.all_some, BitView.get, BitView.ofFlags,
          Array.size_setIfInBounds, sizeBefore, below, decide_true, Bool.true_and,
          Array.getD_eq_getD_getElem?, Array.getElem?_setIfInBounds]
        by_cases same : id.toNat = position
        · simp [same, below]
        · simp [same]
      · apply Iff.trans (shows.listed other document)
        simp
  · next beyond =>
      refine ⟨shows.base, shows.size, shows.covered, fun position below => ?_,
        shows.ascending, fun other document => ?_⟩
      · rw [live, shows.live position below]
        refine (and_iff_left fun same => ?_).symm
        exact beyond (same ▸ below)
      · apply Iff.trans (shows.listed other document)
        simp

theorem Shows.foldl (shows : Shows ⟨base, size, edits⟩ draft) (more : List Edit) :
    Shows ⟨base, size, edits ++ more⟩ (more.foldl edit draft) := by
  induction more generalizing edits draft with
  | nil =>
      rw [List.append_nil]
      exact shows
  | cons first rest induction =>
      have whole : edits ++ first :: rest = edits ++ [first] ++ rest := by simp
      rw [whole, List.foldl_cons]
      cases first with
      | add term id => exact induction (shows.add term id)
      | delete id => exact induction (shows.delete id)

theorem shows_draft (history : SegmentHistory) : history.Shows history.draft := by
  have blank : Shows ⟨history.base, history.size, []⟩
      { base := history.base, size := history.size } :=
    { base := rfl
      size := rfl
      covered := fun flags recorded => nomatch recorded
      live := fun position below => by simpa [Live] using below
      ascending := fun term => .nil
      listed := fun term id => by simp [idsOf?] }
  exact blank.foldl history.edits

end SegmentHistory

/-! ## What is read from a segment -/

namespace Segment

def Lists (segment : Segment) (term : Term) (ids : List DocumentId) : Prop :=
  segment.postings term = .ok none ∧ ids = [] ∨
    segment.postings term = .ok (some { frequency := ids.length, items := ids.map .ok })

/-- The postings of all terms are read as they are meant: a term lists just the documents
at the positions that are indexed under it. -/
def Readable (segment : Segment) (indexed : Nat → Term → Prop) : Prop :=
  ∀ term, ∃ ids, segment.Lists term ids ∧ Ascending ids ∧
    ∀ position, position ∈ ids.map UInt32.toNat ↔
      position < segment.size ∧ indexed position term

end Segment

namespace SegmentHistory

variable (history : SegmentHistory)

theorem toSegment_base : history.toSegment.base = history.base := history.shows_draft.base

theorem toSegment_size : history.toSegment.size = history.size := history.shows_draft.size

theorem isLive_iff {id : DocumentId} (inside : id.toNat < history.size) :
    history.toSegment.isLive id ↔ history.Live id.toNat :=
  history.shows_draft.live id.toNat inside

theorem toSegment_covered : history.toSegment.Covered := by
  intro view recorded
  rcases Option.map_eq_some_iff.mp recorded with ⟨flags, kept, rfl⟩
  rw [toSegment_size]
  exact Nat.le_of_eq (history.shows_draft.covered flags kept).symm

theorem toSegment_readable : history.toSegment.Readable history.Indexed := by
  intro term
  have shows := history.shows_draft
  refine ⟨((history.draft.idsOf? term).getD #[]).toList, ?_, shows.ascending term,
    fun position => ?_⟩
  · have postings : history.toSegment.postings term = .ok ((history.draft.idsOf? term).map
      fun ids => { frequency := ids.size, items := ids.toList.map .ok }) := rfl
    rw [Segment.Lists, postings]
    cases history.draft.idsOf? term with
    | none => exact .inl ⟨rfl, rfl⟩
    | some ids => exact .inr rfl
  · rw [List.mem_map, toSegment_size]
    simp only [shows.listed]
    constructor
    · rintro ⟨id, ⟨below, added⟩, rfl⟩
      exact ⟨below, id, added, rfl⟩
    · rintro ⟨below, id, added, rfl⟩
      exact ⟨id, ⟨below, added⟩, rfl⟩

end SegmentHistory

end ResultSets
