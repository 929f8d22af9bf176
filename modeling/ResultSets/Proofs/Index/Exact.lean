import Mathlib.Data.Set.Card
import ResultSets.Proofs.Index.Live

namespace ResultSets

/-! When the set of all live documents can be made, for segments with any deletions. Beyond
what a segment records its documents count as deleted, and records beyond the segment do not
matter. Making the set asks for more: every segment with deletions must have recorded them
for all of its documents, unless no document of the index is live. -/

/-! ## Segments with too short records

The first of them ends the making. -/

namespace Segment

theorem exists_first_short {segments : List Segment}
    (short : ¬ ∀ segment ∈ segments, segment.Covered) :
    ∃ before segment after view, segments = before ++ segment :: after ∧
      (∀ earlier ∈ before, earlier.Covered) ∧ segment.live = some view ∧
        view.length < segment.size := by
  rcases exists_first_not short with ⟨before, segment, after, split, earlier, beyond⟩
  rw [Covered, not_forall] at beyond
  rcases beyond with ⟨view, here⟩
  rw [not_forall] at here
  rcases here with ⟨recorded, beyond⟩
  exact ⟨before, segment, after, view, split, earlier, recorded, Nat.lt_of_not_le beyond⟩

theorem foldlM_addLiveTo_of_short {before after : List Segment} {segment : Segment}
    {view : BitView} {bitmap : Bitmap} (covered : ∀ earlier ∈ before, earlier.Covered)
    (fits : ∀ earlier ∈ before, earlier.stop ≤ bitmap.length)
    (recorded : segment.live = some view) (short : view.length < segment.size) :
    (before ++ segment :: after).foldlM addLiveTo bitmap =
      .error (.sourceTooShort segment.size view.length) := by
  rcases foldlM_addLiveTo covered fits with ⟨middle, made, _⟩
  rw [List.foldlM_append, made]
  change (segment :: after).foldlM addLiveTo middle = _
  rw [List.foldlM_cons, addLiveTo_of_short recorded short]
  rfl

end Segment

/-! ## The set of all live documents -/

namespace Index

variable {index : Index} {set : IdSet} {session : Session}

theorem LaidOut.liveCount_eq_ncard (laidOut : index.LaidOut) :
    index.liveCount = {document | index.IsLive document}.ncard := by
  have same : {document | index.IsLive document} = ↑index.liveList.toFinset := by
    ext document
    rw [Finset.mem_coe, List.mem_toFinset, mem_liveList]
    rfl
  rw [same, Set.ncard_coe_finset, List.toFinset_card_of_nodup (nodup_liveList laidOut),
    length_liveList laidOut]

theorem IsLiveSet.size_eq_ncard (laidOut : index.LaidOut) (liveSet : index.IsLiveSet set) :
    set.size = {document | index.IsLive document}.ncard :=
  (liveSet.size laidOut).trans laidOut.liveCount_eq_ncard

theorem liveSet_isOk_iff (laidOut : index.LaidOut) (unknown : session.live = none) :
    (∃ live next, index.liveSet session = .ok (live, next)) ↔
      index.liveCount = 0 ∨ ∀ segment ∈ index.segments, segment.Covered := by
  rw [liveSet_eq, unknown]
  dsimp only
  split
  · next empty => exact iff_of_true ⟨_, _, rfl⟩ (.inl empty)
  · next some =>
      rw [or_iff_right some]
      constructor
      · intro made
        rcases made with ⟨live, next, made⟩
        rcases ok_of_map made with ⟨bitmap, pasted, _⟩
        exact forall_of_foldlM_eq_ok (fun _ _ _ => Segment.covered_of_addLiveTo) pasted
      · intro covered
        rcases liveBitmap_eq_ok laidOut covered with ⟨bitmap, pasted, _⟩
        rw [pasted]
        exact ⟨_, _, rfl⟩

theorem liveSet_eq_error (laidOut : index.LaidOut) (unknown : session.live = none)
    {error : Error} (failed : index.liveSet session = .error error) :
    ∃ before segment after view, index.segments = before ++ segment :: after ∧
      (∀ earlier ∈ before, earlier.Covered) ∧ segment.live = some view ∧
        view.length < segment.size ∧ error = .sourceTooShort segment.size view.length := by
  have refused := (liveSet_isOk_iff laidOut unknown).not.mp fun made => by
    rcases made with ⟨live, next, made⟩
    cases failed.symm.trans made
  rw [not_or] at refused
  rcases Segment.exists_first_short refused.2 with
    ⟨before, segment, after, view, split, covered, recorded, short⟩
  have fits : ∀ earlier ∈ before, earlier.stop ≤ (Bitmap.blank index.bound).length := by
    intro earlier member
    apply laidOut.inside
    rw [split]
    exact List.mem_append_left _ member
  have stuck : index.liveBitmap = .error (.sourceTooShort segment.size view.length) := by
    rw [liveBitmap, split]
    exact Segment.foldlM_addLiveTo_of_short covered fits recorded short
  rw [liveSet_eq, unknown] at failed
  dsimp only at failed
  rw [if_neg refused.1, stuck] at failed
  cases failed
  exact ⟨before, segment, after, view, split, covered, recorded, short, rfl⟩

/-- Where none is remembered yet, the set of all live documents can be had exactly if no
document is live or every segment is covered, and then it is this set and has the size that
the index counts. Otherwise the first segment that is not covered is named. -/
theorem liveSet_exact {segments : List Segment} {budget : Option Nat}
    (made : ofSegments segments budget = .ok index) (unknown : session.live = none) :
    ((∃ live next, index.liveSet session = .ok (live, next)) ↔
      index.liveCount = 0 ∨ ∀ segment ∈ segments, segment.Covered) ∧
    (∀ live next, index.liveSet session = .ok (live, next) →
      live.set.WellFormed ∧ (∀ document, live.set.Holds document ↔ index.IsLive document) ∧
        live.set.size = {document | index.IsLive document}.ncard ∧
          live.set.size = index.liveCount) ∧
    ∀ error, index.liveSet session = .error error →
      ∃ before segment after view, segments = before ++ segment :: after ∧
        (∀ earlier ∈ before, earlier.Covered) ∧ segment.live = some view ∧
          view.length < segment.size ∧ error = .sourceTooShort segment.size view.length := by
  rcases ofSegments_laidOut made with ⟨laidOut, listed, _⟩
  rw [← listed]
  have knows : session.Knows index := by
    intro live remembered
    cases unknown.symm.trans remembered
  apply And.intro (liveSet_isOk_iff laidOut unknown)
  constructor
  · intro live next had
    have liveSet := (liveSet_isLiveSet laidOut knows had).1
    exact ⟨liveSet.1, liveSet.2, liveSet.size_eq_ncard laidOut, liveSet.size laidOut⟩
  · intro error failed
    exact liveSet_eq_error laidOut unknown failed

theorem liveSet_exact_gap :
    ∃ index live next, ofSegments
        [{ base := 5, size := 2, live := some (BitView.ofFlags #[false, true, true]) },
          { base := 0, size := 3 }] = .ok index ∧
      index.liveSet {} = .ok (live, next) ∧ live.set.size = 4 ∧ live.set.Holds 6 := by
  let late : Segment :=
    { base := 5, size := 2, live := some (BitView.ofFlags #[false, true, true]) }
  let early : Segment := { base := 0, size := 3 }
  have made : ofSegments [late, early] = .ok ⟨[late, early], 7, 4, none⟩ := by
    rw [ofSegments, Segment.mergeSort_spans_pair (by decide)]
    rfl
  have covered : ∀ segment ∈ [late, early], segment.Covered := by
    intro segment member view recorded
    simp only [List.mem_cons, List.not_mem_nil, or_false] at member
    rcases member with rfl | rfl
    · cases recorded
      decide
    · cases recorded
  rcases @liveSet_exact _ {} _ _ made rfl with ⟨possible, exact, _⟩
  rcases possible.mpr (.inr covered) with ⟨live, next, had⟩
  rcases exact live next had with ⟨_, members, _, counted⟩
  have last : (⟨[late, early], 7, 4, none⟩ : Index).IsLive 6 :=
    ⟨late, .head _, 1, by decide, by decide, rfl⟩
  exact ⟨_, live, next, made, had, counted, (members 6).mpr last⟩

/-- Two of three documents are recorded, both of them live. They are counted, and a query
finds them, but the set of them cannot be made. -/
theorem not_forall_liveSet_isOk :
    ¬ ∀ (segments : List Segment) (budget : Option Nat) (index : Index),
      ofSegments segments budget = .ok index →
        ∃ live next, index.liveSet {} = .ok (live, next) := by
  intro all
  let segment : Segment := { base := 0, size := 3, live := some (BitView.ofFlags #[true, true]) }
  have made : ofSegments [segment] = .ok ⟨[segment], 3, 2, none⟩ := by
    rw [ofSegments, List.mergeSort_of_pairwise (by decide)]
    rfl
  rcases all [segment] none _ made with ⟨live, next, had⟩
  rcases (liveSet_isOk_iff (ofSegments_laidOut made).1 rfl).mp ⟨live, next, had⟩ with
    none | covered
  · cases none
  · have enough := covered segment (.head _) _ rfl
    exact absurd enough (by decide)

end Index

end ResultSets
