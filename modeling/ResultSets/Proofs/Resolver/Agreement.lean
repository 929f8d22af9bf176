import ResultSets.Proofs.Resolver.Postings
import ResultSets.Proofs.Resolver.Resolve

namespace ResultSets.Resolver

/-! The two ways to resolve a term: reading its postings in the order of the bases, and
evaluating it like any other query. What the first finds the second finds too, whatever the
postings and the deletions are. The second asks for less, so it may go through where the
first does not; where all postings are in order, that is only so if they promise more than there
is room for. -/

variable {index : Index} {policy : Policy} {term : Term} {first second next : Session}
  {docs others : Shared}

theorem ofTerm_of_resolve (laidOut : index.LaidOut) (policy : Policy) (knows : first.Knows index)
    {set : IdSet} (resolved : TermWalk.resolve index.bound policy index.segments term = .ok set) :
    ∃ docs next, (index.resolver policy).ofTerm term first = .ok (docs, next) ∧
      docs.set.WellFormed ∧ (∀ document, docs.set.Holds document ↔ set.Holds document) ∧
      (docs.set.size ≠ index.liveCount → docs.set = set) := by
  rw [ofTerm_eq, resolved]
  exact share_settle_eq_ok laidOut policy knows
    (TermWalk.resolve_wellFormed laidOut.stop_le_count resolved)

theorem resolve_of_ofTerm
    (resolved : (index.resolver policy).ofTerm term first = .ok (docs, next)) :
    ∃ set, TermWalk.resolve index.bound policy index.segments term = .ok set := by
  rw [ofTerm_eq] at resolved
  split at resolved
  · cases resolved
  · next set walked => exact ⟨set, walked⟩

theorem evaluate_of_covers (laidOut : index.LaidOut) (unbounded : index.budget = none)
    {rows : TermWalk.Rows} (covers : TermWalk.Covers index term rows) (policy : Policy)
    (knows : second.Knows index) :
    ∃ others later, (index.resolver policy).evaluate (.term term) second = .ok (others, later) ∧
      others.set.WellFormed ∧
      (∀ document, others.set.Holds document ↔
        ∃ row ∈ rows, ∃ id ∈ row.2, row.1.isLive id ∧
          document = row.1.base.toNat + id.toNat) ∧
      (others.set.size ≠ 0 → others.set.size ≠ index.liveCount →
        if others.set.size ≤ policy.sparseLimit index.bound then others.set.IsSparse
        else others.set.IsDense index.bound) := by
  rcases evaluate_eq_settle laidOut unbounded covers.evaluatesIn policy with
    ⟨documents, set, held, finds, evaluates⟩
  rcases share_settle_eq_ok laidOut policy knows held.1 with
    ⟨others, later, settles, wellFormed, members, kept⟩
  refine ⟨others, later, (evaluates second).trans settles, wellFormed, fun document => ?_,
    fun some other => ?_⟩
  · rw [members, held.2.1, finds, covers.finds_iff]
  · rw [kept other] at some ⊢
    exact held.form_of_size some

theorem evaluate_of_ofTerm (laidOut : index.LaidOut) (unbounded : index.budget = none)
    (truthful : ∀ segment ∈ index.segments, segment.Truthful term)
    (firstKnows : first.Knows index) (secondKnows : second.Knows index)
    (resolved : (index.resolver policy).ofTerm term first = .ok (docs, next)) :
    ∃ others later, (index.resolver policy).evaluate (.term term) second = .ok (others, later) ∧
      (∀ document, docs.set.Holds document ↔ others.set.Holds document) ∧
      (docs.set == others.set) = true := by
  rcases resolve_of_ofTerm resolved with ⟨set, walked⟩
  rcases ofTerm_of_resolve laidOut policy firstKnows walked with
    ⟨again, _, same, wellFormed, members, _⟩
  cases resolved.symm.trans same
  have yields := TermWalk.yields_of_resolve laidOut.stop_le_count truthful walked
  rcases TermWalk.exists_covers yields with ⟨rows, covers⟩
  have listed := (covers.resolve_members laidOut truthful walked).2
  rcases evaluate_of_covers laidOut unbounded covers policy secondKnows with
    ⟨others, later, evaluated, othersWellFormed, found, _⟩
  have equal : ∀ document, docs.set.Holds document ↔ others.set.Holds document := by
    intro document
    rw [members, listed, found]
  exact ⟨others, later, evaluated, equal,
    IdSet.beq_of_holds wellFormed othersWellFormed equal⟩

theorem ofTerm_of_evaluate (laidOut : index.LaidOut) (unbounded : index.budget = none)
    (truthful : ∀ segment ∈ index.segments, segment.Truthful term)
    (orderly : ∀ segment ∈ index.segments, segment.Orderly term)
    (countable : TermWalk.promisedIn term index.segments < UInt64.size)
    (rowFits : TermWalk.RowFits (policy.sparseLimit index.bound)
      (TermWalk.promisedIn term index.segments))
    (firstKnows : first.Knows index)
    (evaluated : (index.resolver policy).evaluate (.term term) second = .ok (others, next)) :
    ∃ docs later, (index.resolver policy).ofTerm term first = .ok (docs, later) := by
  have yields : ∀ segment ∈ index.segments, ∃ ids, segment.Yields term ids ∧
      ∀ id ∈ ids, id.toNat < segment.size := by
    intro segment member
    rcases hits_of_evaluate laidOut unbounded evaluated segment member with ⟨hits, found⟩
    exact Segment.yields_of_termHits found
  rcases TermWalk.exists_covers yields with ⟨rows, covers⟩
  rcases covers.resolve_isOk laidOut truthful orderly countable rowFits with ⟨set, walked⟩
  rcases ofTerm_of_resolve laidOut policy firstKnows walked with ⟨docs, later, resolved, _⟩
  exact ⟨docs, later, resolved⟩

/-- What reading the postings of a term resolves to, evaluating the term does as well, and the
sets are equal. Where the postings ascend and hold no more than they promise, either way can
be gone exactly if the other can, unless a row is to be filled and there is no room for as many
as are promised. -/
theorem ofTerm_agrees {segments : List Segment} (made : Index.ofSegments segments = .ok index)
    (truthful : ∀ segment ∈ segments, segment.Truthful term)
    (countable : TermWalk.promisedIn term segments < UInt64.size)
    (firstReached : Session.Evolves index {} first)
    (secondReached : Session.Evolves index {} second) (policy : Policy) :
    (∀ docs next, (index.resolver policy).ofTerm term first = .ok (docs, next) →
      ∃ others later,
        (index.resolver policy).evaluate (.term term) second = .ok (others, later) ∧
          (∀ document, docs.set.Holds document ↔ others.set.Holds document) ∧
            (docs.set == others.set) = true) ∧
    ((∀ segment ∈ segments, segment.Orderly term) →
      ((∃ docs next, (index.resolver policy).ofTerm term first = .ok (docs, next)) ↔
        TermWalk.RowFits (policy.sparseLimit index.bound) (TermWalk.promisedIn term segments) ∧
          ∃ others later,
            (index.resolver policy).evaluate (.term term) second = .ok (others, later))) := by
  rcases Index.ofSegments_laidOut made with ⟨laidOut, rfl, unbounded⟩
  have firstKnows := firstReached.knows laidOut (Session.knows_blank index)
  have secondKnows := secondReached.knows laidOut (Session.knows_blank index)
  have forth := fun docs next => @evaluate_of_ofTerm index policy term first second next docs
    laidOut unbounded truthful firstKnows secondKnows
  apply And.intro forth
  intro orderly
  constructor
  · intro found
    rcases found with ⟨docs, next, resolved⟩
    rcases resolve_of_ofTerm resolved with ⟨set, walked⟩
    rcases forth docs next resolved with ⟨others, later, evaluated, _⟩
    exact ⟨TermWalk.rowFits_of_resolve laidOut.stop_le_count walked, others, later, evaluated⟩
  · intro found
    rcases found with ⟨rowFits, others, later, evaluated⟩
    exact ofTerm_of_evaluate laidOut unbounded truthful orderly countable rowFits firstKnows
      evaluated

/-- Two segments listed in reverse. Both promise more than two documents, and the earlier one
has recorded deletions for two of its four documents only. -/
theorem ofTerm_agrees_reverse :
    ∃ index docs next others later, Index.ofSegments
        [{ base := 5, size := 4,
           postings := fun _ => .ok (some { frequency := 3, items := [.ok 1] }) },
          { base := 0, size := 4, live := some (BitView.ofFlags #[false, true]),
            postings := fun _ => .ok (some { frequency := 3, items := [.ok 0, .ok 1, .ok 3] }) }] =
          .ok index ∧
      (index.resolver { shrink := false }).ofTerm ⟨"f", "x"⟩ {} = .ok (docs, next) ∧
      (index.resolver { shrink := false }).evaluate (.term ⟨"f", "x"⟩) {} =
        .ok (others, later) ∧
      docs.set.IsDense 9 ∧ docs.set.Holds 6 ∧ (docs.set == others.set) = true := by
  let late : Segment :=
    { base := 5, size := 4,
      postings := fun _ => .ok (some { frequency := 3, items := [.ok 1] }) }
  let early : Segment :=
    { base := 0, size := 4, live := some (BitView.ofFlags #[false, true]),
      postings := fun _ => .ok (some { frequency := 3, items := [.ok 0, .ok 1, .ok 3] }) }
  let index : Index := ⟨[late, early], 9, 5, none⟩
  have made : Index.ofSegments [late, early] = .ok index := by
    rw [Index.ofSegments, Segment.mergeSort_spans_pair (by decide)]
    rfl
  have truthful : ∀ segment ∈ [late, early], segment.Truthful ⟨"f", "x"⟩ := by
    intro segment member postings found nothing
    simp only [List.mem_cons, List.not_mem_nil, or_false] at member
    rcases member with rfl | rfl
    · cases found
      cases nothing
    · cases found
      cases nothing
  have orderly : ∀ segment ∈ [late, early], segment.Orderly ⟨"f", "x"⟩ := by
    intro segment member ids yields
    simp only [List.mem_cons, List.not_mem_nil, or_false] at member
    rcases member with rfl | rfl
    · cases yields.unique (show late.Yields _ [1] from .inr ⟨3, rfl⟩)
      decide
    · cases yields.unique (show early.Yields _ [0, 1, 3] from .inr ⟨3, rfl⟩)
      decide
  rcases Bitmap.ofPositions_eq_ok 9 [1, 6] (by decide) with ⟨bitmap, built, length, _, members⟩
  have sorted : Segment.ordered [late, early] = [early, late] := Segment.ordered_pair (by decide)
  have walked : TermWalk.resolve 9 { shrink := false } [late, early] ⟨"f", "x"⟩ =
      .ok (.dense bitmap 2) := by
    rw [TermWalk.resolve, sorted]
    change (Bitmap.ofPositions 9 [1, 6]).map (IdSet.dense · 2) = _
    rw [built]
    rfl
  have resolved : (index.resolver { shrink := false }).ofTerm ⟨"f", "x"⟩ {} =
      .ok (⟨1, .dense bitmap 2⟩, { issued := 1 }) := by
    rw [ofTerm_eq, walked]
    rfl
  have promised : TermWalk.promisedIn ⟨"f", "x"⟩ [late, early] = 6 := by
    rw [TermWalk.promisedIn, sorted]
    rfl
  rcases @ofTerm_agrees _ ⟨"f", "x"⟩ {} {} _ made truthful (by rw [promised]; decide) .refl .refl
    { shrink := false } with ⟨agrees, possible⟩
  rcases (possible orderly).mp ⟨_, _, resolved⟩ with ⟨_, others, later, evaluated⟩
  rcases agrees _ _ resolved with ⟨again, _, same, _, equal⟩
  cases evaluated.symm.trans same
  exact ⟨index, _, _, others, later, made, resolved, evaluated, length,
    ⟨6, (members 6).mpr (by decide), rfl⟩, equal⟩

/-- The one document of a term that promises more than there is room for is found by evaluating
the term only. -/
theorem not_forall_ofTerm_agrees :
    ¬ ∀ (segments : List Segment) (index : Index) (policy : Policy) (term : Term)
        (others : Shared) (later : Session), Index.ofSegments segments = .ok index →
      (∀ segment ∈ segments, segment.Truthful term) →
        TermWalk.promisedIn term segments < UInt64.size →
          (∀ segment ∈ segments, segment.Orderly term) →
            (index.resolver policy).evaluate (.term term) {} = .ok (others, later) →
              ∃ docs next, (index.resolver policy).ofTerm term {} = .ok (docs, next) := by
  intro all
  have laidOut := (Index.ofSegments_laidOut ofSegments_overpromising).1
  have yields : overpromising.Yields ⟨"f", "x"⟩ [0] := .inr ⟨_, rfl⟩
  have truthful : ∀ segment ∈ [overpromising], segment.Truthful ⟨"f", "x"⟩ := by
    rw [List.forall_mem_singleton]
    intro postings found nothing
    cases found
    cases nothing
  have orderly : ∀ segment ∈ [overpromising], segment.Orderly ⟨"f", "x"⟩ := by
    rw [List.forall_mem_singleton]
    intro ids yielded
    cases yielded.unique yields
    exact ⟨by decide, by decide⟩
  have covers : TermWalk.Covers ⟨[overpromising], 4, 4, none⟩ ⟨"f", "x"⟩ [(overpromising, [0])] :=
    ⟨ordered_overpromising.symm, List.forall_mem_singleton.mpr yields, by simp [overpromising]⟩
  rcases evaluate_of_covers laidOut rfl covers lavish (Session.knows_blank _) with
    ⟨others, later, evaluated, _⟩
  rcases all [overpromising] _ lavish ⟨"f", "x"⟩ others later ofSegments_overpromising truthful
    (by rw [promisedIn_overpromising]; decide) orderly evaluated with ⟨docs, next, resolved⟩
  cases (ofTerm_overpromising _ _).symm.trans resolved

end ResultSets.Resolver
