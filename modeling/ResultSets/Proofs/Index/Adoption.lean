import ResultSets.Proofs.Index.Admission

namespace ResultSets

/-! Which sets are adopted as the set of all live documents. The check walks once over the members
of a candidate and over the segments in the order of their bases, and still finds for every member
the only segment that it can be live in. Members that are all live and as many as the index counts
leave no live document out. So a set that is offered while none is remembered is remembered
exactly if it is the set of all live documents. -/

namespace Index

variable {index : Index} {candidate : Shared} {session : Session}

theorem offer_of_unknown (laidOut : index.LaidOut) (wellFormed : candidate.set.WellFormed)
    (unknown : session.live = none) :
    ∃ next, index.offer candidate candidate.set.size session = (candidate, next) ∧
      (next = { session with live := some candidate } ↔ index.IsLiveSet candidate.set) ∧
      (next = session ↔ ¬ index.IsLiveSet candidate.set) := by
  have changes : session ≠ { session with live := some candidate } := by
    intro same
    cases unknown.symm.trans (congrArg Session.live same)
  by_cases liveSet : index.IsLiveSet candidate.set
  · have adopted := offer_of_isLiveSet laidOut liveSet session
    rw [unknown, Option.getD_none] at adopted
    rw [liveSet.size laidOut]
    exact ⟨_, adopted, iff_of_true rfl liveSet,
      iff_of_false changes.symm fun other => other liveSet⟩
  · have refused : index.offer candidate candidate.set.size session = (candidate, session) :=
      offer_of_not_isLiveSet laidOut wellFormed (fun both => liveSet both.1) session
    exact ⟨session, refused, iff_of_false changes liveSet, iff_of_true rfl liveSet⟩

/-- A set passes the check exactly if each of its members lies in one of the segments and is live
there. It passes with as many members as the index counts exactly if it holds the live documents
and no others, and exactly then it is remembered when it is offered with its own size and none is
remembered yet. -/
theorem offer_adopts {segments : List Segment} {budget : Option Nat}
    (made : ofSegments segments budget = .ok index) (wellFormed : candidate.set.WellFormed) :
    (index.holdsOnlyLive candidate.set ↔
      ∀ id ∈ candidate.set, ∃ segment ∈ segments,
        segment.span.Holds id.toNat ∧ segment.isLive (id - segment.base)) ∧
    (index.holdsOnlyLive candidate.set ∧ candidate.set.size = index.liveCount ↔
      ∀ document, candidate.set.Holds document ↔ index.IsLive document) ∧
    ∀ session : Session, session.live = none →
      ∃ next, index.offer candidate candidate.set.size session = (candidate, next) ∧
        (next = { session with live := some candidate } ↔
          ∀ document, candidate.set.Holds document ↔ index.IsLive document) ∧
        (next = session ↔
          ¬ ∀ document, candidate.set.Holds document ↔ index.IsLive document) := by
  rcases ofSegments_laidOut made with ⟨laidOut, listed, _⟩
  have liveSet : index.IsLiveSet candidate.set ↔
      ∀ document, candidate.set.Holds document ↔ index.IsLive document :=
    and_iff_right wellFormed
  rw [← listed, ← liveSet]
  have lies := holdsOnlyLive_iff_lies laidOut wellFormed
  have counted := isLiveSet_iff laidOut wellFormed
  exact ⟨lies, counted.symm, fun session => offer_of_unknown laidOut wellFormed⟩

/-- A segment without documents shares the base of a later one, and the deletions of the first
are recorded for two of its three documents. One candidate holds the live documents. The other
one, with as many members, holds a document between the segments instead. -/
theorem offer_adopts_shared_base :
    ∃ index, ofSegments
        [{ base := 5, size := 2, live := some (BitView.ofFlags #[true, true, false]) },
          { base := 5, size := 0 },
          { base := 0, size := 3, live := some (BitView.ofFlags #[true, false]) }] = .ok index ∧
      index.offer ⟨1, .sparse #[0, 5, 6]⟩ 3 {} =
        (⟨1, .sparse #[0, 5, 6]⟩, { live := some ⟨1, .sparse #[0, 5, 6]⟩ }) ∧
      index.offer ⟨1, .sparse #[0, 4, 5]⟩ 3 {} = (⟨1, .sparse #[0, 4, 5]⟩, {}) := by
  let late : Segment :=
    { base := 5, size := 2, live := some (BitView.ofFlags #[true, true, false]) }
  let hollow : Segment := { base := 5, size := 0 }
  let early : Segment := { base := 0, size := 3, live := some (BitView.ofFlags #[true, false]) }
  have made : ofSegments [late, hollow, early] = .ok ⟨[late, hollow, early], 7, 3, none⟩ :=
    ofSegments_of_apart (by decide) none
  have live : ∀ document, (⟨[late, hollow, early], 7, 3, none⟩ : Index).IsLive document ↔
      document ∈ [5, 6, 0] := fun document => mem_liveList.symm
  have whole : Ascending #[0, 5, 6].toList := by decide
  have stray : Ascending #[0, 4, 5].toList := by decide
  refine ⟨_, made, ?_, ?_⟩
  · rcases (@offer_adopts _ ⟨1, .sparse #[0, 5, 6]⟩ _ _ made whole).2.2 {} rfl with
      ⟨next, offered, adopted, _⟩
    have same : ∀ document, (IdSet.sparse #[0, 5, 6]).Holds document ↔
        (⟨[late, hollow, early], 7, 3, none⟩ : Index).IsLive document := by
      intro document
      rw [IdSet.holds_sparse whole, live]
      exact (@List.perm_append_comm _ [0] [5, 6]).mem_iff
    cases adopted.mpr same
    exact offered
  · rcases (@offer_adopts _ ⟨1, .sparse #[0, 4, 5]⟩ _ _ made stray).2.2 {} rfl with
      ⟨next, offered, _, kept⟩
    have between : (IdSet.sparse #[0, 4, 5]).Holds 4 := (IdSet.holds_sparse stray 4).mpr (by decide)
    cases kept.mpr fun same => absurd ((live 4).mp ((same 4).mp between)) (by decide)
    exact offered

end Index

end ResultSets
