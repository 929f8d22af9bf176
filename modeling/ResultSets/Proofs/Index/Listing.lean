import ResultSets.Proofs.Index.Live

namespace ResultSets

/-! Indexes that list the same segments in different orders. They are laid out alike and have
the same live documents. In the order of their bases the segments come out alike as well,
those without documents left aside, which may share a base with another. -/

theorem total_eq_of_perm {counts others : List Nat} (perm : counts.Perm others) :
    total counts = total others := perm.sum_nat

namespace Span

theorem le_iff {left right : Span} : left.le right = true ↔
    left.start < right.start ∨ left.start = right.start ∧ left.stop ≤ right.stop := by
  simp [le]

theorem mergeSort_pairwise (spans : List Span) :
    (spans.mergeSort le).Pairwise fun left right => left.le right :=
  List.pairwise_mergeSort
    (fun _ _ _ before after => by rw [le_iff] at *; omega)
    (fun _ _ => by rw [Bool.or_eq_true, le_iff, le_iff]; omega) spans

theorem mergeSort_eq_of_perm {spans others : List Span} (perm : spans.Perm others) :
    spans.mergeSort le = others.mergeSort le := by
  have same :=
    ((List.mergeSort_perm spans le).trans perm).trans (List.mergeSort_perm others le).symm
  refine same.eq_of_pairwise (fun left right _ _ before after => ?_) (mergeSort_pairwise spans)
    (mergeSort_pairwise others)
  rcases left with ⟨start, stop⟩
  rcases right with ⟨otherStart, otherStop⟩
  simp only [le_iff] at before after
  rw [Span.mk.injEq]
  omega

end Span

namespace Segment

variable {segments others : List Segment}

theorem ordered_nonempty_pairwise (apart : segments.Pairwise Apart) :
    ((ordered segments).filter (0 < ·.size)).Pairwise fun left right =>
      left.base.toNat < right.base.toNat := by
  refine ((ordered_pairwise apart).filter _).imp_of_mem ?_
  intro left right leftMember rightMember relation
  rcases relation with ⟨order, apart⟩
  have leftSome : 0 < left.size := by simpa using (List.mem_filter.mp leftMember).2
  have rightSome : 0 < right.size := by simpa using (List.mem_filter.mp rightMember).2
  have leftStop : left.stop = left.base.toNat + left.size := rfl
  have rightStop : right.stop = right.base.toNat + right.size := rfl
  rcases apart with before | after
  · omega
  · omega

theorem ordered_nonempty_eq_of_perm (apart : segments.Pairwise Apart)
    (perm : segments.Perm others) :
    (ordered segments).filter (0 < ·.size) = (ordered others).filter (0 < ·.size) := by
  have otherApart : others.Pairwise Apart := (perm.pairwise_iff Apart.symm).mp apart
  have same : (ordered segments).Perm (ordered others) :=
    ((List.mergeSort_perm segments _).trans perm).trans (List.mergeSort_perm others _).symm
  refine (same.filter _).eq_of_pairwise (fun left right _ _ before after => ?_)
    (ordered_nonempty_pairwise apart) (ordered_nonempty_pairwise otherApart)
  omega

end Segment

namespace Index

variable {index : Index} {others : List Segment}

def relist (index : Index) (others : List Segment) : Index := { index with segments := others }

theorem ofSegments_relist {segments : List Segment} {budget : Option Nat}
    (made : ofSegments segments budget = .ok index) (perm : segments.Perm others) :
    ofSegments others budget = .ok (index.relist others) := by
  have spans := Span.mergeSort_eq_of_perm (perm.map Segment.span)
  have counts := total_eq_of_perm (perm.map Segment.liveCount)
  rw [ofSegments, spans, counts] at made
  rw [ofSegments]
  split at made
  · cases made
  · dsimp only at made
    split at made
    · cases made
    · next within =>
        cases made
        exact if_neg within

theorem LaidOut.relist (laidOut : index.LaidOut) (perm : index.segments.Perm others) :
    (index.relist others).LaidOut where
  apart := (perm.pairwise_iff Segment.Apart.symm).mp laidOut.apart
  inside := fun segment member => laidOut.inside segment (perm.mem_iff.mpr member)
  within := laidOut.within
  counted := laidOut.counted.trans (total_eq_of_perm (perm.map Segment.liveCount))

theorem isLive_relist (perm : index.segments.Perm others) (document : Nat) :
    (index.relist others).IsLive document ↔ index.IsLive document := by
  simp only [IsLive, relist, perm.mem_iff]

theorem isLiveSet_relist (perm : index.segments.Perm others) (set : IdSet) :
    (index.relist others).IsLiveSet set ↔ index.IsLiveSet set := by
  simp only [IsLiveSet, isLive_relist perm]

theorem offer_relist (laidOut : index.LaidOut) (perm : index.segments.Perm others)
    {candidate : Shared} (wellFormed : candidate.set.WellFormed) (size : Nat)
    (session : Session) :
    (index.relist others).offer candidate size session = index.offer candidate size session := by
  have relisted := laidOut.relist perm
  by_cases full : index.IsLiveSet candidate.set ∧ size = index.liveCount
  · rcases full with ⟨liveSet, rfl⟩
    have otherLiveSet := (isLiveSet_relist perm candidate.set).mpr liveSet
    exact (offer_of_isLiveSet relisted otherLiveSet session).trans
      (offer_of_isLiveSet laidOut liveSet session).symm
  · rw [offer_of_not_isLiveSet laidOut wellFormed full]
    rw [← isLiveSet_relist perm] at full
    exact offer_of_not_isLiveSet relisted wellFormed full session

end Index

end ResultSets
