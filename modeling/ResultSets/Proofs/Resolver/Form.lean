import ResultSets.Proofs.Index.Histories
import ResultSets.Proofs.Resolver.Agreement

namespace ResultSets

/-! The form of the set that a term resolves to. The number of documents that the postings
promise decides first, deleted ones included; what is left of them decides again, but here a
set as large as the limit counts as dense already. A set of that size is therefore sparse only
if the postings promised no more, while evaluating the term always makes it sparse. -/

def SegmentHistory.Retains (history : SegmentHistory) (term : Term) : Prop :=
  ∀ position, position < history.size → history.Indexed position term → history.Live position

namespace TermWalk

variable {index : Index} {policy : Policy} {histories : List SegmentHistory} {term : Term}
  {rows : Rows} {set : IdSet}

theorem Covers.forall_live_iff (covers : Covers index term rows)
    (records : index.Records histories) :
    (∀ entry ∈ entriesOf rows, entry.1.isLive entry.2) ↔
      ∀ history ∈ histories, history.Retains term := by
  constructor
  · intro all history member position below indexed
    rcases covers.exists_row (records.mem_segments.mpr ⟨history, member, rfl⟩) with
      ⟨row, rowMember, same⟩
    have yields : history.toSegment.Yields term row.2 := same ▸ covers.yields row rowMember
    have listed : position ∈ row.2.map UInt32.toNat :=
      (history.toSegment_readable.mem_iff yields position).mpr
        ⟨by rw [history.toSegment_size]; exact below, indexed⟩
    rcases List.mem_map.mp listed with ⟨id, idMember, rfl⟩
    have live := all (row.1, id) (mem_entriesOf.mpr ⟨row, rowMember, rfl, idMember⟩)
    rw [same] at live
    exact (history.isLive_iff below).mp live
  · intro retains entry member
    rcases mem_entriesOf.mp member with ⟨row, rowMember, same, idMember⟩
    rcases records.mem_segments.mp (covers.mem_segments rowMember) with
      ⟨history, historyMember, own⟩
    have yields : history.toSegment.Yields term row.2 := own ▸ covers.yields row rowMember
    rcases (history.toSegment_readable.mem_iff yields entry.2.toNat).mp
      (List.mem_map_of_mem idMember) with ⟨below, indexed⟩
    rw [history.toSegment_size] at below
    rw [← same, ← own]
    exact (history.isLive_iff below).mpr (retains history historyMember _ below indexed)

theorem Covers.resolve_form (covers : Covers index term rows) (records : index.Records histories)
    (shrinks : policy.shrink = true)
    (resolved : resolve index.bound policy index.segments term = .ok set)
    (some : set.size ≠ 0) :
    (set.size < policy.sparseLimit index.bound → set.IsSparse) ∧
    (policy.sparseLimit index.bound < set.size → set.IsDense index.bound) ∧
    (set.size = policy.sparseLimit index.bound →
      ((∀ history ∈ histories, history.Retains term) → set.IsSparse) ∧
        ((∃ history ∈ histories, ¬ history.Retains term) → set.IsDense index.bound)) := by
  have truthful := truthful_of_readable records.readable term
  rcases covers.resolve_live records.laidOut truthful resolved with ⟨_, size, _, formed⟩
  have promised := covers.length_entriesOf records.readable
  have fewer : (entriesOf rows).live.length ≤ (entriesOf rows).length := List.length_filter_le ..
  have form := formed some
  simp only [shrinks, true_and] at form
  refine ⟨fun below => ?_, fun above => ?_, fun limit => ?_⟩
  · rwa [if_pos (.inr below)] at form
  · rwa [if_neg (by omega)] at form
  · have all : (entriesOf rows).live.length = (entriesOf rows).length ↔
        ∀ history ∈ histories, history.Retains term :=
      List.length_filter_eq_length_iff.trans (covers.forall_live_iff records)
    constructor
    · intro retains
      have whole := all.mpr retains
      rwa [if_pos (.inl (by omega))] at form
    · intro lost
      rcases lost with ⟨history, member, lost⟩
      have part := mt all.mp fun retains => lost (retains history member)
      rwa [if_neg (by omega)] at form

end TermWalk

namespace Resolver

/-- Reading the postings of a term and evaluating it resolve to the same members. Unless these
are none, or as many as there are live documents, both sets are sparse below the limit and
dense above it. At the limit the evaluated one is sparse, and the other one only if no
document of the term has been deleted. -/
theorem ofTerm_form {histories : List SegmentHistory} {index : Index}
    (made : Index.ofSegments (histories.map (·.toSegment)) = .ok index)
    {first second : Session} (firstReached : Session.Evolves index {} first)
    (secondReached : Session.Evolves index {} second) {policy : Policy}
    (shrinks : policy.shrink = true) (term : Term) :
    ∃ docs next others later,
      (index.resolver policy).ofTerm term first = .ok (docs, next) ∧
      (index.resolver policy).evaluate (.term term) second = .ok (others, later) ∧
      (∀ document, docs.set.Holds document ↔ others.set.Holds document) ∧
      docs.set.size = others.set.size ∧
      (docs.set.size ≠ 0 → docs.set.size ≠ index.liveCount →
        ((docs.set.size < policy.sparseLimit index.bound → docs.set.IsSparse) ∧
          (policy.sparseLimit index.bound < docs.set.size → docs.set.IsDense index.bound) ∧
          (docs.set.size = policy.sparseLimit index.bound →
            ((∀ history ∈ histories, history.Retains term) → docs.set.IsSparse) ∧
              ((∃ history ∈ histories, ¬ history.Retains term) →
                docs.set.IsDense index.bound))) ∧
        (docs.set.size ≤ policy.sparseLimit index.bound → others.set.IsSparse) ∧
        (policy.sparseLimit index.bound < docs.set.size → others.set.IsDense index.bound)) := by
  have records := Index.Records.of_ofSegments made
  have laidOut := records.laidOut
  rcases TermWalk.resolve_finds laidOut policy records.readable with
    ⟨set, walked, wellFormed, finds⟩
  rcases TermWalk.exists_covers fun segment member =>
    (records.readable segment member).elim fun _ reads => reads.exists_yields term with
    ⟨rows, covers⟩
  rcases ofTerm_of_resolve laidOut policy (records.knows firstReached) walked with
    ⟨docs, next, resolved, docsWellFormed, members, kept⟩
  rcases evaluate_of_covers laidOut records.unbounded covers policy
    (records.knows secondReached) with
    ⟨others, later, evaluated, othersWellFormed, found, form⟩
  have equal : ∀ document, docs.set.Holds document ↔ others.set.Holds document := by
    intro document
    rw [members, finds, found, covers.finds_iff]
  have sizes := IdSet.size_eq_of_holds docsWellFormed othersWellFormed equal
  refine ⟨docs, next, others, later, resolved, evaluated, equal, sizes, fun some other => ?_⟩
  constructor
  · rw [kept other] at some ⊢
    exact covers.resolve_form records shrinks walked some
  · rw [sizes] at some other ⊢
    have chosen := form some other
    constructor
    · intro few
      rwa [if_pos few] at chosen
    · intro many
      rwa [if_neg (Nat.not_le_of_lt many)] at chosen

/-! ## A set at the limit

Six of ten documents are put under a term, and the first of them is deleted. As many are left as
a sparse set may have. -/

def sixOfTen : SegmentHistory where
  base := 0
  size := 10
  edits := [.add ⟨"f", "x"⟩ 0, .add ⟨"f", "x"⟩ 1, .add ⟨"f", "x"⟩ 2, .add ⟨"f", "x"⟩ 3,
    .add ⟨"f", "x"⟩ 4, .add ⟨"f", "x"⟩ 5, .delete 0]

theorem ofTerm_sixOfTen :
    ∃ index docs next, Index.ofSegments ([sixOfTen].map (·.toSegment)) = .ok index ∧
      index.bound = 10 ∧ index.liveCount = 9 ∧
      (index.resolver {}).ofTerm ⟨"f", "x"⟩ {} = .ok (docs, next) ∧
      docs.set.size = 5 ∧ docs.set.IsDense 10 := by
  have made : Index.ofSegments ([sixOfTen].map (·.toSegment)) =
      .ok ⟨[sixOfTen.toSegment], 10, 9, none⟩ := by
    rw [Index.ofSegments, List.mergeSort_of_pairwise (by decide)]
    rfl
  have entered : sixOfTen.draft.idsOf? ⟨"f", "x"⟩ = some #[0, 1, 2, 3, 4, 5] := by
    decide +kernel
  have listed : sixOfTen.toSegment.postings ⟨"f", "x"⟩ =
      .ok (some ⟨6, [.ok 0, .ok 1, .ok 2, .ok 3, .ok 4, .ok 5]⟩) := by
    change Except.ok ((sixOfTen.draft.idsOf? ⟨"f", "x"⟩).map _) = _
    rw [entered]
    rfl
  rcases Bitmap.ofPositions_eq_ok 10 [1, 2, 3, 4, 5] (by decide) with
    ⟨bitmap, built, length, _⟩
  have walked : TermWalk.resolve 10 {} [sixOfTen.toSegment] ⟨"f", "x"⟩ =
      .ok (.dense bitmap 5) := by
    have sorted : Segment.ordered [sixOfTen.toSegment] = [sixOfTen.toSegment] :=
      List.mergeSort_singleton _
    rw [TermWalk.resolve, sorted, TermWalk.gather, listed]
    change (Bitmap.ofPositions 10 [1, 2, 3, 4, 5]).map (IdSet.dense · 5) = _
    rw [built]
    rfl
  refine ⟨_, ⟨1, .dense bitmap 5⟩, { issued := 1 }, made, rfl, rfl, ?_, rfl, length⟩
  rw [ofTerm_eq, walked]
  rfl

theorem ofTerm_form_limit :
    ∃ index docs next others later,
      Index.ofSegments ([sixOfTen].map (·.toSegment)) = .ok index ∧
      (index.resolver {}).ofTerm ⟨"f", "x"⟩ {} = .ok (docs, next) ∧
      (index.resolver {}).evaluate (.term ⟨"f", "x"⟩) {} = .ok (others, later) ∧
      docs.set.size = 5 ∧ docs.set.IsDense 10 ∧ others.set.IsSparse := by
  rcases ofTerm_sixOfTen with ⟨index, docs, next, made, bound, count, resolved, size, dense⟩
  rcases @ofTerm_form _ _ made {} {} .refl .refl {} rfl ⟨"f", "x"⟩ with
    ⟨_, _, others, later, same, evaluated, _, _, forms⟩
  cases resolved.symm.trans same
  have limit : Policy.sparseLimit {} 10 = 5 := by decide
  rw [bound, limit, count, size] at forms
  rcases forms (by decide) (by decide) with ⟨⟨_, _, boundary⟩, few, _⟩
  have lost : ¬ sixOfTen.Retains ⟨"f", "x"⟩ := by
    intro retains
    have live := retains 0 (by decide) ⟨0, by simp [sixOfTen], rfl⟩
    exact live.2 0 (by simp [sixOfTen]) rfl
  exact ⟨index, docs, next, others, later, made, resolved, evaluated, size,
    (boundary rfl).2 ⟨sixOfTen, .head _, lost⟩, few (by decide)⟩

/-- A set of no more members than a sparse one may have can be dense. -/
theorem not_forall_ofTerm_isSparse :
    ¬ ∀ (histories : List SegmentHistory) (index : Index) (policy : Policy) (term : Term)
        (docs : Shared) (next : Session),
      Index.ofSegments (histories.map (·.toSegment)) = .ok index → policy.shrink = true →
        (index.resolver policy).ofTerm term {} = .ok (docs, next) →
          docs.set.size ≠ 0 → docs.set.size ≠ index.liveCount →
            docs.set.size ≤ policy.sparseLimit index.bound → docs.set.IsSparse := by
  intro all
  rcases ofTerm_sixOfTen with ⟨index, docs, next, made, bound, count, resolved, size, dense⟩
  have sparse : docs.set.IsSparse := by
    apply all [sixOfTen] index {} ⟨"f", "x"⟩ docs next made rfl resolved
    · rw [size]
      decide
    · rw [size, count]
      decide
    · rw [size, bound]
      decide
  exact sparse.not_isDense 10 dense

end Resolver

end ResultSets
