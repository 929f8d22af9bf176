import ResultSets.Proofs.Segment.Postings
import ResultSets.Query.Basic

namespace ResultSets

/-! What queries mean, and that evaluating them in a segment finds just this. The meaning
of a query is given for one document at a time: by the terms that the document is indexed
under, and by its number. -/

/-! ## Meaning -/

namespace Query

/-- What clauses require of a document, given which of them hold for it. -/
def Meets (clauses : List (Occur × Prop)) : Prop :=
  clauses ≠ [] ∧
    (∀ clause ∈ clauses, clause.1 = .mustNot → ¬ clause.2) ∧
    (∀ clause ∈ clauses, clause.1 = .must ∨ clause.1 = .filter → clause.2) ∧
    ((∀ clause ∈ clauses, ¬ (clause.1 = .must ∨ clause.1 = .filter)) →
      (∃ clause ∈ clauses, clause.1 = .should) →
        ∃ clause ∈ clauses, clause.1 = .should ∧ clause.2)

end Query

mutual

/-- The query holds for a document that is indexed under the given terms. -/
def Query.Denotes (indexed : Term → Prop) (document : Nat) : Query → Prop
  | .term term => indexed term
  | .all => True
  | .members docs => docs.set.Holds document
  | .boolean clauses => Query.Meets (clauseDenotes indexed document clauses)
  | .custom _ => False
  | .producer _ _ => False

def clauseDenotes (indexed : Term → Prop) (document : Nat) :
    List (Occur × Query) → List (Occur × Prop)
  | [] => []
  | (occur, query) :: rest =>
      (occur, query.Denotes indexed document) :: clauseDenotes indexed document rest

end

mutual

/-- The query is built from terms, well formed sets and all documents alone. -/
def Query.Standard : Query → Prop
  | .term _ => True
  | .all => True
  | .members docs => docs.set.WellFormed
  | .boolean clauses => ClausesStandard clauses
  | .custom _ => False
  | .producer _ _ => False

def ClausesStandard : List (Occur × Query) → Prop
  | [] => True
  | (_, query) :: rest => query.Standard ∧ ClausesStandard rest

end

/-! ## Bitmaps over a segment -/

namespace Bitmap

def Marks (bitmap : Bitmap) (length : Nat) (marked : Nat → Prop) : Prop :=
  bitmap.length = length ∧ ∀ position, position < length → (position ∈ bitmap ↔ marked position)

theorem Marks.mem_iff {bitmap : Bitmap} {length position : Nat} {marked : Nat → Prop}
    (marks : bitmap.Marks length marked) :
    position ∈ bitmap ↔ position < length ∧ marked position := by
  constructor
  · intro member
    have inside : position < length := marks.1 ▸ lt_length_of_mem member
    exact ⟨inside, (marks.2 position inside).mp member⟩
  · intro both
    exact (marks.2 position both.1).mpr both.2

theorem mem_foldl_inter (first : Bitmap) (rest : List Bitmap) (position : Nat) :
    position ∈ rest.foldl inter first ↔ ∀ bitmap ∈ first :: rest, position ∈ bitmap := by
  induction rest generalizing first with
  | nil => simp
  | cons second rest induction =>
      rw [List.foldl_cons, induction]
      simp only [List.forall_mem_cons, mem_inter, and_assoc]

theorem mem_foldl_union (first : Bitmap) (rest : List Bitmap) {position : Nat}
    (inside : position < first.length) :
    position ∈ rest.foldl union first ↔ ∃ bitmap ∈ first :: rest, position ∈ bitmap := by
  induction rest generalizing first with
  | nil => simp
  | cons second rest induction =>
      rw [List.foldl_cons, induction (first.union second) inside]
      simp only [List.exists_mem_cons_iff, mem_union first second inside, or_assoc]

theorem mem_foldl_diff (described : Bitmap) (excluded : List Bitmap) (position : Nat) :
    position ∈ excluded.foldl diff described ↔
      position ∈ described ∧ ∀ bitmap ∈ excluded, position ∉ bitmap := by
  induction excluded generalizing described with
  | nil => simp
  | cons first rest induction =>
      rw [List.foldl_cons, induction, List.forall_mem_cons, mem_diff, and_assoc]

theorem view_get (bitmap : Bitmap) (position : Nat) :
    bitmap.view.get position = true ↔ position ∈ bitmap := by
  refine Bool.and_eq_true_iff.trans ⟨fun both => both.2, fun member => ⟨?_, member⟩⟩
  exact decide_eq_true (lt_length_of_mem member)

theorem length_foldl {operation : Bitmap → Bitmap → Bitmap}
    (same : ∀ left right, (operation left right).length = left.length) (first : Bitmap)
    (rest : List Bitmap) : (rest.foldl operation first).length = first.length := by
  induction rest generalizing first with
  | nil => rfl
  | cons second rest induction => exact (induction _).trans (same first second)

end Bitmap

/-! ## Clauses

Clauses are combined to the documents that meet them: first to those that are described, from
which others are then excluded. -/

namespace Query

theorem mem_requiredHits {evaluated : List (Occur × Bitmap)} {hits : Bitmap} :
    hits ∈ requiredHits evaluated ↔
      ∃ clause ∈ evaluated, (clause.1 = .must ∨ clause.1 = .filter) ∧ clause.2 = hits := by
  simp only [requiredHits, List.mem_filterMap, Option.ite_none_right_eq_some, Option.some.injEq]

theorem mem_optionalHits {evaluated : List (Occur × Bitmap)} {hits : Bitmap} :
    hits ∈ optionalHits evaluated ↔
      ∃ clause ∈ evaluated, clause.1 = .should ∧ clause.2 = hits := by
  simp only [optionalHits, List.mem_filterMap, Option.ite_none_right_eq_some, Option.some.injEq]

theorem mem_excludedHits {evaluated : List (Occur × Bitmap)} {hits : Bitmap} :
    hits ∈ excludedHits evaluated ↔
      ∃ clause ∈ evaluated, clause.1 = .mustNot ∧ clause.2 = hits := by
  simp only [excludedHits, List.mem_filterMap, Option.ite_none_right_eq_some, Option.some.injEq]

theorem eq_nil_of_hits {evaluated : List (Occur × Bitmap)} (required : requiredHits evaluated = [])
    (optional : optionalHits evaluated = []) (excluded : excludedHits evaluated = []) :
    evaluated = [] := by
  cases evaluated with
  | nil => rfl
  | cons clause rest =>
      rcases clause with ⟨occur, hits⟩
      cases occur with
      | must => simp [requiredHits] at required
      | filter => simp [requiredHits] at required
      | should => simp [optionalHits] at optional
      | mustNot => simp [excludedHits] at excluded

theorem combineHits_eq {size : Nat} {evaluated : List (Occur × Bitmap)}
    (lengths : ∀ clause ∈ evaluated, clause.2.length = size) :
    ∃ described : Bitmap, described.length = size ∧
      combineHits size evaluated = .ok ((excludedHits evaluated).foldl Bitmap.diff described) ∧
      ∀ position, position < size → (position ∈ described ↔
        evaluated ≠ [] ∧ (∀ hits ∈ requiredHits evaluated, position ∈ hits) ∧
          (requiredHits evaluated = [] → optionalHits evaluated ≠ [] →
            ∃ hits ∈ optionalHits evaluated, position ∈ hits)) := by
  cases required : requiredHits evaluated with
  | cons first rest =>
      rcases mem_requiredHits.mp (required ▸ List.mem_cons_self ..) with
        ⟨clause, member, _, rfl⟩
      refine ⟨rest.foldl Bitmap.inter clause.2, ?_, by simp only [combineHits, required]; rfl,
        fun position _ => ?_⟩
      · rw [Bitmap.length_foldl Bitmap.length_inter, lengths clause member]
      · simp [Bitmap.mem_foldl_inter, List.ne_nil_of_mem member]
  | nil =>
      cases optional : optionalHits evaluated with
      | cons first rest =>
          rcases mem_optionalHits.mp (optional ▸ List.mem_cons_self ..) with
            ⟨clause, member, _, rfl⟩
          refine ⟨rest.foldl Bitmap.union clause.2, ?_,
            by simp only [combineHits, required, optional]; rfl, fun position inside => ?_⟩
          · rw [Bitmap.length_foldl Bitmap.length_union, lengths clause member]
          · rw [← lengths clause member] at inside
            simp [Bitmap.mem_foldl_union _ _ inside, List.ne_nil_of_mem member]
      | nil =>
          cases excluded : excludedHits evaluated with
          | nil =>
              refine ⟨Bitmap.blank size, rfl,
                by simp only [combineHits, required, optional, excluded]; rfl,
                fun position inside => ?_⟩
              simp [eq_nil_of_hits required optional excluded, Bitmap.not_mem_blank]
          | cons first rest =>
              rcases mem_excludedHits.mp (excluded ▸ List.mem_cons_self ..) with
                ⟨clause, member, _⟩
              rcases (Bitmap.blank size).insertRange_eq_ok (Nat.zero_le size) (Nat.le_refl size)
                with ⟨full, inserted, length, members⟩
              refine ⟨full, length, ?_, fun position inside => ?_⟩
              · simp only [combineHits, required, optional, excluded, List.isEmpty_cons,
                  Bool.false_eq_true, if_false, inserted]
                rfl
              · simp [members, inside, List.ne_nil_of_mem member]

theorem combineHits_eq_ok {size : Nat} {evaluated : List (Occur × Bitmap)}
    (lengths : ∀ clause ∈ evaluated, clause.2.length = size) :
    ∃ hits, combineHits size evaluated = .ok hits ∧ hits.Marks size fun position =>
      Meets (evaluated.map fun clause => (clause.1, position ∈ clause.2)) := by
  rcases combineHits_eq lengths with ⟨described, length, combined, members⟩
  refine ⟨_, combined, (Bitmap.length_foldl Bitmap.length_diff _ _).trans length,
    fun position inside => ?_⟩
  rw [Bitmap.mem_foldl_diff, members position inside]
  -- Lists of bitmaps are without bitmaps exactly if there are no clauses of their kind.
  have none : requiredHits evaluated = [] ↔
      ∀ clause ∈ evaluated, ¬ (clause.1 = .must ∨ clause.1 = .filter) := by
    rw [List.eq_nil_iff_forall_not_mem]
    simp only [mem_requiredHits, not_exists, not_and]
    exact ⟨fun all clause member required => all clause.2 clause member required rfl,
      fun all hits clause member required => absurd required (all clause member)⟩
  have some : optionalHits evaluated ≠ [] ↔ ∃ clause ∈ evaluated, clause.1 = .should := by
    constructor
    · intro nonempty
      rcases List.exists_mem_of_ne_nil _ nonempty with ⟨hits, member⟩
      rcases mem_optionalHits.mp member with ⟨clause, member, should, _⟩
      exact ⟨clause, member, should⟩
    · rintro ⟨clause, member, should⟩
      exact List.ne_nil_of_mem (mem_optionalHits.mpr ⟨clause, member, should, rfl⟩)
  rw [none, some]
  simp only [Meets, mem_requiredHits, mem_optionalHits, mem_excludedHits, ne_eq,
    List.map_eq_nil_iff, List.forall_mem_map]
  simp only [List.mem_map, exists_exists_and_eq_and]
  constructor
  · rintro ⟨⟨nonempty, required, optional⟩, excluded⟩
    refine ⟨nonempty, fun clause member not => excluded clause.2 ⟨clause, member, not, rfl⟩,
      fun clause member must => required clause.2 ⟨clause, member, must, rfl⟩,
      fun noneRequired someOptional => ?_⟩
    rcases optional noneRequired someOptional with ⟨_, ⟨clause, member, should, rfl⟩, held⟩
    exact ⟨clause, member, should, held⟩
  · rintro ⟨nonempty, excluded, required, optional⟩
    refine ⟨⟨nonempty, ?_, fun noneRequired someOptional => ?_⟩, ?_⟩
    · rintro _ ⟨clause, member, must, rfl⟩
      exact required clause member must
    · rcases optional noneRequired someOptional with ⟨clause, member, should, held⟩
      exact ⟨clause.2, ⟨clause, member, should, rfl⟩, held⟩
    · rintro _ ⟨clause, member, not, rfl⟩
      exact excluded clause member not

end Query

/-! ## Evaluation in a segment -/

namespace Segment

variable {segment : Segment}

theorem termHits_eq_ok {term : Term} {ids : List DocumentId} (yields : segment.Yields term ids)
    (inside : ∀ id ∈ ids, id.toNat < segment.size) :
    ∃ hits, segment.termHits term = .ok hits ∧
      hits.Marks segment.size fun position => position ∈ ids.map UInt32.toNat := by
  have positions : ∀ position ∈ ids.map UInt32.toNat,
      position < (Bitmap.blank segment.size).length := by
    intro position member
    rcases List.mem_map.mp member with ⟨id, listed, rfl⟩
    exact inside id listed
  rcases Bitmap.foldlM_insert _ _ positions with ⟨hits, built, length, _, members⟩
  have marks : hits.Marks segment.size fun position => position ∈ ids.map UInt32.toNat := by
    refine ⟨length, fun position _ => ?_⟩
    rw [members]
    exact or_iff_left (Bitmap.not_mem_blank _ _)
  rcases yields with ⟨absent, rfl⟩ | ⟨frequency, found⟩
  · refine ⟨hits, ?_, marks⟩
    rw [termHits, absent]
    exact built
  · refine ⟨hits, ?_, marks⟩
    rw [termHits, found]
    refine Eq.trans ?_ built
    change (ids.map Except.ok).foldlM _ (Bitmap.blank segment.size) = _
    generalize Bitmap.blank segment.size = bitmap
    clear found positions built length members marks
    induction ids generalizing bitmap with
    | nil => rfl
    | cons id rest induction =>
        have here : ¬ segment.size ≤ id.toNat := Nat.not_le_of_lt (inside id (.head _))
        rw [List.map_cons, List.map_cons, List.foldlM_cons, List.foldlM_cons]
        simp only [bind, Except.bind, here, if_false]
        cases bitmap.insert id.toNat with
        | error error => rfl
        | ok next => exact induction (fun other member => inside other (.tail _ member)) next

theorem yields_of_termHits {term : Term} {hits : Bitmap}
    (evaluated : segment.termHits term = .ok hits) :
    ∃ ids, segment.Yields term ids ∧ ∀ id ∈ ids, id.toNat < segment.size := by
  rw [termHits] at evaluated
  rcases ok_of_bind evaluated with ⟨postings, found, read⟩
  cases postings with
  | none => exact ⟨[], .inl ⟨found, rfl⟩, by simp⟩
  | some postings =>
      apply exists_yields found
      refine forall_of_foldlM_eq_ok (fun bitmap item next stepped => ?_) read
      rcases ok_of_bind stepped with ⟨id, ok, inserted⟩
      refine ⟨id, ok, Nat.lt_of_not_le fun beyond => ?_⟩
      rw [if_pos beyond] at inserted
      cases inserted

theorem allHits_eq_ok (segment : Segment) :
    ∃ hits, segment.allHits = .ok hits ∧ hits.Marks segment.size fun _ => True := by
  rcases (Bitmap.blank segment.size).insertRange_eq_ok (Nat.zero_le segment.size)
    (Nat.le_refl segment.size) with ⟨hits, inserted, length, members⟩
  refine ⟨hits, inserted, length, fun position inside => ?_⟩
  rw [members]
  exact iff_of_true (.inl ⟨Nat.zero_le _, inside⟩) trivial

private theorem denseHits_eq_ok (segment : Segment) {bitmap : Bitmap} {size : Nat}
    (wellFormed : (IdSet.dense bitmap size).WellFormed) :
    ∃ hits, segment.memberHits (.dense bitmap size) = .ok hits ∧
      hits.Marks segment.size fun position =>
        (IdSet.dense bitmap size).Holds (segment.base.toNat + position) := by
  have stop : segment.stop = segment.base.toNat + segment.size := rfl
  by_cases some : segment.base.toNat < min segment.stop bitmap.length
  · have room : 0 + (min segment.stop bitmap.length - segment.base.toNat) ≤
        (Bitmap.blank segment.size).length := by
      change _ ≤ segment.size
      omega
    have enough : min segment.stop bitmap.length ≤ bitmap.view.length := Nat.min_le_right _ _
    rcases Bitmap.paste_eq_ok (Nat.le_of_lt some) enough room with
      ⟨hits, pasted, length, members⟩
    refine ⟨hits, ?_, length, fun position inside => ?_⟩
    · rw [memberHits]
      simp only [some, if_true, pasted]
      rfl
    · refine Iff.trans ?_ (IdSet.holds_dense wellFormed.1 size _).symm
      rw [members, or_iff_left (Bitmap.not_mem_blank _ _), Bitmap.view_get, Nat.sub_zero]
      constructor
      · rintro ⟨_, _, member⟩
        exact member
      · intro member
        have below := Bitmap.lt_length_of_mem member
        exact ⟨Nat.zero_le _, by omega, member⟩
  · refine ⟨Bitmap.blank segment.size, ?_, rfl, fun position inside => ?_⟩
    · rw [memberHits]
      simp only [some, if_false]
    · apply iff_of_false (Bitmap.not_mem_blank _ _)
      intro held
      have below := Bitmap.lt_length_of_mem ((IdSet.holds_dense wellFormed.1 size _).mp held)
      omega

private theorem sparseHits_eq_ok (segment : Segment) {ids : Array DocumentId}
    (wellFormed : (IdSet.sparse ids).WellFormed) :
    ∃ hits, segment.memberHits (.sparse ids) = .ok hits ∧
      hits.Marks segment.size fun position =>
        (IdSet.sparse ids).Holds (segment.base.toNat + position) := by
  have stop : segment.stop = segment.base.toNat + segment.size := rfl
  have cut := Ascending.mem_takeWhile_drop wellFormed segment.base segment.stop
  generalize inside : (ids.toList.drop (Ascending.lowerBound ids segment.base)).takeWhile
    (·.toNat < segment.stop) = between at cut
  have positions : ∀ position ∈ between.map (·.toNat - segment.base.toNat),
      position < (Bitmap.blank segment.size).length := by
    intro position member
    rcases List.mem_map.mp member with ⟨id, listed, rfl⟩
    have bounds := ((cut id).mp listed).2
    have behind := UInt32.le_iff_toNat_le.mp bounds.1
    change _ < segment.size
    omega
  rcases Bitmap.foldlM_insert _ _ positions with ⟨hits, built, length, _, members⟩
  refine ⟨hits, ?_, length, fun position below => ?_⟩
  · rw [List.foldlM_map] at built
    rw [memberHits, inside]
    exact built
  · refine Iff.trans ?_ (IdSet.holds_sparse wellFormed _).symm
    rw [members, or_iff_left (Bitmap.not_mem_blank _ _), List.mem_map, List.mem_map]
    constructor
    · rintro ⟨id, listed, rfl⟩
      rcases (cut id).mp listed with ⟨member, behind, _⟩
      have least := UInt32.le_iff_toNat_le.mp behind
      exact ⟨id, member, by omega⟩
    · rintro ⟨id, member, same⟩
      refine ⟨id, (cut id).mpr ⟨member, ?_, by omega⟩, by omega⟩
      rw [UInt32.le_iff_toNat_le]
      omega

theorem memberHits_eq_ok (segment : Segment) {set : IdSet} (wellFormed : set.WellFormed) :
    ∃ hits, segment.memberHits set = .ok hits ∧
      hits.Marks segment.size fun position => set.Holds (segment.base.toNat + position) := by
  cases set with
  | empty =>
      refine ⟨Bitmap.blank segment.size, rfl, rfl, fun position _ => ?_⟩
      exact iff_of_false (Bitmap.not_mem_blank _ _) (IdSet.not_holds_empty _)
  | dense bitmap size => exact segment.denseHits_eq_ok wellFormed
  | sparse ids => exact segment.sparseHits_eq_ok wellFormed

end Segment

mutual

/-- Evaluating a query in a segment finds the documents that it denotes. -/
theorem Query.hits_eq_ok {segment : Segment} {indexed : Nat → Term → Prop}
    (readable : segment.Readable indexed) :
    (query : Query) → query.Standard → ∃ hits, query.hits segment = .ok hits ∧
      hits.Marks segment.size fun position =>
        query.Denotes (indexed position) (segment.base.toNat + position)
  | .term term, _ => by
      rcases readable term with ⟨ids, lists, _, members⟩
      rcases Segment.termHits_eq_ok lists.yields fun id member =>
        ((members id.toNat).mp (List.mem_map_of_mem member)).1 with
        ⟨hits, evaluated, length, marks⟩
      refine ⟨hits, evaluated, length, fun position inside => (marks position inside).trans ?_⟩
      simp only [Query.Denotes, members, inside, true_and]
  | .all, _ => by
      rcases segment.allHits_eq_ok with ⟨hits, evaluated, length, marks⟩
      refine ⟨hits, evaluated, length, fun position inside => (marks position inside).trans ?_⟩
      simp only [Query.Denotes]
  | .members docs, standard => by
      rcases segment.memberHits_eq_ok standard with ⟨hits, evaluated, length, marks⟩
      refine ⟨hits, evaluated, length, fun position inside => (marks position inside).trans ?_⟩
      simp only [Query.Denotes]
  | .boolean clauses, standard => by
      rcases clauseHits_eq_ok readable clauses standard with ⟨evaluated, each, lengths, marks⟩
      rcases Query.combineHits_eq_ok lengths with ⟨hits, combined, length, meets⟩
      refine ⟨hits, ?_, length, fun position inside => (meets position inside).trans ?_⟩
      · rw [Query.hits, each]
        exact combined
      · simp only [Query.Denotes, marks position inside]
  | .custom hits, standard => by
      rw [Query.Standard] at standard
      exact standard.elim
  | .producer produce hits, standard => by
      rw [Query.Standard] at standard
      exact standard.elim

theorem clauseHits_eq_ok {segment : Segment} {indexed : Nat → Term → Prop}
    (readable : segment.Readable indexed) :
    (clauses : List (Occur × Query)) → ClausesStandard clauses →
      ∃ evaluated, clauseHits segment clauses = .ok evaluated ∧
        (∀ clause ∈ evaluated, clause.2.length = segment.size) ∧
        ∀ position, position < segment.size →
          evaluated.map (fun clause => (clause.1, position ∈ clause.2)) =
            clauseDenotes (indexed position) (segment.base.toNat + position) clauses
  | [], _ => ⟨[], rfl, by simp, fun position _ => by simp [clauseDenotes]⟩
  | (occur, query) :: rest, standard => by
      rw [ClausesStandard] at standard
      rcases Query.hits_eq_ok readable query standard.1 with ⟨hits, evaluated, length, marks⟩
      rcases clauseHits_eq_ok readable rest standard.2 with ⟨others, each, lengths, same⟩
      refine ⟨(occur, hits) :: others, ?_, ?_, fun position inside => ?_⟩
      · rw [clauseHits, evaluated, each]
        rfl
      · rw [List.forall_mem_cons]
        exact ⟨length, lengths⟩
      · rw [List.map_cons, same position inside, clauseDenotes, propext (marks position inside)]

end

theorem Query.hits_of_history {query : Query} (history : SegmentHistory)
    (standard : query.Standard) :
    ∃ hits, query.hits history.toSegment = .ok hits ∧
      hits.Marks history.size fun position =>
        query.Denotes (history.Indexed position) (history.base.toNat + position) := by
  have found := query.hits_eq_ok history.toSegment_readable standard
  rw [history.toSegment_base, history.toSegment_size] at found
  exact found

end ResultSets
