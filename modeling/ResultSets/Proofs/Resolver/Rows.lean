import ResultSets.Proofs.Resolver.TermWalk

namespace ResultSets.TermWalk

/-! Walks over postings that can be read to their end. What is walked over are the ids that
each segment yields, in the order of the bases; the live ones go into the set. -/

/-! ## Entries

Documents come with their segments, in the order in which they are walked over. -/

abbrev Entries := List (Segment × DocumentId)

def global (entry : Segment × DocumentId) : Nat := entry.1.base.toNat + entry.2.toNat

def Entries.items (entries : Entries) : List (Segment × Except Error DocumentId) :=
  entries.map fun entry => (entry.1, .ok entry.2)

def Entries.live (entries : Entries) : Entries :=
  entries.filter fun entry => entry.1.isLive entry.2

variable {bound : Nat} {room : Option Nat} {entries : Entries}

theorem liveIds_items (entries : Entries) : liveIds entries.items = entries.live.map global := by
  induction entries with
  | nil => rfl
  | cons entry rest induction =>
      rw [Entries.items, List.map_cons, liveIds, List.filterMap_cons, Entries.live]
      cases live : entry.1.isLive entry.2 with
      | false =>
          rw [List.filter_cons_of_neg (by simp [live])]
          simp only [live, Bool.false_eq_true, if_false]
          exact induction
      | true =>
          rw [List.filter_cons_of_pos (by simp [live])]
          simp only [live, if_true]
          exact congrArg (global entry :: ·) induction

theorem Entries.length_le (inside : ∀ entry ∈ entries, global entry < bound)
    (ascending : entries.Pairwise fun earlier later => global earlier < global later) :
    entries.length ≤ bound := by
  have fits : Fits bound none (entries.map global) :=
    ⟨List.forall_mem_map.mpr inside, List.pairwise_map.mpr ascending, by simp⟩
  have fewer := fits.length_le
  rwa [List.length_map] at fewer

theorem Entries.inOrder
    (inside : ∀ entry ∈ entries, entry.2.toNat < entry.1.size ∧ global entry < bound)
    (ascending : entries.Pairwise fun earlier later => global earlier < global later)
    (roomy : ∀ most, room = some most → entries.length ≤ most) :
    InOrder bound room entries.items := by
  constructor
  · intro item listed
    rcases List.mem_map.mp listed with ⟨entry, member, rfl⟩
    exact ⟨entry.2, rfl, (inside entry member).1⟩
  · rw [liveIds_items]
    constructor
    · intro document listed
      rcases List.mem_map.mp listed with ⟨entry, member, rfl⟩
      exact (inside entry (List.mem_filter.mp member).1).2
    · exact List.pairwise_map.mpr (ascending.filter _)
    · intro most same
      rw [List.length_map]
      exact (List.length_filter_le ..).trans (roomy most same)

/-! ## Rows

Segments come with the ids that a term yields in each. What is read is what the rows yield, and
promises what they promise. -/

abbrev Rows := List (Segment × List DocumentId)

variable {rows : Rows} {term : Term}

theorem exists_rows {segments : List Segment} {Holds : Segment → List DocumentId → Prop}
    (each : ∀ segment ∈ segments, ∃ ids, Holds segment ids) :
    ∃ rows : Rows, rows.map (·.1) = segments ∧ ∀ row ∈ rows, Holds row.1 row.2 := by
  induction segments with
  | nil => exact ⟨[], rfl, by simp⟩
  | cons segment rest induction =>
      rcases each segment (.head _) with ⟨ids, here⟩
      rcases induction fun other member => each other (.tail _ member) with ⟨rows, listed, all⟩
      refine ⟨(segment, ids) :: rows, ?_, ?_⟩
      · rw [List.map_cons, listed]
      · rw [List.forall_mem_cons]
        exact ⟨here, all⟩

def entriesOf (rows : Rows) : Entries :=
  rows.flatMap fun row => row.2.map (row.1, ·)

theorem entriesOf_cons (segment : Segment) (ids : List DocumentId) (rows : Rows) :
    entriesOf ((segment, ids) :: rows) = ids.map (segment, ·) ++ entriesOf rows := rfl

theorem mem_entriesOf {entry : Segment × DocumentId} :
    entry ∈ entriesOf rows ↔ ∃ row ∈ rows, row.1 = entry.1 ∧ entry.2 ∈ row.2 := by
  rw [entriesOf, List.mem_flatMap]
  apply exists_congr
  intro row
  apply and_congr_right
  intro _
  rw [List.mem_map]
  constructor
  · intro found
    rcases found with ⟨id, member, rfl⟩
    exact ⟨rfl, member⟩
  · intro found
    exact ⟨entry.2, found.2, Prod.ext found.1 rfl⟩

def promise (term : Term) (rows : Rows) : Nat :=
  total (rows.map fun row => row.1.promise term)

theorem length_entriesOf (rows : Rows) :
    (entriesOf rows).length = total (rows.map fun row => row.2.length) := by
  rw [entriesOf, List.length_flatMap]
  simp only [List.length_map]
  rfl

theorem length_entriesOf_le (short : ∀ row ∈ rows, row.2.length ≤ row.1.promise term) :
    (entriesOf rows).length ≤ promise term rows := by
  rw [length_entriesOf]
  exact total_map_le short

theorem length_entriesOf_eq (exact : ∀ row ∈ rows, row.1.promise term = row.2.length) :
    (entriesOf rows).length = promise term rows := by
  rw [length_entriesOf, promise, List.map_congr_left exact]

theorem streams_eq (yields : ∀ row ∈ rows, row.1.Yields term row.2)
    (truthful : ∀ row ∈ rows, row.1.Truthful term) :
    promised (streams term (rows.map (·.1))) = promise term rows ∧
      itemsOf (streams term (rows.map (·.1))) = (entriesOf rows).items := by
  induction rows with
  | nil => exact ⟨rfl, rfl⟩
  | cons row rest induction =>
      rcases row with ⟨segment, ids⟩
      rcases induction (fun other member => yields other (.tail _ member))
        (fun other member => truthful other (.tail _ member)) with ⟨counted, items⟩
      have sum : promise term ((segment, ids) :: rest) =
          segment.promise term + promise term rest := rfl
      have here : segment.Yields term ids := yields (segment, ids) (.head _)
      rw [List.map_cons, streams, List.filterMap_cons, streamOf?, sum]
      rcases here with ⟨absent, rfl⟩ | ⟨frequency, found⟩
      · rw [Segment.promise, absent, Nat.zero_add]
        exact ⟨counted, items⟩
      · rw [Segment.promise_of_ok found, found]
        by_cases nothing : frequency = 0
        · subst nothing
          -- The row is not read, and would have given nothing.
          have empty : ids = [] := List.map_eq_nil_iff.mp (truthful _ (.head _) _ found rfl)
          subst empty
          rw [Nat.zero_add]
          exact ⟨counted, items⟩
        · simp only [nothing, if_false]
          constructor
          · rw [← counted]
            rfl
          · change ((ids.map .ok).map (segment, ·)) ++ itemsOf (streams term (rest.map (·.1))) = _
            rw [items, entriesOf_cons, Entries.items, Entries.items, List.map_append,
              List.map_map, List.map_map]
            rfl

theorem entriesOf_pairwise
    (apart : rows.Pairwise fun left right =>
      left.1.base.toNat ≤ right.1.base.toNat ∧ left.1.Apart right.1)
    (ascending : ∀ row ∈ rows, Ascending row.2)
    (inside : ∀ row ∈ rows, ∀ id ∈ row.2, id.toNat < row.1.size) :
    (entriesOf rows).Pairwise fun earlier later => global earlier < global later := by
  refine List.pairwise_flatMap.mpr ⟨fun row member => ?_, ?_⟩
  · refine List.pairwise_map.mpr ((ascending row member).imp fun before => ?_)
    exact Nat.add_lt_add_left (UInt32.lt_iff_toNat_lt.mp before) _
  · refine List.Pairwise.imp_of_mem ?_ apart
    intro left right leftMember rightMember relation earlier inLeft later inRight
    rcases relation with ⟨order, apart⟩
    rcases List.mem_map.mp inLeft with ⟨leftId, leftListed, rfl⟩
    rcases List.mem_map.mp inRight with ⟨rightId, rightListed, rfl⟩
    have leftInside := inside left leftMember leftId leftListed
    have rightInside := inside right rightMember rightId rightListed
    have leftStop : left.1.stop = left.1.base.toNat + left.1.size := rfl
    have rightStop : right.1.stop = right.1.base.toNat + right.1.size := rfl
    change left.1.base.toNat + leftId.toNat < right.1.base.toNat + rightId.toNat
    rcases apart with before | after
    · omega
    · omega

/-! ## The rows of an index

In segments that lie apart, in the order of their bases, the entries of ascending rows ascend as
a whole. The set of a term has the live ones as its members, in the form that their promise
decides. -/

structure Covers (index : Index) (term : Term) (rows : Rows) : Prop where
  segments : rows.map (·.1) = Segment.ordered index.segments
  yields : ∀ row ∈ rows, row.1.Yields term row.2
  inside : ∀ row ∈ rows, ∀ id ∈ row.2, id.toNat < row.1.size

variable {index : Index} {policy : Policy} {set : IdSet}

theorem Covers.mem_segments (covers : Covers index term rows) {row : Segment × List DocumentId}
    (member : row ∈ rows) : row.1 ∈ index.segments := by
  have listed := List.mem_map_of_mem (f := (·.1)) member
  rw [covers.segments] at listed
  exact List.mem_mergeSort.mp listed

theorem Covers.exists_row (covers : Covers index term rows) {segment : Segment}
    (member : segment ∈ index.segments) : ∃ row ∈ rows, row.1 = segment := by
  have listed : segment ∈ rows.map (·.1) := by
    rw [covers.segments]
    exact List.mem_mergeSort.mpr member
  exact List.mem_map.mp listed

theorem exists_covers (readable : ∀ segment ∈ index.segments, ∃ ids, segment.Yields term ids ∧
      ∀ id ∈ ids, id.toNat < segment.size) :
    ∃ rows, Covers index term rows := by
  rcases exists_rows fun segment listed => readable segment (List.mem_mergeSort.mp listed) with
    ⟨rows, segments, each⟩
  exact ⟨rows, segments, fun row member => (each row member).1,
    fun row member => (each row member).2⟩

theorem Covers.available (covers : Covers index term rows) :
    Available term (Segment.ordered index.segments) := by
  rw [← covers.segments]
  intro segment listed
  rcases List.mem_map.mp listed with ⟨row, member, rfl⟩
  rcases covers.yields row member with ⟨absent, _⟩ | ⟨frequency, found⟩
  · exact ⟨none, absent⟩
  · exact ⟨_, found⟩

theorem Covers.streams_eq (covers : Covers index term rows)
    (truthful : ∀ segment ∈ index.segments, segment.Truthful term) :
    promisedIn term index.segments = promise term rows ∧
      itemsIn term index.segments = (entriesOf rows).items := by
  rw [promisedIn, itemsIn, ← covers.segments]
  exact TermWalk.streams_eq covers.yields fun row member =>
    truthful row.1 (covers.mem_segments member)

theorem Covers.resolve_live (covers : Covers index term rows) (laidOut : index.LaidOut)
    (truthful : ∀ segment ∈ index.segments, segment.Truthful term)
    (resolved : resolve index.bound policy index.segments term = .ok set) :
    set.WellFormed ∧ set.size = (entriesOf rows).live.length ∧
      (∀ document, set.Holds document ↔ document ∈ (entriesOf rows).live.map global) ∧
      Formed index.bound policy (promise term rows) set := by
  rcases covers.streams_eq truthful with ⟨counted, items⟩
  rcases (resolve_outcome index.bound policy term laidOut.stop_le_count).of_ok resolved with
    ⟨⟨_, _, inOrder⟩, madeOf, formed⟩
  have narrow := inOrder.lt_count fun entry member =>
    laidOut.stop_le_count entry.1 (mem_itemsIn.mp member).1
  have size := madeOf.size (idsOf_ascending inOrder narrow)
  have members := madeOf.2
  rw [toNat_idsOf narrow] at members
  rw [size_idsOf] at size
  rw [items, liveIds_items] at size members
  exact ⟨madeOf.1, size.trans (List.length_map _), members, counted ▸ formed⟩

theorem Covers.resolve_members (covers : Covers index term rows) (laidOut : index.LaidOut)
    (truthful : ∀ segment ∈ index.segments, segment.Truthful term)
    (resolved : resolve index.bound policy index.segments term = .ok set) :
    set.WellFormed ∧ ∀ document, set.Holds document ↔
      ∃ row ∈ rows, ∃ id ∈ row.2, row.1.isLive id ∧
        document = row.1.base.toNat + id.toNat := by
  rcases covers.resolve_live laidOut truthful resolved with ⟨wellFormed, _, members, _⟩
  refine ⟨wellFormed, fun document => ?_⟩
  rw [members, List.mem_map]
  constructor
  · intro found
    rcases found with ⟨entry, member, rfl⟩
    rcases List.mem_filter.mp member with ⟨listed, live⟩
    rcases mem_entriesOf.mp listed with ⟨row, rowMember, same, idMember⟩
    rw [← same] at live
    exact ⟨row, rowMember, entry.2, idMember, live, by rw [global, same]⟩
  · intro found
    rcases found with ⟨row, rowMember, id, idMember, live, rfl⟩
    have listed : (row.1, id) ∈ entriesOf rows :=
      mem_entriesOf.mpr ⟨row, rowMember, rfl, idMember⟩
    exact ⟨(row.1, id), List.mem_filter.mpr ⟨listed, live⟩, rfl⟩

theorem Covers.inside_bound (covers : Covers index term rows) (laidOut : index.LaidOut) :
    ∀ entry ∈ entriesOf rows, entry.2.toNat < entry.1.size ∧ global entry < index.bound := by
  intro entry member
  rcases mem_entriesOf.mp member with ⟨row, rowMember, same, idMember⟩
  have here := covers.inside row rowMember entry.2 idMember
  have below := laidOut.inside row.1 (covers.mem_segments rowMember)
  have stop : row.1.stop = row.1.base.toNat + row.1.size := rfl
  rw [global, ← same]
  omega

theorem Covers.ascending (covers : Covers index term rows) (laidOut : index.LaidOut)
    (orderly : ∀ segment ∈ index.segments, segment.Orderly term) :
    (entriesOf rows).Pairwise fun earlier later => global earlier < global later := by
  have apart := Segment.ordered_pairwise laidOut.apart
  rw [← covers.segments, List.pairwise_map] at apart
  refine entriesOf_pairwise apart (fun row member => ?_) covers.inside
  exact (orderly row.1 (covers.mem_segments member) row.2 (covers.yields row member)).1

/-- Where the postings are in order, and promise no more than can be counted and, for a row, held,
a term can be resolved. -/
theorem Covers.resolve_isOk (covers : Covers index term rows) (laidOut : index.LaidOut)
    (truthful : ∀ segment ∈ index.segments, segment.Truthful term)
    (orderly : ∀ segment ∈ index.segments, segment.Orderly term)
    (countable : promisedIn term index.segments < UInt64.size)
    (rowFits : RowFits (policy.sparseLimit index.bound) (promisedIn term index.segments)) :
    ∃ set, resolve index.bound policy index.segments term = .ok set := by
  rcases covers.streams_eq truthful with ⟨counted, items⟩
  have few : (entriesOf rows).length ≤ promise term rows := length_entriesOf_le fun row member =>
    (orderly row.1 (covers.mem_segments member) row.2 (covers.yields row member)).2
  apply (resolve_outcome index.bound policy term laidOut.stop_le_count).isOk_iff.mpr
  refine ⟨⟨covers.available, countable⟩, rowFits, ?_⟩
  rw [items]
  apply Entries.inOrder (covers.inside_bound laidOut) (covers.ascending laidOut orderly)
  intro most enough
  rw [roomFor, counted] at enough
  split at enough
  · cases enough
    exact few
  · cases enough

/-! ## Segments that are read as they are meant -/

section Readable

variable (readable : ∀ segment ∈ index.segments, ∃ indexed, segment.Readable indexed)

include readable

theorem truthful_of_readable (term : Term) : ∀ segment ∈ index.segments, segment.Truthful term := by
  intro segment member
  rcases readable segment member with ⟨indexed, reads⟩
  exact reads.truthful term

theorem orderly_of_readable (term : Term) : ∀ segment ∈ index.segments, segment.Orderly term := by
  intro segment member
  rcases readable segment member with ⟨indexed, reads⟩
  exact reads.orderly term

theorem Covers.length_entriesOf (covers : Covers index term rows) :
    (entriesOf rows).length = promise term rows := by
  apply length_entriesOf_eq
  intro row member
  rcases readable row.1 (covers.mem_segments member) with ⟨indexed, reads⟩
  exact reads.promise (covers.yields row member)

theorem Covers.promisedIn_le (covers : Covers index term rows) (laidOut : index.LaidOut) :
    promisedIn term index.segments ≤ DocumentId.count := by
  rw [(covers.streams_eq (truthful_of_readable readable term)).1, ← covers.length_entriesOf readable]
  have fewer := Entries.length_le (fun entry member => (covers.inside_bound laidOut entry member).2)
    (covers.ascending laidOut (orderly_of_readable readable term))
  exact Nat.le_trans fewer laidOut.within

end Readable

end ResultSets.TermWalk
