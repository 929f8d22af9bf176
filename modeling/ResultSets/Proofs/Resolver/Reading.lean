import Mathlib.Data.List.Chain
import Mathlib.Data.List.Induction
import ResultSets.Proofs.Fallible
import ResultSets.Proofs.Segment.Postings
import ResultSets.Resolver.TermWalk

namespace ResultSets.TermWalk

/-! Reading the postings of a term, wherever they come from. Each item is checked against
those read before it, across all segments. The reading goes through if the items are in order,
and otherwise fails as the first item demands that is not. -/

/-! ## Items

Each item comes with the segment that it is read from. -/

abbrev Items := List (Segment × Except Error DocumentId)

def itemsOf (lists : List (Segment × Postings)) : Items :=
  lists.flatMap fun (segment, postings) => postings.items.map (segment, ·)

theorem walk_eq (bound : Nat) (room : Option Nat) (lists : List (Segment × Postings)) :
    walk bound room lists = (itemsOf lists).foldlM (step bound room) #[] := rfl

def liveIds (items : Items) : List Nat :=
  items.filterMap fun
    | (segment, .ok id) =>
        if segment.isLive id then some (segment.base.toNat + id.toNat) else none
    | (_, .error _) => none

variable {bound : Nat} {room : Option Nat} {items : Items} {segment : Segment}
  {id : DocumentId} {document : Nat} {error : Error}

theorem liveIds_concat_of_live (live : segment.isLive id) :
    liveIds (items ++ [(segment, .ok id)]) =
      liveIds items ++ [segment.base.toNat + id.toNat] := by
  simp [liveIds, live]

theorem liveIds_concat_of_dead (dead : segment.isLive id = false) :
    liveIds (items ++ [(segment, .ok id)]) = liveIds items := by
  simp [liveIds, dead]

theorem mem_liveIds : document ∈ liveIds items ↔
    ∃ segment id, (segment, .ok id) ∈ items ∧ segment.isLive id ∧
      document = segment.base.toNat + id.toNat := by
  rw [liveIds, List.mem_filterMap]
  constructor
  · intro found
    rcases found with ⟨⟨segment, item⟩, member, same⟩
    cases item with
    | error error => cases same
    | ok id =>
        dsimp only at same
        split at same
        · next live =>
            cases same
            exact ⟨segment, id, member, live, rfl⟩
        · cases same
  · intro found
    rcases found with ⟨segment, id, member, live, rfl⟩
    exact ⟨(segment, .ok id), member, if_pos live⟩

/-! ## Order -/

structure Fits (bound : Nat) (room : Option Nat) (documents : List Nat) : Prop where
  below : ∀ document ∈ documents, document < bound
  ascending : documents.Pairwise (· < ·)
  roomy : ∀ most, room = some most → documents.length ≤ most

structure InOrder (bound : Nat) (room : Option Nat) (items : Items) : Prop where
  readable : ∀ entry ∈ items, ∃ id, entry.2 = .ok id ∧ id.toNat < entry.1.size
  fits : Fits bound room (liveIds items)

/-- What an item violates that is read after the given live documents. The constructors are in
the order of the checks. -/
inductive Violates (bound : Nat) (room : Option Nat) (earlier : List Nat) :
    Segment × Except Error DocumentId → Error → Prop
  | failed (segment : Segment) (error : Error) :
      Violates bound room earlier (segment, .error error) error
  | beyondSegment {segment : Segment} {id : DocumentId} (beyond : segment.size ≤ id.toNat) :
      Violates bound room earlier (segment, .ok id) (.postingBeyondSegment id.toNat segment.size)
  | beyondBound {segment : Segment} {id : DocumentId} (inside : id.toNat < segment.size)
      (live : segment.isLive id) (beyond : bound ≤ segment.base.toNat + id.toNat) :
      Violates bound room earlier (segment, .ok id)
        (.idBeyondBound (segment.base.toNat + id.toNat) bound)
  | notAscending {segment : Segment} {id : DocumentId} {previous : Nat}
      (inside : id.toNat < segment.size) (live : segment.isLive id)
      (below : segment.base.toNat + id.toNat < bound)
      (last : earlier.getLast? = some previous)
      (notAbove : segment.base.toNat + id.toNat ≤ previous) :
      Violates bound room earlier (segment, .ok id)
        (.idNotAscending (segment.base.toNat + id.toNat) previous)
  | tooMany {segment : Segment} {id : DocumentId} (inside : id.toNat < segment.size)
      (live : segment.isLive id) (below : segment.base.toNat + id.toNat < bound)
      (above : ∀ previous, earlier.getLast? = some previous →
        previous < segment.base.toNat + id.toNat)
      (full : room = some earlier.length) :
      Violates bound room earlier (segment, .ok id) (.postingsTooMany earlier.length)

structure Follows (bound : Nat) (room : Option Nat) (earlier : List Nat) (next : Nat) :
    Prop where
  below : next < bound
  above : ∀ previous, earlier.getLast? = some previous → previous < next
  roomy : room ≠ some earlier.length

def Continues (bound : Nat) (room : Option Nat) (earlier : List Nat)
    (entry : Segment × Except Error DocumentId) : Prop :=
  ∃ id, entry.2 = .ok id ∧ id.toNat < entry.1.size ∧
    (entry.1.isLive id → Follows bound room earlier (entry.1.base.toNat + id.toNat))

theorem continues_or_violates (bound : Nat) (room : Option Nat) (earlier : List Nat)
    (entry : Segment × Except Error DocumentId) :
    Continues bound room earlier entry ∨ ∃ error, Violates bound room earlier entry error := by
  rcases entry with ⟨segment, error | id⟩
  · exact .inr ⟨error, .failed segment error⟩
  · by_cases beyond : segment.size ≤ id.toNat
    · exact .inr ⟨_, .beyondSegment beyond⟩
    · have inside := Nat.lt_of_not_le beyond
      cases live : segment.isLive id with
      | false => exact .inl ⟨id, rfl, inside, by simp [live]⟩
      | true =>
          by_cases outside : bound ≤ segment.base.toNat + id.toNat
          · exact .inr ⟨_, .beyondBound inside live outside⟩
          · have below := Nat.lt_of_not_le outside
            by_cases above : ∀ previous, earlier.getLast? = some previous →
              previous < segment.base.toNat + id.toNat
            · by_cases full : room = some earlier.length
              · exact .inr ⟨_, .tooMany inside live below above full⟩
              · exact .inl ⟨id, rfl, inside, fun _ => ⟨below, above, full⟩⟩
            · simp only [not_forall, exists_prop, Nat.not_lt] at above
              rcases above with ⟨previous, last, notAbove⟩
              exact .inr ⟨_, .notAscending inside live below last notAbove⟩

theorem fits_nil (bound : Nat) (room : Option Nat) : Fits bound room [] :=
  ⟨by simp, .nil, by simp⟩

theorem fits_concat {documents : List Nat} {next : Nat} :
    Fits bound room (documents ++ [next]) ↔
      Fits bound room documents ∧ Follows bound room documents next := by
  have ascending : (documents ++ [next]).Pairwise (· < ·) ↔ documents.Pairwise (· < ·) ∧
      ∀ previous, documents.getLast? = some previous → previous < next := by
    rw [← List.isChain_iff_pairwise, ← List.isChain_iff_pairwise, List.isChain_append]
    simp
  constructor
  · intro fits
    have below := List.forall_mem_append.mp fits.below
    have roomy := fits.roomy
    rw [List.length_append, List.length_singleton] at roomy
    refine ⟨⟨below.1, (ascending.mp fits.ascending).1, fun most same =>
      Nat.le_of_succ_le (roomy most same)⟩, below.2 next (.head _),
      (ascending.mp fits.ascending).2, fun full => ?_⟩
    exact Nat.not_succ_le_self _ (roomy _ full)
  · intro ⟨fits, follows⟩
    refine ⟨?_, ascending.mpr ⟨fits.ascending, follows.above⟩, fun most same => ?_⟩
    · rw [List.forall_mem_append, List.forall_mem_singleton]
      exact ⟨fits.below, follows.below⟩
    · rw [List.length_append, List.length_singleton]
      refine Nat.lt_of_le_of_ne (fits.roomy most same) fun full => ?_
      exact follows.roomy (full ▸ same)

theorem inOrder_nil (bound : Nat) (room : Option Nat) : InOrder bound room [] :=
  ⟨by simp, fits_nil bound room⟩

theorem fits_liveIds_concat :
    Fits bound room (liveIds (items ++ [(segment, .ok id)])) ↔
      Fits bound room (liveIds items) ∧
        (segment.isLive id →
          Follows bound room (liveIds items) (segment.base.toNat + id.toNat)) := by
  cases live : segment.isLive id with
  | false =>
      rw [liveIds_concat_of_dead live]
      simp
  | true =>
      rw [liveIds_concat_of_live live, fits_concat]
      simp

theorem inOrder_concat {entry : Segment × Except Error DocumentId} :
    InOrder bound room (items ++ [entry]) ↔
      InOrder bound room items ∧ Continues bound room (liveIds items) entry := by
  rcases entry with ⟨segment, item⟩
  constructor
  · intro inOrder
    have readable := List.forall_mem_append.mp inOrder.readable
    rcases readable.2 _ (.head _) with ⟨id, same, inside⟩
    cases same
    have fits := fits_liveIds_concat.mp inOrder.fits
    exact ⟨⟨readable.1, fits.1⟩, id, rfl, inside, fits.2⟩
  · intro ⟨inOrder, id, same, inside, follows⟩
    cases same
    constructor
    · rw [List.forall_mem_append, List.forall_mem_singleton]
      exact ⟨inOrder.readable, id, rfl, inside⟩
    · exact fits_liveIds_concat.mpr ⟨inOrder.fits, follows⟩

theorem Fits.left_of_append {documents others : List Nat}
    (fits : Fits bound room (documents ++ others)) : Fits bound room documents := by
  constructor
  · intro document member
    exact fits.below document (List.mem_append_left _ member)
  · exact (List.pairwise_append.mp fits.ascending).1
  · intro most same
    have shorter := (List.sublist_append_left documents others).length_le
    exact Nat.le_trans shorter (fits.roomy most same)

theorem Fits.length_le {documents : List Nat} (fits : Fits bound room documents) :
    documents.length ≤ bound := by
  have nodup : documents.Nodup := fits.ascending.imp fun before => Nat.ne_of_lt before
  have among : documents ⊆ List.range bound := fun document member =>
    List.mem_range.mpr (fits.below document member)
  have fewer := (nodup.subperm among).length_le
  rwa [List.length_range] at fewer

theorem InOrder.left_of_append {others : Items} (inOrder : InOrder bound room (items ++ others)) :
    InOrder bound room items := by
  refine ⟨fun entry member => inOrder.readable entry (List.mem_append_left _ member), ?_⟩
  have fits := inOrder.fits
  rw [liveIds, List.filterMap_append] at fits
  exact fits.left_of_append

/-! ## Room -/

theorem InOrder.inOrder_iff (inOrder : InOrder bound none items) :
    InOrder bound room items ↔ ∀ most, room = some most → (liveIds items).length ≤ most := by
  constructor
  · intro within
    exact within.fits.roomy
  · intro roomy
    exact ⟨inOrder.readable, inOrder.fits.below, inOrder.fits.ascending, roomy⟩

theorem Continues.tooMany {earlier : List Nat} {entry : Segment × Except Error DocumentId}
    (continues : Continues bound none earlier entry)
    (violates : Violates bound room earlier entry error) :
    room = some earlier.length ∧ error = .postingsTooMany earlier.length := by
  rcases continues with ⟨id, same, inside, follows⟩
  cases violates with
  | failed segment error => cases same
  | beyondSegment beyond =>
      cases same
      exact absurd inside (Nat.not_lt_of_le beyond)
  | beyondBound _ live beyond =>
      cases same
      exact absurd (follows live).below (Nat.not_lt_of_le beyond)
  | notAscending _ live _ last notAbove =>
      cases same
      exact absurd ((follows live).above _ last) (Nat.not_lt_of_le notAbove)
  | tooMany _ _ _ _ full => exact ⟨full, rfl⟩

/-! ## Steps -/

def idsOf (items : Items) : Array DocumentId := ((liveIds items).map UInt32.ofNat).toArray

theorem idsOf_concat_of_live (live : segment.isLive id) :
    idsOf (items ++ [(segment, .ok id)]) =
      (idsOf items).push (UInt32.ofNat (segment.base.toNat + id.toNat)) := by
  rw [idsOf, liveIds_concat_of_live live, List.map_append, List.map_singleton, idsOf,
    List.push_toArray]

theorem idsOf_concat_of_dead (dead : segment.isLive id = false) :
    idsOf (items ++ [(segment, .ok id)]) = idsOf items := by
  rw [idsOf, liveIds_concat_of_dead dead, idsOf]

theorem size_idsOf (items : Items) : (idsOf items).size = (liveIds items).length := by
  rw [idsOf, List.size_toArray, List.length_map]

theorem back?_idsOf (items : Items) :
    (idsOf items).back? = (liveIds items).getLast?.map UInt32.ofNat := by
  rw [idsOf, List.back?_toArray, List.getLast?_map]

theorem toNat_idsOf (narrow : ∀ document ∈ liveIds items, document < DocumentId.count) :
    (idsOf items).toList.map UInt32.toNat = liveIds items := by
  rw [idsOf, List.map_map]
  exact (List.map_congr_left fun document member =>
    UInt32.toNat_ofNat_of_lt' (narrow document member)).trans (List.map_id _)

/-- A step, check by check, after the live documents among the items read so far. -/
theorem step_idsOf (narrow : ∀ document ∈ liveIds items, document < DocumentId.count)
    (segment : Segment) (id : DocumentId) :
    step bound room (idsOf items) (segment, .ok id) =
      if segment.size ≤ id.toNat then .error (.postingBeyondSegment id.toNat segment.size)
      else if segment.isLive id = false then .ok (idsOf items)
      else if bound ≤ segment.base.toNat + id.toNat then
        .error (.idBeyondBound (segment.base.toNat + id.toNat) bound)
      else
        match (liveIds items).getLast? with
        | some previous =>
            if segment.base.toNat + id.toNat ≤ previous then
              .error (.idNotAscending (segment.base.toNat + id.toNat) previous)
            else if room = some (liveIds items).length then
              .error (.postingsTooMany (liveIds items).length)
            else
              .ok ((idsOf items).push (UInt32.ofNat (segment.base.toNat + id.toNat)))
        | none =>
            if room = some (liveIds items).length then
              .error (.postingsTooMany (liveIds items).length)
            else
              .ok ((idsOf items).push (UInt32.ofNat (segment.base.toNat + id.toNat))) := by
  simp only [step, bind, Except.bind, throw, throwThe, MonadExceptOf.throw, pure, Except.pure,
    back?_idsOf, size_idsOf]
  split
  · rfl
  · cases live : segment.isLive id with
    | false => rfl
    | true =>
        simp only [Bool.not_true, Bool.false_eq_true, Bool.true_eq_false, if_false]
        split
        · rfl
        · cases last : (liveIds items).getLast? with
          | none => simp only [Option.map_none]
          | some previous =>
              -- the previous id is compared as it was stored
              have same : (UInt32.ofNat previous).toNat = previous :=
                UInt32.toNat_ofNat_of_lt' (narrow previous (List.mem_of_getLast? last))
              simp only [Option.map_some, same]

theorem step_of_continues (narrow : ∀ document ∈ liveIds items, document < DocumentId.count)
    {entry : Segment × Except Error DocumentId}
    (continues : Continues bound room (liveIds items) entry) :
    step bound room (idsOf items) entry = .ok (idsOf (items ++ [entry])) := by
  rcases entry with ⟨segment, item⟩
  rcases continues with ⟨id, same, inside, follows⟩
  cases same
  rw [step_idsOf narrow, if_neg (Nat.not_le_of_lt inside)]
  cases live : segment.isLive id with
  | false => rw [if_pos rfl, idsOf_concat_of_dead live]
  | true =>
      rcases follows live with ⟨below, above, roomy⟩
      rw [if_neg (by decide), if_neg (Nat.not_le_of_lt below), idsOf_concat_of_live live]
      cases last : (liveIds items).getLast? with
      | none => exact if_neg roomy
      | some previous =>
          dsimp only
          rw [if_neg (Nat.not_le_of_lt (above previous last)), if_neg roomy]

theorem step_of_violates (narrow : ∀ document ∈ liveIds items, document < DocumentId.count)
    {entry : Segment × Except Error DocumentId}
    (violates : Violates bound room (liveIds items) entry error) :
    step bound room (idsOf items) entry = .error error := by
  cases violates with
  | failed segment error => rfl
  | beyondSegment beyond => rw [step_idsOf narrow, if_pos beyond]
  | beyondBound inside live beyond =>
      rw [step_idsOf narrow, if_neg (Nat.not_le_of_lt inside), if_neg (by simp [live]),
        if_pos beyond]
  | notAscending inside live below last notAbove =>
      rw [step_idsOf narrow, if_neg (Nat.not_le_of_lt inside), if_neg (by simp [live]),
        if_neg (Nat.not_le_of_lt below), last]
      exact if_pos notAbove
  | tooMany inside live below above full =>
      rw [step_idsOf narrow, if_neg (Nat.not_le_of_lt inside), if_neg (by simp [live]),
        if_neg (Nat.not_le_of_lt below)]
      cases last : (liveIds items).getLast? with
      | none => exact if_pos full
      | some previous =>
          dsimp only
          rw [if_neg (Nat.not_le_of_lt (above previous last)), if_pos full]

/-! ## Walks -/

theorem InOrder.lt_count (inOrder : InOrder bound room items)
    (fits : ∀ entry ∈ items, entry.1.stop ≤ DocumentId.count) :
    ∀ document ∈ liveIds items, document < DocumentId.count := by
  intro document member
  rcases mem_liveIds.mp member with ⟨segment, id, listed, _, rfl⟩
  rcases inOrder.readable _ listed with ⟨_, same, inside⟩
  cases same
  exact Nat.lt_of_lt_of_le (Nat.add_lt_add_left inside _) (fits _ listed)

theorem InOrder.length_le (inOrder : InOrder bound room items)
    (fits : ∀ entry ∈ items, entry.1.stop ≤ DocumentId.count) :
    (liveIds items).length ≤ DocumentId.count := by
  have documents : Fits DocumentId.count none (liveIds items) :=
    ⟨inOrder.lt_count fits, inOrder.fits.ascending, by simp⟩
  exact documents.length_le

theorem idsOf_ascending (inOrder : InOrder bound room items)
    (narrow : ∀ document ∈ liveIds items, document < DocumentId.count) :
    Ascending (idsOf items).toList := by
  have ascending := inOrder.fits.ascending
  rw [← toNat_idsOf narrow, List.pairwise_map] at ascending
  exact ascending.imp UInt32.lt_iff_toNat_lt.mpr

theorem foldlM_step_of_inOrder (fits : ∀ entry ∈ items, entry.1.stop ≤ DocumentId.count)
    (inOrder : InOrder bound room items) :
    items.foldlM (step bound room) #[] = .ok (idsOf items) := by
  -- from the back, since a step looks at what has been walked over before it
  induction items using List.reverseRecOn with
  | nil => rfl
  | append_singleton items entry induction =>
      have earlierFits := fun other member => fits other (List.mem_append_left _ member)
      rcases inOrder_concat.mp inOrder with ⟨earlier, continues⟩
      rw [List.foldlM_append, induction earlierFits earlier]
      change [entry].foldlM (step bound room) (idsOf items) = _
      rw [List.foldlM_cons, step_of_continues (earlier.lt_count earlierFits) continues]
      rfl

theorem foldlM_step_of_violates {before after : Items}
    {entry : Segment × Except Error DocumentId}
    (fits : ∀ entry ∈ before, entry.1.stop ≤ DocumentId.count)
    (inOrder : InOrder bound room before)
    (violates : Violates bound room (liveIds before) entry error) :
    (before ++ entry :: after).foldlM (step bound room) #[] = .error error := by
  rw [List.foldlM_append, foldlM_step_of_inOrder fits inOrder]
  change (entry :: after).foldlM (step bound room) (idsOf before) = _
  rw [List.foldlM_cons, step_of_violates (inOrder.lt_count fits) violates]
  rfl

def Breaks (bound : Nat) (room : Option Nat) (items : Items) (error : Error) : Prop :=
  ∃ before entry after, items = before ++ entry :: after ∧
    InOrder bound room before ∧ Violates bound room (liveIds before) entry error

theorem inOrder_or_breaks (bound : Nat) (room : Option Nat) (items : Items) :
    InOrder bound room items ∨ ∃ error, Breaks bound room items error := by
  by_cases inOrder : InOrder bound room items
  · exact .inl inOrder
  · rcases exists_first_breach (inOrder_nil bound room) inOrder with
      ⟨before, entry, after, split, earlier, breach⟩
    have stuck : ¬ Continues bound room (liveIds before) entry := fun continues =>
      breach (inOrder_concat.mpr ⟨earlier, continues⟩)
    rcases (continues_or_violates bound room (liveIds before) entry).resolve_left stuck with
      ⟨error, violates⟩
    exact .inr ⟨error, before, entry, after, split, earlier, violates⟩

theorem Breaks.tooMany (inOrder : InOrder bound none items)
    (breaks : Breaks bound room items error) :
    ∃ most, room = some most ∧ error = .postingsTooMany most := by
  rcases breaks with ⟨before, entry, after, rfl, _, violates⟩
  rw [List.append_cons] at inOrder
  have continues := (inOrder_concat.mp inOrder.left_of_append).2
  exact ⟨_, continues.tooMany violates⟩

variable {lists : List (Segment × Postings)}

/-- A walk goes through the items if they are in order and takes in the live ones. -/
theorem walk_outcome (bound : Nat) (room : Option Nat)
    (fits : ∀ entry ∈ itemsOf lists, entry.1.stop ≤ DocumentId.count) :
    Outcome (walk bound room lists) (InOrder bound room (itemsOf lists))
      (· = idsOf (itemsOf lists)) (Breaks bound room (itemsOf lists)) := by
  constructor
  · intro inOrder
    exact ⟨_, foldlM_step_of_inOrder fits inOrder, rfl⟩
  · intro error breaks
    rcases breaks with ⟨before, entry, after, split, inOrder, violates⟩
    rw [split] at fits
    rw [walk_eq, split]
    exact foldlM_step_of_violates (fun entry member => fits entry (List.mem_append_left _ member))
      inOrder violates
  · exact inOrder_or_breaks bound room (itemsOf lists)

/-! ## Postings to read -/

variable {segments : List Segment} {term : Term}

def streamOf? (term : Term) (segment : Segment) : Option (Segment × Postings) :=
  match segment.postings term with
  | .ok (some postings) => if postings.frequency = 0 then none else some (segment, postings)
  | _ => none

def streams (term : Term) (segments : List Segment) : List (Segment × Postings) :=
  segments.filterMap (streamOf? term)

theorem mem_streams {row : Segment × Postings} :
    row ∈ streams term segments ↔
      row.1 ∈ segments ∧ row.1.postings term = .ok (some row.2) ∧ row.2.frequency ≠ 0 := by
  rw [streams, List.mem_filterMap]
  constructor
  · intro ⟨segment, member, same⟩
    rw [streamOf?] at same
    split at same
    · next found =>
        split at same
        · cases same
        · next something =>
            cases same
            exact ⟨member, found, something⟩
    · cases same
  · intro ⟨member, found, something⟩
    refine ⟨row.1, member, ?_⟩
    rw [streamOf?, found]
    exact if_neg something

theorem mem_itemsOf_streams {entry : Segment × Except Error DocumentId} :
    entry ∈ itemsOf (streams term segments) ↔
      entry.1 ∈ segments ∧ ∃ postings, entry.1.postings term = .ok (some postings) ∧
        postings.frequency ≠ 0 ∧ entry.2 ∈ postings.items := by
  rw [itemsOf, List.mem_flatMap]
  constructor
  · intro ⟨row, listed, member⟩
    rcases List.mem_map.mp member with ⟨item, read, rfl⟩
    rcases mem_streams.mp listed with ⟨own, found, something⟩
    exact ⟨own, row.2, found, something, read⟩
  · intro ⟨own, postings, found, something, read⟩
    exact ⟨(entry.1, postings), mem_streams.mpr ⟨own, found, something⟩,
      List.mem_map.mpr ⟨entry.2, read, rfl⟩⟩

theorem streams_filter_promise (term : Term) (segments : List Segment) :
    streams term (segments.filter (0 < ·.promise term)) = streams term segments := by
  rw [streams, List.filterMap_filter, streams]
  apply List.filterMap_congr
  intro segment _
  by_cases something : 0 < segment.promise term
  · rw [if_pos (by simpa using something)]
  · rw [if_neg (by simpa using something), streamOf?]
    split
    · next postings found =>
        rw [Segment.promise_of_ok found] at something
        rw [if_pos (Nat.eq_zero_of_not_pos something)]
    · rfl

def Available (term : Term) (segments : List Segment) : Prop :=
  ∀ segment ∈ segments, ∃ found, segment.postings term = .ok found

def Withheld (term : Term) (segments : List Segment) (error : Error) : Prop :=
  ∃ before segment after, segments = before ++ segment :: after ∧
    Available term before ∧ segment.postings term = .error error

/-- Why postings cannot be gathered: up to a segment they promise more than can be counted, or
before that a segment cannot be asked for them. -/
inductive Halts (term : Term) (segments : List Segment) : Error → Prop
  | uncountable {before after : List Segment} (split : segments = before ++ after)
      (available : Available term before)
      (beyond : UInt64.size ≤ promised (streams term before)) :
      Halts term segments .sumOverflow
  | withheld {before after : List Segment} {segment : Segment} {error : Error}
      (split : segments = before ++ segment :: after) (available : Available term before)
      (countable : promised (streams term before) < UInt64.size)
      (failed : segment.postings term = .error error) :
      Halts term segments error

theorem promised_streams_append (before after : List Segment) :
    promised (streams term (before ++ after)) =
      promised (streams term before) + promised (streams term after) := by
  rw [promised, streams, List.filterMap_append, List.map_append, total_append]
  rfl

theorem gather_append {before : List Segment} (available : Available term before)
    {counted : Nat} (countable : counted < UInt64.size) (after : List Segment) :
    gather term counted (before ++ after) =
      if counted + promised (streams term before) < UInt64.size then
        (gather term (counted + promised (streams term before)) after).map
          (streams term before ++ ·)
      else .error .sumOverflow := by
  induction before generalizing counted with
  | nil =>
      change gather term counted after =
        if counted < UInt64.size then (gather term counted after).map ([] ++ ·) else _
      rw [if_pos countable]
      cases gather term counted after with
      | error error => rfl
      | ok lists => rfl
  | cons segment rest induction =>
      rcases List.forall_mem_cons.mp available with ⟨⟨found, here⟩, later⟩
      rw [List.cons_append, gather, here, streams, List.filterMap_cons, streamOf?, here]
      cases found with
      | none => exact induction later countable
      | some postings =>
          by_cases nothing : postings.frequency = 0
          · simp only [nothing, if_true]
            change (if postings.frequency = 0 then gather term counted (rest ++ after) else _) = _
            rw [if_pos nothing]
            exact induction later countable
          · simp only [nothing, if_false]
            have sum : promised ((segment, postings) :: rest.filterMap (streamOf? term)) =
                postings.frequency + promised (streams term rest) := rfl
            rw [sum, ← Nat.add_assoc]
            change (if postings.frequency = 0 then _ else if UInt64.size ≤ _ then _ else _) = _
            rw [if_neg nothing]
            -- The count only grows, so once it is beyond a word the sum of all is as well.
            by_cases beyond : UInt64.size ≤ counted + postings.frequency
            · rw [if_pos beyond, if_neg (by omega)]
              rfl
            · rw [if_neg beyond, induction later (Nat.lt_of_not_le beyond)]
              split
              · cases gather term (counted + postings.frequency + promised (streams term rest))
                  after with
                | error error => rfl
                | ok lists => rfl
              · rfl

theorem gather_outcome (term : Term) (segments : List Segment) :
    Outcome (gather term 0 segments)
      (Available term segments ∧ promised (streams term segments) < UInt64.size)
      (· = streams term segments) (Halts term segments) := by
  have start : 0 < UInt64.size := by decide
  constructor
  · intro good
    have gathered := gather_append good.1 start []
    rw [List.append_nil, Nat.zero_add, if_pos good.2] at gathered
    exact ⟨_, gathered, List.append_nil _⟩
  · intro error halts
    cases halts with
    | uncountable split available beyond =>
        rw [split, gather_append available start, Nat.zero_add, if_neg (Nat.not_lt_of_le beyond)]
    | withheld split available countable failed =>
        rw [split, gather_append available start, Nat.zero_add, if_pos countable, gather, failed]
        rfl
  · by_cases available : Available term segments
    · by_cases countable : promised (streams term segments) < UInt64.size
      · exact .inl ⟨available, countable⟩
      · exact .inr ⟨_, .uncountable (List.append_nil segments).symm available
          (Nat.le_of_not_lt countable)⟩
    · rcases exists_first_not available with ⟨before, segment, after, split, earlier, missing⟩
      right
      by_cases countable : promised (streams term before) < UInt64.size
      · cases failed : segment.postings term with
        | error error => exact ⟨error, .withheld split earlier countable failed⟩
        | ok found => exact absurd ⟨found, failed⟩ missing
      · exact ⟨_, .uncountable split earlier (Nat.le_of_not_lt countable)⟩

theorem Halts.of_available (halts : Halts term segments error)
    (available : Available term segments) :
    UInt64.size ≤ promised (streams term segments) ∧ error = .sumOverflow := by
  cases halts with
  | uncountable split _ beyond =>
      rw [split, promised_streams_append]
      exact ⟨Nat.le_add_right_of_le beyond, rfl⟩
  | withheld split _ _ failed =>
      rcases available _ (split ▸ List.mem_append_right _ (.head _)) with ⟨found, here⟩
      cases failed.symm.trans here

theorem halts_iff (countable : promised (streams term segments) < UInt64.size) :
    Halts term segments error ↔ Withheld term segments error := by
  have within : ∀ {before after : List Segment}, segments = before ++ after →
      promised (streams term before) < UInt64.size := by
    intro before after split
    rw [split, promised_streams_append] at countable
    exact Nat.lt_of_le_of_lt (Nat.le_add_right _ _) countable
  constructor
  · intro halts
    cases halts with
    | uncountable split _ beyond => exact absurd (within split) (Nat.not_lt_of_le beyond)
    | withheld split available _ failed => exact ⟨_, _, _, split, available, failed⟩
  · intro ⟨before, segment, after, split, available, failed⟩
    exact .withheld split available (within split) failed

end ResultSets.TermWalk
