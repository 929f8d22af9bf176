import ResultSets.Proofs.Resolver.Rows
import ResultSets.Proofs.Resolver.Settle

namespace ResultSets

/-! What a term resolves to, whatever its postings and whatever bound the index shows. The
resolution fails where postings cannot be had, or else at the first item that is out of order,
and what it ends in otherwise is complete. An item too many is out of order only while few
documents are promised in all, so that other postings can make up for it. While few are promised
a row is filled, and for a promise beyond all memory there is no room, however little is read. -/

namespace Resolver

variable {resolver : Resolver} {segments : List Segment} {term : Term} {session : Session}

theorem ofTerm_outcome (laidOut : resolver.searcher.index.LaidOut)
    (knows : session.Knows resolver.searcher.index) (term : Term) :
    Outcome (resolver.ofTerm term session)
      ((TermWalk.Available term (Segment.ordered resolver.searcher.index.segments) ∧
          TermWalk.promisedIn term resolver.searcher.index.segments < UInt64.size) ∧
        TermWalk.RowFits resolver.sparseLimit
            (TermWalk.promisedIn term resolver.searcher.index.segments) ∧
          TermWalk.InOrder resolver.searcher.bound
            (TermWalk.roomFor resolver.sparseLimit
              (TermWalk.promisedIn term resolver.searcher.index.segments))
            (TermWalk.itemsIn term resolver.searcher.index.segments))
      (fun result => result.1.set.WellFormed ∧ ∀ document, result.1.set.Holds document ↔
        document ∈ TermWalk.liveIds (TermWalk.itemsIn term resolver.searcher.index.segments))
      (fun error =>
        TermWalk.Halts term (Segment.ordered resolver.searcher.index.segments) error ∨
          (TermWalk.Available term (Segment.ordered resolver.searcher.index.segments) ∧
              TermWalk.promisedIn term resolver.searcher.index.segments < UInt64.size) ∧
            (¬ TermWalk.RowFits resolver.sparseLimit
                  (TermWalk.promisedIn term resolver.searcher.index.segments) ∧
                error = .capacityOverflow ∨
              TermWalk.RowFits resolver.sparseLimit
                  (TermWalk.promisedIn term resolver.searcher.index.segments) ∧
                TermWalk.Breaks resolver.searcher.bound
                  (TermWalk.roomFor resolver.sparseLimit
                    (TermWalk.promisedIn term resolver.searcher.index.segments))
                  (TermWalk.itemsIn term resolver.searcher.index.segments) error)) := by
  rw [ofTerm_eq_bind]
  refine (TermWalk.resolve_outcome _ _ term laidOut.stop_le_count).bind_ok
    fun good set ⟨madeOf, _⟩ => ?_
  have shared := Session.share_set set session
  rcases settle_keeps laidOut (knows.share set) (shared ▸ madeOf.1) with
    ⟨settled, next, settles, wellFormed, members⟩
  refine ⟨(settled, next), settles, wellFormed, fun document => ?_⟩
  have narrow := good.2.2.lt_count fun entry member =>
    laidOut.stop_le_count entry.1 (TermWalk.mem_itemsIn.mp member).1
  rw [members, shared, madeOf.2, TermWalk.toNat_idsOf narrow]

/-- A term resolves to the live documents of all postings that promise something, unless
postings cannot be had, there is no room for a row, or an item is out of order. Then it fails as
the first segment does, in the order of the bases, or else for want of room, or else with what the
first such item violates. No id is cut short. -/
theorem ofTerm_reads {budget : Option Nat}
    (made : Index.ofSegments segments budget = .ok resolver.searcher.index)
    (reached : Session.Evolves resolver.searcher.index {} session) (term : Term)
    (countable : TermWalk.promisedIn term segments < UInt64.size) :
    (∀ docs next, resolver.ofTerm term session = .ok (docs, next) →
      docs.set.WellFormed ∧ ∀ document, docs.set.Holds document ↔
        ∃ segment ∈ segments, ∃ postings, segment.postings term = .ok (some postings) ∧
          postings.frequency ≠ 0 ∧ ∃ id, .ok id ∈ postings.items ∧ segment.isLive id ∧
            document = segment.base.toNat + id.toNat) ∧
    ((∃ docs next, resolver.ofTerm term session = .ok (docs, next)) ↔
      TermWalk.Available term segments ∧
        TermWalk.RowFits resolver.sparseLimit (TermWalk.promisedIn term segments) ∧
          TermWalk.InOrder resolver.searcher.bound
            (TermWalk.roomFor resolver.sparseLimit (TermWalk.promisedIn term segments))
            (TermWalk.itemsIn term segments)) ∧
    (∀ error, resolver.ofTerm term session = .error error ↔
      TermWalk.Withheld term (Segment.ordered segments) error ∨
        TermWalk.Available term segments ∧
          (¬ TermWalk.RowFits resolver.sparseLimit (TermWalk.promisedIn term segments) ∧
              error = .capacityOverflow ∨
            TermWalk.RowFits resolver.sparseLimit (TermWalk.promisedIn term segments) ∧
              TermWalk.Breaks resolver.searcher.bound
                (TermWalk.roomFor resolver.sparseLimit (TermWalk.promisedIn term segments))
                (TermWalk.itemsIn term segments) error)) ∧
    (∀ segment ∈ segments, ∀ id : DocumentId, id.toNat < segment.size →
      (UInt32.ofNat (segment.base.toNat + id.toNat)).toNat =
        segment.base.toNat + id.toNat) := by
  rcases Index.ofSegments_laidOut made with ⟨laidOut, rfl, _⟩
  have outcome := ofTerm_outcome laidOut (reached.knows laidOut (Session.knows_blank _)) term
  have available : TermWalk.Available term (Segment.ordered resolver.searcher.index.segments) ∧
      TermWalk.promisedIn term resolver.searcher.index.segments < UInt64.size ↔
        TermWalk.Available term resolver.searcher.index.segments :=
    (and_iff_left countable).trans TermWalk.available_ordered
  rw [available] at outcome
  refine ⟨fun docs next resolved => ?_, ?_, fun error => ?_, fun segment member id inside => ?_⟩
  · rcases (outcome.of_ok resolved).2 with ⟨wellFormed, members⟩
    refine ⟨wellFormed, fun document => ?_⟩
    rw [members, TermWalk.mem_liveIds]
    constructor
    · intro ⟨segment, id, listed, live, same⟩
      rcases TermWalk.mem_itemsIn.mp listed with ⟨member, postings, found, something, read⟩
      exact ⟨segment, member, postings, found, something, id, read, live, same⟩
    · intro ⟨segment, member, postings, found, something, id, read, live, same⟩
      exact ⟨segment, id, TermWalk.mem_itemsIn.mpr ⟨member, postings, found, something, read⟩,
        live, same⟩
  · rw [← outcome.isOk_iff, Prod.exists]
  · rw [outcome.eq_error_iff, TermWalk.halts_iff countable]
  · apply UInt32.toNat_ofNat_of_lt'
    exact Nat.lt_of_lt_of_le (Nat.add_lt_add_left inside _) (laidOut.stop_le_count segment member)

/-- Two segments listed in reverse. The postings of the later one descend, with a deleted
document between that no bound applies to, and the index shows a bound below its own. -/
theorem ofTerm_reads_reverse :
    ∃ index, Index.ofSegments
        [{ base := 5, size := 4, live := some (BitView.ofFlags #[true, true, false]),
           postings := fun _ => .ok (some { frequency := 1, items := [.ok 1, .ok 2, .ok 0] }) },
          { base := 0, size := 4,
            postings := fun _ => .ok (some { frequency := 3, items := [.ok 3] }) }] =
          .ok index ∧
      (Resolver.mk { index, bound := 8 } {}).ofTerm ⟨"f", "x"⟩ {} =
        .error (.idNotAscending 5 6) := by
  let late : Segment :=
    { base := 5, size := 4, live := some (BitView.ofFlags #[true, true, false]),
      postings := fun _ => .ok (some { frequency := 1, items := [.ok 1, .ok 2, .ok 0] }) }
  let early : Segment :=
    { base := 0, size := 4,
      postings := fun _ => .ok (some { frequency := 3, items := [.ok 3] }) }
  let index : Index := ⟨[late, early], 9, 6, none⟩
  have made : Index.ofSegments [late, early] = .ok index := by
    rw [Index.ofSegments, Segment.mergeSort_spans_pair (by decide)]
    rfl
  have sorted : Segment.ordered [late, early] = [early, late] := Segment.ordered_pair (by decide)
  have items : TermWalk.itemsIn ⟨"f", "x"⟩ [late, early] =
      [(early, .ok 3), (late, .ok 1), (late, .ok 2), (late, .ok 0)] := by
    rw [TermWalk.itemsIn, sorted]
    rfl
  have live : TermWalk.liveIds [(early, .ok 3), (late, .ok 1), (late, .ok 2)] = [3, 6] := by
    decide
  have available : TermWalk.Available ⟨"f", "x"⟩ [late, early] := by
    rw [TermWalk.Available, List.forall_mem_cons, List.forall_mem_singleton]
    exact ⟨⟨_, rfl⟩, ⟨_, rfl⟩⟩
  have promised : TermWalk.promisedIn ⟨"f", "x"⟩ [late, early] = 4 := by
    rw [TermWalk.promisedIn, sorted]
    rfl
  have room : TermWalk.roomFor (Policy.sparseLimit {} 8) 4 = some 4 := by decide
  have inOrder : TermWalk.InOrder 8 (some 4) [(early, .ok 3), (late, .ok 1), (late, .ok 2)] := by
    refine ⟨by simp [late, early], ?_⟩
    rw [live]
    exact ⟨by decide, by decide, by simp⟩
  have breaks : TermWalk.Breaks 8 (some 4)
      [(early, .ok 3), (late, .ok 1), (late, .ok 2), (late, .ok 0)] (.idNotAscending 5 6) := by
    refine ⟨_, (late, .ok 0), [], rfl, inOrder, ?_⟩
    rw [live]
    exact .notAscending (by decide) (by decide) (by decide) rfl (by decide)
  have countable : TermWalk.promisedIn ⟨"f", "x"⟩ [late, early] < UInt64.size := by
    rw [promised]
    decide
  have failed := (@ofTerm_reads { searcher := { index, bound := 8 } } _ {} none made .refl
    ⟨"f", "x"⟩ countable).2.2.1 (.idNotAscending 5 6)
  rw [items, promised] at failed
  rw [← room] at breaks
  exact ⟨index, made, failed.mpr (.inr ⟨available, .inr ⟨fun _ => by decide, breaks⟩⟩)⟩

/-! ## A promise beyond memory

One document is read, and the policy asks for a row however many are promised. -/

def overpromising : Segment where
  base := 0
  size := 4
  postings _ := .ok (some { frequency := 0x4000000000000000, items := [.ok 0] })

def lavish : Policy where
  slack := 0xFFFFFFFFFFFFFFFF

theorem ofSegments_overpromising :
    Index.ofSegments [overpromising] = .ok ⟨[overpromising], 4, 4, none⟩ := by
  rw [Index.ofSegments, List.mergeSort_of_pairwise (by decide)]
  rfl

theorem ordered_overpromising : Segment.ordered [overpromising] = [overpromising] :=
  List.mergeSort_singleton _

theorem promisedIn_overpromising (term : Term) :
    TermWalk.promisedIn term [overpromising] = 0x4000000000000000 := by
  rw [TermWalk.promisedIn, ordered_overpromising]
  rfl

theorem ofTerm_overpromising (term : Term) (session : Session) :
    (Index.resolver ⟨[overpromising], 4, 4, none⟩ lavish).ofTerm term session =
      .error .capacityOverflow := by
  rw [ofTerm_eq, TermWalk.resolve, ordered_overpromising]
  rfl

/-- Everything is in order with the one item, and the term is not resolved. -/
theorem not_forall_ofTerm_reads :
    ¬ ∀ (segments : List Segment) (resolver : Resolver) (term : Term),
      Index.ofSegments segments = .ok resolver.searcher.index →
        TermWalk.promisedIn term segments < UInt64.size → TermWalk.Available term segments →
          TermWalk.InOrder resolver.searcher.bound
            (TermWalk.roomFor resolver.sparseLimit (TermWalk.promisedIn term segments))
            (TermWalk.itemsIn term segments) →
          ∃ docs next, resolver.ofTerm term {} = .ok (docs, next) := by
  intro all
  have promised := promisedIn_overpromising ⟨"f", "x"⟩
  have read : TermWalk.itemsIn ⟨"f", "x"⟩ [overpromising] = [(overpromising, .ok 0)] := by
    rw [TermWalk.itemsIn, ordered_overpromising]
    rfl
  have live : TermWalk.liveIds [(overpromising, .ok 0)] = [0] := by decide
  have inOrder : TermWalk.InOrder 4 (some 0x4000000000000000) [(overpromising, .ok 0)] := by
    refine ⟨by simp [overpromising], ?_⟩
    rw [live]
    exact ⟨by decide, by decide, by simp⟩
  rcases all [overpromising] (Index.resolver ⟨[overpromising], 4, 4, none⟩ lavish) ⟨"f", "x"⟩
    ofSegments_overpromising (by rw [promised]; decide)
    (List.forall_mem_singleton.mpr ⟨_, rfl⟩)
    (by rw [promised, read]; exact inOrder) with ⟨docs, next, resolved⟩
  cases (ofTerm_overpromising _ _).symm.trans resolved

end Resolver

/-! ## Items too many -/

/-- Reading the postings of the term to their end yields live documents in ascending order,
however many are promised. -/
def Segment.Sound (segment : Segment) (term : Term) : Prop :=
  ∃ ids, segment.Yields term ids ∧ Ascending ids ∧
    ∀ id ∈ ids, id.toNat < segment.size ∧ segment.isLive id

namespace TermWalk

variable {index : Index} {term : Term}

theorem available_of_sound (sound : ∀ segment ∈ index.segments, segment.Sound term) :
    Available term index.segments := by
  intro segment member
  rcases sound segment member with ⟨ids, ⟨absent, _⟩ | ⟨frequency, found⟩, _⟩
  · exact ⟨none, absent⟩
  · exact ⟨_, found⟩

theorem inOrder_of_sound (laidOut : index.LaidOut)
    (sound : ∀ segment ∈ index.segments, segment.Sound term) :
    InOrder index.bound none (itemsIn term index.segments) ∧
      (liveIds (itemsIn term index.segments)).length = (itemsIn term index.segments).length := by
  let kept := (Segment.ordered index.segments).filter (0 < ·.promise term)
  have listed : ∀ {segment}, segment ∈ kept → segment ∈ index.segments := fun member =>
    List.mem_mergeSort.mp (List.mem_filter.mp member).1
  rcases exists_rows fun segment member => sound segment (listed member) with ⟨rows, own, each⟩
  have member : ∀ {row}, row ∈ rows → row.1 ∈ kept := fun member =>
    own ▸ List.mem_map_of_mem member
  have truthful : ∀ row ∈ rows, row.1.Truthful term := by
    intro row rowMember postings found nothing
    have something := (List.mem_filter.mp (member rowMember)).2
    rw [Segment.promise_of_ok found, nothing] at something
    cases something
  have items := (streams_eq (fun row member => (each row member).1) truthful).2
  rw [own, streams_filter_promise] at items
  have apart : kept.Pairwise fun left right =>
      left.base.toNat ≤ right.base.toNat ∧ left.Apart right :=
    (Segment.ordered_pairwise laidOut.apart).filter _
  rw [← own, List.pairwise_map] at apart
  have ascending := entriesOf_pairwise apart (fun row member => (each row member).2.1)
    fun row member id idMember => ((each row member).2.2 id idMember).1
  have inside : ∀ entry ∈ entriesOf rows,
      (entry.2.toNat < entry.1.size ∧ global entry < index.bound) ∧
        entry.1.isLive entry.2 := by
    intro entry entryMember
    rcases mem_entriesOf.mp entryMember with ⟨row, rowMember, same, idMember⟩
    have here := (each row rowMember).2.2 entry.2 idMember
    have below := laidOut.inside row.1 (listed (member rowMember))
    have stop : row.1.stop = row.1.base.toNat + row.1.size := rfl
    rw [global, ← same]
    exact ⟨⟨here.1, by omega⟩, here.2⟩
  have live : (entriesOf rows).live = entriesOf rows :=
    List.filter_eq_self.mpr fun entry member => (inside entry member).2
  rw [itemsIn, items]
  refine ⟨Entries.inOrder (fun entry member => (inside entry member).1) ascending (by simp), ?_⟩
  rw [liveIds_items, live, List.length_map, Entries.items, List.length_map]

end TermWalk

namespace Resolver

variable {resolver : Resolver} {index : Index} {segments : List Segment} {term : Term}
  {session : Session}

theorem ofTerm_of_inOrder (laidOut : resolver.searcher.index.LaidOut)
    (knows : session.Knows resolver.searcher.index)
    (available : TermWalk.Available term resolver.searcher.index.segments)
    {items : TermWalk.Items} (read : TermWalk.itemsIn term resolver.searcher.index.segments = items)
    {promised : Nat}
    (counted : TermWalk.promisedIn term resolver.searcher.index.segments = promised)
    (inOrder : TermWalk.InOrder resolver.searcher.bound none items) :
    (resolver.ofTerm term session = .error (.postingsTooMany promised) ↔
      promised ≤ resolver.sparseLimit ∧ promised < (TermWalk.liveIds items).length) ∧
    (promised < UInt64.size → TermWalk.RowFits resolver.sparseLimit promised →
      ((∃ docs next, resolver.ofTerm term session = .ok (docs, next)) ↔
        resolver.sparseLimit < promised ∨ (TermWalk.liveIds items).length ≤ promised) ∧
      ∀ error, resolver.ofTerm term session = .error error →
        error = .postingsTooMany promised) := by
  have outcome := ofTerm_outcome laidOut knows term
  have present := TermWalk.available_ordered.mpr available
  rw [read, counted] at outcome
  have possible := outcome.isOk_iff
  rw [Prod.exists, and_iff_right present, inOrder.inOrder_iff, TermWalk.forall_roomFor] at possible
  -- The items give no reason to fail but their number. What the postings promise gives two more.
  have failures : ∀ error, resolver.ofTerm term session = .error error →
      UInt64.size ≤ promised ∧ error = .sumOverflow ∨
        ¬ TermWalk.RowFits resolver.sparseLimit promised ∧ error = .capacityOverflow ∨
          promised < UInt64.size ∧ TermWalk.RowFits resolver.sparseLimit promised ∧
            promised ≤ resolver.sparseLimit ∧ error = .postingsTooMany promised := by
    intro error failed
    rcases outcome.eq_error_iff.mp failed with halts | ⟨⟨_, countable⟩, unfit | ⟨rowFits, breaks⟩⟩
    · exact .inl (counted ▸ halts.of_available present)
    · exact .inr (.inl unfit)
    · rcases breaks.tooMany inOrder with ⟨most, room, same⟩
      rw [TermWalk.roomFor] at room
      split at room
      · next few =>
          cases room
          exact .inr (.inr ⟨countable, rowFits, few, same⟩)
      · cases room
  constructor
  · constructor
    · intro failed
      rcases failures _ failed with ⟨_, other⟩ | ⟨_, other⟩ | ⟨countable, rowFits, few, _⟩
      · cases other
      · cases other
      · refine ⟨few, Nat.lt_of_not_le fun enough => ?_⟩
        rcases possible.mpr ⟨countable, rowFits, .inr enough⟩ with ⟨docs, next, resolved⟩
        cases failed.symm.trans resolved
    · rintro ⟨few, more⟩
      -- More items are live than are promised, so little enough is promised to be counted and held.
      have below : promised ≤ DocumentId.count := by
        have most := inOrder.length_le fun entry member =>
          laidOut.stop_le_count entry.1 (TermWalk.mem_itemsIn.mp (read ▸ member)).1
        omega
      rcases TermWalk.rowFits_of_le below with ⟨countable, rowFits⟩
      rcases outcome.either with good | ⟨error, reason⟩
      · rcases (possible.mp (Prod.exists.mp (outcome.isOk_iff.mpr good))).2.2 with many | enough
        · omega
        · omega
      · have failed := outcome.error error reason
        rcases failures error failed with ⟨beyond, _⟩ | ⟨unfit, _⟩ | ⟨_, _, _, same⟩
        · omega
        · exact absurd rowFits unfit
        · rw [failed, same]
  · intro countable rowFits
    rw [and_iff_right countable, and_iff_right rowFits] at possible
    refine ⟨possible, fun error failed => ?_⟩
    rcases failures error failed with ⟨beyond, _⟩ | ⟨unfit, _⟩ | ⟨_, _, _, same⟩
    · omega
    · exact absurd rowFits unfit
    · exact same

/-- Sound postings are refused as too many exactly if few are promised in all and more are read
than that. Otherwise the term is resolved, unless the promise is beyond what can be counted and
held. Postings that promise nothing are not read. -/
theorem ofTerm_refuses_excess {budget : Option Nat}
    (made : Index.ofSegments segments budget = .ok index)
    (sound : ∀ segment ∈ segments, segment.Sound term)
    (reached : Session.Evolves index {} session) (policy : Policy) :
    ((index.resolver policy).ofTerm term session =
        .error (.postingsTooMany (TermWalk.promisedIn term segments)) ↔
      TermWalk.promisedIn term segments ≤ policy.sparseLimit index.bound ∧
        TermWalk.promisedIn term segments < (TermWalk.itemsIn term segments).length) ∧
    (TermWalk.promisedIn term segments < UInt64.size →
      TermWalk.RowFits (policy.sparseLimit index.bound) (TermWalk.promisedIn term segments) →
        ((∃ docs next, (index.resolver policy).ofTerm term session = .ok (docs, next)) ↔
          policy.sparseLimit index.bound < TermWalk.promisedIn term segments ∨
            (TermWalk.itemsIn term segments).length ≤ TermWalk.promisedIn term segments) ∧
        ∀ error, (index.resolver policy).ofTerm term session = .error error →
          error = .postingsTooMany (TermWalk.promisedIn term segments)) := by
  rcases Index.ofSegments_laidOut made with ⟨laidOut, rfl, _⟩
  have knows := reached.knows laidOut (Session.knows_blank index)
  rcases TermWalk.inOrder_of_sound laidOut sound with ⟨inOrder, all⟩
  rw [← all]
  exact ofTerm_of_inOrder laidOut knows (TermWalk.available_of_sound sound) rfl rfl inOrder

theorem ofTerm_refuses_excess_three :
    ∃ index, Index.ofSegments
        [{ base := 0, size := 4,
           postings := fun _ => .ok (some { frequency := 1, items := [.ok 0, .ok 3] }) },
          { base := 4, size := 5,
            postings := fun _ => .ok (some { frequency := 1, items := [.ok 2] }) }] =
          .ok index ∧
      (index.resolver {}).ofTerm ⟨"f", "x"⟩ {} = .error (.postingsTooMany 2) := by
  let early : Segment :=
    { base := 0, size := 4,
      postings := fun _ => .ok (some { frequency := 1, items := [.ok 0, .ok 3] }) }
  let late : Segment :=
    { base := 4, size := 5,
      postings := fun _ => .ok (some { frequency := 1, items := [.ok 2] }) }
  have made : Index.ofSegments [early, late] = .ok ⟨[early, late], 9, 9, none⟩ := by
    rw [Index.ofSegments, List.mergeSort_of_pairwise (by decide)]
    rfl
  have sorted : Segment.ordered [early, late] = [early, late] :=
    List.mergeSort_of_pairwise (by decide)
  have promised : TermWalk.promisedIn ⟨"f", "x"⟩ [early, late] = 2 := by
    rw [TermWalk.promisedIn, sorted]
    rfl
  have read : (TermWalk.itemsIn ⟨"f", "x"⟩ [early, late]).length = 3 := by
    rw [TermWalk.itemsIn, sorted]
    rfl
  have sound : ∀ segment ∈ [early, late], segment.Sound ⟨"f", "x"⟩ := by
    rw [List.forall_mem_cons, List.forall_mem_singleton]
    exact ⟨⟨[0, 3], .inr ⟨1, rfl⟩, by decide, by simp [early, Segment.isLive]⟩,
      ⟨[2], .inr ⟨1, rfl⟩, by decide, by simp [late, Segment.isLive]⟩⟩
  have refused := (ofTerm_refuses_excess made sound .refl {}).1
  rw [promised, read] at refused
  exact ⟨_, made, refused.mpr (by decide)⟩

/-- Where seven documents are promised, too many for a row, and eight are read, the bitmap of
all eight is what the term resolves to. -/
theorem not_forall_ofTerm_refuses_excess :
    ¬ ∀ (segments : List Segment) (budget : Option Nat) (index : Index) (policy : Policy)
        (term : Term), Index.ofSegments segments budget = .ok index →
      (∀ segment ∈ segments, segment.Sound term) →
        (∃ segment ∈ segments, ∃ postings, segment.postings term = .ok (some postings) ∧
          postings.frequency < postings.items.length) →
          ∃ error, (index.resolver policy).ofTerm term {} = .error error ∧
            error.kind = .internal := by
  intro all
  let segment : Segment :=
    { base := 0, size := 100
      postings := fun _ => .ok (some
        { frequency := 7
          items := [.ok 0, .ok 1, .ok 2, .ok 3, .ok 4, .ok 5, .ok 6, .ok 7] }) }
  have made : Index.ofSegments [segment] = .ok ⟨[segment], 100, 100, none⟩ := by
    rw [Index.ofSegments, List.mergeSort_of_pairwise (by decide)]
    rfl
  have sound : ∀ other ∈ [segment], other.Sound ⟨"f", "x"⟩ := by
    rw [List.forall_mem_singleton]
    exact ⟨[0, 1, 2, 3, 4, 5, 6, 7], .inr ⟨7, rfl⟩, by decide,
      by simp [segment, Segment.isLive]⟩
  have promised : TermWalk.promisedIn ⟨"f", "x"⟩ [segment] = 7 := by
    rw [TermWalk.promisedIn, Segment.ordered, List.mergeSort_singleton]
    rfl
  have laidOut := (Index.ofSegments_laidOut made).1
  have possible := (@ofTerm_of_inOrder (Index.resolver _ {}) ⟨"f", "x"⟩ {} laidOut
    (Session.knows_blank _) (TermWalk.available_of_sound sound) _ rfl _ promised
    (TermWalk.inOrder_of_sound laidOut sound).1).2 (by decide) fun few => absurd few (by decide)
  rcases possible.1.mpr (.inl (by decide)) with ⟨docs, next, resolved⟩
  rcases all [segment] none _ {} ⟨"f", "x"⟩ made sound
    ⟨segment, .head _, _, rfl, by decide⟩ with ⟨error, failed, _⟩
  cases failed.symm.trans resolved

end Resolver

end ResultSets
