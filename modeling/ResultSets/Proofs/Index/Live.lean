import ResultSets.Index.Live
import ResultSets.Proofs.Bitmap.Paste
import ResultSets.Proofs.Fallible
import ResultSets.Proofs.Index.Layout

namespace ResultSets

/-! The set of all live documents, as it is made and as candidates for it are checked. Whatever a
session comes to remember is the set of exactly the live documents, and once it remembers one it
keeps it. A segment is covered if its deletions are recorded for all of its documents, or for
none. -/

namespace Segment

def Covered (segment : Segment) : Prop :=
  ∀ view, segment.live = some view → segment.size ≤ view.length

variable {segment : Segment} {segments rest : List Segment} {id : DocumentId}

theorem lives_toNat_iff :
    segment.Lives id.toNat ↔
      segment.span.Holds id.toNat ∧ segment.isLive (id - segment.base) := by
  constructor
  · intro lives
    have inside := lives.inside
    have offset := (toNat_sub_base inside).2
    rcases lives with ⟨position, _, live, same⟩
    have equal : (id - segment.base).toNat = position := by omega
    rw [isLive, equal]
    exact ⟨inside, live⟩
  · rintro ⟨inside, live⟩
    rcases toNat_sub_base inside with ⟨below, sum⟩
    exact ⟨_, below, live, sum⟩

theorem lives_iff_of_dropWhile
    (ordered : segments.Pairwise fun left right =>
      left.base.toNat ≤ right.base.toNat ∧ left.Disjoint right)
    {document : Nat} (dropped : segments.dropWhile (·.stop ≤ document) = segment :: rest) :
    (∃ other ∈ segments, other.Lives document) ↔ segment.Lives document := by
  constructor
  · rintro ⟨other, listed, lives⟩
    have inside : ∃ own ∈ segments, own.span.Holds document := ⟨other, listed, lives.inside⟩
    rcases exists_first_of_holds (ordered.imp And.left) inside with ⟨first, _, same, holds⟩
    have kept := mem_dropWhile_of_lt_stop listed lives.inside.2
    have apart := ordered.sublist
      (List.dropWhile_sublist (fun segment : Segment => segment.stop ≤ document))
    cases dropped.symm.trans same
    rw [dropped] at kept apart
    rcases List.mem_cons.mp kept with rfl | later
    · exact lives
    · -- A later segment that holds the document would share it with the first.
      have disjoint := ((List.pairwise_cons.mp apart).1 other later).2
      exact absurd lives.inside (disjoint document holds)
  · exact fun lives => ⟨segment, (lt_stop_of_dropWhile dropped).1, lives⟩

end Segment

namespace Index

variable {index : Index} {segments : List Segment} {set : IdSet}

/-! ## Checking a candidate -/

theorem lives_dropWhile (segments : List Segment) {first document : Nat}
    (ahead : first ≤ document) :
    (∃ segment ∈ segments.dropWhile (·.stop ≤ first), segment.Lives document) ↔
      ∃ segment ∈ segments, segment.Lives document := by
  constructor
  · rintro ⟨segment, member, lives⟩
    exact ⟨segment, (List.dropWhile_sublist _).subset member, lives⟩
  · rintro ⟨segment, member, lives⟩
    have behind := Nat.lt_of_le_of_lt ahead lives.inside.2
    exact ⟨segment, Segment.mem_dropWhile_of_lt_stop member behind, lives⟩

/-- One step of the check: the id is live in one of the segments, and the check goes on in those
that do not end before it. -/
theorem onlyLive_cons
    (ordered : segments.Pairwise fun left right =>
      left.base.toNat ≤ right.base.toNat ∧ left.Disjoint right)
    (id : DocumentId) (ids : List DocumentId) :
    onlyLive segments (id :: ids) ↔ (∃ segment ∈ segments, segment.Lives id.toNat) ∧
      onlyLive (segments.dropWhile (·.stop ≤ id.toNat)) ids := by
  rw [onlyLive]
  cases dropped : segments.dropWhile (·.stop ≤ id.toNat) with
  | nil =>
      have none := lives_dropWhile segments (Nat.le_refl id.toNat)
      rw [dropped] at none
      simp [← none]
  | cons segment rest =>
      have before := (Segment.lt_stop_of_dropWhile dropped).2
      have holds : segment.span.Holds id.toNat ↔ segment.base ≤ id :=
        (and_iff_left before).trans UInt32.le_iff_toNat_le.symm
      rw [Segment.lives_iff_of_dropWhile ordered dropped, Segment.lives_toNat_iff, holds]
      simp only [Bool.and_eq_true, decide_eq_true_eq]

theorem onlyLive_iff {ids : List DocumentId}
    (ordered : segments.Pairwise fun left right =>
      left.base.toNat ≤ right.base.toNat ∧ left.Disjoint right) (ascending : Ascending ids) :
    onlyLive segments ids ↔ ∀ id ∈ ids, ∃ segment ∈ segments, segment.Lives id.toNat := by
  -- From id to id there are fewer segments, since those that are passed over do not come back.
  induction ids generalizing segments with
  | nil => simp [onlyLive]
  | cons id ids induction =>
      rcases List.pairwise_cons.mp ascending with ⟨least, tail⟩
      have further := ordered.sublist
        (List.dropWhile_sublist (fun segment : Segment => segment.stop ≤ id.toNat))
      rw [onlyLive_cons ordered, induction further tail, List.forall_mem_cons]
      refine and_congr_right fun _ => forall₂_congr fun later member => ?_
      exact lives_dropWhile segments (Nat.le_of_lt (UInt32.lt_iff_toNat_lt.mp (least later member)))

theorem holdsOnlyLive_iff_lies (laidOut : index.LaidOut) (wellFormed : set.WellFormed) :
    index.holdsOnlyLive set ↔ ∀ id ∈ set, ∃ segment ∈ index.segments,
      segment.span.Holds id.toNat ∧ segment.isLive (id - segment.base) := by
  have disjoint := laidOut.apart.imp Segment.Apart.disjoint
  rw [holdsOnlyLive, onlyLive_iff (Segment.ordered_disjoint disjoint)
    (IdSet.toList_ascending wellFormed)]
  simp only [IdSet.mem_toList wellFormed, Segment.ordered, List.mem_mergeSort,
    Segment.lives_toNat_iff]

theorem holdsOnlyLive_iff (laidOut : index.LaidOut) (wellFormed : set.WellFormed) :
    index.holdsOnlyLive set ↔ ∀ document, set.Holds document → index.IsLive document := by
  rw [holdsOnlyLive_iff_lies laidOut wellFormed]
  simp only [← Segment.lives_toNat_iff]
  constructor
  · rintro all document ⟨id, member, rfl⟩
    exact all id member
  · exact fun all id member => all id.toNat ⟨id, member, rfl⟩

theorem isLiveSet_iff (laidOut : index.LaidOut) (wellFormed : set.WellFormed) :
    index.IsLiveSet set ↔ index.holdsOnlyLive set ∧ set.size = index.liveCount := by
  rw [holdsOnlyLive_iff laidOut wellFormed]
  constructor
  · intro liveSet
    exact ⟨fun document held => (liveSet.2 document).mp held, liveSet.size laidOut⟩
  · rintro ⟨live, size⟩
    exact isLiveSet_of_size laidOut wellFormed live size

end Index

/-! ## Making the set -/

namespace Segment

theorem addLiveTo_eq_ok {segment : Segment} {bitmap : Bitmap} (covered : segment.Covered)
    (fits : segment.stop ≤ bitmap.length) :
    ∃ result, addLiveTo bitmap segment = .ok result ∧ result.length = bitmap.length ∧
      ∀ document, document ∈ result ↔ segment.Lives document ∨ document ∈ bitmap := by
  have stop : segment.stop = segment.base.toNat + segment.size := rfl
  rw [addLiveTo]
  cases recorded : segment.live with
  | none =>
      rcases bitmap.insertRange_eq_ok (Nat.le_add_right segment.base.toNat segment.size) fits with
        ⟨result, inserted, length, members⟩
      refine ⟨result, inserted, length, fun document => ?_⟩
      rw [members]
      refine or_congr_left ⟨fun ⟨behind, before⟩ => ?_, fun lives => lives.inside⟩
      exact ⟨document - segment.base.toNat, by omega, by rw [recorded]; rfl, by omega⟩
  | some view =>
      have room : segment.base.toNat + (segment.size - 0) ≤ bitmap.length := by omega
      rcases Bitmap.paste_eq_ok (Nat.zero_le _) (covered view recorded) room with
        ⟨result, pasted, length, members⟩
      refine ⟨result, by simp only [pasted]; rfl, length, fun document => ?_⟩
      rw [members]
      apply or_congr_left
      constructor
      · rintro ⟨behind, before, set⟩
        refine ⟨document - segment.base.toNat, by omega, ?_, by omega⟩
        rw [recorded]
        simpa using set
      · rintro ⟨position, inside, live, rfl⟩
        rw [recorded] at live
        refine ⟨by omega, by omega, ?_⟩
        rw [Nat.add_sub_cancel_left, Nat.zero_add]
        exact live

theorem addLiveTo_of_short {segment : Segment} {view : BitView}
    (recorded : segment.live = some view) (short : view.length < segment.size)
    (bitmap : Bitmap) :
    addLiveTo bitmap segment = .error (.sourceTooShort segment.size view.length) := by
  rw [addLiveTo, recorded]
  dsimp only
  rw [Bitmap.paste, if_neg (Nat.not_lt_zero _), if_pos short]
  rfl

theorem covered_of_addLiveTo {segment : Segment} {bitmap result : Bitmap}
    (added : addLiveTo bitmap segment = .ok result) : segment.Covered := by
  intro view recorded
  apply Nat.le_of_not_lt
  intro short
  rw [addLiveTo_of_short recorded short] at added
  cases added

theorem foldlM_addLiveTo {segments : List Segment} {bitmap : Bitmap}
    (covered : ∀ segment ∈ segments, segment.Covered)
    (fits : ∀ segment ∈ segments, segment.stop ≤ bitmap.length) :
    ∃ result, segments.foldlM addLiveTo bitmap = .ok result ∧ result.length = bitmap.length ∧
      ∀ document, document ∈ result ↔
        (∃ segment ∈ segments, segment.Lives document) ∨ document ∈ bitmap := by
  induction segments generalizing bitmap with
  | nil => exact ⟨bitmap, rfl, rfl, fun document => by simp⟩
  | cons segment rest induction =>
      rcases addLiveTo_eq_ok (covered segment (.head _)) (fits segment (.head _)) with
        ⟨next, added, length, members⟩
      rcases induction (fun other member => covered other (.tail _ member)) (by
        rw [length]
        exact fun other member => fits other (.tail _ member)) with
        ⟨result, folded, resultLength, resultMembers⟩
      refine ⟨result, ?_, resultLength.trans length, fun document => ?_⟩
      · rw [List.foldlM_cons, added]
        exact folded
      · rw [resultMembers, members, List.exists_mem_cons_iff, ← or_assoc,
          or_comm (a := segment.Lives document)]

end Segment

namespace Index

variable {index : Index}

theorem liveBitmap_eq_ok (laidOut : index.LaidOut)
    (covered : ∀ segment ∈ index.segments, segment.Covered) :
    ∃ bitmap, index.liveBitmap = .ok bitmap ∧ bitmap.length = index.bound ∧
      index.IsLiveSet (.dense bitmap index.liveCount) := by
  have fits : ∀ segment ∈ index.segments, segment.stop ≤ (Bitmap.blank index.bound).length :=
    laidOut.inside
  rcases Segment.foldlM_addLiveTo covered fits with ⟨bitmap, made, length, members⟩
  have live : ∀ document, document ∈ bitmap ↔ index.IsLive document := fun document =>
    (members document).trans (or_iff_left (Bitmap.not_mem_blank _ _))
  have inside : ∀ document, document ∈ bitmap → document < DocumentId.count :=
    fun document member =>
      Nat.lt_of_lt_of_le (((live document).mp member).lt_bound laidOut) laidOut.within
  have counted : index.liveCount = bitmap.card := by
    rw [Bitmap.card_eq_length (nodup_liveList laidOut) fun document =>
      (live document).trans mem_liveList.symm, length_liveList laidOut]
  refine ⟨bitmap, made, length, ⟨inside, counted⟩, fun document => ?_⟩
  rw [IdSet.holds_dense inside, live]

theorem isLiveSet_empty (laidOut : index.LaidOut) (none : index.liveCount = 0) :
    index.IsLiveSet .empty := by
  refine isLiveSet_of_size laidOut trivial (fun document held => ?_) none.symm
  exact absurd held (IdSet.not_holds_empty document)

end Index

/-! ## What a session remembers

That is the set of all live documents, or none. Any other candidate is handed back, and no
candidate comes back with other members. -/

def Session.Knows (session : Session) (index : Index) : Prop :=
  ∀ live, session.live = some live → index.IsLiveSet live.set

namespace Index

variable {index : Index} {session : Session} {candidate : Shared} {size : Nat}

theorem liveSet_eq (index : Index) (session : Session) :
    index.liveSet session =
      match session.live with
      | some live => .ok (live, session)
      | none =>
          if index.liveCount = 0 then .ok (.empty, { session with live := some .empty })
          else index.liveBitmap.map fun bitmap =>
            let (live, next) := session.issue (.dense bitmap index.liveCount)
            (live, { next with live := some live }) := by
  rcases session with ⟨issued, _ | live⟩
  · by_cases empty : index.liveCount = 0
    · simp only [liveSet, empty, if_true]
      rfl
    · simp only [liveSet, empty, if_false]
      cases index.liveBitmap with
      | error error => rfl
      | ok bitmap => rfl
  · rfl

theorem liveSet_eq_ok (laidOut : index.LaidOut)
    (covered : ∀ segment ∈ index.segments, segment.Covered) (knows : session.Knows index) :
    ∃ live next, index.liveSet session = .ok (live, next) ∧ index.IsLiveSet live.set ∧
      next.live = some live ∧ ∀ known, session.live = some known → known = live := by
  rw [liveSet_eq]
  cases remembered : session.live with
  | some live =>
      refine ⟨live, session, rfl, knows live remembered, remembered, fun known same => ?_⟩
      exact (Option.some.inj same).symm
  | none =>
      by_cases empty : index.liveCount = 0
      · rw [if_pos empty]
        exact ⟨.empty, _, rfl, isLiveSet_empty laidOut empty, rfl, by simp⟩
      · rcases liveBitmap_eq_ok laidOut covered with ⟨bitmap, made, _, liveSet⟩
        rw [if_neg empty, made]
        exact ⟨_, _, rfl, liveSet, rfl, by simp⟩

theorem liveSet_isLiveSet (laidOut : index.LaidOut) (knows : session.Knows index)
    {live : Shared} {next : Session} (made : index.liveSet session = .ok (live, next)) :
    index.IsLiveSet live.set ∧ next.live = some live := by
  rw [liveSet_eq] at made
  cases remembered : session.live with
  | some known =>
      rw [remembered] at made
      cases made
      exact ⟨knows live remembered, remembered⟩
  | none =>
      rw [remembered] at made
      dsimp only at made
      split at made
      · next empty =>
          cases made
          exact ⟨isLiveSet_empty laidOut empty, rfl⟩
      · rcases ok_of_map made with ⟨bitmap, pasted, result⟩
        have covered : ∀ segment ∈ index.segments, segment.Covered :=
          forall_of_foldlM_eq_ok (fun _ _ _ => Segment.covered_of_addLiveTo) pasted
        rcases liveBitmap_eq_ok laidOut covered with ⟨other, same, _, liveSet⟩
        cases pasted.symm.trans same
        cases result
        exact ⟨liveSet, rfl⟩

theorem offer_of_isLiveSet (laidOut : index.LaidOut) (liveSet : index.IsLiveSet candidate.set)
    (session : Session) :
    index.offer candidate index.liveCount session =
      (session.live.getD candidate,
        { session with live := some (session.live.getD candidate) }) := by
  rcases (isLiveSet_iff laidOut liveSet.1).mp liveSet with ⟨holds, size⟩
  rw [offer, if_neg (by simp [size]), holds]
  rcases session with ⟨issued, _ | live⟩
  · rfl
  · rfl

theorem offer_of_not_isLiveSet (laidOut : index.LaidOut) (wellFormed : candidate.set.WellFormed)
    (other : ¬ (index.IsLiveSet candidate.set ∧ size = index.liveCount)) (session : Session) :
    index.offer candidate size session = (candidate, session) := by
  rw [offer]
  split
  · rfl
  · next sizes =>
      rw [not_or, not_not, not_not] at sizes
      split
      · rfl
      · next holds =>
          have liveSet := (isLiveSet_iff laidOut wellFormed).mpr
            ⟨by simpa using holds, sizes.2.trans sizes.1⟩
          exact absurd ⟨liveSet, sizes.1⟩ other

theorem offer_members (laidOut : index.LaidOut) (knows : session.Knows index)
    (wellFormed : candidate.set.WellFormed) :
    (index.offer candidate size session).1.set.WellFormed ∧
      ∀ document, (index.offer candidate size session).1.set.Holds document ↔
        candidate.set.Holds document := by
  by_cases adopted : index.IsLiveSet candidate.set ∧ size = index.liveCount
  · rcases adopted with ⟨liveSet, rfl⟩
    rw [offer_of_isLiveSet laidOut liveSet]
    cases remembered : session.live with
    | none => exact ⟨wellFormed, fun document => Iff.rfl⟩
    | some live =>
        have known := knows live remembered
        exact ⟨known.1, fun document => (known.2 document).trans (liveSet.2 document).symm⟩
  · rw [offer_of_not_isLiveSet laidOut wellFormed adopted]
    exact ⟨wellFormed, fun document => Iff.rfl⟩

theorem offer_knows (laidOut : index.LaidOut) (knows : session.Knows index)
    (wellFormed : candidate.set.WellFormed) :
    (index.offer candidate size session).2.Knows index := by
  by_cases adopted : index.IsLiveSet candidate.set ∧ size = index.liveCount
  · rcases adopted with ⟨liveSet, rfl⟩
    rw [offer_of_isLiveSet laidOut liveSet]
    intro live same
    cases same
    cases remembered : session.live with
    | none => exact liveSet
    | some known => exact knows known remembered
  · rw [offer_of_not_isLiveSet laidOut wellFormed adopted]
    exact knows

theorem offer_keeps (candidate : Shared) (size : Nat) {live : Shared}
    (remembered : session.live = some live) :
    (index.offer candidate size session).2.live = some live := by
  rw [offer]
  split
  · exact remembered
  · split
    · exact remembered
    · rw [remembered]
      exact remembered

end Index

end ResultSets
