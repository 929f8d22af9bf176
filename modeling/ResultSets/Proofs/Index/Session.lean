import ResultSets.Proofs.Index.Live

namespace ResultSets

/-! How a session can change between two looks at it: sets are issued, the set of all live
documents is asked for, and candidates for it are offered. Nothing but the set of all live
documents comes to be remembered, and it stays, whatever deletions the segments record. -/

inductive Session.Evolves (index : Index) (first : Session) : Session → Prop
  | refl : Evolves index first first
  | issue {session : Session} (evolves : Evolves index first session) (set : IdSet) :
      Evolves index first (session.issue set).2
  | live {session next : Session} {live : Shared} (evolves : Evolves index first session)
      (made : index.liveSet session = .ok (live, next)) : Evolves index first next
  | offer {session : Session} (evolves : Evolves index first session) {candidate : Shared}
      (wellFormed : candidate.set.WellFormed) (size : Nat) :
      Evolves index first (index.offer candidate size session).2

namespace Session.Evolves

variable {index : Index} {first middle last : Session}

theorem trans (before : first.Evolves index middle) (after : middle.Evolves index last) :
    first.Evolves index last := by
  induction after with
  | refl => exact before
  | issue _ set evolved => exact evolved.issue set
  | live _ made evolved => exact evolved.live made
  | offer _ wellFormed size evolved => exact evolved.offer wellFormed size

theorem share (evolves : first.Evolves index middle) (set : IdSet) :
    first.Evolves index (middle.share set).2 := by
  cases set with
  | empty => exact evolves
  | sparse ids => exact evolves.issue _
  | dense bitmap size => exact evolves.issue _

theorem knows_and_keeps (evolves : first.Evolves index last) (laidOut : index.LaidOut)
    (covered : ∀ segment ∈ index.segments, segment.Covered) (knows : first.Knows index) :
    last.Knows index ∧ ∀ live, first.live = some live → last.live = some live := by
  induction evolves with
  | refl => exact ⟨knows, fun live remembered => remembered⟩
  | issue _ set kept => exact kept
  | live _ made kept =>
      rcases Index.liveSet_eq_ok laidOut covered kept.1 with
        ⟨live, next, same, liveSet, remembered, agrees⟩
      cases made.symm.trans same
      refine ⟨fun known found => ?_, fun known found => ?_⟩
      · cases remembered.symm.trans found
        exact liveSet
      · rw [agrees known (kept.2 known found)]
        exact remembered
  | offer _ wellFormed size kept =>
      exact ⟨Index.offer_knows laidOut kept.1 wellFormed,
        fun live found => Index.offer_keeps _ size (kept.2 live found)⟩

theorem knows (evolves : first.Evolves index last) (laidOut : index.LaidOut)
    (knows : first.Knows index) : last.Knows index := by
  induction evolves with
  | refl => exact knows
  | issue _ set known => exact known
  | live _ made known =>
      rcases Index.liveSet_isLiveSet laidOut known made with ⟨liveSet, found⟩
      intro live remembered
      cases found.symm.trans remembered
      exact liveSet
  | offer _ wellFormed size known => exact Index.offer_knows laidOut known wellFormed

end Session.Evolves

theorem Session.knows_blank (index : Index) : Session.Knows {} index :=
  fun _ none => nomatch none

end ResultSets
