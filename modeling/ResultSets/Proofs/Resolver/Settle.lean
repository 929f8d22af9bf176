import ResultSets.Proofs.Delivery.Failure
import ResultSets.Proofs.Index.Session
import ResultSets.Proofs.Resolver.TermWalk
import ResultSets.Resolver.Basic

namespace ResultSets

/-! How the ways to resolve a query end: in a set that is shared and settled. Settling never
changes the members of a set, and a set of exactly the live documents settles to the one that the
session remembers. A set is shared under a number of its own, unless it is the shared empty one. -/

def Index.resolver (index : Index) (policy : Policy) : Resolver := { searcher := { index }, policy }

namespace Session

theorem share_set (set : IdSet) (session : Session) : (session.share set).1.set = set := by
  cases set with
  | empty => rfl
  | sparse ids => rfl
  | dense bitmap size => rfl

theorem share_live (set : IdSet) (session : Session) :
    (session.share set).2.live = session.live := by
  cases set with
  | empty => rfl
  | sparse ids => rfl
  | dense bitmap size => rfl

theorem Knows.share {session : Session} {index : Index} (knows : session.Knows index)
    (set : IdSet) : (session.share set).2.Knows index := by
  intro live remembered
  rw [share_live] at remembered
  exact knows live remembered

end Session

namespace Resolver

variable {index : Index} {policy : Policy} {session next : Session} {docs settled : Shared}
  {set : IdSet} {query : Query}

/-! ## Settling -/

theorem settle_eq_offer (resolver : Resolver) (docs : Shared) (session : Session) :
    resolver.settle docs session =
      if docs.set.size = resolver.searcher.liveCount then
        .ok (resolver.searcher.index.offer docs docs.set.size session)
      else .ok (docs, session) := by
  rw [settle]
  split
  · rfl
  · rfl

theorem settle_eq (index : Index) (policy : Policy) (docs : Shared) (session : Session) :
    (index.resolver policy).settle docs session =
      if docs.set.size = index.liveCount then .ok (index.offer docs docs.set.size session)
      else .ok (docs, session) :=
  settle_eq_offer (index.resolver policy) docs session

/-- However many live documents the index is said to have, settling keeps the members. -/
theorem settle_keeps {resolver : Resolver} (laidOut : resolver.searcher.index.LaidOut)
    (knows : session.Knows resolver.searcher.index) (wellFormed : docs.set.WellFormed) :
    ∃ settled next, resolver.settle docs session = .ok (settled, next) ∧
      settled.set.WellFormed ∧
      ∀ document, settled.set.Holds document ↔ docs.set.Holds document := by
  rw [settle_eq_offer]
  split
  · rcases @Index.offer_members _ session docs docs.set.size laidOut knows wellFormed with
      ⟨offered, members⟩
    exact ⟨_, _, rfl, offered, members⟩
  · exact ⟨docs, session, rfl, wellFormed, fun document => Iff.rfl⟩

theorem settle_eq_ok (laidOut : index.LaidOut) (policy : Policy) (knows : session.Knows index)
    (wellFormed : docs.set.WellFormed) :
    ∃ settled next, (index.resolver policy).settle docs session = .ok (settled, next) ∧
      session.Evolves index next ∧ settled.set.WellFormed ∧
      (∀ document, settled.set.Holds document ↔ docs.set.Holds document) ∧
      (index.IsLiveSet docs.set → next.live = some settled) := by
  rw [settle_eq]
  split
  · next size =>
      have members := @Index.offer_members index session docs docs.set.size laidOut knows
        wellFormed
      refine ⟨(index.offer docs docs.set.size session).1,
        (index.offer docs docs.set.size session).2, rfl, .offer .refl wellFormed _, members.1,
        members.2, fun liveSet => ?_⟩
      rw [size, Index.offer_of_isLiveSet laidOut liveSet]
  · next size =>
      exact ⟨docs, session, rfl, .refl, wellFormed, fun document => Iff.rfl,
        fun liveSet => absurd (liveSet.size laidOut) size⟩

theorem settle_of_stray (laidOut : index.LaidOut) (policy : Policy)
    (wellFormed : docs.set.WellFormed) {document : Nat} (held : docs.set.Holds document)
    (stray : ¬ index.IsLive document) (session : Session) :
    (index.resolver policy).settle docs session = .ok (docs, session) := by
  rw [settle_eq, Index.offer_of_not_isLiveSet laidOut wellFormed]
  · split
    · rfl
    · rfl
  · rintro ⟨liveSet, _⟩
    exact stray ((liveSet.2 document).mp held)

theorem share_settle_eq_ok (laidOut : index.LaidOut) (policy : Policy)
    (knows : session.Knows index) (wellFormed : set.WellFormed) :
    ∃ settled next, (index.resolver policy).settle (session.share set).1 (session.share set).2 =
        .ok (settled, next) ∧
      settled.set.WellFormed ∧
      (∀ document, settled.set.Holds document ↔ set.Holds document) ∧
      (settled.set.size ≠ index.liveCount → settled.set = set) := by
  have shared := Session.share_set set session
  rcases settle_eq_ok laidOut policy (knows.share set) (shared ▸ wellFormed) with
    ⟨settled, next, settles, _, settledWellFormed, members, _⟩
  rw [shared] at members
  refine ⟨settled, next, settles, settledWellFormed, members, fun other => ?_⟩
  rw [IdSet.size_eq_of_holds settledWellFormed wellFormed members] at other
  rw [settle_eq, shared, if_neg other] at settles
  cases settles
  exact shared

/-! ## Ways to resolve a query -/

theorem ofTerm_eq_bind (resolver : Resolver) (term : Term) (session : Session) :
    resolver.ofTerm term session =
      (TermWalk.resolve resolver.searcher.bound resolver.policy resolver.searcher.index.segments
        term >>= fun set =>
          resolver.settle (session.share set).1 (session.share set).2) := by
  change ((TermWalk.resolve resolver.searcher.bound resolver.policy
    resolver.searcher.index.segments term : Except Error IdSet) >>= _ :
    Sharing Shared) session = _
  cases TermWalk.resolve resolver.searcher.bound resolver.policy
    resolver.searcher.index.segments term with
  | error error => rfl
  | ok set => rfl

theorem ofTerm_eq (index : Index) (policy : Policy) (term : Term) (session : Session) :
    (index.resolver policy).ofTerm term session =
      match TermWalk.resolve index.bound policy index.segments term with
      | .error error => .error error
      | .ok set => (index.resolver policy).settle (session.share set).1 (session.share set).2 := by
  rw [ofTerm_eq_bind]
  change (TermWalk.resolve index.bound policy index.segments term >>= _) = _
  cases TermWalk.resolve index.bound policy index.segments term with
  | error error => rfl
  | ok set => rfl

theorem evaluate_eq {blank : Accumulator}
    (started : Accumulator.start index.bound policy = .ok blank) (query : Query)
    (session : Session) :
    (index.resolver policy).evaluate query session =
      match (query.deliver index).into blank with
      | (_, some error) => .error error
      | (last, none) =>
          match last.finish with
          | .error error => .error error
          | .ok set =>
              (index.resolver policy).settle (session.share set).1 (session.share set).2 := by
  change ((Accumulator.start index.bound policy : Except Error Accumulator) >>= _ :
    Sharing Shared) session = _
  rw [started]
  change (match (query.deliver index).into blank with
    | (_, some error) => throw error
    | (accumulated, none) => _ : Sharing Shared) session = _
  rcases (query.deliver index).into blank with ⟨last, _ | error⟩
  · dsimp only
    cases last.finish with
    | error error => rfl
    | ok set => rfl
  · rfl

theorem resolveQuery_all_eq (index : Index) (policy : Policy) (session : Session) :
    (index.resolver policy).resolveQuery .all session =
      match index.liveSet session with
      | .error error => .error error
      | .ok (live, next) => (index.resolver policy).settle live next := by
  change (index.liveSet >>= _ : Sharing Shared) session = _
  change (index.liveSet session >>= _ : Except Error (Shared × Session)) = _
  cases index.liveSet session with
  | error error => rfl
  | ok result => rfl

theorem resolveQuery_producer_eq (index : Index) (policy : Policy)
    (produce : Searcher → Sharing Shared) (hits : Segment → Except Error Bitmap)
    (session : Session) :
    (index.resolver policy).resolveQuery (.producer produce hits) session =
      match produce { index } session with
      | .error error => .error error
      | .ok (docs, next) => (index.resolver policy).settle docs next := by
  change (produce { index } session >>= _ : Except Error (Shared × Session)) = _
  cases produce { index } session with
  | error error => rfl
  | ok result => rfl

end Resolver

end ResultSets
