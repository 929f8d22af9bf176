import ResultSets.Proofs.Resolver.Settle

namespace ResultSets

/-! Whole runs of requests to one index, in any order. The session remembers the set of
exactly the live documents from the first request on that yields such a set, and every
later request that yields one yields this very set. -/

/-! ## What one request does -/

namespace Resolver

variable {index : Index} {policy : Policy} {session next : Session} {docs settled : Shared}

/-- A result that is accounted for: the session got where it is by the means there are, and
remembers the result if it is a set of exactly the live documents. -/
structure Accounts (index : Index) (session : Session) (docs : Shared) (next : Session) :
    Prop where
  evolves : session.Evolves index next
  wellFormed : docs.set.WellFormed
  remembered : index.IsLiveSet docs.set → next.live = some docs

theorem settle_accounts (laidOut : index.LaidOut) {first : Session}
    (evolves : first.Evolves index session) (knows : session.Knows index)
    (wellFormed : docs.set.WellFormed)
    (settles : (index.resolver policy).settle docs session = .ok (settled, next)) :
    Accounts index first settled next := by
  rcases settle_eq_ok laidOut policy knows wellFormed with
    ⟨other, otherNext, same, further, otherWellFormed, members, remembered⟩
  cases settles.symm.trans same
  refine ⟨evolves.trans further, otherWellFormed, fun liveSet => remembered ?_⟩
  exact ⟨wellFormed, fun document => (members document).symm.trans (liveSet.2 document)⟩

theorem share_settle_accounts (laidOut : index.LaidOut) (knows : session.Knows index)
    {set : IdSet} (wellFormed : set.WellFormed)
    (settles : (index.resolver policy).settle (session.share set).1 (session.share set).2 =
      .ok (settled, next)) : Accounts index session settled next := by
  refine settle_accounts laidOut (Session.Evolves.refl.share set) (knows.share set) ?_ settles
  rw [Session.share_set]
  exact wellFormed

theorem evaluate_accounts (laidOut : index.LaidOut) (knows : session.Knows index) {query : Query}
    (evaluated : (index.resolver policy).evaluate query session = .ok (settled, next)) :
    Accounts index session settled next := by
  rcases Accumulator.start_eq_ok laidOut.within policy with ⟨blank, started, gathers, _⟩
  rw [evaluate_eq started] at evaluated
  split at evaluated
  · cases evaluated
  · next last ended =>
      split at evaluated
      · cases evaluated
      · next set finished =>
          exact share_settle_accounts laidOut knows (gathers.finish_wellFormed ended finished)
            evaluated

theorem ofTerm_accounts (laidOut : index.LaidOut) (knows : session.Knows index) {term : Term}
    (resolved : (index.resolver policy).ofTerm term session = .ok (settled, next)) :
    Accounts index session settled next := by
  rw [ofTerm_eq] at resolved
  split at resolved
  · cases resolved
  · next set made =>
      exact share_settle_accounts laidOut knows
        (TermWalk.resolve_wellFormed laidOut.stop_le_count made) resolved

theorem liveSet_accounts (laidOut : index.LaidOut)
    (covered : ∀ segment ∈ index.segments, segment.Covered) (knows : session.Knows index)
    (made : index.liveSet session = .ok (docs, next)) : Accounts index session docs next := by
  rcases Index.liveSet_eq_ok laidOut covered knows with
    ⟨live, other, same, liveSet, remembered, _⟩
  cases made.symm.trans same
  exact ⟨.live .refl made, liveSet.1, fun _ => remembered⟩

end Resolver

/-- Sets that a query of the caller brings along are well formed, and making them changes
the session by the means there are. -/
def Query.Sound (index : Index) : Query → Prop
  | .members docs => docs.set.WellFormed
  | .producer produce _ => ∀ session docs next, session.Knows index →
      produce { index } session = .ok (docs, next) →
        docs.set.WellFormed ∧ session.Evolves index next
  | _ => True

theorem Query.Sound.restrict {index : Index} {query : Query} {filter : Shared}
    (sound : query.Sound index) (wellFormed : filter.set.WellFormed) :
    (query.restrict filter).Sound index := by
  cases query with
  | all => exact wellFormed
  | term term => trivial
  | members docs => trivial
  | boolean clauses => trivial
  | custom hits => trivial
  | producer produce hits => trivial

theorem Resolver.resolveQuery_accounts {index : Index} {policy : Policy}
    {session next : Session} {settled : Shared} {query : Query} (laidOut : index.LaidOut)
    (covered : ∀ segment ∈ index.segments, segment.Covered) (knows : session.Knows index)
    (sound : query.Sound index)
    (resolved : (index.resolver policy).resolveQuery query session = .ok (settled, next)) :
    Accounts index session settled next := by
  cases query with
  | term term => exact ofTerm_accounts laidOut knows resolved
  | all =>
      rw [resolveQuery_all_eq] at resolved
      split at resolved
      · cases resolved
      · next live middle made =>
          have accounts := liveSet_accounts laidOut covered knows made
          exact settle_accounts laidOut accounts.evolves
            (accounts.evolves.knows_and_keeps laidOut covered knows).1 accounts.wellFormed
            resolved
  | members docs => exact settle_accounts laidOut .refl knows sound resolved
  | boolean clauses => exact evaluate_accounts laidOut knows resolved
  | custom hits => exact evaluate_accounts laidOut knows resolved
  | producer produce hits =>
      rw [resolveQuery_producer_eq] at resolved
      split at resolved
      · cases resolved
      · next docs middle made =>
          rcases sound session docs middle knows made with ⟨wellFormed, evolves⟩
          exact settle_accounts laidOut evolves
            (evolves.knows_and_keeps laidOut covered knows).1 wellFormed resolved

/-! ## Runs

Requests are served one after the other, and one that fails leaves no trace. An offer may hand
back what nobody has settled; every other result is accounted for. -/

inductive Request where
  | live
  | offer (candidate : Shared) (size : Nat)
  | settle (policy : Policy) (candidate : Shared)
  | resolve (policy : Policy) (query : Query) (filter : Option Shared)
  | evaluate (policy : Policy) (query : Query)
  | ofTerm (policy : Policy) (term : Term)

namespace Request

def answer (index : Index) : Request → Sharing Shared
  | .live => index.liveSet
  | .offer candidate size => modifyGet (index.offer candidate size)
  | .settle policy candidate => (index.resolver policy).settle candidate
  | .resolve policy query filter => (index.resolver policy).resolve query filter
  | .evaluate policy query => (index.resolver policy).evaluate query
  | .ofTerm policy term => (index.resolver policy).ofTerm term

def Sound (index : Index) : Request → Prop
  | .offer candidate _ | .settle _ candidate => candidate.set.WellFormed
  | .resolve _ query filter =>
      query.Sound index ∧ ∀ docs, filter = some docs → docs.set.WellFormed
  | .live | .evaluate .. | .ofTerm .. => True

def isOffer : Request → Bool
  | .offer .. => true
  | _ => false

variable {index : Index} {session next : Session} {docs : Shared} {request : Request}

theorem answer_accounts (laidOut : index.LaidOut)
    (covered : ∀ segment ∈ index.segments, segment.Covered) (knows : session.Knows index)
    (sound : request.Sound index) (settles : request.isOffer = false)
    (answered : request.answer index session = .ok (docs, next)) :
    Resolver.Accounts index session docs next := by
  cases request with
  | live => exact Resolver.liveSet_accounts laidOut covered knows answered
  | offer candidate size => cases settles
  | settle policy candidate => exact Resolver.settle_accounts laidOut .refl knows sound answered
  | resolve policy query filter =>
      cases filter with
      | none => exact Resolver.resolveQuery_accounts laidOut covered knows sound.1 answered
      | some docs =>
          exact Resolver.resolveQuery_accounts laidOut covered knows
            (sound.1.restrict (sound.2 docs rfl)) answered
  | evaluate policy query => exact Resolver.evaluate_accounts laidOut knows answered
  | ofTerm policy term => exact Resolver.ofTerm_accounts laidOut knows answered

theorem answer_evolves (laidOut : index.LaidOut)
    (covered : ∀ segment ∈ index.segments, segment.Covered) (knows : session.Knows index)
    (sound : request.Sound index) (answered : request.answer index session = .ok (docs, next)) :
    session.Evolves index next := by
  have accounted := fun settles =>
    (answer_accounts laidOut covered knows sound settles answered).evolves
  cases request with
  | offer candidate size =>
      have same : (index.offer candidate size session).2 = next :=
        congrArg Prod.snd (Except.ok.inj answered)
      rw [← same]
      exact .offer .refl sound size
  | live => exact accounted rfl
  | settle policy candidate => exact accounted rfl
  | resolve policy query filter => exact accounted rfl
  | evaluate policy query => exact accounted rfl
  | ofTerm policy term => exact accounted rfl

end Request

namespace Index

def serve (index : Index) (session : Session) (request : Request) :
    Except Error Shared × Session :=
  match request.answer index session with
  | .ok (docs, next) => (.ok docs, next)
  | .error error => (.error error, session)

def run (index : Index) :
    Session → List Request → List (Request × Except Error Shared) × Session
  | session, [] => ([], session)
  | session, request :: rest =>
      let (result, next) := index.serve session request
      let (results, last) := index.run next rest
      ((request, result) :: results, last)

variable {index : Index} {session : Session} {requests : List Request}

theorem serve_evolves (laidOut : index.LaidOut)
    (covered : ∀ segment ∈ index.segments, segment.Covered) (knows : session.Knows index)
    {request : Request} (sound : request.Sound index) :
    session.Evolves index (index.serve session request).2 := by
  rw [serve]
  split
  · next docs next answered => exact request.answer_evolves laidOut covered knows sound answered
  · exact .refl

theorem serve_remembers (laidOut : index.LaidOut)
    (covered : ∀ segment ∈ index.segments, segment.Covered) (knows : session.Knows index)
    {request : Request} (sound : request.Sound index) {docs : Shared}
    (resulted : (index.serve session request).1 = .ok docs) (settles : request.isOffer = false)
    (members : ∀ document, docs.set.Holds document ↔ index.IsLive document) :
    (index.serve session request).2.live = some docs := by
  rw [serve] at resulted ⊢
  split at resulted
  · next own next answered =>
      cases resulted
      have accounts := request.answer_accounts laidOut covered knows sound settles answered
      exact accounts.remembered ⟨accounts.wellFormed, members⟩
  · cases resulted

theorem run_evolves (laidOut : index.LaidOut)
    (covered : ∀ segment ∈ index.segments, segment.Covered) (knows : session.Knows index)
    (sound : ∀ request ∈ requests, request.Sound index) :
    session.Evolves index (index.run session requests).2 := by
  induction requests generalizing session with
  | nil => exact .refl
  | cons request rest induction =>
      have served := serve_evolves laidOut covered knows (sound request (.head _))
      have stillKnows := (served.knows_and_keeps laidOut covered knows).1
      exact served.trans (induction stillKnows fun other member => sound other (.tail _ member))

theorem run_remembers (laidOut : index.LaidOut)
    (covered : ∀ segment ∈ index.segments, segment.Covered) (knows : session.Knows index)
    (sound : ∀ request ∈ requests, request.Sound index) {request : Request} {docs : Shared}
    (resulted : (request, .ok docs) ∈ (index.run session requests).1)
    (settles : request.isOffer = false)
    (members : ∀ document, docs.set.Holds document ↔ index.IsLive document) :
    (index.run session requests).2.live = some docs := by
  induction requests generalizing session with
  | nil => cases resulted
  | cons first rest induction =>
      have served := serve_evolves laidOut covered knows (sound first (.head _))
      have stillKnows := (served.knows_and_keeps laidOut covered knows).1
      have restSound : ∀ other ∈ rest, other.Sound index := fun other member =>
        sound other (.tail _ member)
      rcases List.mem_cons.mp resulted with here | later
      -- The result is remembered when it comes, and whatever is served then keeps it.
      · have keeps := ((run_evolves laidOut covered stillKnows restSound).knows_and_keeps
          laidOut covered stillKnows).2
        have same : request = first := congrArg Prod.fst here
        have result : .ok docs = (index.serve session first).1 := congrArg Prod.snd here
        subst same
        exact keeps docs (serve_remembers laidOut covered knows (sound _ (.head _)) result.symm
          settles members)
      · exact induction stillKnows restSound later

theorem run_append (index : Index) (session : Session) (requests more : List Request) :
    (index.run session (requests ++ more)).2 =
      (index.run (index.run session requests).2 more).2 := by
  induction requests generalizing session with
  | nil => rfl
  | cons request rest induction => exact induction _

/-- At every point of a run the session remembers the set of exactly the live documents, or
none, and what it remembers stays. A candidate with a document that is not live is handed
back and changes nothing, and no candidate comes back with other members. Results that hold
exactly the live documents are one and the same, wherever in the run they come from. -/
theorem run_live_set {segments : List Segment} {budget : Option Nat}
    (made : Index.ofSegments segments budget = .ok index)
    (covered : ∀ segment ∈ segments, segment.Covered)
    (sound : ∀ request ∈ requests, request.Sound index) :
    (∀ live, (index.run {} requests).2.live = some live →
      live.set.WellFormed ∧ (∀ document, live.set.Holds document ↔ index.IsLive document) ∧
        live.set.size = index.liveCount) ∧
    (∀ more live, (∀ request ∈ more, request.Sound index) →
      (index.run {} requests).2.live = some live →
        (index.run {} (requests ++ more)).2.live = some live) ∧
    (∀ candidate size document, candidate.set.WellFormed → candidate.set.Holds document →
      ¬ index.IsLive document →
        index.offer candidate size (index.run {} requests).2 =
          (candidate, (index.run {} requests).2) ∧
        ∀ policy, (index.resolver policy).settle candidate (index.run {} requests).2 =
          .ok (candidate, (index.run {} requests).2)) ∧
    (∀ candidate, candidate.set.WellFormed →
      (∀ size document,
        (index.offer candidate size (index.run {} requests).2).1.set.Holds document ↔
          candidate.set.Holds document) ∧
      ∀ policy, ∃ settled next,
        (index.resolver policy).settle candidate (index.run {} requests).2 =
          .ok (settled, next) ∧
        ∀ document, settled.set.Holds document ↔ candidate.set.Holds document) ∧
    ∀ first docs second others, (first, .ok docs) ∈ (index.run {} requests).1 →
      (second, .ok others) ∈ (index.run {} requests).1 →
        first.isOffer = false → second.isOffer = false →
          (∀ document, docs.set.Holds document ↔ index.IsLive document) →
          (∀ document, others.set.Holds document ↔ index.IsLive document) → docs = others := by
  rcases ofSegments_laidOut made with ⟨laidOut, rfl, _⟩
  have blank := Session.knows_blank index
  have knows := ((run_evolves laidOut covered blank sound).knows_and_keeps laidOut covered
    blank).1
  refine ⟨fun live remembered => ?_, fun more live moreSound remembered => ?_,
    fun candidate size document wellFormed held stray => ?_, fun candidate wellFormed => ?_,
    fun first docs second others fromFirst fromSecond firstSettles secondSettles firstMembers
      secondMembers => ?_⟩
  · have liveSet := knows live remembered
    exact ⟨liveSet.1, liveSet.2, liveSet.size laidOut⟩
  · rw [run_append]
    exact ((run_evolves laidOut covered knows moreSound).knows_and_keeps laidOut covered
      knows).2 live remembered
  · refine ⟨offer_of_not_isLiveSet laidOut wellFormed (fun full => ?_) _,
      fun policy => Resolver.settle_of_stray laidOut policy wellFormed held stray _⟩
    exact stray ((full.1.2 document).mp held)
  · refine ⟨fun size => (offer_members laidOut knows wellFormed).2, fun policy => ?_⟩
    rcases Resolver.settle_eq_ok laidOut policy knows wellFormed with
      ⟨settled, next, same, _, _, members, _⟩
    exact ⟨settled, next, same, members⟩
  · have remembered := run_remembers laidOut covered blank sound fromFirst firstSettles
      firstMembers
    have again := run_remembers laidOut covered blank sound fromSecond secondSettles
      secondMembers
    exact Option.some.inj (remembered.symm.trans again)

theorem run_live_set_of_candidate :
    ∃ index live, Index.ofSegments
        [{ base := 0, size := 3, live := some (BitView.ofFlags #[true, false, true]) }] =
          .ok index ∧
      (index.run {} [.settle {} ⟨1, .sparse #[0, 2]⟩, .resolve {} .all none]).2.live =
        some live ∧
      live.serial = 1 ∧ live.set.size = index.liveCount := by
  let segment : Segment :=
    { base := 0, size := 3, live := some (BitView.ofFlags #[true, false, true]) }
  let requests : List Request := [.settle {} ⟨1, .sparse #[0, 2]⟩, .resolve {} .all none]
  have made : Index.ofSegments [segment] = .ok ⟨[segment], 3, 2, none⟩ := by
    rw [Index.ofSegments, List.mergeSort_of_pairwise (by decide)]
    rfl
  have covered : ∀ other ∈ [segment], other.Covered := by
    intro other member view recorded
    cases List.mem_singleton.mp member
    cases recorded
    decide
  have sound : ∀ request ∈ requests, request.Sound ⟨[segment], 3, 2, none⟩ := by
    intro request member
    simp only [requests, List.mem_cons, List.not_mem_nil, or_false] at member
    rcases member with rfl | rfl
    · change Ascending [0, 2]
      decide
    · exact ⟨trivial, by simp⟩
  have serial : (Index.run ⟨[segment], 3, 2, none⟩ {} requests).2.live.map Shared.serial =
      some 1 := by decide +kernel
  rcases Option.map_eq_some_iff.mp serial with ⟨live, remembered, one⟩
  rcases run_live_set made covered sound with ⟨slot, _⟩
  exact ⟨_, live, made, remembered, one, (slot live remembered).2.2⟩

end Index

end ResultSets
