import ResultSets.Delivery.Accumulator
import ResultSets.Query.Delivery
import ResultSets.Resolver.TermWalk

namespace ResultSets

/-! Resolving a query to its set of documents by the cheapest way there is: queries
that know their set are asked for it, a single term is read off its postings, all
documents are the set of live ones, and everything else is evaluated. A result
that holds all live documents is given up for the one set of them. -/

structure Resolver where
  searcher : Searcher
  policy : Policy := {}

namespace Resolver

def sparseLimit (resolver : Resolver) : Nat :=
  resolver.policy.sparseLimit resolver.searcher.bound

/-- Offer a set of as many members as there are live documents as the set of these. -/
def settle (resolver : Resolver) (docs : Shared) : Sharing Shared :=
  if docs.set.size = resolver.searcher.liveCount then
    modifyGet (resolver.searcher.index.offer docs docs.set.size)
  else pure docs

def evaluate (resolver : Resolver) (query : Query) : Sharing Shared := do
  let blank ← Accumulator.start resolver.searcher.bound resolver.policy
  match (query.deliver resolver.searcher.index).into blank with
  | (_, some error) => throw error
  | (accumulated, none) =>
      let set ← accumulated.finish
      let docs ← modifyGet (Session.share set)
      resolver.settle docs

def ofTerm (resolver : Resolver) (term : Term) : Sharing Shared := do
  let set ← TermWalk.resolve resolver.searcher.bound resolver.policy
    resolver.searcher.index.segments term
  let docs ← modifyGet (Session.share set)
  resolver.settle docs

def resolveQuery (resolver : Resolver) (query : Query) : Sharing Shared := do
  match query.producer? with
  | some produce =>
      let docs ← produce resolver.searcher
      resolver.settle docs
  | none =>
      match query with
      | .term term => resolver.ofTerm term
      | .all =>
          let live ← resolver.searcher.index.liveSet
          resolver.settle live
      | query => resolver.evaluate query

/-- The documents that match a query and are members of the filter, if there is one. -/
def resolve (resolver : Resolver) (query : Query) (filter : Option Shared := none) :
    Sharing Shared :=
  resolver.resolveQuery (filter.elim query query.restrict)

end Resolver

end ResultSets
