import ResultSets.IdSet.Basic

namespace ResultSets

/-! Sets are shared once they are made, and callers may ask whether two sets are the
very same. A shared set therefore carries a serial number. A session issues the
numbers and remembers the set of all live documents once there is one. -/

structure Shared where
  serial : Nat
  set : IdSet

namespace Shared

/-- There is one empty set that everyone shares. -/
def empty : Shared := ⟨0, .empty⟩

end Shared

structure Session where
  /-- The last serial number issued. Zero is the shared empty set's. -/
  issued : Nat := 0
  /-- The set of all live documents, once it is known. -/
  live : Option Shared := none

namespace Session

/-- Share a set as a new one. -/
def issue (set : IdSet) (session : Session) : Shared × Session :=
  let serial := session.issued + 1
  (⟨serial, set⟩, { session with issued := serial })

/-- Share a result: the empty form as the shared empty set, others as new sets. -/
def share (set : IdSet) (session : Session) : Shared × Session :=
  match set with
  | .empty => (.empty, session)
  | set => session.issue set

end Session

/-- A computation that shares sets. When it fails it leaves no trace in the session. -/
abbrev Sharing := StateT Session (Except Error)

end ResultSets
