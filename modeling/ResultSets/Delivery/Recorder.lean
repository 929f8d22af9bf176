import ResultSets.Delivery.Basic

namespace ResultSets

/-! A sink that writes down what it receives, up to a limit. -/

structure Recorder where
  limit : Option Nat := none
  /-- The base of each segment entered, with the local ids accepted in it. -/
  entries : Array (DocumentId × Array DocumentId) := #[]
  accepted : Nat := 0
  aborted : Option String := none
  deriving Repr

namespace Recorder

def enter (recorder : Recorder) (segment : Segment) : Recorder :=
  { recorder with entries := recorder.entries.push (segment.base, #[]) }

/-- Write an id down under the last segment entered. -/
def accept (recorder : Recorder) (id : DocumentId) : Recorder × Option Error :=
  if recorder.limit.any (· ≤ recorder.accepted) then
    (recorder, some (.reported .other "recorder is full"))
  else
    ({ recorder with
        entries := recorder.entries.modify (recorder.entries.size - 1) fun (base, ids) =>
          (base, ids.push id)
        accepted := recorder.accepted + 1 }, none)

instance : Sink Recorder where
  enter recorder segment := (recorder.enter segment, none)
  accept := accept
  abort recorder reason := { recorder with aborted := some reason }

end Recorder

end ResultSets
