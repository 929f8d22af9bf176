import ResultSets.Segment.Basic

namespace ResultSets

/-! An evaluation hands documents to a sink, segment by segment. What it hands over
is a delivery: the calls in their order and, if it ends early, the error that ends
it. A sink may refuse a call with an error, and then gets no further one. -/

inductive Call where
  /-- The documents that follow are local ids of this segment. -/
  | enter (segment : Segment)
  | accept (id : DocumentId)
  /-- Not all documents will come. -/
  | abort (reason : String)

/-- A sink of documents. Each operation returns the state after the call, also when
the call is refused. -/
class Sink (σ : Type) where
  enter : σ → Segment → σ × Option Error
  accept : σ → DocumentId → σ × Option Error
  abort : σ → String → σ

def Sink.receive [Sink σ] (sink : σ) : Call → σ × Option Error
  | .enter segment => Sink.enter sink segment
  | .accept id => Sink.accept sink id
  | .abort reason => (Sink.abort sink reason, none)

structure Delivery where
  calls : List Call
  failure : Option Error := none

namespace Delivery

def prepend (calls : List Call) (delivery : Delivery) : Delivery :=
  { delivery with calls := calls ++ delivery.calls }

/-- Hand over calls until one is refused. Returns the state of the sink and the error
of the refused call, or else the one that ends the delivery. -/
def handOver [Sink σ] (failure : Option Error) : List Call → σ → σ × Option Error
  | [], sink => (sink, failure)
  | call :: rest, sink =>
      match Sink.receive sink call with
      | (sink, none) => handOver failure rest sink
      | (sink, some refusal) => (sink, some refusal)

def into [Sink σ] (delivery : Delivery) (sink : σ) : σ × Option Error :=
  handOver delivery.failure delivery.calls sink

end Delivery

end ResultSets
