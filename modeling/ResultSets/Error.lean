namespace ResultSets

/-! What can be wrong with a JSON text that is read from left to right. The first
fault met is the one reported. -/

inductive Json.Fault where
  /-- The text is no JSON. -/
  | malformed
  /-- The text is JSON so far, but a value has the wrong type or range, or a key
  is given twice. -/
  | unsuitable
  /-- The text ends inside a value. -/
  | truncated
  deriving DecidableEq, Repr

/-- The word for a fault in a report. -/
def Json.Fault.name : Json.Fault → String
  | .malformed => "malformed"
  | .unsuitable => "unsuitable"
  | .truncated => "truncated"

/-! Everything that can go wrong, one constructor per cause. A cause carries the
numbers of its report; `Error.kind` says whose fault it is and `Error.message`
gives the report itself. -/

/-- Why a sink of matches refused a call for good. -/
inductive Rejection where
  /-- The segment `[base, stop)` does not lie below the bound of the set. -/
  | segmentBeyondBound (base stop bound : Nat)
  /-- The local id is not one of the current segment's `size` documents. -/
  | outsideSegment (id size : Nat)
  deriving DecidableEq, Repr

def Rejection.text : Rejection → String
  | .segmentBeyondBound base stop bound =>
      s!"segment [{base}, {stop}) extends beyond max_doc {bound}"
  | .outsideSegment id size => s!"doc {id} outside current segment of {size} docs"

namespace Error

/-- Whom an error blames: the caller, a budget that ran out, the index itself, an
unusable policy, a text, or the caller of an operation who asks for more bits, room or
numbers than there are. -/
inductive Kind where
  | invalidArgument
  | resourceExhausted
  | internal
  | invalidConfiguration
  | unreadable
  | precondition
  | other
  deriving DecidableEq, Repr

def Kind.label : Kind → String
  | .invalidArgument => "Invalid argument: "
  | .resourceExhausted => "Resource exhausted: "
  | .internal => "Internal invariant violated: "
  | .invalidConfiguration => "Invalid configuration: "
  | .unreadable => "JSON error: "
  | .precondition => ""
  | .other => ""

end Error

inductive Error where
  | wordsTooFew (given length : Nat)
  | bitOutOfBounds (index length : Nat)
  | rangeOutOfBounds (start stop length : Nat)
  | sourceReversed (start stop : Nat)
  | sourceTooShort (stop length : Nat)
  | destinationTooShort (offset span length : Nat)
  | bufferTooShort (held wanted : Nat)
  /-- A sum that does not fit into a machine word. -/
  | sumOverflow
  /-- A row that would take more bytes than memory can be asked for. -/
  | capacityOverflow
  | shiftTooLarge (shift : Nat)
  | unreadable (fault : Json.Fault)
  | localIdOutOfRange (id size : Nat)
  | segmentsOverlap (base stop earlierBase earlierStop : Nat)
  | boundBeyondIds (bound : Nat)
  | postingBeyondSegment (id size : Nat)
  | idBeyondBound (id bound : Nat)
  | idNotAscending (id previous : Nat)
  | postingsTooMany (promised : Nat)
  | idBeyondSegments (id : Nat)
  | idBeforeSegment (id base : Nat)
  | budgetExceeded (limit : Nat)
  | rejected (cause : Rejection)
  | alreadyFailed
  | collectionFailed (cause : Rejection)
  | collectionAborted (reason : String)
  /-- An error that a collaborator of the library raised. -/
  | reported (kind : Error.Kind) (detail : String)
  deriving DecidableEq, Repr

namespace Error

def kind : Error → Kind
  | .wordsTooFew .. | .sourceReversed .. | .sourceTooShort .. | .destinationTooShort ..
  | .localIdOutOfRange .. | .segmentsOverlap .. | .boundBeyondIds .. => .invalidArgument
  | .budgetExceeded .. | .collectionAborted .. => .resourceExhausted
  | .postingBeyondSegment .. | .idBeyondBound .. | .idNotAscending .. | .postingsTooMany ..
  | .idBeyondSegments .. | .idBeforeSegment .. | .rejected .. | .alreadyFailed
  | .collectionFailed .. => .internal
  | .shiftTooLarge .. => .invalidConfiguration
  | .unreadable .. => .unreadable
  | .bitOutOfBounds .. | .rangeOutOfBounds .. | .bufferTooShort .. | .sumOverflow
  | .capacityOverflow => .precondition
  | .reported kind _ => kind

/-- The report of an evaluation that found more than `limit` documents. -/
def budgetText (limit : Nat) : String :=
  s!"query collected more than {limit} documents"

def detail : Error → String
  | .wordsTooFew given length => s!"{given} words cannot hold {length} bits"
  | .bitOutOfBounds index length => s!"bit {index} out of bounds for length {length}"
  | .rangeOutOfBounds start stop length =>
      s!"range [{start}, {stop}) out of bounds for length {length}"
  | .sourceReversed start stop => s!"src_offset {start} is greater than src_limit {stop}"
  | .sourceTooShort stop length => s!"src_limit {stop} exceeds source length {length}"
  | .destinationTooShort offset span length =>
      s!"destination range starting at {offset} with length {span} " ++
        s!"exceeds destination length {length}"
  | .bufferTooShort held wanted => s!"buffer of {held} doc ids cannot supply {wanted} entries"
  | .sumOverflow => "attempt to add with overflow"
  | .capacityOverflow => "capacity overflow"
  | .shiftTooLarge shift => s!"small_set_shift must be below 64, got {shift}"
  | .unreadable fault => fault.name
  | .localIdOutOfRange id size =>
      s!"local doc {id} out of range for segment with max_doc {size}"
  | .segmentsOverlap base stop earlierBase earlierStop =>
      s!"segment [{base}, {stop}) overlaps segment [{earlierBase}, {earlierStop})"
  | .boundBeyondIds bound => s!"max_doc {bound} exceeds the doc id range"
  | .postingBeyondSegment id size => s!"posting {id} beyond segment max_doc {size}"
  | .idBeyondBound id bound => s!"doc {id} mapped beyond max_doc {bound}"
  | .idNotAscending id previous => s!"doc {id} is not above previous doc {previous}"
  | .postingsTooMany promised =>
      s!"postings returned more than the {promised} docs their doc_freq promised"
  | .idBeyondSegments id => s!"doc {id} lies beyond the last segment"
  | .idBeforeSegment id base =>
      s!"expected a sorted doc set but doc {id} precedes segment base {base}"
  | .budgetExceeded limit => budgetText limit
  | .rejected cause => cause.text
  | .alreadyFailed => "collect called on a failed collector"
  | .collectionFailed cause => "collection failed: " ++ cause.text
  | .collectionAborted reason => "collection was aborted: " ++ reason
  | .reported _ detail => detail

def message (error : Error) : String :=
  error.kind.label ++ error.detail

def isInvalidArgument (error : Error) : Bool := error.kind == .invalidArgument

def isResourceExhausted (error : Error) : Bool := error.kind == .resourceExhausted

def isInternal (error : Error) : Bool := error.kind == .internal

end Error

end ResultSets
