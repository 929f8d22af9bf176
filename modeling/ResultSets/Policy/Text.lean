import ResultSets.Json.Skip
import ResultSets.Policy.Basic

namespace ResultSets.Policy

/-! Policies as JSON texts. A policy is written as an object with its three fields. It
is read from an object, in which fields may be missing or in any order and unknown
keys are passed over, or from an array that lists the fields in order and may be cut
short. A field that is missing keeps its default. -/

open Json (Fault Rest next?)

inductive Field where
  | shift
  | slack
  | shrink
  deriving DecidableEq, Repr

namespace Field

def key : Field → String
  | .shift => "small_set_shift"
  | .slack => "small_set_slack"
  | .shrink => "shrink_sparse_bitmaps"

/-- The fields in the order in which they are written. -/
def all : List Field := [.shift, .slack, .shrink]

def ofKey? (key : List Char) : Option Field :=
  all.find? fun field => field.key.toList = key

end Field

/-! ## Writing -/

def encode (policy : Policy) : String :=
  let shift := policy.shift.toNat
  let slack := policy.slack.toNat
  let shrink := policy.shrink
  s!"\x7b\"small_set_shift\":{shift},\"small_set_slack\":{slack}," ++
    s!"\"shrink_sparse_bitmaps\":{shrink}\x7d"

/-! ## Reading values -/

/-- The fault of a value that has none of the expected types. The value is read
first, as far as its type shows, and may be malformed itself. -/
def mismatch (first : Char) (rest : List Char) : Fault :=
  let read : Except Fault Unit :=
    if first = 'n' then (Json.word ['u', 'l', 'l'] rest).map fun _ => ()
    else if first = 't' then (Json.word ['r', 'u', 'e'] rest).map fun _ => ()
    else if first = 'f' then (Json.word ['a', 'l', 's', 'e'] rest).map fun _ => ()
    else if first = '-' ∨ first.isDigit then (Json.finiteNumber (first :: rest)).map fun _ => ()
    else if first = '"' then (Json.string rest).map fun _ => ()
    else if first = '[' ∨ first = '\x7b' then .ok ()
    else .error .malformed
  match read with
  | .ok _ => .unsuitable
  | .error fault => fault

def natural (bound : Nat) (text : List Char) : Except Fault (Nat × Rest text.length) :=
  match next? text with
  | none => .error .truncated
  | some (first, ⟨rest, shorter⟩) =>
      if first = '-' ∨ first.isDigit then do
        let (number, after) ← Json.finiteNumber (first :: rest)
        match number.natural? with
        | some value =>
            if value < bound then return (value, after.widen (Nat.le_of_lt shorter))
            else .error .unsuitable
        | none => .error .unsuitable
      else .error (mismatch first rest)

def flag (text : List Char) : Except Fault (Bool × Rest text.length) :=
  match next? text with
  | none => .error .truncated
  | some (first, ⟨rest, shorter⟩) =>
      let widen : Rest rest.length → Rest text.length := (·.widen (Nat.le_of_lt shorter))
      if first = 't' then (Json.word ['r', 'u', 'e'] rest).map (true, widen ·)
      else if first = 'f' then (Json.word ['a', 'l', 's', 'e'] rest).map (false, widen ·)
      else .error (mismatch first rest)

/-! ## Reading fields -/

structure Fields where
  shift : Option UInt32 := none
  slack : Option UInt64 := none
  shrink : Option Bool := none

namespace Fields

def has (fields : Fields) : Field → Bool
  | .shift => fields.shift.isSome
  | .slack => fields.slack.isSome
  | .shrink => fields.shrink.isSome

def toPolicy (fields : Fields) : Policy :=
  { shift := fields.shift.getD ({} : Policy).shift
    slack := fields.slack.getD ({} : Policy).slack
    shrink := fields.shrink.getD ({} : Policy).shrink }

def read (fields : Fields) (text : List Char) :
    Field → Except Fault (Fields × Rest text.length)
  | .shift => (natural UInt32.size text).map fun (value, rest) =>
      ({ fields with shift := some (UInt32.ofNat value) }, rest)
  | .slack => (natural UInt64.size text).map fun (value, rest) =>
      ({ fields with slack := some (UInt64.ofNat value) }, rest)
  | .shrink => (flag text).map fun (value, rest) =>
      ({ fields with shrink := some value }, rest)

end Fields

def colon (text : List Char) : Except Fault (Rest text.length) :=
  match next? text with
  | none => .error .truncated
  | some (first, ⟨rest, shorter⟩) =>
      if first = ':' then .ok ⟨rest, Nat.le_of_lt shorter⟩ else .error .malformed

/-- A key whose opening quote has been read, and its value. A field is given once. -/
def entry (fields : Fields) (text : List Char) :
    Except Fault (Fields × Rest text.length) := do
  let (key, afterKey) ← Json.string text
  match Field.ofKey? key with
  | some field =>
      if fields.has field then .error .unsuitable
      else
        let afterColon ← colon afterKey.val
        let (fields, rest) ← fields.read afterColon.val field
        return (fields, rest.widen (Nat.le_trans afterColon.property afterKey.property))
  | none =>
      let afterColon ← colon afterKey.val
      let rest ← Json.skip afterColon.val
      return (fields, rest.widen (Nat.le_trans afterColon.property afterKey.property))

/-- The entries of an object up to its closing brace. The opening quote of the first
has been read. -/
def entries (fields : Fields) (text : List Char) :
    Except Fault (Fields × Rest text.length) := do
  let (fields, rest) ← entry fields text
  match next? rest.val with
  | none => .error .truncated
  | some (first, afterEntry) =>
      if first = ',' then
        match next? afterEntry.val with
        | none => .error .truncated
        | some (quote, afterQuote) =>
            if quote = '"' then
              have := afterQuote.property
              have := afterEntry.property
              have := rest.property
              let (fields, rest) ← entries fields afterQuote.val
              return (fields, rest.widen (by omega))
            else .error .malformed
      else if first = '\x7d' then
        return (fields, ⟨afterEntry.val, by
          have := afterEntry.property
          have := rest.property
          omega⟩)
      else .error .malformed
termination_by text.length

def object (text : List Char) : Except Fault (Fields × Rest text.length) :=
  match next? text with
  | none => .error .truncated
  | some (first, ⟨rest, shorter⟩) =>
      if first = '\x7d' then .ok ({}, ⟨rest, Nat.le_of_lt shorter⟩)
      else if first = '"' then
        (entries {} rest).map fun (fields, after) =>
          (fields, after.widen (Nat.le_of_lt shorter))
      else .error .malformed

def closing (text : List Char) : Except Fault (Rest text.length) :=
  match next? text with
  | none => .error .truncated
  | some (first, ⟨rest, shorter⟩) =>
      if first = ']' then .ok ⟨rest, Nat.le_of_lt shorter⟩ else .error .malformed

/-- Further items of an array, at most one for each of the given fields. -/
def items (fields : Fields) (text : List Char) :
    List Field → Except Fault (Fields × Rest text.length)
  | [] => (closing text).map (fields, ·)
  | field :: others =>
      match next? text with
      | none => .error .truncated
      | some (first, ⟨rest, shorter⟩) =>
          if first = ']' then .ok (fields, ⟨rest, Nat.le_of_lt shorter⟩)
          else if first = ',' then
            match next? rest with
            | none => .error .truncated
            | some (value, _) =>
                if value = ']' then .error .malformed
                else do
                  let (fields, after) ← fields.read rest field
                  let (fields, last) ← items fields after.val others
                  return (fields,
                    last.widen (Nat.le_trans after.property (Nat.le_of_lt shorter)))
          else .error .malformed

def array (text : List Char) : Except Fault (Fields × Rest text.length) :=
  match next? text with
  | none => .error .truncated
  | some (first, ⟨rest, shorter⟩) =>
      if first = ']' then .ok ({}, ⟨rest, Nat.le_of_lt shorter⟩)
      else do
        let (fields, after) ← Fields.read {} text .shift
        let (fields, last) ← items fields after.val [.slack, .shrink]
        return (fields, last.widen after.property)

/-! ## Reading policies -/

/-- The fields of an object or an array that fills a whole text. -/
def fieldsOf (text : List Char) : Except Fault Fields := do
  match next? text with
  | none => .error .truncated
  | some (first, ⟨rest, _⟩) =>
      let (fields, after) ←
        if first = '\x7b' then object rest
        else if first = '[' then array rest
        else .error (mismatch first rest)
      match next? after.val with
      | none => return fields
      | some _ => .error .malformed

/-- Read a policy and check that it can be used. -/
def decode (text : String) : Except Error Policy := do
  match fieldsOf text.toList with
  | .error fault => .error (.unreadable fault)
  | .ok fields =>
      let policy := fields.toPolicy
      policy.validate
      return policy

end ResultSets.Policy
