import ResultSets.Json.Number

namespace ResultSets.Json

/-! Passing a value without using it. Values may be nested to any depth; the brackets
that are open are kept in a list. -/

inductive Bracket where
  | array
  | object
  deriving DecidableEq, Repr

def Bracket.closing : Bracket → Char
  | .array => ']'
  | .object => '\x7d'

inductive Awaited where
  | value
  | key
  /-- A comma, or the bracket that closes the innermost one. -/
  | close
  deriving DecidableEq, Repr

/-- Pass a value that is no array or object and begins with the given character. -/
def skipScalar (first : Char) (rest : List Char) : Except Fault (Rest rest.length) :=
  if first = 'n' then word ['u', 'l', 'l'] rest
  else if first = 't' then word ['r', 'u', 'e'] rest
  else if first = 'f' then word ['a', 'l', 's', 'e'] rest
  else if first = '"' then skipString rest
  else if first = '-' ∨ first.isDigit then (number .malformed (first :: rest)).map (·.2)
  else .error .malformed

/-- Pass a key whose opening quote has been read, and the colon after it. -/
def skipKey (text : List Char) : Except Fault (Rest text.length) := do
  let content ← skipString text
  match next? content.val with
  | none => .error .truncated
  | some (char, rest) =>
      if char = ':' then
        return ⟨rest.val, Nat.le_trans (Nat.le_of_lt rest.property) content.property⟩
      else .error .malformed

/-- Pass the rest of a value, of whose brackets the given ones are open, innermost
first. -/
def skipFrom (bound : Nat) (awaited : Awaited) (opened : List Bracket) (text : Rest bound) :
    Except Fault (Rest bound) :=
  match awaited, opened with
  | .close, [] => .ok text
  | .close, bracket :: outer =>
      match next? text.val with
      | none => .error .truncated
      | some (char, rest) =>
          if char = ',' then
            skipFrom bound (if bracket = .object then .key else .value) (bracket :: outer)
              (text.past rest)
          else if char = bracket.closing then skipFrom bound .close outer (text.past rest)
          else .error .malformed
  | .key, opened =>
      match next? text.val with
      | none => .error .truncated
      | some (char, rest) =>
          if char = '"' then
            match skipKey rest.val with
            | .error fault => .error fault
            | .ok after => skipFrom bound .value opened (after.widen (text.past rest).property)
          else .error .malformed
  | .value, opened =>
      match next? text.val with
      | none => .error .truncated
      | some (char, rest) =>
          if char = '[' ∨ char = '\x7b' then
            let bracket : Bracket := if char = '[' then .array else .object
            match next? rest.val with
            | none => .error .truncated
            | some (first, after) =>
                if first = bracket.closing then
                  skipFrom bound .close opened ((text.past rest).past after)
                else
                  skipFrom bound (if bracket = .object then .key else .value)
                    (bracket :: opened) (text.past rest)
          else
            match skipScalar char rest.val with
            | .error fault => .error fault
            | .ok after => skipFrom bound .close opened (after.widen (text.past rest).property)
termination_by text.val.length
decreasing_by
  · exact rest.property
  · exact rest.property
  · exact Nat.lt_of_le_of_lt after.property rest.property
  · exact Nat.lt_trans after.property rest.property
  · exact rest.property
  · exact Nat.lt_of_le_of_lt after.property rest.property

def skip (text : List Char) : Except Fault (Rest text.length) :=
  skipFrom text.length .value [] (.whole text)

end ResultSets.Json
