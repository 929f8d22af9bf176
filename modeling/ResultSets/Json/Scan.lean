import ResultSets.Error

namespace ResultSets.Json

/-! Reading the smallest parts of a JSON text: blanks, words, strings. Each reader
returns what is left of the text, together with the fact that this is no longer
than the text, so that readers can be repeated. -/

abbrev Rest (bound : Nat) := { rest : List Char // rest.length ≤ bound }

namespace Rest

def whole (text : List Char) : Rest text.length := ⟨text, Nat.le_refl _⟩

def tail {first : Char} (rest : List Char) : Rest (first :: rest).length :=
  ⟨rest, Nat.le_succ _⟩

/-- What is left after a part that is not empty. -/
def past {bound : Nat} (text : Rest bound)
    (rest : { rest : List Char // rest.length < text.val.length }) : Rest bound :=
  ⟨rest.val, Nat.le_trans (Nat.le_of_lt rest.property) text.property⟩

def widen {bound wider : Nat} (rest : Rest bound) (larger : bound ≤ wider) : Rest wider :=
  ⟨rest.val, Nat.le_trans rest.property larger⟩

end Rest

/-- Space, tab, line feed and carriage return may stand between the parts of a text. -/
def isBlank (char : Char) : Bool :=
  char = ' ' || char = '\t' || char = '\n' || char = '\r'

/-- The first character that is not blank, and the text after it. -/
def next? : (text : List Char) → Option (Char × { rest : List Char // rest.length < text.length })
  | [] => none
  | char :: rest =>
      if isBlank char then
        (next? rest).map fun (first, after) =>
          (first, ⟨after.val, Nat.lt_succ_of_lt after.property⟩)
      else some (char, ⟨rest, Nat.lt_succ_self _⟩)

/-- Read exactly the expected characters. -/
def word : (expected text : List Char) → Except Fault (Rest text.length)
  | [], text => .ok (.whole text)
  | _ :: _, [] => .error .truncated
  | char :: expected, first :: rest =>
      if char = first then (word expected rest).map (·.widen (Nat.le_succ _))
      else .error .malformed

/-! ## Strings

A character may be written by its number in four hexadecimal digits. One beyond the
first 65536 is written by a pair of numbers, the leading and the trailing half. -/

def hexDigit? (char : Char) : Option Nat :=
  if '0' ≤ char ∧ char ≤ '9' then some (char.toNat - '0'.toNat)
  else if 'a' ≤ char ∧ char ≤ 'f' then some (char.toNat - 'a'.toNat + 10)
  else if 'A' ≤ char ∧ char ≤ 'F' then some (char.toNat - 'A'.toNat + 10)
  else none

/-- The number written by four hexadecimal digits. Fewer than four bytes of text
are a truncated number, four bytes with another character are none. -/
def hexNumber (text : List Char) : Except Fault (Nat × Rest text.length) :=
  match text with
  | first :: second :: third :: fourth :: rest =>
      match [first, second, third, fourth].mapM hexDigit? with
      | some digits =>
          .ok (digits.foldl (fun number digit => 16 * number + digit) 0,
            ⟨rest, by simp only [List.length_cons]; omega⟩)
      | none => .error .malformed
  | short =>
      if 4 ≤ (String.ofList short).utf8ByteSize then .error .malformed
      else .error .truncated

def isLeading (number : Nat) : Bool := 0xD800 ≤ number && number ≤ 0xDBFF

def isTrailing (number : Nat) : Bool := 0xDC00 ≤ number && number ≤ 0xDFFF

/-- A character written by number. Halves of pairs must come in pairs. -/
def numbered (text : List Char) : Except Fault (Char × Rest text.length) := do
  let (number, rest) ← hexNumber text
  if isTrailing number then .error .malformed
  else if !isLeading number then return (Char.ofNat number, rest)
  else
    match rest with
    | ⟨'\\' :: 'u' :: more, fits⟩ =>
        let (other, rest) ← hexNumber more
        if isTrailing other then
          let char := Char.ofNat ((number - 0xD800) * 0x400 + (other - 0xDC00) + 0x10000)
          return (char, rest.widen (by simp only [List.length_cons] at fits; omega))
        else .error .malformed
    | ⟨[], _⟩ => .error .truncated
    | ⟨['\\'], _⟩ => .error .truncated
    | _ => .error .malformed

def escaped? : Char → Option Char
  | '"' => some '"'
  | '\\' => some '\\'
  | '/' => some '/'
  | 'b' => some '\x08'
  | 'f' => some '\x0c'
  | 'n' => some '\n'
  | 'r' => some '\r'
  | 't' => some '\t'
  | _ => none

def escape (text : List Char) : Except Fault (Char × Rest text.length) :=
  match text with
  | [] => .error .truncated
  | 'u' :: rest => (numbered rest).map fun (char, rest) => (char, rest.widen (Nat.le_succ _))
  | letter :: rest =>
      match escaped? letter with
      | some char => .ok (char, .tail rest)
      | none => .error .malformed

/-- Control characters cannot stand in a string. -/
def isControl (char : Char) : Bool := char.toNat < 0x20

/-- The content of a string whose opening quote has been read. -/
def string (text : List Char) : Except Fault (List Char × Rest text.length) :=
  match text with
  | [] => .error .truncated
  | '"' :: rest => .ok ([], .tail rest)
  | '\\' :: rest => do
      let (char, after) ← escape rest
      let (content, rest) ← string after.val
      return (char :: content, rest.widen (Nat.le_succ_of_le after.property))
  | char :: rest =>
      if isControl char then .error .malformed
      else do
        let (content, rest) ← string rest
        return (char :: content, rest.widen (Nat.le_succ _))
termination_by text.length
decreasing_by
  · exact Nat.lt_succ_of_le after.property
  · exact Nat.lt_succ_self _

/-- Pass a string whose opening quote has been read. Numbered characters are checked
for their digits only. -/
def skipString (text : List Char) : Except Fault (Rest text.length) :=
  match text with
  | [] => .error .truncated
  | '"' :: rest => .ok (.tail rest)
  | ['\\'] => .error .truncated
  | '\\' :: 'u' :: rest => do
      let (_, after) ← hexNumber rest
      let rest ← skipString after.val
      return rest.widen
        (Nat.le_trans after.property (by simp only [List.length_cons]; omega))
  | '\\' :: letter :: rest =>
      if (escaped? letter).isNone then .error .malformed
      else (skipString rest).map (·.widen (by simp only [List.length_cons]; omega))
  | char :: rest =>
      if isControl char then .error .malformed
      else (skipString rest).map (·.widen (Nat.le_succ _))
termination_by text.length
decreasing_by
  · exact Nat.lt_succ_of_le (Nat.le_trans after.property (Nat.le_succ _))
  · simp only [List.length_cons]; omega
  · exact Nat.lt_succ_self _

end ResultSets.Json
