import ResultSets.Json.Scan

namespace ResultSets.Json

/-! Reading a number. A number keeps its digits as they are written; whether it is a
natural number, and whether it is too large for a double, is asked afterwards. -/

structure Number where
  negative : Bool
  whole : List Char
  fraction : List Char
  exponent : Int
  /-- Neither point nor exponent is written. -/
  integral : Bool
  deriving DecidableEq, Repr

/-- One digit or more. A text that ends before the first has the fault `atEnd`. -/
def digits (atEnd : Fault) (text : List Char) :
    Except Fault (List Char × Rest (text.length - 1)) :=
  match text with
  | [] => .error atEnd
  | first :: rest =>
      if first.isDigit then
        .ok (first :: rest.takeWhile Char.isDigit,
          ⟨rest.dropWhile Char.isDigit, (List.dropWhile_sublist _).length_le⟩)
      else .error .malformed

/-- The digits before the point: a zero alone, or digits that begin with another. -/
def wholeDigits (atEnd : Fault) (text : List Char) :
    Except Fault (List Char × Rest (text.length - 1)) :=
  match text with
  | '0' :: rest =>
      if rest.head?.any Char.isDigit then .error .malformed
      else .ok (['0'], .whole rest)
  | text => digits atEnd text

def fractionDigits (atEnd : Fault) (text : List Char) :
    Except Fault (Option (List Char) × Rest text.length) :=
  match text with
  | '.' :: rest =>
      (digits atEnd rest).map fun (found, after) =>
        (some found, after.widen (by simp only [List.length_cons]; omega))
  | text => .ok (none, .whole text)

def exponentSign (text : List Char) : Bool × Rest text.length :=
  match text with
  | '+' :: rest => (false, .tail rest)
  | '-' :: rest => (true, .tail rest)
  | text => (false, .whole text)

def exponentPart (atEnd : Fault) (text : List Char) :
    Except Fault (Option Int × Rest text.length) :=
  match text with
  | [] => .ok (none, .whole [])
  | letter :: rest =>
      if letter = 'e' ∨ letter = 'E' then
        let (negative, unsigned) := exponentSign rest
        (digits atEnd unsigned.val).map fun (found, after) =>
          let size : Int := Nat.ofDigitChars 10 found 0
          (some (if negative then -size else size), after.widen (by
            have := unsigned.property
            simp only [List.length_cons]; omega))
      else .ok (none, .whole (letter :: rest))

def unsigned (atEnd : Fault) (negative : Bool) (text : List Char) :
    Except Fault (Number × Rest (text.length - 1)) := do
  let (whole, rest) ← wholeDigits atEnd text
  let (fraction, afterPoint) ← fractionDigits atEnd rest.val
  let (exponent, after) ← exponentPart atEnd afterPoint.val
  return (
    { negative, whole
      fraction := fraction.getD []
      exponent := exponent.getD 0
      integral := fraction.isNone && exponent.isNone },
    after.widen (Nat.le_trans afterPoint.property rest.property))

/-- A number that begins with a minus sign or a digit. -/
def number (atEnd : Fault) (text : List Char) :
    Except Fault (Number × Rest (text.length - 1)) :=
  match text with
  | '-' :: rest =>
      (unsigned atEnd true rest).map fun (read, after) =>
        (read, after.widen (Nat.sub_le _ _))
  | text => unsigned atEnd false text

namespace Number

/-- The natural number that is written, if it is one. Minus zero is none. -/
def natural? (number : Number) : Option Nat :=
  if number.integral && !number.negative then some (Nat.ofDigitChars 10 number.whole 0)
  else none

/-! ## Range

A number is read as a double by way of its leading digits: as many as fit in 64
bits are kept, rounded to a double, and multiplied by a rounded power of ten. -/

/-- The nearest number with 53 significant bits, a tie going to the even one. -/
def roundToDouble (number : Nat) : Nat :=
  let excess := number.log2 - 52
  let quotient := number >>> excess
  let remainder := number - quotient <<< excess
  let half := Nat.pow 2 excess / 2
  let up := 0 < excess && (half < remainder || (half = remainder && quotient % 2 = 1))
  (if up then quotient + 1 else quotient) <<< excess

example : roundToDouble (2 ^ 53 + 1) = 2 ^ 53 := by decide
example : roundToDouble (2 ^ 53 + 3) = 2 ^ 53 + 4 := by decide

/-- Append digits to a significand as long as it stays below `2 ^ 64`. Returns the
significand and how many digits were left over. -/
def keepDigits (significand : Nat) : List Char → Nat × Nat
  | [] => (significand, 0)
  | digit :: rest =>
      let longer := 10 * significand + (digit.toNat - '0'.toNat)
      if longer < UInt64.size then keepDigits longer rest else (significand, rest.length + 1)

/-- The least size at which a product of doubles is no longer finite. -/
def infinity : Nat := Nat.pow 2 1024 - Nat.pow 2 970

def isInfinite (number : Number) : Bool :=
  let (leading, dropped) := keepDigits 0 number.whole
  let (significand, ignored) := keepDigits leading number.fraction
  let exponent : Int := number.exponent + dropped - (number.fraction.length - ignored : Nat)
  if exponent < 0 ∨ significand = 0 then false
  else if 308 < exponent then true
  else infinity ≤ roundToDouble significand * roundToDouble (Nat.pow 10 exponent.toNat)

end Number

/-- A number that is used, not only passed: it must fit a double if it is no integer
of 64 bits. -/
def finiteNumber (text : List Char) : Except Fault (Number × Rest (text.length - 1)) := do
  let (read, rest) ← number .truncated text
  if read.isInfinite then .error .malformed
  return (read, rest)

end ResultSets.Json
