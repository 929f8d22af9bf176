import ResultSets.Json.Skip

namespace ResultSets.Json

/-! What JSON texts look like as rows of characters, whoever reads them. Where a part is read
for its value, the shape of the part tells the value as well. -/

/-! ## Blanks and ends -/

def Blank (row : List Char) : Prop := ∀ char ∈ row, isBlank char

structure Padded where
  before : List Char
  core : List Char
  after : List Char
  blankBefore : Blank before
  blankAfter : Blank after

def Padded.text (part : Padded) : List Char := part.before ++ (part.core ++ part.after)

def isDelimiter (char : Char) : Bool :=
  isBlank char || char = ',' || char = ']' || char = '\x7d'

def Delimited (rest : List Char) : Prop := ∀ char ∈ rest.head?, isDelimiter char

def joined : List (List Char) → List Char
  | [] => []
  | [text] => text
  | text :: others => text ++ ',' :: joined others

/-! ## Numbers -/

structure IsDigits (row : List Char) : Prop where
  nonempty : row ≠ []
  digits : ∀ char ∈ row, char.isDigit

structure IsWhole (row : List Char) : Prop extends IsDigits row where
  leading : row = ['0'] ∨ row.head? ≠ some '0'

inductive IsFraction : List Char → Option (List Char) → Prop
  | absent : IsFraction [] none
  | present {row : List Char} (digits : IsDigits row) : IsFraction ('.' :: row) (some row)

inductive IsSign : List Char → Bool → Prop
  | absent : IsSign [] false
  | plus : IsSign ['+'] false
  | minus : IsSign ['-'] true

inductive IsExponent : List Char → Option Int → Prop
  | absent : IsExponent [] none
  | present {letter : Char} {sign row : List Char} {negative : Bool}
      (isLetter : letter = 'e' ∨ letter = 'E') (isSign : IsSign sign negative)
      (digits : IsDigits row) :
      IsExponent (letter :: (sign ++ row))
        (some (if negative then -(Nat.ofDigitChars 10 row 0 : Int)
          else Nat.ofDigitChars 10 row 0))

inductive IsUnsigned (negative : Bool) : List Char → Number → Prop
  | intro {whole : List Char} {fractionText exponentText : List Char}
      {fraction : Option (List Char)} {exponent : Option Int} (isWhole : IsWhole whole)
      (isFraction : IsFraction fractionText fraction)
      (isExponent : IsExponent exponentText exponent) :
      IsUnsigned negative (whole ++ (fractionText ++ exponentText))
        { negative, whole
          fraction := fraction.getD []
          exponent := exponent.getD 0
          integral := fraction.isNone && exponent.isNone }

inductive IsNumber : List Char → Number → Prop
  | unsigned {text : List Char} {number : Number} (isUnsigned : IsUnsigned false text number) :
      IsNumber text number
  | negative {text : List Char} {number : Number} (isUnsigned : IsUnsigned true text number) :
      IsNumber ('-' :: text) number

/-! ## Strings -/

structure IsHex (digits : List Char) (number : Nat) : Prop where
  four : digits.length = 4
  values : ∃ values, digits.mapM hexDigit? = some values ∧
    values.foldl (fun number digit => 16 * number + digit) 0 = number

/-- The ways to write a character in a string: as it is, by the letter of an escape, by its
number, or by a pair of numbers. -/
inductive Writes : List Char → Char → Prop
  | plain {char : Char} (notQuote : char ≠ '"') (notBackslash : char ≠ '\\')
      (printable : isControl char = false) : Writes [char] char
  | letter {letter char : Char} (escaped : escaped? letter = some char) :
      Writes ['\\', letter] char
  | number {digits : List Char} {number : Nat} (isHex : IsHex digits number)
      (notLeading : isLeading number = false) (notTrailing : isTrailing number = false) :
      Writes ('\\' :: 'u' :: digits) (Char.ofNat number)
  | pair {digits others : List Char} {leading trailing : Nat} (isHex : IsHex digits leading)
      (isLeading : isLeading leading) (otherIsHex : IsHex others trailing)
      (isTrailing : isTrailing trailing) :
      Writes ('\\' :: 'u' :: (digits ++ '\\' :: 'u' :: others))
        (Char.ofNat ((leading - 0xD800) * 0x400 + (trailing - 0xDC00) + 0x10000))

inductive Spells : List Char → List Char → Prop
  | nil : Spells [] []
  | cons {written body word : List Char} {char : Char} (first : Writes written char)
      (others : Spells body word) : Spells (written ++ body) (char :: word)

/-- What may stand between quotes. Halves of pairs need not come in pairs, so that a string
need not spell a word. -/
inductive IsBody : List Char → Prop
  | nil : IsBody []
  | plain {char : Char} {body : List Char} (notQuote : char ≠ '"') (notBackslash : char ≠ '\\')
      (printable : isControl char = false) (others : IsBody body) : IsBody (char :: body)
  | letter {letter : Char} {body : List Char} (escaped : (escaped? letter).isSome)
      (others : IsBody body) : IsBody ('\\' :: letter :: body)
  | number {digits body : List Char} {number : Nat} (isHex : IsHex digits number)
      (others : IsBody body) : IsBody ('\\' :: 'u' :: (digits ++ body))

def quoted (body : List Char) : List Char := '"' :: (body ++ ['"'])

/-! ## Values -/

def Bracket.opening : Bracket → Char
  | .array => '['
  | .object => '\x7b'

def Bracket.enclose (bracket : Bracket) (inside : List Char) : List Char :=
  bracket.opening :: (inside ++ [bracket.closing])

structure Member where
  key : Padded
  value : Padded

def Member.text (member : Member) : List Char := member.key.text ++ ':' :: member.value.text

inductive IsValue : List Char → Prop
  | null : IsValue ['n', 'u', 'l', 'l']
  | bool (value : Bool) : IsValue (toString value).toList
  | number {text : List Char} {number : Number} (isNumber : IsNumber text number) : IsValue text
  | string {body : List Char} (isBody : IsBody body) : IsValue (quoted body)
  | empty (bracket : Bracket) {row : List Char} (blank : Blank row) :
      IsValue (bracket.enclose row)
  | array {items : List Padded} (nonempty : items ≠ [])
      (values : ∀ item ∈ items, IsValue item.core) :
      IsValue (Bracket.array.enclose (joined (items.map Padded.text)))
  | object {members : List Member} (nonempty : members ≠ [])
      (keys : ∀ member ∈ members, ∃ body, IsBody body ∧ member.key.core = quoted body)
      (values : ∀ member ∈ members, IsValue member.value.core) :
      IsValue (Bracket.object.enclose (joined (members.map Member.text)))

/-! ## What can follow a part -/

theorem Delimited.after_blank {row rest : List Char} (blank : Blank row)
    (delimited : Delimited rest) : Delimited (row ++ rest) := by
  cases row with
  | nil => exact delimited
  | cons first row =>
      intro char isFirst
      cases isFirst
      simp [isDelimiter, blank first List.mem_cons_self]

theorem delimited_cons {char : Char} (delimiter : isDelimiter char) (rest : List Char) :
    Delimited (char :: rest) := by
  intro other isFirst
  cases isFirst
  exact delimiter

def EndsDigits (rest : List Char) : Prop := ∀ char ∈ rest.head?, char.isDigit = false

theorem IsDigits.first {row rest others : List Char} {first : Char} (isDigits : IsDigits row)
    (same : row ++ rest = first :: others) : row.head? = some first ∧ first.isDigit := by
  have digits := isDigits.digits
  cases row with
  | nil => exact absurd rfl isDigits.nonempty
  | cons char row =>
      cases same
      exact ⟨rfl, digits _ List.mem_cons_self⟩

theorem ends_of_delimiter {char : Char} (delimiter : isDelimiter char) :
    char.isDigit = false ∧ char ≠ '.' ∧ ¬ (char = 'e' ∨ char = 'E') := by
  simp only [isDelimiter, isBlank, Bool.or_eq_true, decide_eq_true_eq, or_assoc] at delimiter
  rcases delimiter with rfl | rfl | rfl | rfl | rfl | rfl | rfl <;> decide

theorem ends_of_exponent {text rest : List Char} {exponent : Option Int}
    (isExponent : IsExponent text exponent) (delimited : Delimited rest) :
    ∀ char ∈ (text ++ rest).head?, char.isDigit = false ∧ char ≠ '.' := by
  intro char isFirst
  cases isExponent with
  | absent =>
      have ends := ends_of_delimiter (delimited char isFirst)
      exact ⟨ends.1, ends.2.1⟩
  | present isLetter =>
      cases isFirst
      rcases isLetter with rfl | rfl <;> decide

theorem ends_of_fraction {text rest : List Char} {fraction : Option (List Char)}
    (isFraction : IsFraction text fraction) (ends : EndsDigits rest) :
    EndsDigits (text ++ rest) := by
  cases isFraction with
  | absent => exact ends
  | present digits =>
      intro char isFirst
      cases isFirst
      rfl

/-! ## First characters -/

theorem isDelimiter_eq_false {first : Char} (begins : first = '-' ∨ first.isDigit) :
    isDelimiter first = false := by
  rcases begins with rfl | isDigit
  · rfl
  · rw [← Bool.not_eq_true]
    intro delimiter
    rw [(ends_of_delimiter delimiter).1] at isDigit
    cases isDigit

theorem isBlank_eq_false {char : Char} (visible : isDelimiter char = false) :
    isBlank char = false := by
  simp only [isDelimiter, Bool.or_eq_false_iff] at visible
  exact visible.1.1.1

theorem ne_of_begins {first char : Char} (begins : first = '-' ∨ first.isDigit)
    (other : ¬ (char = '-' ∨ char.isDigit)) : first ≠ char :=
  fun same => other (same ▸ begins)

theorem IsNumber.begins {text : List Char} {value : Number} (isNumber : IsNumber text value) :
    ∃ first others, text = first :: others ∧ (first = '-' ∨ first.isDigit) := by
  cases isNumber with
  | negative => exact ⟨_, _, rfl, .inl rfl⟩
  | unsigned isUnsigned =>
      cases isUnsigned with
      | @intro whole _ _ _ _ isWhole =>
          cases whole with
          | nil => exact absurd rfl isWhole.nonempty
          | cons first whole =>
              exact ⟨first, _, rfl, .inr (isWhole.digits first List.mem_cons_self)⟩

theorem IsValue.kind {text : List Char} (isValue : IsValue text) :
    (∃ value, IsNumber text value) ∨ (∃ answer : Bool, text = (toString answer).toList) ∨
      ∃ first others, text = first :: others ∧ isDelimiter first = false ∧
        ¬ (first = '-' ∨ first.isDigit) ∧ first ≠ 't' ∧ first ≠ 'f' := by
  cases isValue with
  | number isNumber => exact .inl ⟨_, isNumber⟩
  | bool answer => exact .inr (.inl ⟨answer, rfl⟩)
  | null => exact .inr (.inr ⟨_, _, rfl, by decide⟩)
  | string => exact .inr (.inr ⟨_, _, rfl, by decide⟩)
  | empty bracket => exact .inr (.inr ⟨bracket.opening, _, rfl, by cases bracket <;> decide⟩)
  | array => exact .inr (.inr ⟨_, _, rfl, by decide⟩)
  | object => exact .inr (.inr ⟨_, _, rfl, by decide⟩)

theorem IsValue.begins {text : List Char} (isValue : IsValue text) :
    ∃ first others, text = first :: others ∧ isDelimiter first = false := by
  rcases isValue.kind with ⟨value, isNumber⟩ | ⟨answer, rfl⟩ | ⟨first, others, rfl, visible, _⟩
  · rcases isNumber.begins with ⟨first, others, rfl, begins⟩
    exact ⟨first, others, rfl, isDelimiter_eq_false begins⟩
  · cases answer <;> exact ⟨_, _, rfl, rfl⟩
  · exact ⟨first, others, rfl, visible⟩

def Starts (text : List Char) : Prop :=
  ∃ row first others, text = row ++ first :: others ∧ Blank row ∧ isDelimiter first = false

theorem Starts.append {text : List Char} (starts : Starts text) (rest : List Char) :
    Starts (text ++ rest) := by
  rcases starts with ⟨row, first, others, rfl, blank, begins⟩
  refine ⟨row, first, others ++ rest, ?_, blank, begins⟩
  rw [List.append_assoc, List.cons_append]

theorem Padded.starts {part : Padded} {first : Char} {others : List Char}
    (core : part.core = first :: others) (begins : isDelimiter first = false) :
    Starts part.text := by
  refine ⟨part.before, first, others ++ part.after, ?_, part.blankBefore, begins⟩
  rw [Padded.text, core, List.cons_append]

theorem joined_starts {texts : List (List Char)} (nonempty : texts ≠ [])
    (each : ∀ text ∈ texts, Starts text) : Starts (joined texts) := by
  cases texts with
  | nil => exact absurd rfl nonempty
  | cons text others =>
      have starts := each text List.mem_cons_self
      cases others with
      | nil => exact starts
      | cons => exact starts.append _

end ResultSets.Json
