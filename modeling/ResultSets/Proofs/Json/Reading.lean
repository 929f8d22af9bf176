import Mathlib.Data.Nat.Init
import ResultSets.Proofs.Json.Grammar

namespace ResultSets.Json

/-! Each part of a text is read as what its shape says, and what follows the part is left. One
part is read for its value, another one is passed only. -/

variable {α : Type} {bound : Nat}

def plain (outcome : Except Fault (α × Rest bound)) : Except Fault (α × List Char) :=
  outcome.map fun (value, after) => (value, after.val)

def Reads (outcome : Except Fault (α × Rest bound)) (value : α) (rest : List Char) : Prop :=
  plain outcome = .ok (value, rest)

def Leaves (outcome : Except Fault (Rest bound)) (rest : List Char) : Prop :=
  outcome.map (·.val) = .ok rest

theorem Reads.ok {outcome : Except Fault (α × Rest bound)} {value : α} {rest : List Char}
    (reads : Reads outcome value rest) : ∃ fits, outcome = .ok (value, ⟨rest, fits⟩) := by
  cases outcome with
  | error fault => cases reads
  | ok result =>
      cases reads
      exact ⟨result.2.property, rfl⟩

theorem error_of_plain {outcome : Except Fault (α × Rest bound)} {fault : Fault}
    (failed : plain outcome = .error fault) : outcome = .error fault := by
  cases outcome with
  | error other =>
      cases failed
      rfl
  | ok result => cases failed

theorem Leaves.ok {outcome : Except Fault (Rest bound)} {rest : List Char}
    (leaves : Leaves outcome rest) : ∃ fits, outcome = .ok ⟨rest, fits⟩ := by
  cases outcome with
  | error fault => cases leaves
  | ok after =>
      cases leaves
      exact ⟨after.property, rfl⟩

/-! ## Blanks and ends -/

theorem next?_eq {row : List Char} (blank : Blank row) {char : Char}
    (visible : isBlank char = false) (rest : List Char) :
    ∃ shorter, next? (row ++ char :: rest) = some (char, ⟨rest, shorter⟩) := by
  induction row with
  | nil =>
      refine ⟨Nat.lt_succ_self _, ?_⟩
      simp only [List.nil_append]
      rw [next?, visible]
      rfl
  | cons first row induction =>
      rcases induction fun char member => blank char (List.mem_cons_of_mem _ member)
        with ⟨shorter, found⟩
      refine ⟨Nat.lt_succ_of_lt shorter, ?_⟩
      simp only [List.cons_append]
      rw [next?, blank first List.mem_cons_self, found]
      rfl

theorem next?_eq_none {row : List Char} (blank : Blank row) : next? row = none := by
  induction row with
  | nil => rfl
  | cons first row induction =>
      rw [next?, blank first List.mem_cons_self,
        induction fun char member => blank char (List.mem_cons_of_mem _ member)]
      rfl

/-! ## Words and strings -/

theorem word_leaves (expected rest : List Char) :
    Leaves (word expected (expected ++ rest)) rest := by
  induction expected with
  | nil => rfl
  | cons char expected induction =>
      rcases induction.ok with ⟨fits, passed⟩
      simp only [List.cons_append]
      rw [word, if_pos rfl, passed]
      rfl

theorem hexNumber_reads {digits : List Char} {number : Nat} (isHex : IsHex digits number)
    (rest : List Char) : Reads (hexNumber (digits ++ rest)) number rest := by
  rcases isHex with ⟨four, values, valued, total⟩
  match digits, four with
  | [first, second, third, fourth], _ =>
      simp only [List.cons_append, List.nil_append]
      rw [hexNumber, valued, ← total]
      rfl

theorem escape_reads_letter {letter char : Char} (escaped : escaped? letter = some char)
    (rest : List Char) : Reads (escape (letter :: rest)) char rest := by
  rw [escape, escaped]
  · rfl
  · intro isNumber
    rw [isNumber] at escaped
    cases escaped

theorem escape_reads_number {digits : List Char} {number : Nat} (isHex : IsHex digits number)
    (notLeading : isLeading number = false) (notTrailing : isTrailing number = false)
    (rest : List Char) :
    Reads (escape ('u' :: (digits ++ rest))) (Char.ofNat number) rest := by
  rcases (hexNumber_reads isHex rest).ok with ⟨fits, read⟩
  rw [escape, numbered, read]
  simp only [bind, Except.bind, notLeading, notTrailing]
  rfl

theorem isTrailing_eq_false {number : Nat} (leading : isLeading number) :
    isTrailing number = false := by
  simp only [isLeading, isTrailing, Bool.and_eq_true, decide_eq_true_eq] at *
  simp
  omega

theorem escape_reads_pair {digits others : List Char} {leading trailing : Nat}
    (isHex : IsHex digits leading) (leads : isLeading leading)
    (otherIsHex : IsHex others trailing) (trails : isTrailing trailing) (rest : List Char) :
    Reads (escape ('u' :: (digits ++ '\\' :: 'u' :: (others ++ rest))))
      (Char.ofNat ((leading - 0xD800) * 0x400 + (trailing - 0xDC00) + 0x10000)) rest := by
  rcases (hexNumber_reads isHex ('\\' :: 'u' :: (others ++ rest))).ok with ⟨fits, read⟩
  rcases (hexNumber_reads otherIsHex rest).ok with ⟨otherFits, otherRead⟩
  rw [escape, numbered, read]
  simp only [bind, Except.bind, isTrailing_eq_false leads, leads, otherRead, trails, if_true,
    Bool.not_true, Bool.false_eq_true, if_false, pure, Except.pure, Reads, plain,
    Except.map, Rest.widen]

theorem string_plain {char : Char} (notQuote : char ≠ '"') (notBackslash : char ≠ '\\')
    (printable : isControl char = false) {rest after word : List Char}
    (reads : Reads (string rest) word after) :
    Reads (string (char :: rest)) (char :: word) after := by
  rcases reads.ok with ⟨fits, read⟩
  rw [string, printable, read]
  · rfl
  · exact notQuote
  · exact notBackslash

theorem string_escape {text rest after word : List Char} {char : Char}
    (escaped : Reads (escape text) char rest) (reads : Reads (string rest) word after) :
    Reads (string ('\\' :: text)) (char :: word) after := by
  rcases escaped.ok with ⟨escapedFits, escapedRead⟩
  rcases reads.ok with ⟨fits, read⟩
  rw [string, escapedRead]
  simp only [bind, Except.bind, read]
  rfl

theorem string_writes {written : List Char} {char : Char} (writes : Writes written char)
    {rest after word : List Char} (reads : Reads (string rest) word after) :
    Reads (string (written ++ rest)) (char :: word) after := by
  cases writes with
  | plain notQuote notBackslash printable =>
      exact string_plain notQuote notBackslash printable reads
  | letter escaped => exact string_escape (escape_reads_letter escaped rest) reads
  | number isHex notLeading notTrailing =>
      exact string_escape (escape_reads_number isHex notLeading notTrailing rest) reads
  | @pair digits others leading trailing isHex leads otherIsHex trails =>
      have read := string_escape (escape_reads_pair isHex leads otherIsHex trails rest) reads
      rw [List.cons_append, List.cons_append, List.append_assoc, List.cons_append,
        List.cons_append]
      exact read

theorem string_reads {body word : List Char} (spells : Spells body word) (rest : List Char) :
    Reads (string (body ++ '"' :: rest)) word rest := by
  induction spells with
  | nil =>
      rw [List.nil_append, string]
      rfl
  | cons writes others induction =>
      rw [List.append_assoc]
      exact string_writes writes induction

theorem skipString_plain {char : Char} (notQuote : char ≠ '"') (notBackslash : char ≠ '\\')
    (printable : isControl char = false) {text rest : List Char}
    (leaves : Leaves (skipString text) rest) : Leaves (skipString (char :: text)) rest := by
  rcases leaves.ok with ⟨fits, passed⟩
  rw [skipString, printable, passed]
  · rfl
  · exact notQuote
  · exact fun backslash _ => notBackslash backslash
  · exact fun _ backslash _ => notBackslash backslash
  · exact fun _ _ backslash _ => notBackslash backslash

theorem skipString_leaves {body : List Char} (isBody : IsBody body) (rest : List Char) :
    Leaves (skipString (body ++ '"' :: rest)) rest := by
  induction isBody with
  | nil =>
      rw [List.nil_append, skipString]
      rfl
  | plain notQuote notBackslash printable others induction =>
      exact skipString_plain notQuote notBackslash printable induction
  | letter escaped others induction =>
      rcases induction.ok with ⟨fits, passed⟩
      simp only [List.cons_append]
      rw [skipString, Option.isNone_eq_false_iff.mpr escaped, passed]
      · rfl
      · intro isNumber
        rw [isNumber] at escaped
        cases escaped
  | @number digits body number isHex others induction =>
      rcases (hexNumber_reads isHex (body ++ '"' :: rest)).ok with ⟨hexFits, read⟩
      rcases induction.ok with ⟨fits, passed⟩
      rw [List.cons_append, List.cons_append, List.append_assoc, skipString, read]
      simp only [bind, Except.bind, passed]
      rfl

/-! ## Numbers

A number ends where its last part cannot go on. -/

theorem digits_reads {row rest : List Char} (isDigits : IsDigits row) (ends : EndsDigits rest)
    (atEnd : Fault) : Reads (digits atEnd (row ++ rest)) row rest := by
  have allDigits := isDigits.digits
  cases row with
  | nil => exact absurd rfl isDigits.nonempty
  | cons first row =>
      have others : ∀ char ∈ row, char.isDigit :=
        fun char member => allDigits char (List.mem_cons_of_mem _ member)
      have taken : (row ++ rest).takeWhile Char.isDigit = row := by
        rw [List.takeWhile_append_of_pos others]
        cases rest with
        | nil => rw [List.takeWhile_nil, List.append_nil]
        | cons char rest => rw [List.takeWhile_cons, ends char rfl]; simp
      have dropped : (row ++ rest).dropWhile Char.isDigit = rest := by
        rw [List.dropWhile_append_of_pos others]
        cases rest with
        | nil => rfl
        | cons char rest => rw [List.dropWhile_cons, ends char rfl]; simp
      simp only [List.cons_append]
      rw [digits, if_pos (allDigits first List.mem_cons_self), Reads, plain, Except.map, taken]
      simp only [dropped]

theorem wholeDigits_reads {row rest : List Char} (isWhole : IsWhole row) (ends : EndsDigits rest)
    (atEnd : Fault) : Reads (wholeDigits atEnd (row ++ rest)) row rest := by
  rcases isWhole.leading with zero | leading
  · rw [zero, List.cons_append, List.nil_append, wholeDigits, if_neg]
    · rfl
    · rw [Option.any_eq_true]
      intro ⟨char, isFirst, isDigit⟩
      rw [ends char isFirst] at isDigit
      cases isDigit
  · rw [wholeDigits]
    · exact digits_reads isWhole.toIsDigits ends atEnd
    · intro others zero
      exact leading (isWhole.first zero).1

theorem fractionDigits_reads {text : List Char} {fraction : Option (List Char)}
    (isFraction : IsFraction text fraction) {rest : List Char} (ends : EndsDigits rest)
    (noPoint : rest.head? ≠ some '.') (atEnd : Fault) :
    Reads (fractionDigits atEnd (text ++ rest)) fraction rest := by
  cases isFraction with
  | absent =>
      rw [List.nil_append, fractionDigits]
      · rfl
      · intro others point
        exact noPoint (by rw [point]; rfl)
  | present digits =>
      rcases (digits_reads digits ends atEnd).ok with ⟨fits, read⟩
      simp only [List.cons_append]
      rw [fractionDigits, read]
      rfl

theorem exponentSign_eq {sign row : List Char} {negative : Bool} (isSign : IsSign sign negative)
    (isDigits : IsDigits row) (rest : List Char) :
    ∃ fits, exponentSign (sign ++ (row ++ rest)) = (negative, ⟨row ++ rest, fits⟩) := by
  cases isSign with
  | absent =>
      refine ⟨Nat.le_refl _, ?_⟩
      simp only [List.nil_append]
      rw [exponentSign]
      · rfl
      · intro others plus
        cases (isDigits.first plus).2
      · intro others minus
        cases (isDigits.first minus).2
  | plus => exact ⟨Nat.le_succ _, rfl⟩
  | minus => exact ⟨Nat.le_succ _, rfl⟩

theorem exponentPart_reads {text : List Char} {exponent : Option Int}
    (isExponent : IsExponent text exponent) {rest : List Char} (ends : EndsDigits rest)
    (noLetter : ∀ char ∈ rest.head?, ¬ (char = 'e' ∨ char = 'E')) (atEnd : Fault) :
    Reads (exponentPart atEnd (text ++ rest)) exponent rest := by
  cases isExponent with
  | absent =>
      cases rest with
      | nil => rfl
      | cons char rest =>
          rw [List.nil_append, exponentPart, if_neg (noLetter char rfl)]
          rfl
  | present isLetter isSign digits =>
      rcases exponentSign_eq isSign digits rest with ⟨signFits, signed⟩
      rcases (digits_reads digits ends atEnd).ok with ⟨fits, read⟩
      rw [List.cons_append, List.append_assoc, exponentPart, if_pos isLetter, signed]
      dsimp only
      rw [read]
      rfl

theorem unsigned_reads {negative : Bool} {text : List Char} {value : Number}
    (isUnsigned : IsUnsigned negative text value) {rest : List Char} (delimited : Delimited rest)
    (atEnd : Fault) : Reads (unsigned atEnd negative (text ++ rest)) value rest := by
  rcases isUnsigned with ⟨isWhole, isFraction, isExponent⟩
  have afterPoint := ends_of_exponent isExponent delimited
  have afterWhole : EndsDigits _ := ends_of_fraction isFraction
    fun char isFirst => (afterPoint char isFirst).1
  rcases (exponentPart_reads isExponent
    (fun char isFirst => (ends_of_delimiter (delimited char isFirst)).1)
    (fun char isFirst => (ends_of_delimiter (delimited char isFirst)).2.2) atEnd).ok
    with ⟨exponentFits, exponentRead⟩
  rcases (fractionDigits_reads isFraction (fun char isFirst => (afterPoint char isFirst).1)
    (fun point => (afterPoint '.' point).2 rfl) atEnd).ok
    with ⟨fractionFits, fractionRead⟩
  rcases (wholeDigits_reads isWhole afterWhole atEnd).ok with ⟨wholeFits, wholeRead⟩
  rw [List.append_assoc, List.append_assoc, unsigned, wholeRead]
  simp only [bind, Except.bind, fractionRead, exponentRead]
  rfl

theorem number_reads {text : List Char} {value : Number} (isNumber : IsNumber text value)
    {rest : List Char} (delimited : Delimited rest) (atEnd : Fault) :
    Reads (number atEnd (text ++ rest)) value rest := by
  cases isNumber with
  | unsigned isUnsigned =>
      rw [number]
      · exact unsigned_reads isUnsigned delimited atEnd
      · intro others minus
        rcases isUnsigned with ⟨isWhole, _, _⟩
        rw [List.append_assoc] at minus
        cases (isWhole.first minus).2
  | negative isUnsigned =>
      rcases (unsigned_reads isUnsigned delimited atEnd).ok with ⟨fits, read⟩
      simp only [List.cons_append]
      rw [number, read]
      rfl

end ResultSets.Json
