import ResultSets.Policy.Text
import ResultSets.Proofs.Json.Decimal
import ResultSets.Proofs.Json.Passing

namespace ResultSets.Policy

/-! Objects that say what the fields of a policy are, and how the values of fields are read. -/

open Json

/-! ## Settings -/

inductive Setting where
  | shift (value : UInt32)
  | slack (value : UInt64)
  | shrink (value : Bool)
  deriving DecidableEq

namespace Setting

def field : Setting → Field
  | shift _ => .shift
  | slack _ => .slack
  | shrink _ => .shrink

def written : Setting → String
  | shift value => toString value.toNat
  | slack value => toString value.toNat
  | shrink value => toString value

end Setting

def setting (policy : Policy) : Field → Setting
  | .shift => .shift policy.shift
  | .slack => .slack policy.slack
  | .shrink => .shrink policy.shrink

/-! ## Objects -/

structure Entry extends Member where
  body : List Char
  word : List Char
  isKey : key.core = quoted body
  spells : Spells body word
  isValue : IsValue value.core

namespace Entry

def Names (entry : Entry) (field : Field) : Prop := entry.word = field.key.toList

instance (entry : Entry) (field : Field) : Decidable (entry.Names field) :=
  inferInstanceAs (Decidable (entry.word = field.key.toList))

def Gives (entry : Entry) (setting : Setting) : Prop :=
  entry.Names setting.field ∧ entry.value.core = setting.written.toList

end Entry

inductive IsObject : List Entry → List Char → Prop
  | empty {before row after : List Char} (blankBefore : Blank before) (blank : Blank row)
      (blankAfter : Blank after) :
      IsObject [] (before ++ (Bracket.object.enclose row ++ after))
  | entries {before after : List Char} {entries : List Entry} (blankBefore : Blank before)
      (nonempty : entries ≠ []) (blankAfter : Blank after) :
      IsObject entries
        (before ++ (Bracket.object.enclose (joined (entries.map (·.text))) ++ after))

def Repeats (entries : List Entry) : Prop :=
  ∃ field, 2 ≤ entries.countP fun entry => entry.Names field

def InRange (entries : List Entry) : Prop :=
  ∀ entry ∈ entries, ∀ field, entry.Names field →
    ∃ setting : Setting, setting.field = field ∧ entry.Gives setting

/-- A policy says what the entries give, and otherwise what the default says. -/
structure Describes (entries : List Entry) (policy : Policy) : Prop where
  given : ∀ entry ∈ entries, ∀ setting, entry.Gives setting →
    policy.setting setting.field = setting
  missing : ∀ field, (∀ entry ∈ entries, ¬ entry.Names field) →
    policy.setting field = ({} : Policy).setting field

def verdict (policy : Policy) : Except Error Policy :=
  if policy.shift.toNat < 64 then .ok policy else .error (.shiftTooLarge policy.shift.toNat)

/-! ## Values -/

section Values

variable {text before rest : List Char} {value : Number} {bound : Nat}

/-- What becomes of a number: it is finite, natural and below the bound, or refused. -/
theorem natural_number (isNumber : IsNumber text value) (blank : Blank before)
    (delimited : Delimited rest) :
    plain (natural bound (before ++ (text ++ rest))) =
      if value.isInfinite then .error .malformed
      else match value.natural? with
        | some number => if number < bound then .ok (number, rest) else .error .unsuitable
        | none => .error .unsuitable := by
  rcases isNumber.begins with ⟨first, others, rfl, begins⟩
  have visible := isBlank_eq_false (isDelimiter_eq_false begins)
  rcases next?_eq blank visible (others ++ rest) with ⟨shorter, next⟩
  cases finite : value.isInfinite with
  | true =>
      have read := finiteNumber_error isNumber finite delimited
      simp only [List.cons_append] at read ⊢
      rw [natural, next]
      simp only [if_pos begins, bind, Except.bind, read]
      rfl
  | false =>
      rcases (finiteNumber_reads isNumber finite delimited).ok with ⟨fits, read⟩
      simp only [List.cons_append] at read ⊢
      rw [natural, next]
      simp only [if_pos begins, bind, Except.bind, read]
      cases value.natural? with
      | none => rfl
      | some number =>
          by_cases inside : number < bound
          · simp only [if_pos inside]
            rfl
          · simp only [if_neg inside]
            rfl

theorem natural_reads {number : Nat} (inside : number < bound) (fits : number < UInt64.size)
    (blank : Blank before) (delimited : Delimited rest) :
    Reads (natural bound (before ++ ((toString number).toList ++ rest))) number rest := by
  rw [Nat.toString_eq_ofList_toDigits, String.toList_ofList, Reads,
    natural_number (Number.isNumber_ofNat number) blank delimited,
    Number.isInfinite_ofNat fits, Number.natural?_ofNat]
  simp only [if_pos inside]
  rfl

theorem natural_other {first : Char} {others : List Char} (blank : Blank before)
    (visible : isDelimiter first = false) (other : ¬ (first = '-' ∨ first.isDigit)) :
    natural bound (before ++ first :: others) = .error (mismatch first others) := by
  rcases next?_eq blank (isBlank_eq_false visible) others with ⟨shorter, next⟩
  rw [natural, next]
  exact if_neg other

theorem flag_other {first : Char} {others : List Char} (blank : Blank before)
    (visible : isDelimiter first = false) (notTrue : first ≠ 't') (notFalse : first ≠ 'f') :
    flag (before ++ first :: others) = .error (mismatch first others) := by
  rcases next?_eq blank (isBlank_eq_false visible) others with ⟨shorter, next⟩
  rw [flag, next]
  simp only [if_neg notTrue, if_neg notFalse]

theorem flag_reads (answer : Bool) (blank : Blank before) :
    Reads (flag (before ++ ((toString answer).toList ++ rest))) answer rest := by
  cases answer with
  | true =>
      have visible : isBlank 't' = false := rfl
      rcases next?_eq blank visible (['r', 'u', 'e'] ++ rest) with ⟨shorter, next⟩
      rcases (word_leaves ['r', 'u', 'e'] rest).ok with ⟨fits, passed⟩
      change Reads (flag (before ++ 't' :: (['r', 'u', 'e'] ++ rest))) _ _
      rw [flag, next]
      simp only [if_true, passed]
      rfl
  | false =>
      have visible : isBlank 'f' = false := rfl
      rcases next?_eq blank visible (['a', 'l', 's', 'e'] ++ rest) with ⟨shorter, next⟩
      rcases (word_leaves ['a', 'l', 's', 'e'] rest).ok with ⟨fits, passed⟩
      change Reads (flag (before ++ 'f' :: (['a', 'l', 's', 'e'] ++ rest))) _ _
      rw [flag, next]
      simp only [if_true, passed]
      rfl

theorem natural_value (isValue : IsValue text) (blank : Blank before)
    (delimited : Delimited rest) :
    (∃ fault, natural bound (before ++ (text ++ rest)) = .error fault) ∨
      ∃ number, Reads (natural bound (before ++ (text ++ rest))) number rest := by
  rcases isValue.kind with ⟨value, isNumber⟩ | ⟨answer, rfl⟩ |
    ⟨first, others, rfl, visible, other, _⟩
  · have outcome : plain (natural bound _) = _ := natural_number isNumber blank delimited
    split at outcome
    · exact .inl ⟨_, error_of_plain outcome⟩
    · split at outcome
      · split at outcome
        · exact .inr ⟨_, outcome⟩
        · exact .inl ⟨_, error_of_plain outcome⟩
      · exact .inl ⟨_, error_of_plain outcome⟩
  · cases answer with
    | true =>
        exact .inl ⟨mismatch 't' (['r', 'u', 'e'] ++ rest), natural_other blank rfl (by decide)⟩
    | false =>
        exact .inl ⟨mismatch 'f' (['a', 'l', 's', 'e'] ++ rest),
          natural_other blank rfl (by decide)⟩
  · exact .inl ⟨_, natural_other blank visible other⟩

theorem flag_value (isValue : IsValue text) (blank : Blank before) :
    (∃ fault, flag (before ++ (text ++ rest)) = .error fault) ∨
      ∃ answer, Reads (flag (before ++ (text ++ rest))) answer rest := by
  rcases isValue.kind with ⟨value, isNumber⟩ | ⟨answer, rfl⟩ |
    ⟨first, others, rfl, visible, _, notTrue, notFalse⟩
  · rcases isNumber.begins with ⟨first, others, rfl, begins⟩
    exact .inl ⟨_, flag_other blank (isDelimiter_eq_false begins)
      (ne_of_begins begins (by decide)) (ne_of_begins begins (by decide))⟩
  · exact .inr ⟨answer, flag_reads answer blank⟩
  · exact .inl ⟨_, flag_other blank visible notTrue notFalse⟩

end Values

/-! ## Fields -/

namespace Fields

def put (fields : Fields) : Setting → Fields
  | .shift value => { fields with shift := some value }
  | .slack value => { fields with slack := some value }
  | .shrink value => { fields with shrink := some value }

def setting? (fields : Fields) : Field → Option Setting
  | .shift => fields.shift.map .shift
  | .slack => fields.slack.map .slack
  | .shrink => fields.shrink.map .shrink

theorem has_eq (fields : Fields) (field : Field) :
    fields.has field = (fields.setting? field).isSome := by
  cases field <;> simp [has, setting?]

theorem setting?_put (fields : Fields) (setting : Setting) (field : Field) :
    (fields.put setting).setting? field =
      if setting.field = field then some setting else fields.setting? field := by
  cases setting <;> cases field <;> rfl

theorem setting_toPolicy (fields : Fields) (field : Field) :
    fields.toPolicy.setting field =
      (fields.setting? field).getD (({} : Policy).setting field) := by
  cases field <;> simp [toPolicy, setting?, setting]

variable {before rest : List Char}

theorem read_reads (fields : Fields) (setting : Setting) (blank : Blank before)
    (delimited : Delimited rest) :
    Reads (fields.read (before ++ (setting.written.toList ++ rest)) setting.field)
      (fields.put setting) rest := by
  cases setting with
  | shift value =>
      have fits : value.toNat < UInt64.size := Nat.lt_trans value.toNat_lt (by decide)
      rcases (natural_reads value.toNat_lt fits blank delimited).ok with ⟨_, read⟩
      rw [Setting.field, Fields.read, Setting.written, UInt32.size, read]
      simp only [Except.map, UInt32.ofNat_toNat]
      rfl
  | slack value =>
      rcases (natural_reads value.toNat_lt value.toNat_lt blank delimited).ok with ⟨_, read⟩
      rw [Setting.field, Fields.read, Setting.written, UInt64.size, read]
      simp only [Except.map, UInt64.ofNat_toNat]
      rfl
  | shrink value =>
      rcases (flag_reads value blank).ok with ⟨fits, read⟩
      rw [Setting.field, Fields.read, Setting.written, read]
      rfl

theorem read_value (fields : Fields) (field : Field) {text : List Char} (isValue : IsValue text)
    (blank : Blank before) (delimited : Delimited rest) :
    (∃ fault, fields.read (before ++ (text ++ rest)) field = .error fault) ∨
      ∃ setting, setting.field = field ∧
        Reads (fields.read (before ++ (text ++ rest)) field) (fields.put setting) rest := by
  cases field with
  | shift =>
      rcases natural_value isValue blank delimited with ⟨fault, failed⟩ | ⟨number, reads⟩
      · exact .inl ⟨fault, by rw [Fields.read, failed]; rfl⟩
      · rcases reads.ok with ⟨fits, read⟩
        exact .inr ⟨.shift (.ofNat number), rfl, by rw [Fields.read, read]; rfl⟩
  | slack =>
      rcases natural_value isValue blank delimited with ⟨fault, failed⟩ | ⟨number, reads⟩
      · exact .inl ⟨fault, by rw [Fields.read, failed]; rfl⟩
      · rcases reads.ok with ⟨fits, read⟩
        exact .inr ⟨.slack (.ofNat number), rfl, by rw [Fields.read, read]; rfl⟩
  | shrink =>
      rcases flag_value isValue blank with ⟨fault, failed⟩ | ⟨answer, reads⟩
      · exact .inl ⟨fault, by rw [Fields.read, failed]; rfl⟩
      · rcases reads.ok with ⟨fits, read⟩
        exact .inr ⟨.shrink answer, rfl, by rw [Fields.read, read]; rfl⟩

end Fields

end ResultSets.Policy
