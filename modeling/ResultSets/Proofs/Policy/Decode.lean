import Mathlib.Data.List.Nodup
import ResultSets.Proofs.Policy.Entries

namespace ResultSets.Policy

/-! Reading a policy from an object, and reading back a policy that was written. -/

open Json

/-! ## Whole texts -/

theorem fresh_iff_not_repeats (entries : List Entry) : Fresh {} entries ↔ ¬ Repeats entries := by
  rw [Repeats, not_exists]
  refine forall_congr' fun field => ?_
  have absent : ({} : Fields).has field = false := by cases field <;> rfl
  rw [absent, Bool.toNat_false, Nat.zero_add, Nat.not_le, Nat.lt_succ_iff]

theorem object_empty {row : List Char} (blank : Blank row) (rest : List Char) :
    Reads (object (row ++ '\x7d' :: rest)) {} rest := by
  have visible : isBlank '\x7d' = false := rfl
  rcases next?_eq blank visible rest with ⟨shorter, next⟩
  rw [object, next]
  rfl

theorem plain_object {before : List Char} (blank : Blank before) (rest : List Char) :
    plain (object (before ++ '"' :: rest)) = plain (entries {} rest) := by
  have visible : isBlank '"' = false := rfl
  rcases next?_eq blank visible rest with ⟨shorter, next⟩
  rw [object, next]
  simp only [if_true]
  cases entries {} rest <;> rfl

theorem fieldsOf_eq {before inside after : List Char} (blank : Blank before)
    {fields : Fields} (reads : Reads (object inside) fields after) (blankAfter : Blank after) :
    fieldsOf (before ++ '\x7b' :: inside) = .ok fields := by
  have visible : isBlank '\x7b' = false := rfl
  rcases next?_eq blank visible inside with ⟨shorter, next⟩
  rcases reads.ok with ⟨fits, read⟩
  rw [fieldsOf, next]
  simp only [if_true, bind, Except.bind, read, next?_eq_none blankAfter]
  rfl

theorem fieldsOf_error {before inside : List Char} (blank : Blank before) {fault : Fault}
    (failed : object inside = .error fault) :
    fieldsOf (before ++ '\x7b' :: inside) = .error fault := by
  have visible : isBlank '\x7b' = false := rfl
  rcases next?_eq blank visible inside with ⟨shorter, next⟩
  rw [fieldsOf, next]
  simp only [if_true, bind, Except.bind, failed]

theorem decode_eq {text : String} {fields : Fields} (read : fieldsOf text.toList = .ok fields) :
    decode text = fields.toPolicy.verdict := by
  rw [decode, read]
  simp only [validate, verdict]
  split <;> rfl

theorem decode_error {text : String} {fault : Fault}
    (failed : fieldsOf text.toList = .error fault) : decode text = .error (.unreadable fault) := by
  rw [decode, failed]

theorem Puts.describes {entries : List Entry} {fields : Fields} (puts : Puts {} entries fields) :
    Describes entries fields.toPolicy := by
  constructor
  · intro entry member setting gives
    rw [Fields.setting_toPolicy, puts.given entry member setting gives]
    rfl
  · intro field unnamed
    rw [Fields.setting_toPolicy, puts.missing field unnamed]
    cases field <;> rfl

theorem enclose_append (inside after : List Char) :
    Bracket.object.enclose inside ++ after = '\x7b' :: (inside ++ '\x7d' :: after) := by
  simp [Bracket.enclose, Bracket.opening, Bracket.closing]

theorem fieldsOf_puts {entries : List Entry} {text : List Char} (isObject : IsObject entries text)
    (fresh : Fresh {} entries) (inRange : InRange entries) :
    ∃ fields, Puts {} entries fields ∧ fieldsOf text = .ok fields := by
  cases isObject with
  | empty blankBefore blank blankAfter =>
      refine ⟨{}, ⟨?_, fun _ _ => rfl⟩, ?_⟩
      · intro entry member
        cases member
      · rw [enclose_append]
        exact fieldsOf_eq blankBefore (object_empty blank _) blankAfter
  | entries blankBefore nonempty blankAfter =>
      cases entries with
      | nil => exact absurd rfl nonempty
      | cons entry others =>
          rcases entries_reads _ inRange fresh with ⟨fields, puts, reads⟩
          refine ⟨fields, puts, ?_⟩
          rw [enclose_append, joined_eq_row]
          exact fieldsOf_eq blankBefore ((plain_object entry.key.blankBefore _).trans reads)
            blankAfter

theorem fieldsOf_fails {entries : List Entry} {text : List Char} (isObject : IsObject entries text)
    (repeated : ¬ Fresh {} entries) : ∃ fault, fieldsOf text = .error fault := by
  cases isObject with
  | empty =>
      rw [fresh_iff_not_repeats, not_not] at repeated
      rcases repeated with ⟨_, twice⟩
      cases twice
  | @entries before after _ blankBefore nonempty =>
      cases entries with
      | nil => exact absurd rfl nonempty
      | cons entry others =>
          rcases entries_fail_or_fresh after {} entry others with ⟨fault, failed⟩ | fresh
          · have refused := plain_object entry.key.blankBefore (row after entry others)
            rw [failed] at refused
            rw [enclose_append, joined_eq_row]
            exact ⟨fault, fieldsOf_error blankBefore (error_of_plain refused)⟩
          · exact absurd fresh repeated

/-! ## Written policies -/

def isPlain (char : Char) : Bool := char ≠ '"' && char ≠ '\\' && !isControl char

theorem spells_plain {word : List Char} (plain : word.all isPlain) : Spells word word := by
  induction word with
  | nil => exact .nil
  | cons char word induction =>
      simp only [List.all_cons, isPlain, Bool.and_eq_true, decide_eq_true_eq,
        Bool.not_eq_true'] at plain
      exact .cons (.plain plain.1.1.1 plain.1.1.2 plain.1.2) (induction plain.2)

theorem spells_key (field : Field) : Spells field.key.toList field.key.toList := by
  apply spells_plain
  cases field <;> decide

theorem isValue_written (setting : Setting) : IsValue setting.written.toList := by
  cases setting with
  | shift value =>
      rw [Setting.written, Nat.toString_eq_ofList_toDigits, String.toList_ofList]
      exact .number (Number.isNumber_ofNat _)
  | slack value =>
      rw [Setting.written, Nat.toString_eq_ofList_toDigits, String.toList_ofList]
      exact .number (Number.isNumber_ofNat _)
  | shrink value => exact .bool value

def Entry.ofSetting (setting : Setting) : Entry where
  key := ⟨[], quoted setting.field.key.toList, [], List.forall_mem_nil _, List.forall_mem_nil _⟩
  value := ⟨[], setting.written.toList, [], List.forall_mem_nil _, List.forall_mem_nil _⟩
  body := setting.field.key.toList
  word := setting.field.key.toList
  isKey := rfl
  spells := spells_key setting.field
  isValue := isValue_written setting

theorem names_ofSetting {setting : Setting} {field : Field} :
    (Entry.ofSetting setting).Names field ↔ setting.field = field :=
  key_injective.eq_iff

theorem text_ofSetting (setting : Setting) :
    (Entry.ofSetting setting).text =
      quoted setting.field.key.toList ++ ':' :: setting.written.toList := by
  simp [Entry.ofSetting, Member.text, Padded.text]

theorem inRange_ofSetting (settings : List Setting) : InRange (settings.map .ofSetting) := by
  intro entry member field names
  rcases List.mem_map.mp member with ⟨setting, _, rfl⟩
  exact ⟨setting, names_ofSetting.mp names, names_ofSetting.mpr rfl, rfl⟩

theorem repeats_ofSetting_iff (settings : List Setting) :
    Repeats (settings.map .ofSetting) ↔ ¬ (settings.map (·.field)).Nodup := by
  rw [List.nodup_iff_count_le_one, not_forall]
  apply exists_congr
  intro field
  have same : (fun setting => decide ((Entry.ofSetting setting).Names field)) =
      fun setting : Setting => setting.field == field := by
    funext setting
    rw [Bool.eq_iff_iff, decide_eq_true_eq, beq_iff_eq, names_ofSetting]
  rw [Nat.not_le, List.countP_map, List.count, List.countP_map, Function.comp_def, same]
  rfl

def settings (policy : Policy) : List Setting :=
  [.shift policy.shift, .slack policy.slack, .shrink policy.shrink]

theorem setting_mem_settings (policy : Policy) (field : Field) :
    policy.setting field ∈ policy.settings := by
  cases field <;> simp [setting, settings]

theorem field_setting (policy : Policy) (field : Field) : (policy.setting field).field = field := by
  cases field <;> rfl

theorem eq_of_setting_eq {policy other : Policy}
    (agrees : ∀ field, policy.setting field = other.setting field) : policy = other := by
  have shift := Setting.shift.inj (agrees .shift)
  have slack := Setting.slack.inj (agrees .slack)
  have shrink := Setting.shrink.inj (agrees .shrink)
  cases policy
  cases other
  cases shift
  cases slack
  cases shrink
  rfl

theorem eq_of_describes {policy other : Policy}
    (describes : Describes (policy.settings.map .ofSetting) other) : other = policy := by
  apply eq_of_setting_eq
  intro field
  have listed := List.mem_map_of_mem (f := Entry.ofSetting) (policy.setting_mem_settings field)
  have given := describes.given _ listed _ ⟨names_ofSetting.mpr rfl, rfl⟩
  rwa [field_setting] at given

theorem toList_encode (policy : Policy) :
    policy.encode.toList =
      Bracket.object.enclose (joined ((policy.settings.map Entry.ofSetting).map (·.text))) := by
  have first : (toString "\x7b\"small_set_shift\":").toList =
      '\x7b' :: (quoted Field.shift.key.toList ++ [':']) := by decide
  have second : (toString ",\"small_set_slack\":").toList =
      ',' :: (quoted Field.slack.key.toList ++ [':']) := by decide
  have third : (toString "\"shrink_sparse_bitmaps\":").toList =
      quoted Field.shrink.key.toList ++ [':'] := by decide
  have comma : (toString ",").toList = [','] := by decide
  have closing : (toString "\x7d").toList = ['\x7d'] := by decide
  unfold encode
  simp only [String.toList_append, first, second, third, comma, closing, settings, joined,
    List.map_cons, List.map_nil, text_ofSetting, Setting.field, Setting.written, Bracket.enclose,
    Bracket.opening, Bracket.closing, List.append_assoc, List.cons_append, List.nil_append]

theorem isObject_encode (policy : Policy) :
    IsObject (policy.settings.map .ofSetting) policy.encode.toList := by
  have noBlanks : Blank [] := List.forall_mem_nil _
  have nonempty : policy.settings.map Entry.ofSetting ≠ [] := List.cons_ne_nil _ _
  have written := IsObject.entries noBlanks nonempty noBlanks
  rw [List.nil_append, List.append_nil, ← toList_encode] at written
  exact written

/-! ## Decoding -/

theorem decode_describes {entries : List Entry} {text : String}
    (isObject : IsObject entries text.toList) (unrepeated : ¬ Repeats entries)
    (inRange : InRange entries) :
    ∃ policy : Policy, Describes entries policy ∧ decode text = policy.verdict := by
  have fresh := (fresh_iff_not_repeats entries).mpr unrepeated
  rcases fieldsOf_puts isObject fresh inRange with ⟨fields, puts, read⟩
  exact ⟨fields.toPolicy, puts.describes, decode_eq read⟩

theorem decode_encode (policy : Policy) : decode policy.encode = policy.verdict := by
  have unrepeated : ¬ Repeats (policy.settings.map .ofSetting) := by
    rw [repeats_ofSetting_iff, not_not]
    exact show Field.all.Nodup by decide
  rcases decode_describes (isObject_encode policy) unrepeated (inRange_ofSetting _) with
    ⟨other, describes, decoded⟩
  rw [decoded, eq_of_describes describes]

theorem decode_repeats {entries : List Entry} {text : String}
    (isObject : IsObject entries text.toList) (repeats : Repeats entries) :
    ∃ fault, decode text = .error (.unreadable fault) := by
  have notFresh : ¬ Fresh {} entries := by rwa [fresh_iff_not_repeats, not_not]
  rcases fieldsOf_fails isObject notFresh with ⟨fault, failed⟩
  exact ⟨fault, decode_error failed⟩

/-- Decoding undoes encoding, as far as policies can be used. An object that gives some of the
fields, in any order and among any other keys, is read for what it gives, with the defaults
for the rest; one that gives a field twice is refused. -/
theorem decode_exact :
    (∀ policy : Policy, decode policy.encode = policy.verdict) ∧
      ∀ (entries : List Entry) (text : String), IsObject entries text.toList →
        (¬ Repeats entries → InRange entries →
          ∃ policy : Policy, Describes entries policy ∧ decode text = policy.verdict) ∧
        (Repeats entries → ∃ fault, decode text = .error (.unreadable fault)) := by
  refine ⟨decode_encode, ?_⟩
  intro entries text isObject
  exact ⟨decode_describes isObject, decode_repeats isObject⟩

def Entry.spare : Entry where
  key := ⟨[' '], quoted ['x'], [' '], List.forall_mem_singleton.mpr rfl,
    List.forall_mem_singleton.mpr rfl⟩
  value := ⟨[' '], ['n', 'u', 'l', 'l'], [' '], List.forall_mem_singleton.mpr rfl,
    List.forall_mem_singleton.mpr rfl⟩
  body := ['x']
  word := ['x']
  isKey := rfl
  spells := spells_plain rfl
  isValue := .null

theorem decode_exact_reordered :
    decode "\x7b\"small_set_slack\":9, \"x\" : null ,\"small_set_shift\":7\x7d" =
        .ok { shift := 7, slack := 9 } ∧
      ∃ fault, decode "\x7b\"small_set_shift\":1,\"small_set_shift\":1\x7d" =
        .error (.unreadable fault) := by
  have noBlanks : Blank [] := List.forall_mem_nil _
  have slack : (Entry.ofSetting (.slack 9)).Gives (.slack 9) := ⟨rfl, rfl⟩
  have shift : (Entry.ofSetting (.shift 7)).Gives (.shift 7) := ⟨rfl, rfl⟩
  constructor
  · have mixed : IsObject [.ofSetting (.slack 9), .spare, .ofSetting (.shift 7)]
        "\x7b\"small_set_slack\":9, \"x\" : null ,\"small_set_shift\":7\x7d".toList :=
      IsObject.entries noBlanks (List.cons_ne_nil _ _) noBlanks
    have unrepeated : ¬ Repeats [.ofSetting (.slack 9), .spare, .ofSetting (.shift 7)] := by
      intro ⟨field, twice⟩
      cases field <;> exact absurd twice (by decide)
    have inRange : InRange [.ofSetting (.slack 9), .spare, .ofSetting (.shift 7)] := by
      intro entry member field names
      simp only [List.mem_cons, List.not_mem_nil, or_false] at member
      rcases member with rfl | rfl | rfl
      · exact ⟨.slack 9, names_ofSetting.mp names, slack⟩
      · cases field <;> exact absurd names (by decide)
      · exact ⟨.shift 7, names_ofSetting.mp names, shift⟩
    rcases (decode_exact.2 _ _ mixed).1 unrepeated inRange with ⟨policy, describes, decoded⟩
    have same : policy = { shift := 7, slack := 9 } := by
      apply eq_of_setting_eq
      intro field
      cases field with
      | shift => exact describes.given _ (by simp) _ shift
      | slack => exact describes.given _ (by simp) _ slack
      | shrink => exact describes.missing .shrink (by decide)
    rw [decoded, same]
    rfl
  · have twice : IsObject [.ofSetting (.shift 1), .ofSetting (.shift 1)]
        "\x7b\"small_set_shift\":1,\"small_set_shift\":1\x7d".toList :=
      IsObject.entries noBlanks (List.cons_ne_nil _ _) noBlanks
    exact (decode_exact.2 _ _ twice).2 ⟨.shift, by decide⟩

end ResultSets.Policy
