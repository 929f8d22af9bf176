import ResultSets.Proofs.Policy.Object

namespace ResultSets.Policy

/-! Reading the entries of an object, one after the other. What is known after some of them is
what these give, and an entry that gives a field again is refused. -/

open Json

/-! ## Keys -/

theorem key_injective : Function.Injective fun field : Field => field.key.toList := by
  intro field other same
  cases field <;> cases other <;> first | rfl | exact absurd same (by decide)

theorem ofKey?_eq_some_iff {word : List Char} {field : Field} :
    Field.ofKey? word = some field ↔ word = field.key.toList := by
  constructor
  · intro found
    have same := List.find?_some found
    exact (of_decide_eq_true same).symm
  · intro same
    rw [same, Field.ofKey?]
    cases field <;> decide

theorem ofKey?_eq_none_iff {word : List Char} :
    Field.ofKey? word = none ↔ ∀ field : Field, word ≠ field.key.toList := by
  rw [Option.eq_none_iff_forall_ne_some]
  exact forall_congr' fun field => not_congr ofKey?_eq_some_iff

/-! ## Single entries

An entry is read from behind the opening quote of its key. The blanks after its value are
left. -/

namespace Entry

def afterQuote (entry : Entry) : List Char :=
  entry.body ++ '"' :: (entry.key.after ++ ':' :: entry.value.text)

theorem text_eq (entry : Entry) :
    entry.text = entry.key.before ++ '"' :: entry.afterQuote := by
  simp [Member.text, Padded.text, entry.isKey, quoted, afterQuote]

theorem Names.unique {entry : Entry} {field other : Field} (names : entry.Names field)
    (again : entry.Names other) : field = other :=
  key_injective (names.symm.trans again)

theorem Gives.unique {entry : Entry} {setting other : Setting} (gives : entry.Gives setting)
    (again : entry.Gives other) : setting = other := by
  have sameField := gives.1.unique again.1
  have sameText := gives.2.symm.trans again.2
  cases setting <;> cases other <;> cases sameField <;>
    simp only [Setting.written, Nat.toString_eq_ofList_toDigits, String.toList_ofList] at sameText
  case shift.shift => exact congrArg _ (UInt32.toNat_inj.mp (toDigits_injective sameText))
  case slack.slack => exact congrArg _ (UInt64.toNat_inj.mp (toDigits_injective sameText))
  case shrink.shrink value other =>
    cases value <;> cases other <;> first | rfl | exact absurd sameText (by decide)

end Entry

inductive Takes (fields : Fields) (entry : Entry) : Fields → Prop
  | pass (unknown : ∀ field, ¬ entry.Names field) : Takes fields entry fields
  | put {setting : Setting} (names : entry.Names setting.field)
      (missing : fields.has setting.field = false) : Takes fields entry (fields.put setting)

section Entries

variable {fields later : Fields} {entry : Entry} {rest : List Char}

theorem colon_leaves {before : List Char} (blank : Blank before) (rest : List Char) :
    Leaves (colon (before ++ ':' :: rest)) rest := by
  have visible : isBlank ':' = false := rfl
  rcases next?_eq blank visible rest with ⟨shorter, next⟩
  rw [colon, next]
  rfl

theorem plain_entry (fields : Fields) (entry : Entry) (rest : List Char) :
    plain (Policy.entry fields (entry.afterQuote ++ rest)) =
      match Field.ofKey? entry.word with
      | some field =>
          if fields.has field then .error .unsuitable
          else plain (fields.read (entry.value.text ++ rest) field)
      | none => (skip (entry.value.text ++ rest)).map fun after => (fields, after.val) := by
  rcases (string_reads entry.spells
    (entry.key.after ++ ':' :: (entry.value.text ++ rest))).ok with ⟨keyFits, readKey⟩
  rcases (colon_leaves entry.key.blankAfter (entry.value.text ++ rest)).ok with
    ⟨colonFits, passed⟩
  rw [Entry.afterQuote, List.append_assoc, List.cons_append, List.append_assoc, List.cons_append,
    Policy.entry, readKey]
  simp only [bind, Except.bind, passed]
  cases Field.ofKey? entry.word with
  | some field =>
      dsimp only
      split
      · rfl
      · cases fields.read (entry.value.text ++ rest) field <;> rfl
  | none =>
      dsimp only
      cases skip (entry.value.text ++ rest) <;> rfl

theorem entry_passes (unknown : ∀ field, ¬ entry.Names field) (delimited : Delimited rest) :
    Reads (Policy.entry fields (entry.afterQuote ++ rest)) fields (entry.value.after ++ rest) := by
  have read := plain_entry fields entry rest
  have ends := delimited.after_blank entry.value.blankAfter
  rcases (skip_leaves entry.isValue entry.value.blankBefore ends).ok with ⟨fits, passed⟩
  rw [ofKey?_eq_none_iff.mpr unknown] at read
  rw [Padded.text, List.append_assoc, List.append_assoc, passed] at read
  exact read

theorem entry_puts {setting : Setting} (gives : entry.Gives setting)
    (missing : fields.has setting.field = false) (delimited : Delimited rest) :
    Reads (Policy.entry fields (entry.afterQuote ++ rest)) (fields.put setting)
      (entry.value.after ++ rest) := by
  have read := plain_entry fields entry rest
  have ends := delimited.after_blank entry.value.blankAfter
  rw [ofKey?_eq_some_iff.mpr gives.1] at read
  rw [Reads, read]
  simp only [missing]
  rw [Padded.text, List.append_assoc, List.append_assoc, gives.2]
  exact fields.read_reads setting entry.value.blankBefore ends

/-- An entry is refused, or it is passed or put to its field. -/
theorem entry_fails_or_takes (fields : Fields) (entry : Entry) (delimited : Delimited rest) :
    (∃ fault, Policy.entry fields (entry.afterQuote ++ rest) = .error fault) ∨
      ∃ later, Takes fields entry later ∧
        Reads (Policy.entry fields (entry.afterQuote ++ rest)) later
          (entry.value.after ++ rest) := by
  have read := plain_entry fields entry rest
  have ends := delimited.after_blank entry.value.blankAfter
  cases found : Field.ofKey? entry.word with
  | none =>
      have unknown := ofKey?_eq_none_iff.mp found
      exact .inr ⟨fields, .pass unknown, entry_passes unknown delimited⟩
  | some field =>
      have names := ofKey?_eq_some_iff.mp found
      rw [found] at read
      cases present : fields.has field with
      | true =>
          simp only [present, if_true] at read
          exact .inl ⟨_, error_of_plain read⟩
      | false =>
          simp only [present] at read
          rw [Padded.text, List.append_assoc, List.append_assoc] at read
          rcases fields.read_value field entry.isValue entry.value.blankBefore ends with
            ⟨fault, failed⟩ | ⟨setting, rfl, reads⟩
          · rw [failed] at read
            exact .inl ⟨fault, error_of_plain read⟩
          · exact .inr ⟨_, .put names present, read.trans reads⟩

end Entries

/-! ## Rows of entries -/

def Fresh (fields : Fields) (entries : List Entry) : Prop :=
  ∀ field, (fields.has field).toNat + entries.countP (fun entry => entry.Names field) ≤ 1

structure Puts (fields : Fields) (entries : List Entry) (later : Fields) : Prop where
  given : ∀ entry ∈ entries, ∀ setting, entry.Gives setting →
    later.setting? setting.field = some setting
  missing : ∀ field, (∀ entry ∈ entries, ¬ entry.Names field) →
    later.setting? field = fields.setting? field

section Rows

variable {fields later final : Fields} {entry : Entry} {others : List Entry} {rest : List Char}

theorem Takes.fresh_iff (takes : Takes fields entry later) :
    Fresh later others ↔ Fresh fields (entry :: others) := by
  apply forall_congr'
  intro field
  rw [List.countP_cons]
  cases takes with
  | pass unknown => simp [unknown field]
  | @put setting names missing =>
      rw [Fields.has_eq, Fields.setting?_put]
      by_cases same : setting.field = field
      · rw [same] at names missing
        simp [same, names, missing, Nat.add_comm]
      · have other : ¬ entry.Names field := fun again => same (names.unique again)
        simp [same, other, Fields.has_eq]

theorem Fresh.not_names (fresh : Fresh fields (entry :: others)) {field : Field}
    (names : entry.Names field) :
    fields.has field = false ∧ ∀ other ∈ others, ¬ other.Names field := by
  have count := fresh field
  rw [List.countP_cons, if_pos (by simpa using names)] at count
  have absent : (fields.has field).toNat = 0 := by omega
  have none : others.countP (fun entry => entry.Names field) = 0 := by omega
  rw [List.countP_eq_zero] at none
  exact ⟨Bool.toNat_eq_zero.mp absent, fun other member => by simpa using none other member⟩

theorem Puts.cons (first : Puts fields [entry] later) (fresh : Fresh fields (entry :: others))
    (following : Puts later others final) : Puts fields (entry :: others) final := by
  constructor
  · intro listed member setting gives
    rcases List.mem_cons.mp member with rfl | member
    · rw [following.missing _ (fresh.not_names gives.1).2]
      exact first.given _ List.mem_cons_self setting gives
    · exact following.given listed member setting gives
  · intro field unnamed
    have parts := List.forall_mem_cons.mp unnamed
    rw [following.missing field parts.2]
    exact first.missing field (List.forall_mem_singleton.mpr parts.1)

theorem entry_takes_and_puts (inRange : InRange (entry :: others))
    (fresh : Fresh fields (entry :: others)) (delimited : Delimited rest) :
    ∃ later, Takes fields entry later ∧ Puts fields [entry] later ∧
      Reads (Policy.entry fields (entry.afterQuote ++ rest)) later (entry.value.after ++ rest) := by
  by_cases known : ∃ field, entry.Names field
  · rcases known with ⟨field, names⟩
    rcases inRange entry List.mem_cons_self field names with ⟨setting, rfl, gives⟩
    have missing := (fresh.not_names names).1
    refine ⟨fields.put setting, .put names missing, ⟨?_, ?_⟩, entry_puts gives missing delimited⟩
    · rw [List.forall_mem_singleton]
      intro other again
      rw [← gives.unique again, Fields.setting?_put, if_pos rfl]
    · intro field unnamed
      rw [List.forall_mem_singleton] at unnamed
      rw [Fields.setting?_put, if_neg]
      intro same
      exact unnamed (same ▸ names)
  · have unknown := not_exists.mp known
    refine ⟨fields, .pass unknown, ⟨?_, ?_⟩, entry_passes unknown delimited⟩
    · rw [List.forall_mem_singleton]
      intro setting gives
      exact absurd gives.1 (unknown _)
    · intro field _
      rfl

def row (rest : List Char) : Entry → List Entry → List Char
  | entry, [] => entry.afterQuote ++ '\x7d' :: rest
  | entry, other :: others =>
      entry.afterQuote ++ ',' :: (other.key.before ++ '"' :: row rest other others)

theorem joined_eq_row (rest : List Char) (entry : Entry) (others : List Entry) :
    joined ((entry :: others).map (·.text)) ++ '\x7d' :: rest =
      entry.key.before ++ '"' :: row rest entry others := by
  induction others generalizing entry with
  | nil => simp [joined, row, Entry.text_eq]
  | cons other others induction =>
      have inner := induction other
      rw [List.map_cons] at inner
      rw [List.map_cons, List.map_cons, joined, List.append_assoc, List.cons_append, inner,
        Entry.text_eq, row, List.append_assoc, List.cons_append]
      exact List.cons_ne_nil _ _

theorem entries_last {text row : List Char} (blank : Blank row)
    (reads : Reads (Policy.entry fields text) later (row ++ '\x7d' :: rest)) :
    Reads (entries fields text) later rest := by
  have visible : isBlank '\x7d' = false := rfl
  rcases reads.ok with ⟨fits, read⟩
  rcases next?_eq blank visible rest with ⟨shorter, next⟩
  rw [entries, read]
  simp only [bind, Except.bind, next]
  rfl

theorem entries_error {text : List Char} {fault : Fault}
    (failed : Policy.entry fields text = .error fault) : entries fields text = .error fault := by
  rw [entries, failed]
  rfl

theorem entries_more {text row before : List Char} (blank : Blank row) (blankBefore : Blank before)
    (reads : Reads (Policy.entry fields text) later (row ++ ',' :: (before ++ '"' :: rest))) :
    plain (entries fields text) = plain (entries later rest) := by
  have comma : isBlank ',' = false := rfl
  have quote : isBlank '"' = false := rfl
  rcases reads.ok with ⟨fits, read⟩
  rcases next?_eq blank comma (before ++ '"' :: rest) with ⟨shorter, next⟩
  rcases next?_eq blankBefore quote rest with ⟨innerShorter, innerNext⟩
  rw [entries, read]
  simp only [bind, Except.bind, next, innerNext, if_true]
  cases entries later rest <;> rfl

/-- Entries that repeat no field and have values in range are read for what they give. -/
theorem entries_reads (rest : List Char) {fields : Fields} {entry : Entry} {others : List Entry}
    (inRange : InRange (entry :: others)) (fresh : Fresh fields (entry :: others)) :
    ∃ final, Puts fields (entry :: others) final ∧
      Reads (entries fields (row rest entry others)) final rest := by
  -- Entries that are fresh after what is there are fresh after one of them is taken as well.
  induction others generalizing fields entry with
  | nil =>
      have ends : isDelimiter '\x7d' := rfl
      rcases entry_takes_and_puts inRange fresh (delimited_cons ends rest) with
        ⟨later, _, puts, reads⟩
      exact ⟨later, puts, entries_last entry.value.blankAfter reads⟩
  | cons other others induction =>
      have ends : isDelimiter ',' := rfl
      rcases entry_takes_and_puts inRange fresh (delimited_cons ends _) with
        ⟨later, takes, puts, reads⟩
      have further := (List.forall_mem_cons.mp inRange).2
      rcases induction further (takes.fresh_iff.mpr fresh) with ⟨final, putsMore, readsMore⟩
      exact ⟨final, puts.cons fresh putsMore,
        (entries_more entry.value.blankAfter other.key.blankBefore reads).trans readsMore⟩

/-- Entries that are read repeat no field, whatever their values are. -/
theorem entries_fail_or_fresh (rest : List Char) (fields : Fields) (entry : Entry)
    (others : List Entry) :
    (∃ fault, entries fields (row rest entry others) = .error fault) ∨
      Fresh fields (entry :: others) := by
  induction others generalizing fields entry with
  | nil =>
      have ends : isDelimiter '\x7d' := rfl
      rcases entry_fails_or_takes fields entry (delimited_cons ends rest) with
        ⟨fault, failed⟩ | ⟨later, takes, _⟩
      · exact .inl ⟨fault, entries_error failed⟩
      · right
        rw [← takes.fresh_iff]
        intro field
        exact Bool.toNat_le _
  | cons other others induction =>
      have ends : isDelimiter ',' := rfl
      rcases entry_fails_or_takes fields entry (delimited_cons ends _) with
        ⟨fault, failed⟩ | ⟨later, takes, reads⟩
      · exact .inl ⟨fault, entries_error failed⟩
      · have goesOn := entries_more entry.value.blankAfter other.key.blankBefore reads
        rcases induction later other with ⟨fault, failed⟩ | fresh
        · rw [failed] at goesOn
          exact .inl ⟨fault, error_of_plain goesOn⟩
        · exact .inr (takes.fresh_iff.mp fresh)

end Rows

end ResultSets.Policy
