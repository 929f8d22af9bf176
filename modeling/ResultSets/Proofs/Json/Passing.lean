import ResultSets.Proofs.Json.Reading

namespace ResultSets.Json

/-! Passing a value ends where the value ends, however deep it is nested and whatever follows
it. Passing goes through stages, and each part of the value leads from one to a later one. -/

structure Stage where
  awaited : Awaited
  opened : List Bracket
  text : List Char

def Leads (stage later : Stage) : Prop :=
  ∀ bound (fits : stage.text.length ≤ bound), ∃ laterFits,
    skipFrom bound stage.awaited stage.opened ⟨stage.text, fits⟩ =
      skipFrom bound later.awaited later.opened ⟨later.text, laterFits⟩

theorem Leads.trans {stage middle later : Stage} (first : Leads stage middle)
    (second : Leads middle later) : Leads stage later := by
  intro bound fits
  rcases first bound fits with ⟨middleFits, reaches⟩
  rcases second bound middleFits with ⟨laterFits, goesOn⟩
  exact ⟨laterFits, reaches.trans goesOn⟩

def Bracket.inner : Bracket → Awaited
  | .array => .value
  | .object => .key

/-! ## Single steps -/

section Steps

variable {before : List Char} {opened : List Bracket}

theorem leads_comma (blank : Blank before) (bracket : Bracket) (rest : List Char) :
    Leads ⟨.close, bracket :: opened, before ++ ',' :: rest⟩
      ⟨bracket.inner, bracket :: opened, rest⟩ := by
  have visible : isBlank ',' = false := rfl
  intro bound fits
  rcases next?_eq blank visible rest with ⟨shorter, next⟩
  refine ⟨Nat.le_trans (Nat.le_of_lt shorter) fits, ?_⟩
  dsimp only
  rw [skipFrom, next]
  cases bracket <;> rfl

theorem leads_close (blank : Blank before) (bracket : Bracket) (rest : List Char) :
    Leads ⟨.close, bracket :: opened, before ++ bracket.closing :: rest⟩
      ⟨.close, opened, rest⟩ := by
  have visible : isBlank bracket.closing = false := by cases bracket <;> rfl
  intro bound fits
  rcases next?_eq blank visible rest with ⟨shorter, next⟩
  refine ⟨Nat.le_trans (Nat.le_of_lt shorter) fits, ?_⟩
  dsimp only
  rw [skipFrom, next]
  cases bracket <;> rfl

theorem skipKey_leaves {body between : List Char} (isBody : IsBody body)
    (blank : Blank between) (rest : List Char) :
    Leaves (skipKey (body ++ '"' :: (between ++ ':' :: rest))) rest := by
  have visible : isBlank ':' = false := rfl
  rcases (skipString_leaves isBody (between ++ ':' :: rest)).ok with ⟨fits, passed⟩
  rcases next?_eq blank visible rest with ⟨shorter, next⟩
  rw [skipKey, passed]
  simp only [bind, Except.bind, next]
  rfl

theorem leads_key (blank : Blank before) {body between : List Char} (isBody : IsBody body)
    (blankBetween : Blank between) (rest : List Char) :
    Leads ⟨.key, opened, before ++ (quoted body ++ (between ++ ':' :: rest))⟩
      ⟨.value, opened, rest⟩ := by
  have visible : isBlank '"' = false := rfl
  intro bound fits
  rcases next?_eq blank visible (body ++ '"' :: (between ++ ':' :: rest)) with ⟨shorter, next⟩
  rcases (skipKey_leaves isBody blankBetween rest).ok with ⟨keyFits, passed⟩
  refine ⟨Nat.le_trans keyFits (Nat.le_trans (Nat.le_of_lt shorter) ?_), ?_⟩
  · rw [quoted, List.cons_append, List.append_assoc, List.cons_append, List.nil_append] at fits
    exact fits
  · simp only [quoted, List.cons_append, List.append_assoc, List.nil_append]
    rw [skipFrom, next]
    simp only [if_true, passed]
    rfl

theorem leads_scalar (blank : Blank before) {first : Char} {others rest : List Char}
    (visible : isBlank first = false) (isScalar : ¬ (first = '[' ∨ first = '\x7b'))
    (passes : Leaves (skipScalar first others) rest) :
    Leads ⟨.value, opened, before ++ first :: others⟩ ⟨.close, opened, rest⟩ := by
  intro bound fits
  rcases next?_eq blank visible others with ⟨shorter, next⟩
  rcases passes.ok with ⟨passedFits, passed⟩
  refine ⟨Nat.le_trans passedFits (Nat.le_trans (Nat.le_of_lt shorter) fits), ?_⟩
  dsimp only
  rw [skipFrom, next]
  simp only [if_neg isScalar, passed]
  rfl

theorem leads_empty (blank : Blank before) (bracket : Bracket) {row : List Char}
    (blankInside : Blank row) (rest : List Char) :
    Leads ⟨.value, opened, before ++ bracket.opening :: (row ++ bracket.closing :: rest)⟩
      ⟨.close, opened, rest⟩ := by
  have visible : isBlank bracket.opening = false ∧ isBlank bracket.closing = false := by
    cases bracket <;> decide
  intro bound fits
  rcases next?_eq blank visible.1 (row ++ bracket.closing :: rest) with ⟨shorter, next⟩
  rcases next?_eq blankInside visible.2 rest with ⟨innerShorter, innerNext⟩
  refine ⟨Nat.le_trans (Nat.le_of_lt (Nat.lt_trans innerShorter shorter)) fits, ?_⟩
  dsimp only
  rw [skipFrom, next]
  cases bracket with
  | array =>
    simp only [innerNext]
    rfl
  | object =>
    simp only [innerNext]
    rfl

theorem leads_open (blank : Blank before) (bracket : Bracket) {inside : List Char}
    (starts : Starts inside) :
    Leads ⟨.value, opened, before ++ bracket.opening :: inside⟩
      ⟨bracket.inner, bracket :: opened, inside⟩ := by
  rcases starts with ⟨row, first, others, rfl, blankInside, begins⟩
  have visible : isBlank first = false ∧ first ≠ bracket.closing := by
    cases bracket <;> simp_all [isDelimiter, Bracket.closing]
  have openingVisible : isBlank bracket.opening = false := by cases bracket <;> rfl
  intro bound fits
  rcases next?_eq blank openingVisible (row ++ first :: others) with ⟨shorter, next⟩
  rcases next?_eq blankInside visible.1 others with ⟨innerShorter, innerNext⟩
  refine ⟨Nat.le_trans (Nat.le_of_lt shorter) fits, ?_⟩
  dsimp only
  rw [skipFrom, next]
  cases bracket with
  | array =>
      simp only [innerNext]
      exact if_neg visible.2
  | object =>
      simp only [innerNext]
      exact if_neg visible.2

end Steps

/-! ## Values -/

theorem skipScalar_number {text : List Char} {value : Number} (isNumber : IsNumber text value)
    {rest : List Char} (delimited : Delimited rest) :
    ∃ first others, text = first :: others ∧ (first = '-' ∨ first.isDigit) ∧
      Leaves (skipScalar first (others ++ rest)) rest := by
  rcases isNumber.begins with ⟨first, others, rfl, begins⟩
  rcases (number_reads isNumber delimited .malformed).ok with ⟨fits, read⟩
  refine ⟨first, others, rfl, begins, ?_⟩
  rw [skipScalar, if_neg (ne_of_begins begins (by decide)),
    if_neg (ne_of_begins begins (by decide)), if_neg (ne_of_begins begins (by decide)),
    if_neg (ne_of_begins begins (by decide)), if_pos begins]
  simp only [List.cons_append] at read
  rw [read]
  rfl

theorem joined_leads {bracket : Bracket} {opened : List Bracket} {texts : List (List Char)}
    (nonempty : texts ≠ [])
    (each : ∀ text ∈ texts, ∀ rest, Delimited rest → ∃ row, Blank row ∧
      Leads ⟨bracket.inner, bracket :: opened, text ++ rest⟩
        ⟨.close, bracket :: opened, row ++ rest⟩) (rest : List Char) :
    Leads ⟨bracket.inner, bracket :: opened, joined texts ++ bracket.closing :: rest⟩
      ⟨.close, opened, rest⟩ := by
  have delimiter : isDelimiter bracket.closing := by cases bracket <;> rfl
  -- Each text leads to the comma after it, and the last one to the bracket.
  induction texts with
  | nil => exact absurd rfl nonempty
  | cons text others induction =>
      cases others with
      | nil =>
          rcases each text List.mem_cons_self _ (delimited_cons delimiter rest)
            with ⟨row, blank, leads⟩
          exact leads.trans (leads_close blank bracket rest)
      | cons other others =>
          have separator : isDelimiter ',' := rfl
          rcases each text List.mem_cons_self _ (delimited_cons separator _)
            with ⟨row, blank, leads⟩
          rw [joined, List.append_assoc, List.cons_append]
          · apply leads.trans
            apply (leads_comma blank bracket _).trans
            exact induction (List.cons_ne_nil _ _)
              fun text member => each text (List.mem_cons_of_mem _ member)
          · exact List.cons_ne_nil _ _

/-- A value is passed as a whole. -/
theorem IsValue.leads {text : List Char} (isValue : IsValue text) {before rest : List Char}
    (blank : Blank before) (delimited : Delimited rest) (opened : List Bracket) :
    Leads ⟨.value, opened, before ++ (text ++ rest)⟩ ⟨.close, opened, rest⟩ := by
  -- Inside brackets the hypotheses are used with one more bracket open and with other texts
  -- around the values, so all of these are arbitrary.
  induction isValue generalizing before rest opened with
  | null => exact leads_scalar blank rfl (by decide) (word_leaves ['u', 'l', 'l'] rest)
  | bool value =>
      cases value with
      | true => exact leads_scalar blank rfl (by decide) (word_leaves ['r', 'u', 'e'] rest)
      | false => exact leads_scalar blank rfl (by decide) (word_leaves ['a', 'l', 's', 'e'] rest)
  | number isNumber =>
      rcases skipScalar_number isNumber delimited with ⟨first, others, rfl, begins, passes⟩
      have visible := isBlank_eq_false (isDelimiter_eq_false begins)
      have isScalar : ¬ (first = '[' ∨ first = '\x7b') :=
        not_or.mpr ⟨ne_of_begins begins (by decide), ne_of_begins begins (by decide)⟩
      exact leads_scalar blank visible isScalar passes
  | string isBody =>
      rw [quoted, List.cons_append, List.append_assoc]
      exact leads_scalar blank rfl (by decide) (skipString_leaves isBody rest)
  | empty bracket blankInside =>
      rw [Bracket.enclose, List.cons_append, List.append_assoc]
      exact leads_empty blank bracket blankInside rest
  | @array items nonempty values induction =>
      have listed : items.map Padded.text ≠ [] := by rwa [ne_eq, List.map_eq_nil_iff]
      have starts : Starts (joined (items.map Padded.text)) := by
        apply joined_starts listed
        rw [List.forall_mem_map]
        intro item member
        rcases (values item member).begins with ⟨first, others, core, begins⟩
        exact item.starts core begins
      rw [Bracket.enclose, List.cons_append, List.append_assoc]
      apply (leads_open blank .array (starts.append _)).trans
      apply joined_leads listed
      rw [List.forall_mem_map]
      intro item member rest delimited
      refine ⟨item.after, item.blankAfter, ?_⟩
      rw [Padded.text, List.append_assoc, List.append_assoc]
      exact induction item member item.blankBefore (delimited.after_blank item.blankAfter) _
  | @object members nonempty keys values induction =>
      have listed : members.map Member.text ≠ [] := by rwa [ne_eq, List.map_eq_nil_iff]
      have starts : Starts (joined (members.map Member.text)) := by
        apply joined_starts listed
        rw [List.forall_mem_map]
        intro member listed
        rcases keys member listed with ⟨body, _, core⟩
        exact (member.key.starts core rfl).append _
      rw [Bracket.enclose, List.cons_append, List.append_assoc]
      apply (leads_open blank .object (starts.append _)).trans
      apply joined_leads listed
      rw [List.forall_mem_map]
      intro member listed rest delimited
      rcases keys member listed with ⟨body, isBody, core⟩
      refine ⟨member.value.after, member.value.blankAfter, ?_⟩
      have passesKey : Leads ⟨.key, .object :: opened, _⟩ _ :=
        leads_key member.key.blankBefore isBody member.key.blankAfter
          (member.value.before ++ (member.value.core ++ (member.value.after ++ rest)))
      have passesValue := induction member listed member.value.blankBefore
        (delimited.after_blank member.value.blankAfter) (.object :: opened)
      simp only [Member.text, Padded.text, core, List.append_assoc, List.cons_append]
      exact passesKey.trans passesValue

theorem skip_leaves {text : List Char} (isValue : IsValue text) {before rest : List Char}
    (blank : Blank before) (delimited : Delimited rest) :
    Leaves (skip (before ++ (text ++ rest))) rest := by
  rcases isValue.leads blank delimited [] _ (Nat.le_refl _) with ⟨fits, passes⟩
  rw [skip]
  simp only at passes
  rw [Rest.whole, passes, skipFrom]
  rfl

end ResultSets.Json
