import Mathlib.Logic.Function.Iterate
import Mathlib.Order.Bounds.Basic
import ResultSets.Proofs.Bitmap.Members

namespace ResultSets

/-! Searches in both directions find the nearest member of a bitmap, and a walk finds one
member after the other until there are no more. -/

/-! ## Reading by calls

Each call answers with the next item, or tells that there is none, and leaves a state for the
calls to come. -/

section Calls

variable {σ α β : Type}

def afterCalls (call : σ → α × σ) (count : Nat) (state : σ) : σ :=
  (fun state => (call state).2)^[count] state

/-- The calls answer with these items in turn, and from then on they answer that there is
none. -/
def Yields (call : σ → α × σ) (answer : Option β → α) (state : σ) (items : List β) : Prop :=
  ∀ count, (call (afterCalls call count state)).1 = answer items[count]?

variable {call : σ → α × σ} {answer : Option β → α} {items : σ → List β}

theorem items_afterCalls (takes : ∀ state, items (call state).2 = (items state).tail)
    (count : Nat) (state : σ) : items (afterCalls call count state) = (items state).drop count := by
  induction count with
  | zero => rfl
  | succ count induction =>
      rw [afterCalls, Function.iterate_succ_apply', takes, ← afterCalls, induction,
        List.tail_drop]

theorem yields_of_steps (answers : ∀ state, (call state).1 = answer (items state).head?)
    (takes : ∀ state, items (call state).2 = (items state).tail) (state : σ) :
    Yields call answer state (items state) := by
  intro count
  rw [answers, items_afterCalls takes, List.head?_drop]

end Calls

/-! ## Searching backward -/

namespace Word

theorem lastBelow?_eq_some {word : Word} {stop position : Nat}
    (found : word.lastBelow? stop = some position) :
    position < stop ∧ word.getLsbD position = true ∧
      ∀ other, position < other → other < stop → word.getLsbD other = false := by
  induction stop with
  | zero => cases found
  | succ last induction =>
      rw [lastBelow?] at found
      split at found
      · next set =>
          cases found
          exact ⟨Nat.lt_succ_self _, set, fun other late early => by omega⟩
      · next clear =>
          rcases induction found with ⟨below, set, after⟩
          refine ⟨by omega, set, fun other late early => ?_⟩
          by_cases here : other = last
          · rw [here]
            exact Bool.eq_false_iff.mpr clear
          · exact after other late (by omega)

theorem lastBelow?_eq_none {word : Word} {stop : Nat} (missing : word.lastBelow? stop = none)
    (position : Nat) (below : position < stop) : word.getLsbD position = false := by
  induction stop with
  | zero => omega
  | succ last induction =>
      rw [lastBelow?] at missing
      split at missing
      · cases missing
      · next clear =>
          by_cases here : position = last
          · rw [here]
            exact Bool.eq_false_iff.mpr clear
          · exact induction missing (by omega)

end Word

section Row

variable {words : Array Word} {index stop position : Nat}

theorem bitAt_eq_getLsbD (behind : 64 * index ≤ position) (before : position < 64 * index + 64) :
    bitAt words position = (words.getD index 0).getLsbD (position - 64 * index) := by
  have split : position = 64 * index + (position - 64 * index) := by omega
  rw [split, bitAt_at words (by omega), ← split]

theorem bitAt_of_lastBelow?_eq_some (within : stop ≤ 64) {place : Nat}
    (found : (words.getD index 0).lastBelow? stop = some place) :
    64 * index + place < 64 * index + stop ∧ bitAt words (64 * index + place) = true ∧
      ∀ other, 64 * index + place < other → other < 64 * index + stop →
        bitAt words other = false := by
  rcases Word.lastBelow?_eq_some found with ⟨below, set, after⟩
  refine ⟨by omega, (bitAt_at words (by omega)).trans set, fun other late early => ?_⟩
  have inWord := after (other - 64 * index) (by omega) (by omega)
  exact (bitAt_eq_getLsbD (by omega) (by omega)).trans inWord

theorem bitAt_of_lastBelow?_eq_none (within : stop ≤ 64)
    (missing : (words.getD index 0).lastBelow? stop = none) (behind : 64 * index ≤ position)
    (before : position < 64 * index + stop) : bitAt words position = false := by
  rw [bitAt_eq_getLsbD behind (by omega)]
  exact Word.lastBelow?_eq_none missing _ (by omega)

theorem lastBitBefore?_eq_some (within : stop ≤ 64)
    (found : lastBitBefore? words index stop = some position) :
    position < 64 * index + stop ∧ bitAt words position = true ∧
      ∀ other, position < other → other < 64 * index + stop → bitAt words other = false := by
  induction index generalizing stop with
  | zero =>
      rw [lastBitBefore?] at found
      have first := bitAt_of_lastBelow?_eq_some within found
      rw [Nat.mul_zero, Nat.zero_add] at first
      rw [Nat.mul_zero]
      exact first
  | succ index induction =>
      rw [lastBitBefore?] at found
      split at found
      · next place here =>
          cases found
          exact bitAt_of_lastBelow?_eq_some within here
      · next here =>
          rcases induction (Nat.le_refl 64) found with ⟨below, set, after⟩
          refine ⟨by omega, set, fun other late early => ?_⟩
          by_cases earlier : other < 64 * (index + 1)
          · exact after other late earlier
          · exact bitAt_of_lastBelow?_eq_none within here (by omega) early

theorem lastBitBefore?_eq_none (within : stop ≤ 64)
    (missing : lastBitBefore? words index stop = none) (early : position < 64 * index + stop) :
    bitAt words position = false := by
  induction index generalizing stop with
  | zero =>
      rw [lastBitBefore?] at missing
      exact bitAt_of_lastBelow?_eq_none within missing (by omega) early
  | succ index induction =>
      rw [lastBitBefore?] at missing
      split at missing
      · cases missing
      · next here =>
          by_cases earlier : position < 64 * (index + 1)
          · exact induction (Nat.le_refl 64) missing earlier
          · exact bitAt_of_lastBelow?_eq_none within here (by omega) early

end Row

namespace Bitmap

variable {bitmap : Bitmap} {start last position : Nat}

theorem not_mem_of_bitAt (clear : bitAt bitmap.words position = false) : position ∉ bitmap := by
  intro member
  rw [← contains_eq_bitAt] at clear
  exact Bool.false_ne_true (clear.symm.trans member)

theorem previous?_eq_none (missing : bitmap.previous? last = none) (early : position ≤ last) :
    position ∉ bitmap := by
  by_cases inside : position < bitmap.length
  · rw [previous?, if_neg (by omega)] at missing
    exact not_mem_of_bitAt (lastBitBefore?_eq_none (by omega) missing (by omega))
  · exact fun member => inside (lt_length_of_mem member)

/-! ## The nearest member

A backward search may start beyond the length. -/

theorem isLeast_of_next? (found : bitmap.next? start = some position) :
    IsLeast {member | member ∈ bitmap ∧ start ≤ member} position := by
  rcases next?_eq_some found with ⟨late, member, first⟩
  apply And.intro ⟨member, late⟩
  intro other otherMember
  apply Nat.le_of_not_lt
  intro early
  exact first other otherMember.2 early otherMember.1

theorem isGreatest_of_previous? (found : bitmap.previous? last = some position) :
    IsGreatest {member | member ∈ bitmap ∧ member ≤ last} position := by
  rw [previous?] at found
  split at found
  · cases found
  · rcases lastBitBefore?_eq_some (by omega) found with ⟨early, set, after⟩
    have member : position ∈ bitmap := (contains_eq_bitAt bitmap position).trans set
    apply And.intro ⟨member, by omega⟩
    intro other otherMember
    have inside := lt_length_of_mem otherMember.1
    have within := otherMember.2
    apply Nat.le_of_not_lt
    intro late
    exact not_mem_of_bitAt (after other late (by omega)) otherMember.1

theorem next?_eq_some_iff : bitmap.next? start = some position ↔
    IsLeast {member | member ∈ bitmap ∧ start ≤ member} position := by
  apply Iff.intro isLeast_of_next?
  intro least
  cases searched : bitmap.next? start with
  | none => exact absurd least.1.1 (next?_eq_none searched position least.1.2)
  | some found => rw [(isLeast_of_next? searched).unique least]

theorem previous?_eq_some_iff : bitmap.previous? last = some position ↔
    IsGreatest {member | member ∈ bitmap ∧ member ≤ last} position := by
  apply Iff.intro isGreatest_of_previous?
  intro greatest
  cases searched : bitmap.previous? last with
  | none => exact absurd greatest.1.1 (previous?_eq_none searched greatest.1.2)
  | some found => rw [(isGreatest_of_previous? searched).unique greatest]

theorem next?_eq_none_iff :
    bitmap.next? start = none ↔ ∀ member ∈ bitmap, member < start := by
  constructor
  · intro missing member inside
    apply Nat.lt_of_not_le
    intro late
    exact next?_eq_none missing member late inside
  · intro before
    cases searched : bitmap.next? start with
    | none => rfl
    | some found =>
        rcases (isLeast_of_next? searched).1 with ⟨member, late⟩
        exact absurd (before found member) (Nat.not_lt_of_le late)

theorem previous?_eq_none_iff :
    bitmap.previous? last = none ↔ ∀ member ∈ bitmap, last < member := by
  constructor
  · intro missing member inside
    apply Nat.lt_of_not_le
    intro early
    exact previous?_eq_none missing early inside
  · intro after
    cases searched : bitmap.previous? last with
    | none => rfl
    | some found =>
        rcases (isGreatest_of_previous? searched).1 with ⟨member, early⟩
        exact absurd (after found member) (Nat.not_lt_of_le early)

/-! ## Walks -/

theorem Cursor.yields (cursor : Cursor) : Yields Cursor.next id cursor cursor.toList :=
  yields_of_steps (fun cursor => cursor.next_eq.1) (fun cursor => cursor.next_eq.2) cursor

/-- Searches find the nearest members, if there are any: forward the least one at or after the
start, of which there is none at or beyond the length, and backward the greatest one at or
before the start. The calls of a walk yield the members, each once in ascending order and as
many as are counted, and then nothing any more; after some of them, the calls to come yield
the members that are left. -/
theorem scans_exact (bitmap : Bitmap) :
    (∀ start,
      (∀ position, bitmap.next? start = some position ↔
        IsLeast {member | member ∈ bitmap ∧ start ≤ member} position) ∧
      (bitmap.next? start = none ↔ ∀ member ∈ bitmap, member < start) ∧
      (bitmap.length ≤ start → bitmap.next? start = none)) ∧
    (∀ start,
      (∀ position, bitmap.previous? start = some position ↔
        IsGreatest {member | member ∈ bitmap ∧ member ≤ start} position) ∧
      (bitmap.previous? start = none ↔ ∀ member ∈ bitmap, start < member)) ∧
    ∃ members : List Nat, members.Pairwise (· < ·) ∧
      (∀ position, position ∈ members ↔ position ∈ bitmap) ∧
      members.length = bitmap.card ∧
      ∀ passed, Yields Cursor.next id (afterCalls Cursor.next passed bitmap.cursor)
        (members.drop passed) := by
  have forward : ∀ start, bitmap.length ≤ start → bitmap.next? start = none := by
    intro start beyond
    apply next?_eq_none_iff.mpr
    intro member inside
    exact Nat.lt_of_lt_of_le (lt_length_of_mem inside) beyond
  have left : ∀ passed, (afterCalls Cursor.next passed bitmap.cursor).toList =
      bitmap.toList.drop passed := fun passed =>
    items_afterCalls (fun cursor => cursor.next_eq.2) passed bitmap.cursor
  refine ⟨fun start => ⟨fun position => next?_eq_some_iff, next?_eq_none_iff, forward start⟩,
    fun start => ⟨fun position => previous?_eq_some_iff, previous?_eq_none_iff⟩,
    bitmap.toList, bitmap.toList_pairwise, fun position => mem_toList, bitmap.length_toList,
    fun passed => ?_⟩
  rw [← left]
  exact Cursor.yields _

end Bitmap

end ResultSets
