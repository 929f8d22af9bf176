import Mathlib.Data.Set.List
import ResultSets.Proofs.Segment.History

namespace ResultSets.Segment

/-! What reading the postings of a term yields, for segments that come from anywhere. The
postings may promise another number of documents than they hold, and reading them may fail. They
are truthful if they hold nothing where they promise nothing, and orderly if, read to their end,
they ascend and hold no more than they promise. -/

def Yields (segment : Segment) (term : Term) (ids : List DocumentId) : Prop :=
  segment.postings term = .ok none ∧ ids = [] ∨
    ∃ frequency, segment.postings term = .ok (some { frequency, items := ids.map .ok })

def promise (segment : Segment) (term : Term) : Nat :=
  match segment.postings term with
  | .ok (some postings) => postings.frequency
  | _ => 0

def Truthful (segment : Segment) (term : Term) : Prop :=
  ∀ postings, segment.postings term = .ok (some postings) →
    postings.frequency = 0 → postings.items = []

def Orderly (segment : Segment) (term : Term) : Prop :=
  ∀ ids, segment.Yields term ids → Ascending ids ∧ ids.length ≤ segment.promise term

variable {segment : Segment} {term : Term} {ids others : List DocumentId}

theorem promise_of_ok {postings : Postings}
    (found : segment.postings term = .ok (some postings)) :
    segment.promise term = postings.frequency := by
  rw [promise, found]

theorem Yields.unique (yields : segment.Yields term ids) (again : segment.Yields term others) :
    ids = others := by
  rcases yields with ⟨absent, rfl⟩ | ⟨frequency, found⟩
  · rcases again with ⟨_, rfl⟩ | ⟨_, found⟩
    · rfl
    · cases absent.symm.trans found
  · rcases again with ⟨absent, _⟩ | ⟨_, foundAgain⟩
    · cases found.symm.trans absent
    · have same := found.symm.trans foundAgain
      simp only [Except.ok.injEq, Option.some.injEq, Postings.mk.injEq] at same
      exact List.map_injective_iff.mpr (fun _ _ => Except.ok.inj) same.2

theorem exists_yields {postings : Postings}
    (found : segment.postings term = .ok (some postings))
    (whole : ∀ item ∈ postings.items, ∃ id, item = .ok id ∧ id.toNat < segment.size) :
    ∃ ids, segment.Yields term ids ∧ ∀ id ∈ ids, id.toNat < segment.size := by
  have read : postings.items ∈ Set.range (List.map (Except.ok (ε := Error))) := by
    rw [Set.range_list_map]
    intro item member
    rcases whole item member with ⟨id, same, _⟩
    exact ⟨id, same.symm⟩
  rcases read with ⟨ids, same⟩
  refine ⟨ids, .inr ⟨postings.frequency, by rw [found, same]⟩, ?_⟩
  intro id member
  have listed : .ok id ∈ postings.items := same ▸ List.mem_map_of_mem member
  rcases whole _ listed with ⟨other, equal, inside⟩
  cases equal
  exact inside

/-! ## Postings that promise what they hold -/

theorem Lists.yields (lists : segment.Lists term ids) : segment.Yields term ids :=
  lists.imp_right fun found => ⟨ids.length, found⟩

theorem Lists.promise (lists : segment.Lists term ids) : segment.promise term = ids.length := by
  rcases lists with ⟨absent, rfl⟩ | found
  · rw [Segment.promise, absent]
    rfl
  · exact promise_of_ok found

theorem Lists.truthful (lists : segment.Lists term ids) : segment.Truthful term := by
  intro postings found nothing
  rcases lists with ⟨absent, _⟩ | same
  · cases absent.symm.trans found
  · cases same.symm.trans found
    rw [List.length_eq_zero_iff.mp nothing]
    rfl

theorem Lists.orderly (lists : segment.Lists term ids) (ascending : Ascending ids) :
    segment.Orderly term := by
  intro others yields
  cases lists.yields.unique yields
  exact ⟨ascending, Nat.le_of_eq lists.promise.symm⟩

/-! ## Segments that are read as they are meant -/

section Readable

variable {indexed : Nat → Term → Prop} (readable : segment.Readable indexed) (term : Term)

include readable

theorem Readable.exists_yields :
    ∃ ids, segment.Yields term ids ∧ ∀ id ∈ ids, id.toNat < segment.size := by
  rcases readable term with ⟨ids, lists, _, members⟩
  refine ⟨ids, lists.yields, fun id held => ?_⟩
  exact ((members id.toNat).mp (List.mem_map_of_mem held)).1

theorem Readable.truthful : segment.Truthful term := by
  rcases readable term with ⟨ids, lists, _⟩
  exact lists.truthful

theorem Readable.orderly : segment.Orderly term := by
  rcases readable term with ⟨ids, lists, ascending, _⟩
  exact lists.orderly ascending

theorem Readable.postings_of_size_eq_zero (none : segment.size = 0) :
    segment.postings term = .ok Option.none ∨
      segment.postings term = .ok (some { frequency := 0, items := [] }) := by
  rcases readable term with ⟨ids, lists, _, members⟩
  have nothing : ids = [] := by
    apply List.eq_nil_iff_forall_not_mem.mpr
    intro id member
    have inside := ((members id.toNat).mp (List.mem_map_of_mem member)).1
    omega
  subst nothing
  exact lists.imp_left And.left

variable {term}

theorem Readable.promise (yields : segment.Yields term ids) :
    segment.promise term = ids.length := by
  rcases readable term with ⟨others, lists, _⟩
  cases lists.yields.unique yields
  exact lists.promise

theorem Readable.mem_iff (yields : segment.Yields term ids) (position : Nat) :
    position ∈ ids.map UInt32.toNat ↔ position < segment.size ∧ indexed position term := by
  rcases readable term with ⟨others, lists, _, members⟩
  cases lists.yields.unique yields
  exact members position

end Readable

end ResultSets.Segment
