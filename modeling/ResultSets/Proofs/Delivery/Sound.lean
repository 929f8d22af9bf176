import Mathlib.Data.List.Chain
import ResultSets.Proofs.Delivery.Latch

namespace ResultSets.Accumulator

/-! What the parts of an accumulator have in common, whatever calls it was given and however it
answered them. It follows that the number of an accepted document does not overflow, that no bit
beyond a bitmap is set, and that the sets made ascend and know their sizes. A row is regular if
it has at most as many ids as it may, all below the bound and no two equal ones side by side, and
ascends when it says so; a bitmap, if it is as long as the bound and its members are counted. -/

namespace Holding

def Regular (bound limit : Nat) : Holding → Prop
  | .row ids ascending =>
      ids.size ≤ limit ∧ (∀ id ∈ ids, id.toNat < bound) ∧ ids.toList.IsChain (· ≠ ·) ∧
        (ascending = true → Ascending ids.toList)
  | .packed bitmap count => bitmap.length = bound ∧ count = bitmap.card

variable {bound limit : Nat} {holding next : Holding} {id : DocumentId}

private theorem isChain_push {ids : Array DocumentId} (apart : ids.toList.IsChain (· ≠ ·))
    (different : ids.back? ≠ some id) : (ids.push id).toList.IsChain (· ≠ ·) := by
  rw [Array.toList_push]
  apply List.IsChain.append apart (List.isChain_singleton id)
  intro last final new first
  cases first
  rw [Array.getLast?_toList] at final
  intro same
  subst same
  exact different final

theorem Regular.within (regular : holding.Regular bound limit) : holding.Within bound := by
  cases holding with
  | row ids ascending => exact regular.2.1
  | packed bitmap count => exact regular.1

theorem Adds.regular (adds : Adds bound limit id holding next)
    (regular : holding.Regular bound limit) (inside : id.toNat < bound) :
    next.Regular bound limit := by
  cases adds with
  | again last => exact regular
  | pushed other room =>
      rcases regular with ⟨few, below, apart, ordered⟩
      refine ⟨?_, fun held member => ?_, isChain_push apart other, ascending_push ordered⟩
      · rw [Array.size_push]
        exact room
      · rcases Array.mem_push.mp member with old | rfl
        · exact below held old
        · exact inside
  | moved other full length spare members => exact ⟨length, rfl⟩
  | present member => exact regular
  | inserted sameLength sameSpare grows members =>
      rcases regular with ⟨length, counted⟩
      refine ⟨sameLength.trans length, ?_⟩
      rw [grows, counted]

theorem Regular.toIdSet (regular : holding.Regular bound limit)
    (within : bound ≤ DocumentId.count) : (holding.toIdSet limit).WellFormed := by
  cases holding with
  | row ids ascending =>
      rcases regular with ⟨_, _, _, ordered⟩
      rw [Holding.toIdSet]
      split
      · trivial
      · split
        · next flag => exact ordered flag
        · exact Ascending.normalize_ascending _
  | packed bitmap count =>
      rcases regular with ⟨length, counted⟩
      have inside : ∀ position ∈ bitmap, position < DocumentId.count := by
        intro position member
        have := Bitmap.lt_length_of_mem member
        omega
      rw [Holding.toIdSet]
      split
      · exact IdSet.ofMembers_wellFormed inside
      · exact ⟨inside, counted⟩

end Holding

/-! ## What every call keeps -/

structure Sound (bound limit : Nat) (accumulator : Accumulator) : Prop where
  within : bound ≤ DocumentId.count
  bounded : accumulator.bound = bound
  limited : accumulator.limit = limit
  inside : accumulator.base.toNat + accumulator.segmentSize ≤ bound
  regular : accumulator.holding.Regular bound limit

namespace Sound

variable {bound limit : Nat} {accumulator : Accumulator}
  (sound : accumulator.Sound bound limit)

include sound

theorem number {id : DocumentId} (member : id.toNat < accumulator.segmentSize) :
    accumulator.base.toNat + id.toNat < bound ∧
      (accumulator.base + id).toNat = accumulator.base.toNat + id.toNat := by
  rcases sound with ⟨within, rfl, _, inside, _⟩
  exact ⟨by omega, toNat_base_add within inside member⟩

theorem accept (whole : accumulator.failure = none) {id : DocumentId}
    (member : id.toNat < accumulator.segmentSize) :
    ∃ holding, holding.Regular bound limit ∧
      Sink.receive accumulator (.accept id) = ({ accumulator with holding }, none) := by
  rcases sound.number member with ⟨below, number⟩
  rcases sound with ⟨within, rfl, rfl, inside, regular⟩
  rcases receive_accept_inside within inside member whole regular.within with
    ⟨holding, adds, received⟩
  exact ⟨holding, adds.regular regular (number ▸ below), received⟩

/-- A call keeps what is sound. If it is refused, it is for what was asked and not for what was
made of it. -/
theorem receive (call : Call) :
    (Sink.receive accumulator call).1.Sound bound limit ∧
      ∀ error, (Sink.receive accumulator call).2 = some error →
        error = .alreadyFailed ∨ ∃ cause, error = .rejected cause := by
  cases call with
  | enter segment =>
      by_cases fits : segment.stop ≤ accumulator.bound
      · rw [receive_enter fits]
        rw [sound.bounded] at fits
        exact ⟨{ sound with inside := fits }, nofun⟩
      · rw [receive_enter_beyond (Nat.lt_of_not_le fits)]
        exact ⟨{ sound with }, fun error refused => .inr ⟨_, (Option.some.inj refused).symm⟩⟩
  | accept id =>
      cases whole : accumulator.failure with
      | some failure =>
          rw [receive_accept_failed (by rw [whole]; rfl)]
          exact ⟨sound, fun error refused => .inl (Option.some.inj refused).symm⟩
      | none =>
          by_cases member : id.toNat < accumulator.segmentSize
          · rcases sound.accept whole member with ⟨holding, regular, received⟩
            rw [received]
            exact ⟨{ sound with regular }, nofun⟩
          · rw [receive_accept_outside whole (Nat.le_of_not_lt member)]
            exact ⟨{ sound with }, fun error refused =>
              .inr ⟨_, (Option.some.inj refused).symm⟩⟩
  | abort reason => exact ⟨{ sound with }, nofun⟩

theorem after (calls : List Call) : (Sink.after accumulator calls).Sound bound limit := by
  induction calls generalizing accumulator with
  | nil => exact sound
  | cons call rest induction => exact induction (sound.receive call).1

theorem finish_wellFormed {set : IdSet} (finished : accumulator.finish = .ok set) :
    set.WellFormed := by
  rw [finish] at finished
  split at finished
  · cases finished
  · cases finished
  · cases finished
    rw [sound.limited]
    exact sound.regular.toIdSet sound.within

end Sound

theorem start_sound {bound : Nat} (within : bound ≤ DocumentId.count) (policy : Policy) :
    ∃ blank, start bound policy = .ok blank ∧ blank.Sound bound (policy.sparseLimit bound) := by
  have regular : (Holding.row #[] true).Regular bound (policy.sparseLimit bound) :=
    ⟨Nat.zero_le _, by simp, .nil, fun _ => .nil⟩
  exact ⟨_, if_neg (Nat.not_lt_of_le within),
    { within, bounded := rfl, limited := rfl, inside := Nat.zero_le bound, regular }⟩

/-- An accumulator is sound after any calls, whichever of them it refused. Unless it has failed,
the number of a document of its current segment is found without overflow, is below the bound
and can be held. A call that is refused has asked for something that cannot be had, so no bit
beyond a bitmap is ever set. The sets that are made have their ids in ascending order and know
how many there are. -/
theorem sound_after {bound : Nat} (within : bound ≤ DocumentId.count) (policy : Policy) :
    ∃ blank, start bound policy = .ok blank ∧
      ∀ calls current, Sink.after blank calls = current →
        current.Sound bound (policy.sparseLimit bound) ∧
        (∀ id, current.failure = none → id.toNat < current.segmentSize →
          current.base.toNat + id.toNat < bound ∧
          (current.base + id).toNat = current.base.toNat + id.toNat ∧
          ∃ holding, Sink.receive current (.accept id) = ({ current with holding }, none)) ∧
        (∀ call error, (Sink.receive current call).2 = some error →
          error = .alreadyFailed ∨ ∃ cause, error = .rejected cause) ∧
        (current.holding.toIdSet (policy.sparseLimit bound)).WellFormed ∧
        ∀ set, current.finish = .ok set → set.WellFormed := by
  rcases start_sound within policy with ⟨blank, started, blankSound⟩
  refine ⟨blank, started, fun calls current reached => ?_⟩
  have sound : current.Sound bound (policy.sparseLimit bound) := reached ▸ blankSound.after calls
  refine ⟨sound, fun id whole member => ?_, fun call => (sound.receive call).2,
    sound.regular.toIdSet within, fun set => sound.finish_wellFormed⟩
  rcases sound.number member with ⟨below, number⟩
  rcases sound.accept whole member with ⟨holding, _, received⟩
  exact ⟨below, number, holding, received⟩

theorem sound_after_last :
    ∃ blank, start DocumentId.count {} = .ok blank ∧
      ∃ current, Sink.after blank [.enter { base := 0xFFFFFFF6, size := 10 }] = current ∧
        (current.base + 9).toNat = 0xFFFFFFFF ∧
        ∃ holding, Sink.receive current (.accept 9) = ({ current with holding }, none) := by
  rcases sound_after (Nat.le_refl DocumentId.count) {} with ⟨blank, started, all⟩
  cases started
  rcases all [.enter { base := 0xFFFFFFF6, size := 10 }] _ rfl with ⟨_, accepts, _⟩
  rcases accepts 9 rfl (by decide) with ⟨_, number, received⟩
  exact ⟨_, rfl, _, rfl, number, received⟩

end ResultSets.Accumulator
