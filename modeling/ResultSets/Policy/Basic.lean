import ResultSets.Error

namespace ResultSets

/-! The policy that decides between sparse and dense sets. A set with at most
`sparseLimit` members is worth a row of ids, a larger one a bitmap over the whole
index. The limit grows with the index: a fixed fraction of its bound, a power of
two, plus a constant. -/

structure Policy where
  /-- The limit grows by one for every `2 ^ shift` documents. -/
  shift : UInt32 := 6
  /-- The limit for an index without documents. -/
  slack : UInt64 := 5
  /-- Whether a bitmap that turns out sparse is given up for a row of ids. -/
  shrink : Bool := true
  deriving DecidableEq, Repr

namespace Policy

/-- The most members of a sparse set over an index with the given bound. Limits stay
within 64 bits. -/
def sparseLimit (policy : Policy) (bound : Nat) : Nat :=
  min (bound >>> policy.shift.toNat + policy.slack.toNat) (UInt64.size - 1)

example : sparseLimit {} 1000 = 20 := by decide
example : sparseLimit { shift := 11, slack := 0 } 4096 = 2 := by decide

/-- A policy can be used when its shift is one of a 64-bit number. -/
def validate (policy : Policy) : Except Error Unit :=
  if policy.shift.toNat < 64 then .ok ()
  else .error (.shiftTooLarge policy.shift.toNat)

end Policy

end ResultSets
