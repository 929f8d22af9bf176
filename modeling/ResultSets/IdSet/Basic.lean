import ResultSets.Bitmap.Scan
import ResultSets.IdSet.Ascending

namespace ResultSets

/-! A set of document ids, in the form that suits its density: an ascending row of
ids for sparse sets, a bitmap over the whole index for dense ones, and nothing at
all for the empty set. Sparse and dense forms may have no members too. Sets with
the same members are equal in every form. -/

inductive IdSet where
  | empty
  | sparse (ids : Array DocumentId)
  /-- A bitmap and the number of its members. -/
  | dense (bitmap : Bitmap) (size : Nat)

def Bitmap.ids (bitmap : Bitmap) : List DocumentId :=
  bitmap.toList.map UInt32.ofNat

namespace IdSet

/-! ## Building -/

def ofAscending (ids : Array DocumentId) : IdSet :=
  if ids.isEmpty then .empty else .sparse ids

/-- The first `count` ids of a buffer, which must hold as many. -/
def ofBuffer (buffer : Array DocumentId) (count : Nat) : Except Error IdSet :=
  if count ≤ buffer.size then .ok (.sparse (buffer.take count))
  else .error (.bufferTooShort buffer.size count)

/-- The members of a bitmap, in the empty form if there are none. -/
def ofBitmap (bitmap : Bitmap) : IdSet :=
  if bitmap.card = 0 then .empty else .dense bitmap bitmap.card

/-- The members of a bitmap as a row, even if there are none. -/
def ofMembers (bitmap : Bitmap) : IdSet := .sparse bitmap.ids.toArray

/-- The same members and form, with no storage to spare. -/
def copy : IdSet → IdSet
  | .dense bitmap size => .dense bitmap.copy size
  | set => set

/-! ## Reading -/

def size : IdSet → Nat
  | .empty => 0
  | .sparse ids => ids.size
  | .dense _ size => size

def isEmpty (set : IdSet) : Bool := set.size == 0

def contains : IdSet → DocumentId → Bool
  | .empty, _ => false
  | .sparse ids, id => Ascending.contains ids id
  | .dense bitmap _, id => bitmap.contains id.toNat

instance : Membership DocumentId IdSet where
  mem set id := set.contains id = true

instance (id : DocumentId) (set : IdSet) : Decidable (id ∈ set) :=
  inferInstanceAs (Decidable (set.contains id = true))

/-- The bytes of storage held: four for an id, none for the empty form. -/
def memory : IdSet → Nat
  | .empty => 0
  | .sparse ids => 4 * ids.size
  | .dense bitmap _ => bitmap.memory

/-- The least length of a bitmap that can hold the members, or the length of the
bitmap that does. -/
def bound : IdSet → Nat
  | .empty => 0
  | .sparse ids => (ids.back?.map (·.toNat + 1)).getD 0
  | .dense bitmap _ => bitmap.length

/-! ## Walking over the members -/

/-- A walk over the members in ascending order. -/
inductive Cursor where
  | ended
  | ids (rest : List DocumentId)
  | bits (cursor : Bitmap.Cursor)

namespace Cursor

def next : Cursor → Option DocumentId × Cursor
  | .ended => (none, .ended)
  | .ids [] => (none, .ids [])
  | .ids (id :: rest) => (some id, .ids rest)
  | .bits cursor =>
      let step := cursor.next
      (step.1.map UInt32.ofNat, .bits step.2)

def toList : Cursor → List DocumentId
  | .ended => []
  | .ids rest => rest
  | .bits cursor => cursor.toList.map UInt32.ofNat

/-- The first `count` members to come and the walk beyond them. -/
def take : (count : Nat) → Cursor → List DocumentId × Cursor
  | 0, cursor => ([], cursor)
  | count + 1, cursor =>
      match cursor.next with
      | (none, rest) => ([], rest)
      | (some id, rest) =>
          let taken := rest.take count
          (id :: taken.1, taken.2)

end Cursor

def cursor : IdSet → Cursor
  | .empty => .ended
  | .sparse ids => .ids ids.toList
  | .dense bitmap _ => .bits bitmap.cursor

def toList (set : IdSet) : List DocumentId := set.cursor.toList

instance : BEq IdSet where
  beq left right := left.toList == right.toList

/-! ## What callers promise -/

/-- A sparse form ascends. A dense form has no member beyond the ids there are, and
knows how many it has. -/
def WellFormed : IdSet → Prop
  | .empty => True
  | .sparse ids => Ascending ids.toList
  | .dense bitmap size =>
      (∀ position, position ∈ bitmap → position < DocumentId.count) ∧ size = bitmap.card

end IdSet

end ResultSets
