import ResultSets.IdSet.Basic

namespace ResultSets.IdSet

/-! Intersection, union and difference of sets in any forms. A result without
members takes the empty form. -/

/-- The members of both sets. A sparse operand is filtered through the other. -/
def inter : IdSet → IdSet → IdSet
  | .empty, _ => .empty
  | _, .empty => .empty
  | .dense left _, .dense right _ => ofBitmap (left.copy.inter right)
  | .sparse ids, other => ofAscending (ids.filter other.contains)
  | set, .sparse ids => ofAscending (ids.filter set.contains)

def interSize : IdSet → IdSet → Nat
  | .empty, _ => 0
  | _, .empty => 0
  | .dense left _, .dense right _ => left.interCard right
  | .sparse ids, other => (ids.filter other.contains).size
  | set, .sparse ids => (ids.filter set.contains).size

/-- Set all members in a bitmap that is long enough. -/
def addTo : IdSet → Bitmap → Except Error Bitmap
  | .dense bitmap _, target => .ok (target.union bitmap)
  | set, target => set.toList.foldlM (fun target id => target.insert id.toNat) target

/-- The members of either set. Two sparse sets are merged; otherwise the result is
a bitmap long enough for both. -/
def union : IdSet → IdSet → Except Error IdSet
  | .empty, other => .ok other.copy
  | set, .empty => .ok set.copy
  | .sparse left, .sparse right =>
      .ok (ofAscending (Ascending.merge left.toList right.toList).toArray)
  | left, right => do
      let withLeft ← left.addTo (Bitmap.blank (max left.bound right.bound))
      let withBoth ← right.addTo withLeft
      return ofBitmap withBoth

def diff : IdSet → IdSet → IdSet
  | .empty, _ => .empty
  | set, .empty => set.copy
  | .sparse ids, other => ofAscending (ids.filter fun id => !other.contains id)
  | .dense left _, .dense right _ => ofBitmap (left.copy.diff right)
  | .dense bitmap _, .sparse ids =>
      ofBitmap (ids.foldl (fun rest id => rest.erase id.toNat) bitmap.copy)

end ResultSets.IdSet
