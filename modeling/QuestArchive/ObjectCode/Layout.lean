import QuestArchive.ObjectCode.Codec

/-!
The stored form of a script: the segments one after the other, and a table that gives
the offset of each label.

The table has an entry for every number up to the largest label, -1 for a number that
names no segment.  A label below zero counts from the table's end.
-/

namespace QuestArchive
namespace ObjectCode

structure Stored where
  code : Bytes
  offsets : List Int
  deriving DecidableEq, Repr

/-- The bytes of a segment.  A text ends in a null unit and is padded. -/
def writeSegment : Segment → Except Fault Bytes
  | .code _ instructions => do return (← instructions.mapM writeInstruction).flatten
  | .data _ bytes => .ok bytes
  | .text _ value => do
    let units ← Field.textBytes value
    return units ++ Field.zeros (Segment.textExtent value - units.length : Int)

/-- The labels of some segments with their offsets, the last one first, and the size
of the segments. -/
structure Placement where
  labels : List (Int × Int) := []
  size : Int := 0
  deriving DecidableEq, Repr

namespace Placement

def addLabel (p : Placement) (label : Int) : Except Fault Placement :=
  if p.labels.any (·.1 = label) then .error (.duplicateLabel label)
  else .ok { p with labels := (label, p.size) :: p.labels }

def addSegment (p : Placement) (s : Segment) : Except Fault Placement := do
  let p ← s.labels.foldlM addLabel p
  return { p with size := p.size + (← s.size) }

def ofSegments (segments : List Segment) : Except Fault Placement :=
  segments.foldlM addSegment {}

def setOffset (table : Array Int) (entry : Int × Int) : Except Fault (Array Int) :=
  let i := if entry.1 < 0 then entry.1 + table.size else entry.1
  if i < 0 ∨ table.size ≤ i then .error (.labelOutside entry.1)
  else .ok (table.setIfInBounds i.toNat entry.2)

/-- The label table.  Of two labels that mean the same entry the later one counts. -/
def table (p : Placement) : Except Fault (List Int) := do
  let count := (p.labels.map (·.1 + 1)).foldl max 0
  let table ← p.labels.reverse.foldlM setOffset (Array.replicate count.toNat (-1))
  return table.toList

end Placement

/-- The stored form of a script.  Every segment has to take the bytes that its size
says. -/
def write (segments : List Segment) : Except Fault Stored := do
  let placement ← Placement.ofSegments segments
  let code := (← segments.mapM writeSegment).flatten
  if (code.length : Int) ≠ placement.size then
    throw (.writtenSize placement.size code.length)
  return { code, offsets := ← placement.table }

end ObjectCode
end QuestArchive
