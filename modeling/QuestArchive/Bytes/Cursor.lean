import QuestArchive.Bytes.Word

/-!
A cursor over a window of bytes.

A cursor can be moved, or placed, before the start of its data; positions there count
from the end of the data, and the data can then run out before the window does.
-/

namespace QuestArchive

structure Cursor where
  data : Array UInt8
  start : Int
  stop : Int
  pos : Int
  deriving DecidableEq

namespace Cursor

def whole (data : Array UInt8) : Cursor := ⟨data, 0, data.size, 0⟩

def window (data : Array UInt8) (start stop : Int) : Cursor := ⟨data, start, stop, start⟩

/-- Position relative to the start of the window. -/
def position (c : Cursor) : Int := c.pos - c.start

def size (c : Cursor) : Int := c.stop - c.start

def remaining (c : Cursor) : Int := c.stop - c.pos

/-- The place in the data that a position means: a negative one counts from the
end, and every one is brought into bounds. -/
def clamp (size : Nat) (i : Int) : Nat :=
  if i < 0 then (i + size).toNat else min i.toNat size

def span (data : Array UInt8) (i j : Int) : Bytes :=
  (data.extract (clamp data.size i) (clamp data.size j)).toList

/-- The byte at a position, a negative one counting from the end. -/
def byteAt? (data : Array UInt8) (i : Int) : Option UInt8 :=
  if i < 0 then
    if i + data.size < 0 then none else data[(i + data.size).toNat]?
  else data[i.toNat]?

/-- The bytes between the cursor and the end of its window. -/
def view (c : Cursor) : Bytes := span c.data c.pos c.stop

theorem clamp_of_le {size : Nat} {i : Int} (h0 : 0 ≤ i) (h : i ≤ size) :
    clamp size i = i.toNat := by
  unfold clamp
  split <;> omega

theorem span_of_le {data : Array UInt8} {i j : Int} (hi : 0 ≤ i) (hij : i ≤ j)
    (hj : j ≤ data.size) :
    span data i j = (data.toList.take j.toNat).drop i.toNat := by
  rw [span, clamp_of_le hi (by omega), clamp_of_le (by omega) hj]
  simp [List.drop_take]

end Cursor

end QuestArchive
