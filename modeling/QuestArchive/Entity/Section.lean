import QuestArchive.Bytes.Progress

/-!
The sections of an entity table.

A section is a header of four words (kind, total size, area, size of the body) and a
body.  A zero word in place of a header ends the table, and so does the end of the
data.
-/

namespace QuestArchive
namespace Entity

def sectionHeaderSize : Nat := 16

structure Section where
  kind : Nat
  area : Nat
  body : Bytes
  deriving DecidableEq, Repr

namespace Section

/-- Reads a section, or the end mark as none. -/
def read : Read (Option Section) := do
  let kind ← Read.u32
  if kind = 0 then return none
  else
    let total ← Read.u32
    let area ← Read.u32
    let size ← Read.u32
    if (size : Int) = total - sectionHeaderSize then
      return some { kind, area, body := (← Read.slice size).view }
    else throw (.sectionSizes (total - sectionHeaderSize) size)

theorem moves_read : Read.Moves 4 read := by
  refine Read.moves_u32.bind (n := 0) fun kind => ?_
  split
  · exact Read.Moves.pure _
  · refine (Read.moves_u32.mono (Nat.zero_le 4)).bind (m := 0) (n := 0) fun total => ?_
    refine (Read.moves_u32.mono (Nat.zero_le 4)).bind (m := 0) (n := 0) fun area => ?_
    refine (Read.moves_u32.mono (Nat.zero_le 4)).bind (m := 0) (n := 0) fun size => ?_
    split
    · exact (Read.moves_slice _).bind (m := 0) (n := 0) fun _ => Read.Moves.pure _
    · exact Read.Moves.throw _

def readAll (c : Cursor) (found : Array Section) : Except Fault (List Section) :=
  if c.remaining = 0 then .ok found.toList
  else
    match _h : read c with
    | .error e _ => .error e
    | .ok none _ => .ok found.toList
    | .ok (some s) c' => readAll c' (found.push s)
termination_by c.remaining.toNat
decreasing_by exact moves_read.remaining_lt (by decide) _h

end Section
end Entity
end QuestArchive
