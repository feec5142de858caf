import QuestArchive.Prs.Stream
import Std.Data.HashMap

/-!
Compression: the search for repeats, and the stored form of the tokens that it chooses.

Positions are indexed by the three bytes that start there, newest first.  Only the
newest candidates are ever looked at, so older ones are dropped from time to time; a
position can be dropped only when enough newer ones with the same bytes stand before
it.
-/

namespace QuestArchive
namespace Prs

def maxCandidates : Nat := 64

/-- The positions at which each three bytes start, newest first. -/
abbrev Index := Std.HashMap (List UInt8) (List Nat)

def key? (data : Array UInt8) (pos : Nat) : Option (List UInt8) :=
  if h : pos + 2 < data.size then
    some [data[pos], data[pos + 1], data[pos + 2]]
  else none

/-- The number of bytes, from `length` up to a limit, for which the data at two
positions agrees. -/
def runLength (data : Array UInt8) (i j limit length : Nat) : Nat :=
  if length < limit ∧ data.getD (i + length) 0 = data.getD (j + length) 0 then
    runLength data i j limit (length + 1)
  else length
termination_by limit - length

/-- The best repeat among candidates, newest first, that is longer than the best so
far.  The scan ends at a candidate out of reach, and at a repeat of full length. -/
def scan (data : Array UInt8) (pos limit : Nat) (best : Nat × Nat) : List Nat → Nat × Nat
  | [] => best
  | candidate :: rest =>
    let distance := pos - candidate
    if maxDistance < distance then best
    else
      let length := runLength data candidate pos limit minMatch
      if best.1 < length then
        if length = limit then (length, distance)
        else scan data pos limit (length, distance) rest
      else scan data pos limit best rest

/-- The length and distance of the longest repeat at a position, the nearest of
equally long ones; zeros if there is none. -/
def findMatch (data : Array UInt8) (index : Index) (pos : Nat) : Nat × Nat :=
  match key? data pos with
  | none => (0, 0)
  | some k =>
    scan data pos (min maxLength (data.size - pos)) (0, 0)
      ((index.getD k []).take maxCandidates)

/-- Adds a position to the index.  A list that has grown past twice the number of
candidates loses its oldest ones. -/
def record (data : Array UInt8) (index : Index) (pos : Nat) : Index :=
  match key? data pos with
  | none => index
  | some k =>
    let positions := pos :: index.getD k []
    index.insert k
      (if 2 * maxCandidates < positions.length then
        positions.take (positions.length - maxCandidates)
      else positions)

def recordRun (data : Array UInt8) (index : Index) (pos : Nat) : Nat → Index
  | 0 => index
  | count + 1 => recordRun data (record data index pos) (pos + 1) count

def chooseToken (data : Array UInt8) (pos length distance : Nat) : Token :=
  if length < minMatch then .literal (data.getD pos 0)
  else if distance ≤ maxShortDistance ∧ length ≤ maxShortLength then .short distance length
  else .long distance length

/-- The tokens from a position on, after those chosen already: at each place the
longest repeat, or a literal. -/
def tokensFrom (data : Array UInt8) (index : Index) (pos : Nat) (tokens : Array Token) :
    Array Token :=
  if pos < data.size then
    let found := findMatch data index pos
    let length := max 1 (if found.1 < minMatch then 1 else found.1)
    tokensFrom data (recordRun data index pos length) (pos + length)
      (tokens.push (chooseToken data pos found.1 found.2))
  else tokens
termination_by data.size - pos

def tokens (data : Bytes) : List Token := (tokensFrom data.toArray ∅ 0 #[]).toList

def compress (data : Bytes) : Bytes := encode (tokens data)

end Prs
end QuestArchive
