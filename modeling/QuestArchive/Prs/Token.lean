import QuestArchive.Fault

/-!
Tokens of a PRS stream and what they stand for.

A token is a literal byte or a copy of earlier output.  A copy may reach into its
own output, so it is defined byte by byte.  `expand` is the meaning of a token
list, and is what compression and decompression are measured against.
-/

namespace QuestArchive
namespace Prs

/-- A token.  Both copies repeat `length` bytes from `distance` bytes back; they
differ in how they are stored. -/
inductive Token where
  | literal (b : UInt8)
  | short (distance length : Nat)
  | long (distance length : Nat)
  deriving DecidableEq, Repr

def maxShortDistance : Nat := 256

def maxShortLength : Nat := 5

/-- The greatest distance that compression uses.  One more, with an extended length,
would be stored as the end marker. -/
def maxDistance : Nat := 8191

def maxLength : Nat := 256

def minMatch : Nat := 3

def copy (out : Array UInt8) (distance : Nat) : Nat → Array UInt8
  | 0 => out
  | length + 1 =>
    copy (out.push (out.getD (out.size - distance) 0)) distance length

/-- Appends what a token stands for.  A copy cannot start before the output does. -/
def Token.extend (out : Array UInt8) : Token → Except Fault (Array UInt8)
  | literal b => .ok (out.push b)
  | short distance length | long distance length =>
    if distance ≤ out.size then .ok (copy out distance length)
    else .error (.copyBeforeStart distance out.size)

def expand (out : Array UInt8) (tokens : List Token) : Except Fault (Array UInt8) :=
  tokens.foldlM Token.extend out

end Prs
end QuestArchive
