import QuestArchive.Text.Blank

/-!
Where a source line is cut: at the mark that starts a comment and at the commas between
arguments, both only outside quoted literals.

A scan that meets a backslash inside a literal takes the next rune as it is, whatever
the literal goes on to mean.
-/

namespace QuestArchive
namespace Script

inductive Quoting where
  | outside
  | inside
  /-- Inside a literal and behind a backslash. -/
  | escaped
  deriving DecidableEq, Repr

def Quoting.next : Quoting → Rune → Quoting
  | outside, r => if r = .char '"' then inside else outside
  | inside, r =>
    if r = .char '\\' then escaped else if r = .char '"' then outside else inside
  | escaped, _ => inside

/-- The part of a line before its comment, which starts with two slashes. -/
def beforeComment (q : Quoting) : Text → Text
  | [] => []
  | r :: rest =>
    if q = .outside ∧ r = .char '/' ∧ rest.head? = some (.char '/') then []
    else r :: beforeComment (q.next r) rest

def stripComment (line : Text) : Text := beforeComment .outside line

/-- Cuts a text at its commas; there is one more part than there are commas. -/
def commaParts (q : Quoting) : Text → List Text
  | [] => [[]]
  | r :: rest =>
    if q = .outside ∧ r = .char ',' then [] :: commaParts q rest
    else
      match commaParts (q.next r) rest with
      | [] => [[r]]
      | part :: parts => (r :: part) :: parts

/-- The arguments of a line, trimmed.  A blank text has none. -/
def splitArgs (t : Text) : List Text :=
  let parts := (commaParts .outside t).map Text.trim
  if parts = [[]] then [] else parts

end Script
end QuestArchive
