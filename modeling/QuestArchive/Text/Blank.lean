import QuestArchive.Text.Rune

/-!
Blanks: the white space that separates tokens and is trimmed from lines.  The set
is Unicode white space together with the four information separators.
-/

namespace QuestArchive

def blankRanges : List (Nat × Nat) :=
  [(0x09, 0x0D), (0x1C, 0x20), (0x85, 0x85), (0xA0, 0xA0), (0x1680, 0x1680),
   (0x2000, 0x200A), (0x2028, 0x2029), (0x202F, 0x202F), (0x205F, 0x205F),
   (0x3000, 0x3000)]

namespace Rune

def isBlank (r : Rune) : Bool :=
  blankRanges.any fun range => range.1 ≤ r.code && r.code ≤ range.2

/-- Every character that core calls white space is blank. -/
theorem isBlank_of_isWhitespace (c : Char) (h : c.isWhitespace = true) :
    (char c).isBlank = true := by
  simp [Char.isWhitespace] at h
  rcases h with ((h | h) | h) | h <;> subst h <;> decide

end Rune

namespace Text

def trimLeft (t : Text) : Text := t.dropWhile Rune.isBlank

def trimRight (t : Text) : Text := (t.reverse.dropWhile Rune.isBlank).reverse

def trim (t : Text) : Text := trimRight (trimLeft t)

/-- The maximal runs of runes that are not blank, with `word` the run being
read, reversed. -/
def wordsFrom (word : Text) : Text → List Text
  | [] => if word.isEmpty then [] else [word.reverse]
  | r :: t =>
    if r.isBlank then
      if word.isEmpty then wordsFrom [] t else word.reverse :: wordsFrom [] t
    else wordsFrom (r :: word) t

def words (t : Text) : List Text := wordsFrom [] t

end Text
end QuestArchive
