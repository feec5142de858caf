import QuestArchive.Text.Rune

/-!
Text files as lines.  Reading a text file folds every line end into a line feed;
splitting the result also ends a line at the other separators that a script may
hold, a vertical tab or a paragraph separator among them.
-/

namespace QuestArchive
namespace Text

/-- A carriage return, alone or before a line feed, becomes a line feed. -/
def foldLineEnds : List Char → List Char
  | [] => []
  | '\r' :: '\n' :: t => '\n' :: foldLineEnds t
  | '\r' :: t => '\n' :: foldLineEnds t
  | c :: t => c :: foldLineEnds t

def isLineEnd (c : Char) : Bool :=
  c = '\n' || c = '\r' || c = '\x0b' || c = '\x0c' || c = '\x1c' || c = '\x1d' ||
    c = '\x1e' || c = '\u0085' || c = '\u2028' || c = '\u2029'

/-- The lines of a text without their ends, with `line` the one being read,
reversed.  A text that ends in a line end has no empty line after it. -/
def linesFrom (line : List Char) : List Char → List (List Char)
  | [] => if line.isEmpty then [] else [line.reverse]
  | '\r' :: '\n' :: t => line.reverse :: linesFrom [] t
  | c :: t =>
    if isLineEnd c then line.reverse :: linesFrom [] t else linesFrom (c :: line) t

def lines (t : List Char) : List (List Char) := linesFrom [] t

end Text
end QuestArchive
