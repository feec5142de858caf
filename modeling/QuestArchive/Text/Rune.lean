/-!
Text as the formats hold it.

A quoted literal in a script source can spell a surrogate code point that has no
partner.  Such a text exists (it can be scanned, joined and printed) but has no
encoding, so a text is a list of runes and not a `String`: the failure belongs to
the encoder and not to the text.
-/

namespace QuestArchive

/-- One code point of a text: a character, or the surrogate `0xD800 + n`
standing alone. -/
inductive Rune where
  | char (c : Char)
  | surrogate (n : Fin 2048)
  deriving DecidableEq, Repr

abbrev Text := List Rune

namespace Rune

def code : Rune → Nat
  | char c => c.toNat
  | surrogate n => 0xD800 + n.val

/-- What a decoder puts where the units spell no character. -/
def replacement : Rune := char '\uFFFD'

def ofUnit (u : Nat) : Rune :=
  if h : 0xD800 ≤ u ∧ u < 0xE000 then surrogate ⟨u - 0xD800, by omega⟩
  else char (Char.ofNat u)

def join (high low : Nat) : Rune :=
  char (Char.ofNat (0x10000 + (high - 0xD800) * 0x400 + (low - 0xDC00)))

def toChar : Rune → Char
  | char c => c
  | surrogate _ => '\uFFFD'

/-- Lower case, as far as it can turn a rune into an ASCII letter: the ASCII
capitals and the Kelvin sign. -/
def lower : Rune → Rune
  | char c => if c = '\u212A' then char 'k' else char c.toLower
  | surrogate n => surrogate n

end Rune

namespace Text

def isHighUnit (u : Nat) : Bool := 0xD800 ≤ u && u < 0xDC00

def isLowUnit (u : Nat) : Bool := 0xDC00 ≤ u && u < 0xE000

def ofString (s : String) : Text := s.toList.map .char

/-- The text as a `String`, with a replacement character for each lone
surrogate. -/
def toString (t : Text) : String := String.ofList (t.map Rune.toChar)

def lower (t : Text) : Text := t.map Rune.lower

def join (separator : Text) : List Text → Text
  | [] => []
  | [t] => t
  | t :: u :: rest => t ++ separator ++ join separator (u :: rest)

theorem toString_ofString (s : String) : toString (ofString s) = s := by
  simp [toString, ofString, Function.comp_def, Rune.toChar]

end Text
end QuestArchive
