import QuestArchive.Number.Numeral
import QuestArchive.Text.Shown

/-!
Values: what an argument of an instruction, a source or a property of an object can hold.

A value need not suit its place.  An integer and a number of double precision that are
equal count as one value where values are looked up or put in order.
-/

namespace QuestArchive

inductive Value where
  | int (n : Int)
  | float (x : Double)
  | text (t : Text)
  | list (ns : List Int)
  /-- A register, as a rule by an integer. -/
  | register (number : Value)
  deriving DecidableEq, Repr

namespace Value

/-- Integers between round brackets; a comma stands behind a single one. -/
def bracketed : List Int → String
  | [n] => "(" ++ Numeral.decimalText n ++ ",)"
  | ns => "(" ++ ", ".intercalate (ns.map Numeral.decimalText) ++ ")"

def shown : Value → Text
  | int n => (Numeral.decimal n).map .char
  | float x => x.render.map .char
  | text t => t.shown
  | list ns => .ofString (bracketed ns)
  | register number => .ofString "Register(number=" ++ shown number ++ .ofString ")"

def plain : Value → Text
  | text t => t
  | value => value.shown

/-- The parts of a list; a text is the list of its runes. -/
def items? : Value → Option (List Value)
  | list ns => some (ns.map int)
  | text t => some (t.map fun r => text [r])
  | _ => none

def integers? : Value → Option (List Int)
  | list ns => some ns
  | text [] => some []
  | _ => none

/-- Whether two values are equal, numbers by what they are and not by their kind.  A NaN
equals nothing. -/
def equals : Value → Value → Bool
  | int a, int b => a = b
  | float x, float y => !x.isNaN && !y.isNaN && !x.lt y && !y.lt x
  | int a, float x | float x, int a => x.compareInt? a = some .eq
  | text t, text u => t = u
  | list ns, list ms => ns = ms
  | register a, register b => equals a b
  | _, _ => false

def precedes : Value → Value → Bool
  | int a, int b => a < b
  | float x, float y => x.lt y
  | int a, float x => x.compareInt? a = some .gt
  | float x, int a => x.compareInt? a = some .lt
  | _, _ => false

def isNumber : Value → Bool
  | int _ | float _ => true
  | _ => false

def isInByteRange (value : Value) : Bool :=
  (value.equals (int 0) || (int 0).precedes value) &&
    (value.equals (int 255) || value.precedes (int 255))

theorem isInByteRange_int (n : Int) : (int n).isInByteRange = decide (0 ≤ n ∧ n ≤ 255) := by
  have low : (int n).equals (int 0) || (int 0).precedes (int n) ↔ 0 ≤ n := by
    simp only [equals, precedes, Bool.or_eq_true, decide_eq_true_eq]
    omega
  have high : (int n).equals (int 255) || (int n).precedes (int 255) ↔ n ≤ 255 := by
    simp only [equals, precedes, Bool.or_eq_true, decide_eq_true_eq]
    omega
  rw [Bool.eq_iff_iff, isInByteRange, Bool.and_eq_true, low, high, decide_eq_true_eq]

end Value
end QuestArchive
