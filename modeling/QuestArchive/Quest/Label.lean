import QuestArchive.Script.Literal
import QuestArchive.Text.Blank

/-!
The labels that an object's properties hold.  A property is a number as a rule; a text
may spell an integer, with blanks around it, a sign in front and low lines between its
digits.
-/

namespace QuestArchive

/-- A blank that may stand around an integer; the information separators may not. -/
def Rune.isMargin (r : Rune) : Bool := r.isBlank && !(0x1C ≤ r.code && r.code ≤ 0x1F)

def Rune.isDigitPart (r : Rune) : Bool := r.isDigit || r = .char '_'

namespace Literal

/-- The values of digits, with at most one low line between two of them. -/
def groupedDigits? : Text → Option (List Nat)
  | [] => none
  | [r] => r.digit?.map fun d => [d]
  | r :: .char '_' :: rest => do return (← r.digit?) :: (← groupedDigits? rest)
  | r :: s :: rest => do return (← r.digit?) :: (← groupedDigits? (s :: rest))

def integer (t : Text) : Except Fault Int :=
  let body := t.dropWhile Rune.isMargin
  let (negative, body) :=
    match body with
    | .char '+' :: rest => (false, rest)
    | _ => sign body
  match groupedDigits? (body.takeWhile Rune.isDigitPart) with
  | none => .error (.badInteger t)
  | some digits => do
    let n ← natural digits
    if ((body.dropWhile Rune.isDigitPart).dropWhile Rune.isMargin).isEmpty then
      return signed negative n
    else throw (.badInteger t)

end Literal

def Value.label : Value → Except Fault Int
  | int n => .ok n
  | float x =>
    if x.isNaN then .error .nanInteger
    else if x.isInfinite then .error .infiniteInteger
    else .ok x.truncate
  | text t => Literal.integer t
  | list _ | register _ => .error .wrongKind

end QuestArchive
