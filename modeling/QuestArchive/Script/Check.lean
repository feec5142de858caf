import QuestArchive.Script.Instruction

/-!
Which values a parameter takes.  A register can stand for an argument of any kind where
arguments are passed on the stack.
-/

namespace QuestArchive
namespace Value

def maxDigits : Nat := 4300

/-- The error for an integer outside the range of a parameter, as far as it has a
decimal form. -/
def rangeFault (n : Int) (param : ParamKind) : Fault :=
  if pow10 maxDigits ≤ n.natAbs then .numeralLength none else .source (.valueRange n param)

def checkInt (param : ParamKind) (n : Int) : Except Fault Unit :=
  match param.range? with
  | some (low, high) =>
    if low ≤ n ∧ n ≤ high then .ok () else .error (rangeFault n param)
  | none => .error (.listParameter param)

def checkRegister (number : Value) : Except Fault Unit :=
  if !number.isNumber then .error .wrongKind
  else if number.isInByteRange then .ok ()
  else .error (.source (.registerRange number))

def check (param : ParamKind) (value : Value) : Except Fault Unit :=
  match param, value with
  | _, register number => checkRegister number
  | .register, _ | .registerTuple, _ => .error (.source .registerExpected)
  | .string, text _ => .ok ()
  | .string, _ => .error (.source .stringExpected)
  | _, text _ => .error (.source .stringUnexpected)
  | .float, _ => .ok ()
  | _, float _ => .error (.source .integerExpected)
  | param, int n => checkInt param n
  | param, list _ =>
    .error (if param.range?.isSome then .wrongKind else .listParameter param)

end Value
end QuestArchive
