import QuestArchive.Script.Check

/-!
Passing arguments on the stack: one push for each parameter, chosen by the kind of the
parameter and by whether the value is a register.
-/

namespace QuestArchive
namespace Value

/-- An integer in the signed range of 32 bits that has the same bits. -/
def toSigned (n : Int) : Int := if 0x80000000 ≤ n then n - 0x100000000 else n

def singleBits (x : Double) : Except Fault Int :=
  match x.toSingle? with
  | some s => .ok (Word.signed 4 s.toNat)
  | none => .error .tooLarge

/-- The push of a register.  Where a parameter is a register itself, its number is
passed and not what it holds. -/
def pushOfRegister : ParamKind → Opcode
  | .register => .pushByte
  | .registerTuple => .pushRegisterTuple
  | _ => .pushRegister

def pushOfInt : ParamKind → Opcode
  | .byte => .pushByte
  | .dword | .int => .pushInt
  | _ => .pushWord

def push (param : ParamKind) (value : Value) : Except Fault Instruction := do
  check param value
  match param, value with
  | _, register number => Instruction.make (pushOfRegister param) [number]
  | .float, _ => Instruction.make .pushInt [int (← singleBits (← value.number))]
  | .dword, int n => Instruction.make .pushInt [int (toSigned n)]
  | .string, _ => Instruction.make .pushString [value]
  | _, _ => Instruction.make (pushOfInt param) [value]

def pushes (op : Opcode) (values : List Value) : Except Fault (List Instruction) :=
  if values.length ≠ op.params.length then
    .error (.source (.argumentCount false op.params.length values.length))
  else (op.params.zip values).mapM fun pv => push pv.1 pv.2

end Value
end QuestArchive
