import QuestArchive.Number.Numeral
import QuestArchive.Script.Param
import QuestArchive.Text.Rune

/-!
Operation codes: a code, a mnemonic, the parameters, and what the operation does with
the argument stack.

Codes below 0x100 take one byte, the others two, high byte first.
-/

namespace QuestArchive

inductive StackUse where
  /-- Pushes its operand. -/
  | push
  /-- Takes its arguments from the stack and has no operands. -/
  | pop
  deriving DecidableEq, Repr

namespace StackUse

def name : StackUse → String
  | push => "push"
  | pop => "pop"

end StackUse

structure Opcode where
  code : Int
  mnemonic : String
  params : List ParamKind := []
  stack : Option StackUse := none
  deriving DecidableEq, Repr

namespace Opcode

def size (op : Opcode) : Nat := if op.code < 0x100 then 1 else 2

def pushesArgument (op : Opcode) : Bool := op.stack = some .push

def popsArguments (op : Opcode) : Bool := op.stack = some .pop

def describe (op : Opcode) : String :=
  "Opcode(" ++ op.mnemonic ++ ", " ++ Numeral.hexText 4 op.code ++ ")"

end Opcode
end QuestArchive
