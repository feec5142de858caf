import QuestArchive.Script.Literal
import QuestArchive.Script.Push
import QuestArchive.Script.Scan

/-!
Instructions as a source writes them: a mnemonic and its arguments.

The arguments of an operation that takes them from the stack become pushes in front of
it.  Written without arguments it stands alone, for a source that pushes by hand.
-/

namespace QuestArchive
namespace Script

def inlineArg (param : ParamKind) (value : Value) : Except Fault Arg := do
  if (value matches .register _) && !param.isRegister then
    throw (.source .registerUnexpected)
  value.check param
  match param, value with
  | _, .register number => Arg.make param number
  | .float, _ => Arg.make param (.float (← value.number))
  | _, _ => Arg.make param value

def listedRegister (value : Value) : Except Fault Int := do
  match value with
  | .register number =>
    number.checkRegister
    match number with
    | .int n => return n
    | _ => throw .wrongKind
  | _ => throw (.source .registerExpected)

def listedLabel (value : Value) : Except Fault Int := do
  if value matches .register _ then throw (.source .registerUnexpected)
  value.check .codeLabel
  match value with
  | .int n => return n
  | _ => throw (.source .integerExpected)

/-- The parameters that take one value each, and the list parameter behind them. -/
def splitParams (params : List ParamKind) : List ParamKind × Option ParamKind :=
  match params.getLast? with
  | some param => if param.isList then (params.dropLast, some param) else (params, none)
  | none => (params, none)

/-- The arguments that an instruction holds itself.  A list takes what is left of the
values. -/
def inlineArgs (params : List ParamKind) (values : List Value) : Except Fault (List Arg) := do
  let (single, list?) := splitParams params
  if values.length < single.length ∨ (list?.isNone ∧ single.length < values.length) then
    throw (.source (.argumentCount list?.isSome single.length values.length))
  let args ← (single.zip values).mapM fun pv => inlineArg pv.1 pv.2
  let rest := values.drop single.length
  match list? with
  | none => return args
  | some param =>
    let item := if param = .registers then listedRegister else listedLabel
    return args ++ [← Arg.make param (.list (← rest.mapM item))]

def expand (op : Opcode) (values : List Value) : Except Fault (List Instruction) := do
  if op.popsArguments then
    if values.isEmpty then return [{ opcode := op }]
    return (← Value.pushes op values) ++ [{ opcode := op }]
  else return [{ opcode := op, args := ← inlineArgs op.params values }]

/-- Reads an instruction.  A tab separates like a space, inside literals too. -/
def readCall (line : Text) : Except Fault (List Instruction) := do
  let line := line.map fun r => if r = .char '\t' then .char ' ' else r
  let mnemonic := line.takeWhile (· ≠ .char ' ')
  match Opcode.ofMnemonic? mnemonic with
  | none => throw (.source (.unknownInstruction mnemonic))
  | some op =>
    let args := splitArgs (Text.trim (line.drop (mnemonic.length + 1)))
    expand op (← args.mapM Literal.parse)

end Script
end QuestArchive
