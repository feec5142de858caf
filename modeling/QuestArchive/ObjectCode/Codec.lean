import QuestArchive.Bytes.Progress
import QuestArchive.Script.Instruction

/-!
The stored form of single instructions: the code, then the operands one after the
other.
-/

namespace QuestArchive
namespace ObjectCode

/-- Reads the number of an operation: one byte, or two with the high byte first. -/
def readNumber : Read Nat := do
  let first ← Read.u8
  if first = 0xF8 ∨ first = 0xF9 then (first * 256 + ·) <$> Read.u8 else pure first

def readOpcode : Read Opcode := do
  let code ← readNumber
  match Opcode.ofCode? code with
  | some op => pure op
  | none => throw (.unknownOpcode code)

def readArg (param : ParamKind) : Read Arg :=
  match param with
  | .byte | .register | .registerTuple => return ⟨.int (← Read.u8), 1⟩
  | .word | .codeLabel | .dataLabel | .textLabel => return ⟨.int (← Read.u16), 2⟩
  | .dword => return ⟨.int (← Read.u32), 4⟩
  | .int => return ⟨.int (← Read.i32), 4⟩
  | .float => return ⟨.float (← Read.single), 4⟩
  | .string => do
    let start ← Read.position
    let value ← Read.terminated (← Read.remaining)
    return ⟨.text value, (← Read.position) - start⟩
  | .codeLabels => do
    let count ← Read.u8
    let labels ← Read.u16Array count
    return ⟨.list (labels.map fun (n : Nat) => n), 1 + 2 * count⟩
  | .registers => do
    let count ← Read.u8
    let registers ← Read.bytes count
    return ⟨.list (registers.map fun b => b.toNat), 1 + count⟩

def readArgs (params : List ParamKind) : Read (List Arg) := params.mapM readArg

/-- Reads the operands of an operation.  One that takes its arguments from the stack
has none. -/
def readOperands (op : Opcode) : Read (List Arg) :=
  if op.popsArguments then pure [] else readArgs op.params

def readInstruction : Read Instruction := do
  let op ← readOpcode
  let args ← readOperands op
  return { opcode := op, args }

def writeOperand (param : ParamKind) (value : Value) : Except Fault Bytes :=
  match param with
  | .byte | .register | .registerTuple => value.unsigned 1
  | .word | .codeLabel | .dataLabel | .textLabel => value.unsigned 2
  | .dword => value.unsigned 4
  -- An integer operand also carries unsigned values and the bits of numbers.
  | .int => return Word.encode 4 (← value.low32)
  | .float => value.single
  | .string => value.terminatedText
  | .codeLabels => value.counted value.words
  | .registers => value.counted value.bytes

def writeOpcode (op : Opcode) : Except Fault Bytes := do
  let high ← if op.size = 2 then Field.u8 (op.code / 256) else pure []
  let low ← Field.u8 (op.code % 256)
  return high ++ low

/-- The bytes of an instruction, as far as it has both parameters and arguments. -/
def writeInstruction (i : Instruction) : Except Fault Bytes := do
  let op ← writeOpcode i.opcode
  let operands ← (i.opcode.params.zip i.args).mapM fun pa => writeOperand pa.1 pa.2.value
  return op ++ operands.flatten

theorem moves_readNumber : Read.Moves 1 readNumber := by
  refine Read.moves_u8.bind (n := 0) fun first => ?_
  split
  · exact (Read.moves_u8.map _).mono (Nat.zero_le 1)
  · exact Read.Moves.pure _

theorem moves_readOpcode : Read.Moves 1 readOpcode := by
  refine moves_readNumber.bind (n := 0) fun code => ?_
  split
  · exact Read.Moves.pure _
  · exact Read.Moves.throw _

theorem moves_readArg (param : ParamKind) : Read.Moves 0 (readArg param) := by
  have get : Read.Moves 0 (MonadStateOf.get : Read Cursor) := by
    intro c x c' h
    cases h
    exact ⟨rfl, by omega, by omega⟩
  have position : Read.Moves 0 Read.position := get.bind (n := 0) fun _ => Read.Moves.pure _
  have remaining : Read.Moves 0 Read.remaining := get.bind (n := 0) fun _ => Read.Moves.pure _
  have u8 := Read.moves_u8.mono (Nat.zero_le 1)
  have u16 := Read.moves_u16.mono (Nat.zero_le 2)
  have u32 := Read.moves_u32.mono (Nat.zero_le 4)
  cases param with
  | byte | register | registerTuple => exact u8.bind (n := 0) fun _ => Read.Moves.pure _
  | word | codeLabel | dataLabel | textLabel =>
    exact u16.bind (n := 0) fun _ => Read.Moves.pure _
  | dword => exact u32.bind (n := 0) fun _ => Read.Moves.pure _
  | int =>
    exact (Read.moves_i32.mono (Nat.zero_le 4)).bind (n := 0) fun _ => Read.Moves.pure _
  | float =>
    exact (Read.moves_single.mono (Nat.zero_le 4)).bind (n := 0) fun _ => Read.Moves.pure _
  | string =>
    refine position.bind (n := 0) fun start => ?_
    refine remaining.bind (n := 0) fun rest => ?_
    refine (Read.moves_terminated _).bind (n := 0) fun value => ?_
    exact position.bind (n := 0) fun _ => Read.Moves.pure _
  | codeLabels =>
    refine u8.bind (n := 0) fun count => ?_
    exact (Read.moves_u16Array _).bind (n := 0) fun _ => Read.Moves.pure _
  | registers =>
    refine u8.bind (n := 0) fun count => ?_
    exact (Read.moves_bytes_zero _).bind (n := 0) fun _ => Read.Moves.pure _

theorem moves_readArgs (params : List ParamKind) : Read.Moves 0 (readArgs params) := by
  unfold readArgs
  induction params with
  | nil => exact Read.Moves.pure _
  | cons p rest ih =>
    rw [List.mapM_cons]
    refine (moves_readArg p).bind (n := 0) fun a => ?_
    exact ih.bind (n := 0) fun _ => Read.Moves.pure _

theorem moves_readOperands (op : Opcode) : Read.Moves 0 (readOperands op) := by
  unfold readOperands
  split
  · exact Read.Moves.pure _
  · exact moves_readArgs _

theorem moves_readInstruction : Read.Moves 1 readInstruction :=
  moves_readOpcode.bind (n := 0) fun op =>
    (moves_readOperands op).bind (n := 0) fun _ => Read.Moves.pure _

end ObjectCode
end QuestArchive
