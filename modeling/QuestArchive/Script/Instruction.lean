import QuestArchive.Script.OpcodeTable
import QuestArchive.Value.Field

/-!
Instructions and the segments of a script's object code.

An argument states the bytes it takes.  Arguments built by `Arg.make` state the bytes
that their value takes as an operand of the given kind; an argument from elsewhere may
state anything.
-/

namespace QuestArchive

def total : List Int → Int
  | [] => 0
  | size :: rest => size + total rest

structure Arg where
  value : Value
  size : Int
  deriving DecidableEq, Repr

structure Instruction where
  opcode : Opcode
  args : List Arg := []
  deriving DecidableEq, Repr

inductive SegmentKind where
  | code
  | data
  | text
  deriving DecidableEq, Repr

inductive Segment where
  | code (labels : List Int) (instructions : List Instruction)
  | data (labels : List Int) (bytes : Bytes)
  | text (labels : List Int) (value : Text)
  deriving DecidableEq, Repr

def ParamKind.refersTo? : ParamKind → Option SegmentKind
  | .codeLabel => some .code
  | .dataLabel => some .data
  | .textLabel => some .text
  | _ => none

namespace Arg

/-- The argument that carries a value as an operand of some kind.  A string parameter
counts the plain text of any value. -/
def make (param : ParamKind) (value : Value) : Except Fault Arg :=
  match param with
  | .string => do return ⟨value, (← Field.textBytes value.plain).length + 2⟩
  | .codeLabels => do
    let ns ← value.integers
    return ⟨.list ns, 1 + 2 * ns.length⟩
  | .registers => do
    let ns ← value.integers
    return ⟨.list ns, 1 + ns.length⟩
  | _ => .ok ⟨value, param.width?.getD 0⟩

def int? (a : Arg) : Option Int :=
  match a.value with
  | .int n => some n
  | _ => none

end Arg

namespace Instruction

def size (i : Instruction) : Int := i.opcode.size + total (i.args.map (·.size))

def make (op : Opcode) (values : List Value) : Except Fault Instruction :=
  if op.popsArguments then
    if values.isEmpty then .ok { opcode := op } else .error (.stackArguments op.mnemonic)
  else if values.length ≠ op.params.length then
    .error (.argumentCount op.mnemonic op.params.length values.length)
  else do
    let args ← (op.params.zip values).mapM fun pv => Arg.make pv.1 pv.2
    return { opcode := op, args }

end Instruction

namespace Segment

def kind : Segment → SegmentKind
  | code .. => .code
  | data .. => .data
  | text .. => .text

def labels : Segment → List Int
  | code labels _ | data labels _ | text labels _ => labels

/-- The bytes that a text takes as a segment: its units, a null unit, and padding to a
multiple of four. -/
def textExtent (t : Text) : Nat := 4 * ((Text.size16 t / 2 + 2) / 2)

/-- The bytes that a segment takes, were its text encodable. -/
def extent : Segment → Int
  | code _ instructions => total (instructions.map (·.size))
  | data _ bytes => bytes.length
  | text _ value => textExtent value

def size (s : Segment) : Except Fault Int :=
  match s with
  | text _ value => do
    let _ ← Field.textBytes value
    return s.extent
  | _ => .ok s.extent

end Segment
end QuestArchive
