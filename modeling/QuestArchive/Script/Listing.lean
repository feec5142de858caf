import QuestArchive.Script.Line

/-!
Segments as source lines that assemble into the same segments.

Pushes in front of an operation that takes its arguments from the stack are written as
its arguments when these would be assembled into just those pushes; all other pushes
stay lines of their own.
-/

namespace QuestArchive

namespace Value

def spell : Value → Text
  | text t => Text.Quoted.encode t
  | register number => .char 'r' :: number.plain
  | value => value.plain

def ofArg (param : ParamKind) (a : Arg) : Except Fault (List Value) :=
  match param with
  | .register | .registerTuple => .ok [register a.value]
  | .registers => do return (← a.value.items).map register
  | .codeLabels => a.value.items
  | _ => .ok [a.value]

/-- The finite number whose single-precision bits are a signed integer. -/
def ofSingleBits : Value → Except Fault (Option Value)
  | int n => do
    let x := Read.singleOf (← Field.i32 n)
    return if x.isFinite then some (float x) else none
  | _ => .error .fieldRange

/-- The value for a parameter that an operand passes when it is pushed by the operation
with some code. -/
def ofPushedOperand (param : ParamKind) (code : Int) (operand : Value) :
    Except Fault (Option Value) :=
  if code = Opcode.pushRegister.code ∨ code = Opcode.pushRegisterTuple.code then
    .ok (some (register operand))
  else if code = Opcode.pushByte.code then
    .ok (some (if param = .register then register operand else operand))
  else if code = Opcode.pushInt.code then
    match param with
    | .float => ofSingleBits operand
    | .dword => do return some (int (← operand.low32))
    | _ => .ok (some operand)
  else if code = Opcode.pushWord.code ∨ code = Opcode.pushString.code then .ok (some operand)
  else .ok none

def ofPush (param : ParamKind) (push : Instruction) : Except Fault (Option Value) :=
  match push.args with
  | [] => .error .noArgument
  | a :: _ => ofPushedOperand param push.opcode.code a.value

def ofPushes : List (ParamKind × Instruction) → Except Fault (Option (List Value))
  | [] => .ok (some [])
  | (param, push) :: rest => do
    match ← ofPush param push with
    | none => return none
    | some value => return (← ofPushes rest).map (value :: ·)

end Value

namespace Script

def spellCall (mnemonic : String) (values : List Value) : Text :=
  if values.isEmpty then .ofString mnemonic
  else .ofString mnemonic ++ .char ' ' :: Text.join (.ofString ", ") (values.map (·.spell))

def spell (i : Instruction) : Except Fault Text := do
  let values ← (i.opcode.params.zip i.args).mapM fun pa => Value.ofArg pa.1 pa.2
  return spellCall i.opcode.mnemonic values.flatten

/-- The values that an operation takes from some pushes, if they would be assembled into
just these pushes. -/
def fold? (op : Opcode) (pushed : List Instruction) : Except Fault (Option (List Value)) := do
  match ← Value.ofPushes (op.params.zip pushed) with
  | none => return none
  | some values =>
    match Value.pushes op values with
    | .ok expected => return if expected = pushed then some values else none
    | .error (.source _) => return none
    | .error fault => throw fault

/-- The arguments that an operation is written with, if it is written with the last of the
pushes that stand in front of it. -/
def folded? (pushes : List Instruction) (i : Instruction) : Except Fault (Option (List Value)) :=
  let count := i.opcode.params.length
  if !i.opcode.popsArguments ∨ count = 0 ∨ pushes.length < count then .ok none
  else fold? i.opcode (pushes.drop (pushes.length - count))

def callLines (pushes : List Instruction) (i : Instruction) : Except Fault (List Text) := do
  match ← folded? pushes i with
  | none => (pushes ++ [i]).mapM spell
  | some values =>
    let apart ← (pushes.take (pushes.length - values.length)).mapM spell
    return apart ++ [spellCall i.opcode.mnemonic values]

/-- The lines of some instructions, with the pushes that were not written yet. -/
def codeLines (pushes : List Instruction) : List Instruction → Except Fault (List Text)
  | [] => pushes.mapM spell
  | i :: rest =>
    if i.opcode.pushesArgument then codeLines (pushes ++ [i]) rest
    else do
      let call ← callLines pushes i
      return call ++ (← codeLines [] rest)

def spellByte (b : UInt8) : Text :=
  [.char (Nat.digitChar (b.toNat / 16)), .char (Nat.digitChar (b.toNat % 16))]

def bytesPerLine : Nat := 16

def dataLines (bytes : Bytes) : List Text :=
  let count := (bytes.length + bytesPerLine - 1) / bytesPerLine
  (Read.groups bytesPerLine count bytes).map fun group =>
    Text.join [.char ' '] (group.map spellByte)

def contentLines (s : Segment) : Except Fault (List Text) := do
  let lines ←
    match s with
    | .code _ instructions => codeLines [] instructions
    | .data _ bytes => pure (dataLines bytes)
    | .text _ value => pure [Text.Quoted.encode value]
  return lines.map (Text.ofString "    " ++ ·)

/-- The lines of some segments, in a section and behind other lines or not. -/
def listingFrom (kind : SegmentKind) (started : Bool) :
    List Segment → Except Fault (List Text)
  | [] => .ok []
  | s :: rest => do
    let gap := if started then [[]] else []
    let marker := if s.kind = kind then [] else [Text.ofString s.kind.marker]
    let labels := s.labels.map fun n => (Numeral.decimal n).map Rune.char ++ [.char ':']
    let content ← contentLines s
    let block := gap ++ marker ++ labels ++ content
    return block ++ (← listingFrom s.kind (started || !block.isEmpty) rest)

def listing (segments : List Segment) : Except Fault (List Text) :=
  listingFrom .code false segments

end Script
end QuestArchive
