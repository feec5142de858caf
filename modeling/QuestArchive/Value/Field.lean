import QuestArchive.Bytes.Field

/-!
Values as fields: the bytes of a value in its place, or the reason why it has none.
-/

namespace QuestArchive
namespace Value

def unsigned (width : Nat) : Value → Except Fault Bytes
  | int n => Field.unsigned width n
  | _ => .error .fieldRange

def low32 : Value → Except Fault Nat
  | int n => .ok (Word.wrap 4 n)
  | _ => .error .wrongKind

def number : Value → Except Fault Double
  | int n => Field.number n
  | float x => .ok x
  | _ => .error .wrongKind

/-- A number rounded to single precision.  An integer that is too large does not fit. -/
def single : Value → Except Fault Bytes
  | int n =>
    match (Double.ofInt? n).bind (·.toSingle?) with
    | some s => .ok (Word.encode 4 s.toNat)
    | none => .error .fieldRange
  | float x => Field.single x
  | _ => .error .fieldRange

def terminatedText : Value → Except Fault Bytes
  | text t => do return (← Field.textBytes t) ++ [0, 0]
  | _ => .error .textExpected

def items (value : Value) : Except Fault (List Value) :=
  match value.items? with
  | some values => .ok values
  | none => .error .wrongKind

def integers (value : Value) : Except Fault (List Int) :=
  match value.integers? with
  | some ns => .ok ns
  | none => .error .wrongKind

def counted (value : Value) (body : Except Fault Bytes) : Except Fault Bytes := do
  let count ← Field.u8 (← value.items).length
  return count ++ (← body)

def words (value : Value) : Except Fault Bytes := do
  return (← (← value.items).mapM (unsigned 2)).flatten

def bytes : Value → Except Fault Bytes
  | list ns =>
    if ns.all fun n => 0 ≤ n && n < 256 then .ok (ns.map fun n => UInt8.ofNat n.toNat)
    else .error .byteRange
  | _ => .error .wrongKind

end Value
end QuestArchive
