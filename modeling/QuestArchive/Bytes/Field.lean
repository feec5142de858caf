import QuestArchive.Bytes.Read

/-!
Fields as they are written: the bytes of a value, or the reason why it has none.
-/

namespace QuestArchive
namespace Field

def unsigned (width : Nat) (n : Int) : Except Fault Bytes :=
  if 0 ≤ n ∧ n < Word.bound width then .ok (Word.encode width n.toNat)
  else .error .fieldRange

/-- An integer of `width` bytes in two's complement. -/
def signed (width : Nat) (n : Int) : Except Fault Bytes :=
  if -(Word.bound width : Int) ≤ 2 * n ∧ 2 * n < Word.bound width then
    .ok (Word.encode width (Word.wrap width n))
  else .error .fieldRange

def u8 (n : Int) : Except Fault Bytes := unsigned 1 n

def u16 (n : Int) : Except Fault Bytes := unsigned 2 n

def u32 (n : Int) : Except Fault Bytes := unsigned 4 n

def i32 (n : Int) : Except Fault Bytes := signed 4 n

/-- The number that an integer equals or is nearest to. -/
def number (n : Int) : Except Fault Double :=
  match Double.ofInt? n with
  | some x => .ok x
  | none => .error .tooLarge

def single (x : Double) : Except Fault Bytes :=
  match x.toSingle? with
  | some s => .ok (Word.encode 4 s.toNat)
  | none => .error .tooLarge

def vec3 (v : Vec3) : Except Fault Bytes := do
  let x ← single v.x
  let y ← single v.y
  let z ← single v.z
  return x ++ y ++ z

def zeros (count : Int) : Bytes := List.replicate count.toNat 0

/-- A negative size counts from the end, as far as there are bytes. -/
def truncate (size : Int) (bs : Bytes) : Bytes := bs.take (Cursor.clamp bs.length size)

/-- Cuts or pads bytes to a size. -/
def fixed (size : Int) (bs : Bytes) : Bytes :=
  let cut := truncate size bs
  cut ++ zeros (size - cut.length)

def asciiBytes (name : List Char) : Except Fault Bytes :=
  let isAscii (c : Char) := c.toNat < 128
  let rest := name.dropWhile isAscii
  if rest.isEmpty then .ok (name.map fun c => UInt8.ofNat c.toNat)
  else .error (.nonAscii (rest.takeWhile fun c => !isAscii c) (name.length - rest.length))

def ascii (name : String) (size : Int) : Except Fault Bytes := do
  return fixed size (← asciiBytes name.toList)

def textBytes (t : Text) : Except Fault Bytes :=
  match Text.encode16 t with
  | .ok bs => .ok bs
  | .error (position, unit) => .error (.loneSurrogate unit position)

def text (t : Text) (size : Int) : Except Fault Bytes := do
  return fixed size (← textBytes t)

end Field

/-- A growing buffer and the place where the next write goes.  A write over existing
bytes replaces them, and grows the buffer where it runs past the end. -/
structure Writer where
  bytes : Bytes := []
  pos : Nat := 0
  deriving DecidableEq, Repr

namespace Writer

def put (w : Writer) (bs : Bytes) : Writer :=
  { bytes := w.bytes.take w.pos ++ bs ++ w.bytes.drop (w.pos + bs.length)
    pos := w.pos + bs.length }

def write (w : Writer) (field : Except Fault Bytes) : Except Fault Writer :=
  field.map w.put

def seek (w : Writer) (offset : Int) : Except Fault Writer :=
  if offset < 0 ∨ w.bytes.length < offset then .error (.seekOutside offset w.bytes.length)
  else .ok { w with pos := offset.toNat }

end Writer
end QuestArchive
