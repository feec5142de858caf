import QuestArchive.Bytes.Cursor
import QuestArchive.Fault
import QuestArchive.Number.Double
import QuestArchive.Text.Utf16

/-!
Reading typed fields at a cursor.

Reads advance the cursor and stop at its window's end, so the reader of one section
cannot run into the next.  A read is an action in `Read`, which keeps the cursor also
when it fails.
-/

namespace QuestArchive

structure Vec3 where
  x : Double
  y : Double
  z : Double
  deriving DecidableEq, Repr

abbrev Read := EStateM Fault Cursor

namespace Read

def bytes (size : Int) : Read Bytes := fun c =>
  if size < 0 ∨ c.stop < c.pos + size then
    .error (.pastBound .read size c.position c.size) c
  else .ok (Cursor.span c.data c.pos (c.pos + size)) { c with pos := c.pos + size }

/-- A field of fixed width, which the data must have in full. -/
def field (width : Nat) : Read Bytes := do
  let bs ← bytes width
  if bs.length < width then throw .cutField else pure bs

def u8 : Read Nat := do
  match ← bytes 1 with
  | b :: _ => pure b.toNat
  | [] => throw .noByte

def i8 : Read Int := return Word.signed 1 (Word.decode (← field 1))

def u16 : Read Nat := return Word.decode (← field 2)

def i16 : Read Int := return Word.signed 2 (Word.decode (← field 2))

def u32 : Read Nat := return Word.decode (← field 4)

def i32 : Read Int := return Word.signed 4 (Word.decode (← field 4))

def singleOf (bs : Bytes) : Double := .ofSingle (UInt32.ofNat (Word.decode bs))

def single : Read Double := return singleOf (← field 4)

def vec3 : Read Vec3 := do
  let bs ← field 12
  pure ⟨singleOf (bs.take 4), singleOf ((bs.drop 4).take 4), singleOf (bs.drop 8)⟩

def groups (width : Nat) : Nat → Bytes → List Bytes
  | 0, _ => []
  | count + 1, bs => bs.take width :: groups width count (bs.drop width)

def array (width : Nat) (count : Int) : Read (List Bytes) := do
  let bs ← bytes (width * count)
  if (bs.length : Int) < width * count then throw .cutField
  else pure (groups width count.toNat bs)

def u16Array (count : Int) : Read (List Nat) := return (← array 2 count).map Word.decode

def u32Array (count : Int) : Read (List Nat) := return (← array 4 count).map Word.decode

def i32Array (count : Int) : Read (List Int) :=
  return (← array 4 count).map fun bs => Word.signed 4 (Word.decode bs)

/-- The character of an ASCII byte; any other byte is replaced. -/
def asciiChar (b : UInt8) : Char := if b < 128 then Char.ofNat b.toNat else '\uFFFD'

def asciiOf (bs : Bytes) : String :=
  String.ofList ((bs.takeWhile (· ≠ 0)).map asciiChar)

def ascii (size : Int) : Read String := return asciiOf (← bytes size)

def text (size : Int) : Read Text := return Text.decode16 (Text.beforeNull (← bytes size))

/-- The position of the first null unit at or after `i`, at whole units from `i`. -/
def nullUnit? (data : Array UInt8) (limit i : Int) : Except Fault (Option Int) :=
  if i + 1 < limit then
    match Cursor.byteAt? data i with
    | none => .error .noByte
    | some a =>
      if a = 0 then
        match Cursor.byteAt? data (i + 1) with
        | none => .error .noByte
        | some b => if b = 0 then .ok (some i) else nullUnit? data limit (i + 2)
      else nullUnit? data limit (i + 2)
  else .ok none
termination_by (limit - i).toNat

/-- The text before a null unit within the next `maxSize` bytes; the cursor ends up
behind that unit. -/
def terminated (maxSize : Int) : Read Text := fun c =>
  match nullUnit? c.data (min c.stop (c.pos + maxSize)) c.pos with
  | .error e => .error e c
  | .ok none => .error (.unterminated c.position) c
  | .ok (some i) =>
    .ok (Text.decode16 (Cursor.span c.data c.pos i)) { c with pos := i + 2 }

/-- Moves the cursor, backwards too. -/
def skip (size : Int) : Read Unit := fun c =>
  if c.stop < c.pos + size then .error (.pastBound .skip size c.position c.size) c
  else .ok () { c with pos := c.pos + size }

/-- A cursor over the next `size` bytes, which this one passes over. -/
def slice (size : Int) : Read Cursor := fun c =>
  if size < 0 ∨ c.stop < c.pos + size then
    .error (.pastBound .slice size c.position c.size) c
  else .ok (.window c.data c.pos (c.pos + size)) { c with pos := c.pos + size }

def seek (offset : Int) : Read Unit := fun c =>
  if offset < 0 ∨ c.size < offset then .error (.seekOutside offset c.size) c
  else .ok () { c with pos := c.start + offset }

def cursor : Read Cursor := get

def position : Read Int := return (← get).position

def remaining : Read Int := return (← get).remaining

/-- Runs an action from a cursor of its own. -/
def within (c : Cursor) (action : Read α) : Except Fault α :=
  match action.run c with
  | .ok a _ => .ok a
  | .error e _ => .error e

def ofExcept : Except Fault α → Read α
  | .ok a => pure a
  | .error e => throw e

end Read
end QuestArchive
