import QuestArchive.Bytes.Field

/-!
The kinds of quest archive, told apart by two bytes of the first header, and the records of
the kind whose layout is known: headers of 88 bytes and chunks of 1056.

A header gives quest number, name, second name and size of a file.  A chunk carries up
to 1024 bytes of the file that it names; its number says where they belong.
-/

namespace QuestArchive
namespace Archive

inductive Version where
  | blueBurst
  | console
  | download
  | computer
  deriving DecidableEq, Repr

namespace Version

def name : Version → String
  | blueBurst => "Blue Burst"
  | console => "Dreamcast/GameCube"
  | download => "Dreamcast download"
  | computer => "PC"

/-- The kind that the bytes at offsets 0 and 2 speak for. -/
def detect (data : Bytes) : Version :=
  match (data[0]? : Option UInt8), (data[2]? : Option UInt8) with
  | some 0x44, _ => console
  | some 0x58, some 0x44 => blueBurst
  | some 0xA6, _ => download
  | _, _ => computer

end Version

def headerSize : Nat := 88

def chunkSize : Nat := 1056

def payloadSize : Nat := 1024

def maxNameLength : Nat := 16

def maxSecondNameLength : Nat := 24

def chunkCount (size : Nat) : Nat := (size + payloadSize - 1) / payloadSize

def slot (record : Bytes) (start size : Nat) : Bytes := (record.drop start).take size

structure Header where
  questNo : Nat
  name : String
  size : Nat
  secondName : String
  deriving DecidableEq, Repr

def Header.ofRecord (record : Bytes) : Header :=
  { questNo := Word.decode (slot record 4 2)
    name := Read.asciiOf (slot record 44 16)
    size := Word.decode (slot record 60 4)
    secondName := Read.asciiOf (slot record 64 24) }

structure Chunk where
  number : Nat
  name : String
  payload : Bytes
  /-- The stated size of the payload. -/
  size : Nat
  deriving DecidableEq, Repr

namespace Chunk

def ofRecord (record : Bytes) : Chunk :=
  { number := Word.decode (slot record 4 1)
    name := Read.asciiOf (slot record 8 16)
    payload := slot record 24 payloadSize
    size := Word.decode (slot record 1048 4) }

/-- The bytes that count: a stated size beyond the payload is brought down to it. -/
def body (c : Chunk) : Bytes := c.payload.take c.size

def stop (c : Chunk) : Nat := c.number * payloadSize + min c.size payloadSize

end Chunk
end Archive
end QuestArchive
