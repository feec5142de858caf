import QuestArchive.Archive.Chunk
import QuestArchive.Diagnostic

/-!
Reading an archive: two headers, then chunks of any files in any order.

A file is what its chunks say, laid over zeros.  Of two chunks with one number the
later one is laid over the earlier, and only as far as it reaches.
-/

namespace QuestArchive
namespace Archive

/-- A file of an archive.  Only a file that a header names has the last three. -/
structure Member where
  name : String
  data : Bytes
  chunkNumbers : List Nat
  secondName : Option String
  questNo : Option Nat
  expectedSize : Option Nat
  deriving DecidableEq, Repr

structure Contents where
  version : Version
  members : List Member
  diagnostics : List Diagnostic
  deriving DecidableEq, Repr

def recordAt (data : Array UInt8) (offset size : Nat) : Except Fault Bytes :=
  if data.size < offset + size then .error (.pastBound .slice size offset data.size)
  else .ok (data.extract offset (offset + size)).toList

def chunks (data : Array UInt8) : List Chunk :=
  let start := 2 * headerSize
  (List.range ((data.size - start) / chunkSize)).map fun i =>
    .ofRecord (data.extract (start + i * chunkSize) (start + (i + 1) * chunkSize)).toList

def chunkNotices (earlier : List Chunk) : List Chunk → List Notice
  | [] => []
  | c :: rest =>
    (if earlier.any fun e => e.number = c.number && e.name = c.name then
      [.duplicateChunk c.number c.name] else []) ++
    (if payloadSize < c.size then [.clampedChunk c.size] else []) ++
    chunkNotices (c :: earlier) rest

/-- New bytes over the start of old ones. -/
def overlay (old new : Bytes) : Bytes := new ++ old.drop new.length

def block (file : List Chunk) (number : Nat) : Bytes :=
  (file.filter (·.number = number)).foldl (fun old c => overlay old c.body)
    (List.replicate payloadSize 0)

/-- The size of a file: as stated, or more if a chunk reaches farther. -/
def fileSize (file : List Chunk) (expected : Option Nat) : Nat :=
  max ((file.map Chunk.stop).foldl max 0) (expected.getD 0)

def fileData (file : List Chunk) (size : Nat) : Bytes :=
  ((List.range (chunkCount size)).flatMap (block file)).take size

def chunkNumbers (file : List Chunk) : List Nat :=
  (List.range 256).filter fun n => file.any (·.number = n)

def fileNotices (name : String) (file : List Chunk) (expected : Option Nat) : List Notice :=
  let actual := (file.map Chunk.stop).foldl max 0
  (match expected with
    | some size => if actual = size then [] else [.fileSize name actual size]
    | none => []) ++
  ((List.range (chunkCount (fileSize file expected))).filter fun n =>
    !file.any (·.number = n)).map (.missingChunk name)

/-- The file of a name, and its notices.  The size is the last header's of that name,
the rest the first one's. -/
def member (headers all : List Header) (chunks : List Chunk) (name : String) :
    Member × List Notice :=
  let file := chunks.filter (·.name = name)
  let expected := (all.find? (·.name = name)).map (·.size)
  let header := headers.find? (·.name = name)
  ({ name := name
     data := fileData file (fileSize file expected)
     chunkNumbers := chunkNumbers file
     secondName := header.map (·.secondName)
     questNo := header.map (·.questNo)
     expectedSize := expected },
   fileNotices name file expected)

/-- Reads an archive of the one kind whose layout is known. -/
def read (data : Bytes) : Except Fault Contents := do
  let version := Version.detect data
  if version ≠ .blueBurst then throw (.unsupported version.name)
  let bytes := data.toArray
  let first := Header.ofRecord (← recordAt bytes 0 headerSize)
  let second := Header.ofRecord (← recordAt bytes headerSize headerSize)
  let found := chunks bytes
  let left := (bytes.size - 2 * headerSize) % chunkSize
  let names := (found.map (·.name)).eraseDups
  let files := names.map (member [first, second] [second, first] found)
  let notices := chunkNotices [] found ++ (if left = 0 then [] else [.trailingBytes left]) ++
    files.flatMap (·.2)
  return { version, members := files.map (·.1)
           diagnostics := notices.map ({ notice := · }) }

end Archive
end QuestArchive
