import QuestArchive.Archive.Chunk

/-!
Writing an archive: the headers, then the chunks of all files in turn, number by
number.
-/

namespace QuestArchive
namespace Archive

/-- A file to be written.  Without a second name it gets one made from its name. -/
structure NewMember where
  name : String
  data : Bytes
  secondName : Option String := none
  questNo : Option Int := none
  deriving DecidableEq, Repr

/-- The characters before the last dot, and the dot with what follows it. -/
def splitExtension (name : String) : String × String :=
  let reversed := name.toList.reverse
  let extension := reversed.takeWhile (· ≠ '.')
  if extension.length = reversed.length then (name, "")
  else
    (String.ofList (reversed.drop (extension.length + 1)).reverse,
      String.ofList ('.' :: extension.reverse))

def defaultSecondName (name suffix : String) : String :=
  let parts := splitExtension name
  parts.1 ++ suffix ++ parts.2

namespace NewMember

def secondNameOrDefault (file : NewMember) : String :=
  file.secondName.getD (defaultSecondName file.name "_j")

def header (file : NewMember) : Except Fault Bytes := do
  if maxNameLength < file.name.length then throw (.longName file.name)
  let second := file.secondNameOrDefault
  if maxSecondNameLength < second.length then throw (.longSecondName file.name second)
  let questNo ← Field.u16 (file.questNo.getD 0)
  let name ← Field.ascii file.name maxNameLength
  let size ← Field.u32 file.data.length
  let second ← Field.ascii second maxSecondNameLength
  return Word.encode 2 headerSize ++ Word.encode 2 0x44 ++ questNo ++ Field.zeros 38 ++ name ++
    size ++ second

def chunk (file : NewMember) (number : Nat) : Except Fault Bytes := do
  let payload := slot file.data (number * payloadSize) payloadSize
  let number ← Field.u8 number
  let name ← Field.ascii file.name maxNameLength
  return [0x1C, 0x04, 0x13, 0x00] ++ number ++ Field.zeros 3 ++ name ++
    Field.fixed payloadSize payload ++ Word.encode 4 payload.length ++ Word.encode 4 0

def chunkCount (file : NewMember) : Nat := Archive.chunkCount file.data.length

end NewMember

/-- The bytes that one archive file can hold: its chunk numbers are single bytes. -/
def maxFileSize : Nat := 256 * payloadSize

/-- The chunks of all files, by number and then by place in the list. -/
def chunkOrder (files : List NewMember) : List (NewMember × Nat) :=
  (List.range ((files.map (·.chunkCount)).foldl max 0)).flatMap fun number =>
    (files.filter (number < ·.chunkCount)).map (·, number)

/-- Writes at most two files. -/
def write (files : List NewMember) : Except Fault Bytes := do
  if 2 < files.length then throw (.tooManyFiles files.length)
  match files.find? (maxFileSize < ·.data.length) with
  | some file => throw (.longFile file.name file.data.length)
  | none => pure ()
  let headers ← files.mapM (·.header)
  let chunks ← (chunkOrder files).mapM fun c => c.1.chunk c.2
  return headers.flatten ++ chunks.flatten

end Archive
end QuestArchive
