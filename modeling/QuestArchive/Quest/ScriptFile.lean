import QuestArchive.ObjectCode.Decode

/-!
The script file of a quest: a header with the texts of the quest, the shop's items, the
object code and the label table.

  0     offset of the object code
  4     offset of the label table
  8     size of the file
  12    four bytes of ones
  16    quest number
  20    language
  24    name, 64 bytes
  88    short description, 256 bytes
  344   long description, 576 bytes
  920   four bytes of zeros
  924   932 shop items
  4652  object code, then the label table
-/

namespace QuestArchive

structure ScriptFile where
  questId : Int
  language : Int
  name : Text
  shortDescription : Text
  longDescription : Text
  segments : List Segment
  shopItems : List Int
  deriving DecidableEq, Repr

namespace ScriptFile

def nameSize : Nat := 64

def shortDescriptionSize : Nat := 256

def longDescriptionSize : Nat := 576

def shopItemCount : Nat := 932

def headerSize : Nat := 4652

structure Header where
  codeOffset : Nat
  tableOffset : Nat
  size : Nat
  questId : Nat
  language : Nat
  name : Text
  shortDescription : Text
  longDescription : Text
  shopItems : List Nat
  labelOffsets : List Int
  deriving DecidableEq, Repr

def Header.read (fileSize : Nat) : Read Header := do
  let codeOffset ← Read.u32
  let tableOffset ← Read.u32
  let size ← Read.u32
  Read.skip 4
  let questId ← Read.u32
  let language ← Read.u32
  let name ← Read.text nameSize
  let shortDescription ← Read.text shortDescriptionSize
  let longDescription ← Read.text longDescriptionSize
  Read.skip 4
  let shopItems ← Read.u32Array shopItemCount
  if tableOffset < codeOffset ∨ fileSize < tableOffset then
    throw (.scriptOffsets codeOffset tableOffset fileSize)
  Read.seek tableOffset
  let labelOffsets ← Read.i32Array ((fileSize - tableOffset) / 4 : Nat)
  return { codeOffset, tableOffset, size, questId, language, name, shortDescription,
           longDescription, shopItems, labelOffsets }

def read (mode : ObjectCode.Mode) (data : Bytes) (entryLabels : List Int) :
    Except Fault (ScriptFile × List Diagnostic) := do
  let bytes := data.toArray
  let header ← Read.within (.whole bytes) (Header.read bytes.size)
  let code := (bytes.extract header.codeOffset header.tableOffset).toList
  let reading ← ObjectCode.read mode { code, offsets := header.labelOffsets }
    (ObjectCode.entries entryLabels)
  let size : List Diagnostic :=
    if header.size = bytes.size then []
    else [{ notice := .scriptSize header.size bytes.size }]
  return ({ questId := header.questId
            language := header.language
            name := header.name
            shortDescription := header.shortDescription
            longDescription := header.longDescription
            segments := reading.segments
            shopItems := header.shopItems.map fun (n : Nat) => n },
          size ++ reading.diagnostics)

/-- Writes a script file.  Missing shop items are zero. -/
def write (f : ScriptFile) : Except Fault Bytes := do
  if shopItemCount < f.shopItems.length then throw .tooManyShopItems
  let stored ← ObjectCode.write f.segments
  let questId ← Field.u32 f.questId
  let language ← Field.u32 f.language
  let name ← Field.text f.name nameSize
  let shortDescription ← Field.text f.shortDescription shortDescriptionSize
  let longDescription ← Field.text f.longDescription longDescriptionSize
  let shopItems ← f.shopItems.mapM Field.u32
  let labelOffsets ← stored.offsets.mapM Field.i32
  let tableOffset := headerSize + stored.code.length
  let size := tableOffset + 4 * stored.offsets.length
  let ends := (← Field.u32 tableOffset) ++ (← Field.u32 size)
  return Word.encode 4 headerSize ++ ends ++ Word.encode 4 0xFFFFFFFF ++ questId ++ language ++
    name ++ shortDescription ++ longDescription ++ Field.zeros 4 ++ shopItems.flatten ++
    Field.zeros (4 * (shopItemCount - f.shopItems.length : Int)) ++ stored.code ++
    labelOffsets.flatten

end ScriptFile
end QuestArchive
