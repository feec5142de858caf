import QuestArchive.Diagnostic
import QuestArchive.Entity.Record
import QuestArchive.Entity.Section

/-!
The entity table: objects, NPCs, and the sections that are kept as they are.

Writing puts the objects and then the NPCs into one section per area, ascending, and
keeps the order within an area.  Bytes behind the last whole record of a section are
kept as a section of their own.
-/

namespace QuestArchive
namespace Entity

/-- A section kept byte for byte, with the sizes that its header states. -/
structure KeptSection where
  entityType : Int
  totalSize : Int
  areaId : Int
  entitiesSize : Int
  data : Bytes
  deriving DecidableEq, Repr

structure Table where
  objects : List ObjectRecord := []
  npcs : List NpcRecord := []
  kept : List KeptSection := []
  diagnostics : List Diagnostic := []
  deriving DecidableEq, Repr

def objectKind : Nat := 1

def npcKind : Nat := 2

def KeptSection.ofBody (kind area : Nat) (body : Bytes) : KeptSection :=
  { entityType := kind
    totalSize := body.length + sectionHeaderSize
    areaId := area
    entitiesSize := body.length
    data := body }

def readRecords (read : Read α) (size : Nat) (body : Bytes) : Except Fault (List α) :=
  (Read.groups size (body.length / size) body).mapM fun record =>
    Read.within (.whole record.toArray) read

/-- What is left of a body behind its records, and the notice of it. -/
def leftover (s : Section) (size : Nat) : List KeptSection × List Diagnostic :=
  let rest := s.body.length % size
  if rest = 0 then ([], [])
  else
    ([.ofBody s.kind s.area (s.body.drop (s.body.length - rest))],
      [{ notice := .sectionRemainder (s.kind = objectKind) s.area size rest }])

namespace Table

def ofSection (s : Section) : Except Fault Table :=
  if s.kind = objectKind then do
    let objects ← readRecords (ObjectRecord.read s.area) objectSize s.body
    let rest := leftover s objectSize
    return { objects, kept := rest.1, diagnostics := rest.2 }
  else if s.kind = npcKind then do
    let npcs ← readRecords (NpcRecord.read s.area) npcSize s.body
    let rest := leftover s npcSize
    return { npcs, kept := rest.1, diagnostics := rest.2 }
  else return { kept := [.ofBody s.kind s.area s.body] }

def concat (tables : List Table) : Table :=
  { objects := tables.flatMap (·.objects)
    npcs := tables.flatMap (·.npcs)
    kept := tables.flatMap (·.kept)
    diagnostics := tables.flatMap (·.diagnostics) }

def read (data : Bytes) : Except Fault Table := do
  let sections ← Section.readAll (.whole data.toArray) #[]
  return concat (← sections.mapM ofSection)

end Table

def groupByArea (area : α → Int) (entities : List α) : List (Int × List α) :=
  let areas := (entities.map area).eraseDups.mergeSort
  areas.map fun a => (a, entities.filter (area · = a))

def sectionHeader (kind : Nat) (area : Int) (size : Nat) : Except Fault Bytes := do
  let kind ← Field.u32 kind
  let total ← Field.u32 (size + sectionHeaderSize : Nat)
  let area ← Field.u32 area
  let size ← Field.u32 size
  return kind ++ total ++ area ++ size

def writeGroup (kind size : Nat) (write : α → Except Fault Bytes) (group : Int × List α) :
    Except Fault Bytes := do
  let header ← sectionHeader kind group.1 (group.2.length * size)
  let records ← group.2.mapM write
  return header ++ records.flatten

def KeptSection.write (s : KeptSection) : Except Fault Bytes := do
  let kind ← Field.u32 s.entityType
  let total ← Field.u32 s.totalSize
  let area ← Field.u32 s.areaId
  let size ← Field.u32 s.entitiesSize
  return kind ++ total ++ area ++ size ++ s.data

def Table.write (t : Table) : Except Fault Bytes := do
  let objects ← (groupByArea (·.areaId) t.objects).mapM
    (writeGroup objectKind objectSize ObjectRecord.write)
  let npcs ← (groupByArea (·.areaId) t.npcs).mapM (writeGroup npcKind npcSize NpcRecord.write)
  let kept ← t.kept.mapM (·.write)
  return objects.flatten ++ npcs.flatten ++ kept.flatten ++ Field.zeros sectionHeaderSize

end Entity
end QuestArchive
