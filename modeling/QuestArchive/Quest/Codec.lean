import QuestArchive.Archive.Read
import QuestArchive.Archive.Write
import QuestArchive.Prs.Compress
import QuestArchive.Quest.Basic
import QuestArchive.Quest.ScriptFile
import QuestArchive.Text.Blank

/-!
Quests as archives.  An archive holds the compressed entity table and the compressed
script file of a quest.

The script is read from label zero and from every label that an object or an NPC refers
to, and its episode decides the identities of the NPCs.
-/

namespace QuestArchive
namespace Quest

/-- Whether a file's name has an extension, in any case and between any blanks. -/
def hasExtension (extension : String) (name : String) : Bool :=
  let name := Text.lower (Text.trim (.ofString name))
  (Text.ofString extension).isSuffixOf name

/-- The compressed entity table and script file of an archive; the last file of each
kind counts. -/
def parts (members : List Archive.Member) : Except Fault (Bytes × Bytes) :=
  match members.reverse.find? fun m => hasExtension ".dat" m.name with
  | none => .error .noEntityTable
  | some table =>
    match members.reverse.find? fun m => hasExtension ".bin" m.name with
    | none => .error .noScript
    | some script => .ok (table.data, script.data)

def labelNotices (npcs : List Entity.NpcRecord) : List Notice :=
  npcs.zipIdx.filterMap fun (npc, i) =>
    if npc.scriptLabel.isFinite then none else some (.npcScriptLabel i npc.scriptLabel)

def entryLabels (objects : List QuestObject) (npcs : List Entity.NpcRecord) :
    Except Fault (List Int) := do
  let fromObjects ← objects.mapM (·.scriptLabels)
  return 0 :: fromObjects.flatten ++ npcs.filterMap fun npc => QuestNpc.labelOf? npc.scriptLabel

structure Reading where
  quest : Quest
  version : Archive.Version
  diagnostics : List Diagnostic
  deriving DecidableEq, Repr

def read (data : Bytes) (options : QuestOptions) : Except Fault Reading := do
  let archive ← Archive.read data
  let (packedTable, packedScript) ← parts archive.members
  let table ← Entity.Table.read (← Prs.decompress packedTable)
  let objects := table.objects.map QuestObject.ofRecord
  let scriptData ← Prs.decompress packedScript
  let entries ← entryLabels objects table.npcs
  let mode := if options.lenient then .lenient else .strict
  let (script, scriptDiagnostics) ← ScriptFile.read mode scriptData entries
  let episode ← Script.episode script.segments
  let quest :=
    { id := script.questId
      language := script.language
      name := script.name
      shortDescription := script.shortDescription
      longDescription := script.longDescription
      objects
      npcs := table.npcs.map (QuestNpc.ofRecord episode options.tolerance)
      kept := table.kept
      segments := script.segments
      shopItems := script.shopItems }
  return { quest
           version := archive.version
           diagnostics := archive.diagnostics ++ table.diagnostics ++
             (labelNotices table.npcs).map ({ notice := · }) ++ scriptDiagnostics ++
             (Script.episodeNotices script.segments).map ({ notice := · }) }

/-- The name of a file without its extension, cut to a length; a negative length counts
from the end. -/
def baseName (fileName : String) (length : Int) : String :=
  let name := fileName.toList
  let extension := name.reverse.takeWhile (· ≠ '.')
  let stop : Int :=
    if extension.length = name.length then length
    else min length (name.length - extension.length - 1 : Nat)
  String.ofList (name.take (Cursor.clamp name.length stop))

def packed (q : Quest) (options : QuestOptions) (name : String) (data : Bytes) :
    Archive.NewMember :=
  { name
    data := Prs.compress data
    secondName := some (Archive.defaultSecondName name options.secondNameSuffix)
    questNo := some (q.id % 0x10000) }

def table (q : Quest) (options : QuestOptions) : Except Fault Entity.Table := do
  let episode ← q.episode
  let objects ← q.objects.mapM (·.toRecord)
  let npcs ← q.npcs.mapM (QuestNpc.toRecord episode options.tolerance)
  return { objects, npcs, kept := q.kept }

def scriptFile (q : Quest) : ScriptFile :=
  { questId := q.id
    language := q.language
    name := q.name
    shortDescription := q.shortDescription
    longDescription := q.longDescription
    segments := q.segments
    shopItems := q.shopItems }

def write (q : Quest) (fileName : String) (options : QuestOptions) : Except Fault Bytes := do
  let table ← (← q.table options).write
  let script ← q.scriptFile.write
  let name := baseName fileName options.baseNameLength
  Archive.write [q.packed options (name ++ ".dat") table, q.packed options (name ++ ".bin") script]

end Quest
end QuestArchive
