import QuestArchive.Entity.ObjectType
import QuestArchive.Entity.Record
import QuestArchive.Npc.Stored
import QuestArchive.Quest.Label

/-!
The objects and NPCs of a quest, with what their records only imply: the names of an
object's properties and the identity of an NPC.
-/

namespace QuestArchive

structure QuestObject where
  typeId : Int
  id : Int
  groupId : Int
  areaId : Int
  sectionId : Int
  position : Vec3
  rotation : Vec3
  /-- By name, each name once. -/
  properties : List (String × Value)
  unknown : List Bytes
  deriving DecidableEq, Repr

structure QuestNpc where
  type : NpcType
  /-- The type code as it was read, which an unknown NPC keeps. -/
  typeId : Int
  npcId : Double
  /-- A record's number that is not finite is no label. -/
  scriptLabel : Option Int
  roaming : Int
  areaId : Int
  sectionId : Int
  position : Vec3
  rotation : Vec3
  scale : Vec3
  unknown : List Bytes
  deriving DecidableEq, Repr

namespace QuestObject

def typeName (o : QuestObject) : String := ObjectType.name o.typeId

/-- Properties by name; a name that comes again keeps its place and takes the later
value. -/
def propertiesOf (pairs : List (String × Value)) : List (String × Value) :=
  (pairs.map (·.1)).eraseDups.filterMap fun name =>
    (pairs.reverse.find? (·.1 = name)).map fun pair => (name, pair.2)

def property? (o : QuestObject) (name : String) : Option Value :=
  (o.properties.find? (·.1 = name)).map (·.2)

def scriptLabels (o : QuestObject) : Except Fault (List Int) :=
  (ObjectType.labelNames.filterMap o.property?).mapM (·.label)

def ofRecord (r : Entity.ObjectRecord) : QuestObject :=
  { typeId := r.typeId
    id := r.id
    groupId := r.groupId
    areaId := r.areaId
    sectionId := r.sectionId
    position := r.position
    rotation := r.rotation
    properties := (ObjectType.propertyNames r.typeId).zip r.properties
    unknown := r.unknown }

/-- The record of an object, which must have the properties of its type and no other. -/
def toRecord (o : QuestObject) : Except Fault Entity.ObjectRecord :=
  let names := ObjectType.propertyNames o.typeId
  let own := o.properties.map (·.1)
  if names.all own.contains && own.all names.contains then
    .ok { typeId := o.typeId
          id := o.id
          groupId := o.groupId
          sectionId := o.sectionId
          position := o.position
          rotation := o.rotation
          properties := names.filterMap o.property?
          areaId := o.areaId
          unknown := o.unknown }
  else .error (.propertyNames o.typeId names own)

end QuestObject

namespace QuestNpc

def labelOf? (x : Double) : Option Int := if x.isFinite then some x.roundInt else none

def ofRecord (episode : Episode) (tolerance : Double) (r : Entity.NpcRecord) : QuestNpc :=
  let traits : NpcTraits := ⟨r.typeId, r.roaming, r.scale, r.areaId⟩
  { type := traits.identify episode tolerance
    typeId := r.typeId
    npcId := r.npcId
    scriptLabel := labelOf? r.scriptLabel
    roaming := r.roaming
    areaId := r.areaId
    sectionId := r.sectionId
    position := r.position
    rotation := r.rotation
    scale := r.scale
    unknown := r.unknown }

def traits (n : QuestNpc) : NpcTraits := ⟨n.typeId, n.roaming, n.scale, n.areaId⟩

/-- The traits that make a record an NPC's.  They stay as they are where they already
say what it is. -/
def storedTraits (n : QuestNpc) (episode : Episode) (tolerance : Double) :
    Except Fault NpcTraits := do
  if n.traits.identify episode tolerance = n.type then return n.traits
  else if n.type = .unknown then
    return { n.traits with scale := ← n.scale.withRegular true }
  else
    match n.type.stored? with
    | none => throw (.unstorableNpc n.type.name)
    | some s =>
      return { typeId := s.typeId, roaming := s.roaming
               scale := ← n.scale.withRegular s.regular, areaId := n.areaId }

def labelNumber (label : Option Int) : Except Fault Double :=
  match label with
  | none => .ok .nan
  | some n => Field.number n

def toRecord (episode : Episode) (tolerance : Double) (n : QuestNpc) :
    Except Fault Entity.NpcRecord := do
  let traits ← n.storedTraits episode tolerance
  let scriptLabel ← labelNumber n.scriptLabel
  return { typeId := traits.typeId
           sectionId := n.sectionId
           position := n.position
           rotation := n.rotation
           scale := traits.scale
           npcId := n.npcId
           scriptLabel
           roaming := traits.roaming
           areaId := n.areaId
           unknown := n.unknown }

end QuestNpc
end QuestArchive
