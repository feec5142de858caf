import QuestArchive.Value.Field

/-!
The two records of the entity table, as they are stored.

Object, 68 bytes: type, 6 uninterpreted bytes, id, group, section, 2 uninterpreted
bytes, position, rotation, seven properties.

NPC, 72 bytes: type, 10 uninterpreted bytes, section, 6 uninterpreted bytes, position,
rotation, scale, id, script label, roaming, 4 uninterpreted bytes.

An angle is stored as a signed count of units, of which 65535 make a full turn.
-/

namespace QuestArchive
namespace Angle

/-- The quotient of a full turn in radians and 65535. -/
def unit : Double := Double.div ⟨0x401921FB54442D18⟩ ⟨0x40EFFFE000000000⟩

def ofUnits (n : Int) : Except Fault Double := do
  return (← Field.number n).mul unit

/-- The nearest count, ties to even. -/
def toUnits (angle : Double) : Except Fault Int :=
  let q := angle.div unit
  if q.isNaN then .error .nanInteger
  else if q.isInfinite then .error .infiniteInteger
  else .ok q.roundInt

end Angle

namespace Entity

structure ObjectRecord where
  typeId : Int
  id : Int
  groupId : Int
  sectionId : Int
  position : Vec3
  /-- In radians. -/
  rotation : Vec3
  /-- Three numbers of single precision, then integers. -/
  properties : List Value
  areaId : Int
  unknown : List Bytes
  deriving DecidableEq, Repr

structure NpcRecord where
  typeId : Int
  sectionId : Int
  position : Vec3
  /-- In radians. -/
  rotation : Vec3
  scale : Vec3
  npcId : Double
  scriptLabel : Double
  roaming : Int
  areaId : Int
  unknown : List Bytes
  deriving DecidableEq, Repr

def objectSize : Nat := 68

def npcSize : Nat := 72

def readRotation : Read Vec3 := do
  match ← Read.i32Array 3 with
  | [x, y, z] =>
    return ⟨← .ofExcept (Angle.ofUnits x), ← .ofExcept (Angle.ofUnits y),
      ← .ofExcept (Angle.ofUnits z)⟩
  | _ => throw .cutField

def writeRotation (v : Vec3) : Except Fault Bytes := do
  let x ← Field.i32 (← Angle.toUnits v.x)
  let y ← Field.i32 (← Angle.toUnits v.y)
  let z ← Field.i32 (← Angle.toUnits v.z)
  return x ++ y ++ z

def spanAt (spans : List Bytes) (i : Nat) : Except Fault Bytes :=
  match spans[i]? with
  | some bs => .ok bs
  | none => .error .noSpan

namespace ObjectRecord

def read (area : Int) : Read ObjectRecord := do
  let typeId ← Read.u16
  let unknown1 ← Read.bytes 6
  let id ← Read.u16
  let groupId ← Read.u16
  let sectionId ← Read.u16
  let unknown2 ← Read.bytes 2
  let position ← Read.vec3
  let rotation ← readRotation
  let p0 ← Read.single
  let p1 ← Read.single
  let p2 ← Read.single
  let rest ← Read.u32Array 4
  return {
    typeId, id, groupId, sectionId, position, rotation
    properties := [.float p0, .float p1, .float p2] ++ rest.map fun (n : Nat) => .int n
    areaId := area
    unknown := [unknown1, unknown2] }

/-- The record of an object.  Its values are written as they are, whatever their
number: the first three properties as numbers, the others as integers. -/
def write (o : ObjectRecord) : Except Fault Bytes := do
  let typeId ← Field.u16 o.typeId
  let unknown1 ← spanAt o.unknown 0
  let id ← Field.u16 o.id
  let groupId ← Field.u16 o.groupId
  let sectionId ← Field.u16 o.sectionId
  let unknown2 ← spanAt o.unknown 1
  let position ← Field.vec3 o.position
  let rotation ← writeRotation o.rotation
  let numbers ← (o.properties.take 3).mapM (·.single)
  let integers ← (o.properties.drop 3).mapM (·.unsigned 4)
  return typeId ++ unknown1 ++ id ++ groupId ++ sectionId ++ unknown2 ++ position ++ rotation ++
    numbers.flatten ++ integers.flatten

end ObjectRecord

namespace NpcRecord

def read (area : Int) : Read NpcRecord := do
  let typeId ← Read.u16
  let unknown1 ← Read.bytes 10
  let sectionId ← Read.u16
  let unknown2 ← Read.bytes 6
  let position ← Read.vec3
  let rotation ← readRotation
  let scale ← Read.vec3
  let npcId ← Read.single
  let scriptLabel ← Read.single
  let roaming ← Read.u32
  let unknown3 ← Read.bytes 4
  return {
    typeId, sectionId, position, rotation, scale, npcId, scriptLabel, roaming
    areaId := area
    unknown := [unknown1, unknown2, unknown3] }

def write (n : NpcRecord) : Except Fault Bytes := do
  let typeId ← Field.u16 n.typeId
  let unknown1 ← spanAt n.unknown 0
  let sectionId ← Field.u16 n.sectionId
  let unknown2 ← spanAt n.unknown 1
  let position ← Field.vec3 n.position
  let rotation ← writeRotation n.rotation
  let scale ← Field.vec3 n.scale
  let npcId ← Field.single n.npcId
  let scriptLabel ← Field.single n.scriptLabel
  let roaming ← Field.u32 n.roaming
  let unknown3 ← spanAt n.unknown 2
  return typeId ++ unknown1 ++ sectionId ++ unknown2 ++ position ++ rotation ++ scale ++ npcId ++
    scriptLabel ++ roaming ++ unknown3

end NpcRecord
end Entity
end QuestArchive
