import QuestArchive.Entity.Table
import QuestArchive.Quest.Inhabitant
import QuestArchive.Quest.Outline

/-!
Quests.  The episode and the map variants are not part of a quest: they are read from
its script, so that they cannot contradict it.
-/

namespace QuestArchive

structure Quest where
  id : Int
  language : Int
  name : Text
  shortDescription : Text
  longDescription : Text
  objects : List QuestObject := []
  npcs : List QuestNpc := []
  /-- Sections of the entity table that are kept as they are. -/
  kept : List Entity.KeptSection := []
  segments : List Segment := []
  shopItems : List Int := []
  deriving DecidableEq, Repr

structure QuestOptions where
  lenient : Bool := false
  /-- The longest name of the archive's files without their extension. -/
  baseNameLength : Int := 11
  secondNameSuffix : String := "_j"
  tolerance : Double := NpcTraits.defaultTolerance
  deriving DecidableEq, Repr

namespace Quest

def episode (q : Quest) : Except Fault Episode := Script.episode q.segments

def designations (q : Quest) : Except Fault (List (Value × Value)) :=
  Script.designations q.segments

/-- Changes an item at an index; a negative index counts from the end. -/
def changeAt (index : Int) (change : α → Except Fault α) (items : List α) :
    Except Fault (List α) :=
  let place := if index < 0 then index + items.length else index
  match if place < 0 then none else items[place.toNat]? with
  | none => .error (.noEntity index)
  | some item => do return items.set place.toNat (← change item)

def changeNpc (q : Quest) (index : Int) (change : QuestNpc → Except Fault QuestNpc) :
    Except Fault Quest := do
  return { q with npcs := ← changeAt index change q.npcs }

def changeObject (q : Quest) (index : Int) (change : QuestObject → Except Fault QuestObject) :
    Except Fault Quest := do
  return { q with objects := ← changeAt index change q.objects }

end Quest
end QuestArchive
