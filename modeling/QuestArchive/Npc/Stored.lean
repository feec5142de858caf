import QuestArchive.Npc.Identity

/-!
How an identity is stored: the type code, the roaming value, and whether the scale is
regular.  Some identities can be told apart in a quest but have no stored form.
-/

namespace QuestArchive

structure StoredIdentity where
  typeId : Int
  roaming : Int
  regular : Bool
  deriving DecidableEq, Repr

namespace StoredIdentity

def plain (typeId roaming : Int) : StoredIdentity := ⟨typeId, roaming, true⟩

def special (typeId roaming : Int) : StoredIdentity := ⟨typeId, roaming, false⟩

def table : List (NpcType × StoredIdentity) :=
  [(.femaleFat, plain 0x004 0),
   (.femaleMacho, plain 0x005 0),
   (.femaleTall, plain 0x007 0),
   (.maleDwarf, plain 0x00A 0),
   (.maleFat, plain 0x00B 0),
   (.maleMacho, plain 0x00C 0),
   (.maleOld, plain 0x00D 0),
   (.blueSoldier, plain 0x019 0),
   (.redSoldier, plain 0x01A 0),
   (.principal, plain 0x01B 0),
   (.tekker, plain 0x01C 0),
   (.guildLady, plain 0x01D 0),
   (.scientist, plain 0x01E 0),
   (.nurse, plain 0x01F 0),
   (.irene, plain 0x020 0),
   (.itemShop, plain 0x0F1 0),
   (.nurse2, plain 0x0FE 0),
   (.hildebear, plain 0x040 0),
   (.hildeblue, plain 0x040 1),
   (.ragRappy, plain 0x041 0),
   (.alRappy, plain 0x041 1),
   (.monest, plain 0x042 0),
   (.savageWolf, plain 0x043 0),
   (.barbarousWolf, special 0x043 0),
   (.booma, plain 0x044 0),
   (.gobooma, plain 0x044 1),
   (.gigobooma, plain 0x044 2),
   (.dragon, plain 0x0C0 0),
   (.grassAssassin, plain 0x060 0),
   (.poisonLily, plain 0x061 0),
   (.narLily, special 0x061 0),
   (.nanoDragon, plain 0x062 0),
   (.evilShark, plain 0x063 0),
   (.palShark, plain 0x063 1),
   (.guilShark, plain 0x063 2),
   (.pofuillySlime, plain 0x064 0),
   (.pouillySlime, special 0x064 0),
   (.panArms, plain 0x065 0),
   (.deRolLe, plain 0x0C1 0),
   (.dubchic, plain 0x080 0),
   (.gilchic, plain 0x080 1),
   (.garanz, plain 0x081 0),
   (.sinowBeat, plain 0x082 0),
   (.sinowGold, special 0x082 0),
   (.canadine, plain 0x083 0),
   (.canane, plain 0x084 0),
   (.dubswitch, plain 0x085 0),
   (.volOpt, plain 0x0C5 0),
   (.delsaber, plain 0x0A0 0),
   (.chaosSorcerer, plain 0x0A1 0),
   (.darkGunner, plain 0x0A2 0),
   (.chaosBringer, plain 0x0A4 0),
   (.darkBelra, plain 0x0A5 0),
   (.dimenian, plain 0x0A6 0),
   (.laDimenian, plain 0x0A6 1),
   (.soDimenian, plain 0x0A6 2),
   (.bulclaw, plain 0x0A7 0),
   (.claw, plain 0x0A8 0),
   (.darkFalz, plain 0x0C8 0),
   (.hildebear2, plain 0x040 0),
   (.hildeblue2, plain 0x040 1),
   (.ragRappy2, plain 0x041 0),
   (.loveRappy, plain 0x041 1),
   (.monest2, plain 0x042 0),
   (.poisonLily2, plain 0x061 0),
   (.narLily2, special 0x061 0),
   (.grassAssassin2, plain 0x060 0),
   (.dimenian2, plain 0x0A6 0),
   (.laDimenian2, plain 0x0A6 1),
   (.soDimenian2, plain 0x0A6 2),
   (.darkBelra2, plain 0x0A5 0),
   (.barbaRay, plain 0x0CB 0),
   (.savageWolf2, plain 0x043 0),
   (.barbarousWolf2, special 0x043 0),
   (.panArms2, plain 0x065 0),
   (.dubchic2, plain 0x080 0),
   (.gilchic2, plain 0x080 1),
   (.garanz2, plain 0x081 0),
   (.dubswitch2, plain 0x085 0),
   (.delsaber2, plain 0x0A0 0),
   (.chaosSorcerer2, plain 0x0A1 0),
   (.golDragon, plain 0x0CC 0),
   (.sinowBerill, plain 0x0D4 0),
   (.sinowSpigell, plain 0x0D4 1),
   (.merillia, plain 0x0D5 0),
   (.meriltas, plain 0x0D5 1),
   (.mericarol, plain 0x0D6 0),
   (.mericus, plain 0x0D6 1),
   (.merikle, plain 0x0D6 2),
   (.ulGibbon, plain 0x0D7 0),
   (.zolGibbon, plain 0x0D7 1),
   (.gibbles, plain 0x0D8 0),
   (.gee, plain 0x0D9 0),
   (.giGue, plain 0x0DA 0),
   (.galGryphon, plain 0x0C0 0),
   (.deldepth, plain 0x0DB 0),
   (.delbiter, plain 0x0DC 0),
   (.dolmolm, plain 0x0DD 0),
   (.dolmdarl, plain 0x0DD 1),
   (.morfos, plain 0x0DE 0),
   (.recobox, plain 0x0DF 0),
   (.epsilon, plain 0x0E0 0),
   (.sinowZoa, plain 0x0E0 0),
   (.sinowZele, plain 0x0E0 1),
   (.illGill, plain 0x0E1 0),
   (.delLily, plain 0x061 0),
   (.olgaFlow, plain 0x0CA 0),
   (.sandRappy, plain 0x041 0),
   (.delRappy, plain 0x041 1),
   (.astark, plain 0x110 0),
   (.satelliteLizard, plain 0x111 0),
   (.yowie, special 0x111 0),
   (.merissaA, plain 0x112 0),
   (.merissaAA, plain 0x112 1),
   (.girtablulu, plain 0x113 0),
   (.zu, plain 0x114 0),
   (.pazuzu, plain 0x114 1),
   (.boota, plain 0x115 0),
   (.zeBoota, plain 0x115 1),
   (.baBoota, plain 0x115 2),
   (.dorphon, plain 0x116 0),
   (.dorphonEclair, plain 0x116 1),
   (.goran, plain 0x117 0),
   (.pyroGoran, plain 0x117 1),
   (.goranDetonator, plain 0x117 2),
   (.saintMilion, plain 0x119 0),
   (.shambertin, plain 0x119 1),
   (.kondrieu, special 0x119 0)]

end StoredIdentity

namespace NpcType

def ofName (name : String) : Except Fault NpcType :=
  match ofName? name with
  | some type => .ok type
  | none => .error (.unknownNpc name)

def stored? (type : NpcType) : Option StoredIdentity :=
  (StoredIdentity.table.find? (·.1 = type)).map (·.2)

/-- The stored form of an identity.  The unknown identity asks for none. -/
def stored (type : NpcType) : Except Fault (Option StoredIdentity) :=
  if type = .unknown then .ok none
  else
    match type.stored? with
    | some s => .ok (some s)
    | none => .error (.npcWithoutData type.name)

end NpcType

/-- The bit of the vertical scale, in single precision, that a special NPC has set. -/
def specialBit : UInt32 := 0x800000

def Vec3.withRegular (scale : Vec3) (regular : Bool) : Except Fault Vec3 :=
  match scale.y.toSingle? with
  | none => .error .tooLarge
  | some s =>
    let y := (s &&& ~~~specialBit) ||| (if regular then 0 else specialBit)
    .ok { scale with y := .ofSingle y }

end QuestArchive
