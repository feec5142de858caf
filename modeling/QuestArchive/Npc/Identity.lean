import QuestArchive.Bytes.Read
import QuestArchive.Npc.Type
import QuestArchive.Number.Numeral

/-!
Which identity a stored NPC has.

A record does not say what it is a record of.  That follows from its type code, its
roaming value and the episode, and for some codes from its scale or its area.  The code
and the roaming value modulo three are looked up first, then the code and the roaming
value modulo two, then the code alone.
-/

namespace QuestArchive

inductive Episode where
  | one
  | two
  | four
  deriving DecidableEq, Repr

def Episode.numeral : Episode → String
  | one => "I"
  | two => "II"
  | four => "IV"

inductive Identity where
  | only (type : NpcType)
  /-- Depends on whether the scale is regular. -/
  | byScale (regular special : NpcType)
  /-- One type in the deep areas, something else above them. -/
  | byArea (deep : NpcType) (shallow : Identity)
  deriving DecidableEq, Repr

/-- The parts of a record that its identity depends on. -/
structure NpcTraits where
  typeId : Int
  roaming : Int
  scale : Vec3
  areaId : Int
  deriving DecidableEq, Repr

namespace Identity

def lastShallowArea : Int := 15

def resolve (regular : Bool) (areaId : Int) : Identity → NpcType
  | only type => type
  | byScale type special => if regular then type else special
  | byArea deep shallow =>
    if lastShallowArea < areaId then deep else shallow.resolve regular areaId

/-- Families of three: code, roaming value modulo three, episode. -/
def familiesOfThree : List (Int × Int × Episode × Identity) :=
  [(0x044, 0, .one, .only .booma),
   (0x044, 1, .one, .only .gobooma),
   (0x044, 2, .one, .only .gigobooma),
   (0x063, 0, .one, .only .evilShark),
   (0x063, 1, .one, .only .palShark),
   (0x063, 2, .one, .only .guilShark),
   (0x0A6, 0, .one, .only .dimenian),
   (0x0A6, 0, .two, .only .dimenian2),
   (0x0A6, 1, .one, .only .laDimenian),
   (0x0A6, 1, .two, .only .laDimenian2),
   (0x0A6, 2, .one, .only .soDimenian),
   (0x0A6, 2, .two, .only .soDimenian2),
   (0x0D6, 0, .two, .only .mericarol),
   (0x0D6, 1, .two, .only .mericus),
   (0x0D6, 2, .two, .only .merikle),
   (0x115, 0, .four, .only .boota),
   (0x115, 1, .four, .only .zeBoota),
   (0x115, 2, .four, .only .baBoota),
   (0x117, 0, .four, .only .goran),
   (0x117, 1, .four, .only .pyroGoran),
   (0x117, 2, .four, .only .goranDetonator)]

/-- Families of two: code, roaming value modulo two, episode. -/
def familiesOfTwo : List (Int × Int × Episode × Identity) :=
  [(0x040, 0, .one, .only .hildebear),
   (0x040, 0, .two, .only .hildebear2),
   (0x040, 1, .one, .only .hildeblue),
   (0x040, 1, .two, .only .hildeblue2),
   (0x041, 0, .one, .only .ragRappy),
   (0x041, 0, .two, .only .ragRappy2),
   (0x041, 0, .four, .only .sandRappy),
   (0x041, 1, .one, .only .alRappy),
   (0x041, 1, .two, .only .loveRappy),
   (0x041, 1, .four, .only .delRappy),
   (0x080, 0, .one, .only .dubchic),
   (0x080, 0, .two, .only .dubchic2),
   (0x080, 1, .one, .only .gilchic),
   (0x080, 1, .two, .only .gilchic2),
   (0x0D4, 0, .two, .only .sinowBerill),
   (0x0D4, 1, .two, .only .sinowSpigell),
   (0x0D5, 0, .two, .only .merillia),
   (0x0D5, 1, .two, .only .meriltas),
   (0x0D7, 0, .two, .only .ulGibbon),
   (0x0D7, 1, .two, .only .zolGibbon),
   (0x0DD, 0, .two, .only .dolmolm),
   (0x0DD, 1, .two, .only .dolmdarl),
   (0x0E0, 0, .two, .byArea .epsilon (.only .sinowZoa)),
   (0x0E0, 1, .two, .byArea .epsilon (.only .sinowZele)),
   (0x112, 0, .four, .only .merissaA),
   (0x112, 1, .four, .only .merissaAA),
   (0x114, 0, .four, .only .zu),
   (0x114, 1, .four, .only .pazuzu),
   (0x116, 0, .four, .only .dorphon),
   (0x116, 1, .four, .only .dorphonEclair),
   (0x119, 0, .four, .byScale .saintMilion .kondrieu),
   (0x119, 1, .four, .byScale .shambertin .kondrieu)]

def byEpisode : List (Int × Episode × Identity) :=
  [(0x042, .one, .only .monest),
   (0x042, .two, .only .monest2),
   (0x043, .one, .byScale .savageWolf .barbarousWolf),
   (0x043, .two, .byScale .savageWolf2 .barbarousWolf2),
   (0x060, .one, .only .grassAssassin),
   (0x060, .two, .only .grassAssassin2),
   (0x061, .one, .byArea .delLily (.byScale .poisonLily .narLily)),
   (0x061, .two, .byArea .delLily (.byScale .poisonLily2 .narLily2)),
   (0x062, .one, .only .nanoDragon),
   (0x064, .one, .byScale .pofuillySlime .pouillySlime),
   (0x065, .one, .only .panArms),
   (0x065, .two, .only .panArms2),
   (0x081, .one, .only .garanz),
   (0x081, .two, .only .garanz2),
   (0x082, .one, .byScale .sinowBeat .sinowGold),
   (0x083, .one, .only .canadine),
   (0x084, .one, .only .canane),
   (0x085, .one, .only .dubswitch),
   (0x085, .two, .only .dubswitch2),
   (0x0A0, .one, .only .delsaber),
   (0x0A0, .two, .only .delsaber2),
   (0x0A1, .one, .only .chaosSorcerer),
   (0x0A1, .two, .only .chaosSorcerer2),
   (0x0A2, .one, .only .darkGunner),
   (0x0A4, .one, .only .chaosBringer),
   (0x0A5, .one, .only .darkBelra),
   (0x0A5, .two, .only .darkBelra2),
   (0x0A7, .one, .only .bulclaw),
   (0x0A8, .one, .only .claw),
   (0x0C0, .one, .only .dragon),
   (0x0C0, .two, .only .galGryphon),
   (0x0C1, .one, .only .deRolLe),
   (0x0C5, .one, .only .volOpt),
   (0x0C8, .one, .only .darkFalz),
   (0x0CA, .two, .only .olgaFlow),
   (0x0CB, .two, .only .barbaRay),
   (0x0CC, .two, .only .golDragon),
   (0x0D8, .two, .only .gibbles),
   (0x0D9, .two, .only .gee),
   (0x0DA, .two, .only .giGue),
   (0x0DB, .two, .only .deldepth),
   (0x0DC, .two, .only .delbiter),
   (0x0DE, .two, .only .morfos),
   (0x0DF, .two, .only .recobox),
   (0x0E1, .two, .only .illGill),
   (0x110, .four, .only .astark),
   (0x111, .four, .byScale .satelliteLizard .yowie),
   (0x113, .four, .only .girtablulu)]

def townspeople : List (Int × NpcType) :=
  [(0x004, .femaleFat),
   (0x005, .femaleMacho),
   (0x007, .femaleTall),
   (0x00A, .maleDwarf),
   (0x00B, .maleFat),
   (0x00C, .maleMacho),
   (0x00D, .maleOld),
   (0x019, .blueSoldier),
   (0x01A, .redSoldier),
   (0x01B, .principal),
   (0x01C, .tekker),
   (0x01D, .guildLady),
   (0x01E, .scientist),
   (0x01F, .nurse),
   (0x020, .irene),
   (0x0F1, .itemShop),
   (0x0FE, .nurse2)]

def inFamily? (table : List (Int × Int × Episode × Identity)) (typeId variant : Int)
    (episode : Episode) : Option Identity :=
  (table.find? fun row => row.1 = typeId && row.2.1 = variant && row.2.2.1 = episode).map
    (·.2.2.2)

def inEpisode? (typeId : Int) (episode : Episode) : Option Identity :=
  (byEpisode.find? fun row => row.1 = typeId && row.2.1 = episode).map (·.2.2)

def inTown? (typeId : Int) : Option Identity :=
  (townspeople.find? (·.1 = typeId)).map fun row => only row.2

def of (typeId roaming : Int) (episode : Episode) : Identity :=
  (inFamily? familiesOfThree typeId (roaming % 3) episode <|>
    inFamily? familiesOfTwo typeId (roaming % 2) episode <|>
    inEpisode? typeId episode <|> inTown? typeId).getD (only .unknown)

end Identity

namespace NpcTraits

/-- How far the vertical scale of a special NPC may be from one. -/
def defaultTolerance : Double := .ofDecimal false 1 (-5)

/-- Whether the vertical scale is further from one than the tolerance. -/
def isRegular (tolerance : Double) (t : NpcTraits) : Bool :=
  tolerance.lt t.scale.y.distanceFromOne

def identify (t : NpcTraits) (episode : Episode) (tolerance : Double) : NpcType :=
  (Identity.of t.typeId t.roaming episode).resolve (t.isRegular tolerance) t.areaId

end NpcTraits
end QuestArchive
