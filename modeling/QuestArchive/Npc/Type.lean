/-!
The identities of characters that are not players: the people of the town and the
monsters of each episode.
-/

namespace QuestArchive

inductive NpcType where
  | unknown
  -- The town.
  | femaleFat | femaleMacho | femaleTall | maleDwarf | maleFat | maleMacho | maleOld
  | blueSoldier | redSoldier | principal | tekker | guildLady | scientist | nurse | irene
  | itemShop | nurse2
  -- The first episode.
  | hildebear | hildeblue | ragRappy | alRappy | monest | mothmant | savageWolf
  | barbarousWolf | booma | gobooma | gigobooma | dragon | grassAssassin | poisonLily
  | narLily | nanoDragon | evilShark | palShark | guilShark | pofuillySlime | pouillySlime
  | panArms | deRolLe | dubchic | gilchic | garanz | sinowBeat | sinowGold | canadine
  | canane | dubswitch | volOpt | delsaber | chaosSorcerer | darkGunner | deathGunner
  | chaosBringer | darkBelra | dimenian | laDimenian | soDimenian | bulclaw | bulk | claw
  | darkFalz
  -- The second episode.
  | hildebear2 | hildeblue2 | ragRappy2 | loveRappy | stRappy | halloRappy | eggRappy
  | monest2 | poisonLily2 | narLily2 | grassAssassin2 | dimenian2 | laDimenian2
  | soDimenian2 | darkBelra2 | barbaRay | savageWolf2 | barbarousWolf2 | panArms2
  | dubchic2 | gilchic2 | garanz2 | dubswitch2 | delsaber2 | chaosSorcerer2 | golDragon
  | sinowBerill | sinowSpigell | merillia | meriltas | mericarol | mericus | merikle
  | ulGibbon | zolGibbon | gibbles | gee | giGue | galGryphon | deldepth | delbiter
  | dolmolm | dolmdarl | morfos | recobox | recon | epsilon | sinowZoa | sinowZele
  | illGill | delLily | olgaFlow
  -- The fourth episode.
  | sandRappy | delRappy | astark | satelliteLizard | yowie | merissaA | merissaAA
  | girtablulu | zu | pazuzu | boota | zeBoota | baBoota | dorphon | dorphonEclair | goran
  | pyroGoran | goranDetonator | saintMilion | shambertin | kondrieu
  deriving DecidableEq, Repr

namespace NpcType

def all : List NpcType :=
  [unknown, femaleFat, femaleMacho, femaleTall, maleDwarf, maleFat, maleMacho, maleOld,
   blueSoldier, redSoldier, principal, tekker, guildLady, scientist, nurse, irene,
   itemShop, nurse2, hildebear, hildeblue, ragRappy, alRappy, monest, mothmant, savageWolf,
   barbarousWolf, booma, gobooma, gigobooma, dragon, grassAssassin, poisonLily, narLily,
   nanoDragon, evilShark, palShark, guilShark, pofuillySlime, pouillySlime, panArms,
   deRolLe, dubchic, gilchic, garanz, sinowBeat, sinowGold, canadine, canane, dubswitch,
   volOpt, delsaber, chaosSorcerer, darkGunner, deathGunner, chaosBringer, darkBelra,
   dimenian, laDimenian, soDimenian, bulclaw, bulk, claw, darkFalz, hildebear2, hildeblue2,
   ragRappy2, loveRappy, stRappy, halloRappy, eggRappy, monest2, poisonLily2, narLily2,
   grassAssassin2, dimenian2, laDimenian2, soDimenian2, darkBelra2, barbaRay, savageWolf2,
   barbarousWolf2, panArms2, dubchic2, gilchic2, garanz2, dubswitch2, delsaber2,
   chaosSorcerer2, golDragon, sinowBerill, sinowSpigell, merillia, meriltas, mericarol,
   mericus, merikle, ulGibbon, zolGibbon, gibbles, gee, giGue, galGryphon, deldepth,
   delbiter, dolmolm, dolmdarl, morfos, recobox, recon, epsilon, sinowZoa, sinowZele,
   illGill, delLily, olgaFlow, sandRappy, delRappy, astark, satelliteLizard, yowie,
   merissaA, merissaAA, girtablulu, zu, pazuzu, boota, zeBoota, baBoota, dorphon,
   dorphonEclair, goran, pyroGoran, goranDetonator, saintMilion, shambertin, kondrieu]

def name : NpcType → String
  | unknown => "Unknown"
  | femaleFat => "FemaleFat"
  | femaleMacho => "FemaleMacho"
  | femaleTall => "FemaleTall"
  | maleDwarf => "MaleDwarf"
  | maleFat => "MaleFat"
  | maleMacho => "MaleMacho"
  | maleOld => "MaleOld"
  | blueSoldier => "BlueSoldier"
  | redSoldier => "RedSoldier"
  | principal => "Principal"
  | tekker => "Tekker"
  | guildLady => "GuildLady"
  | scientist => "Scientist"
  | nurse => "Nurse"
  | irene => "Irene"
  | itemShop => "ItemShop"
  | nurse2 => "Nurse2"
  | hildebear => "Hildebear"
  | hildeblue => "Hildeblue"
  | ragRappy => "RagRappy"
  | alRappy => "AlRappy"
  | monest => "Monest"
  | mothmant => "Mothmant"
  | savageWolf => "SavageWolf"
  | barbarousWolf => "BarbarousWolf"
  | booma => "Booma"
  | gobooma => "Gobooma"
  | gigobooma => "Gigobooma"
  | dragon => "Dragon"
  | grassAssassin => "GrassAssassin"
  | poisonLily => "PoisonLily"
  | narLily => "NarLily"
  | nanoDragon => "NanoDragon"
  | evilShark => "EvilShark"
  | palShark => "PalShark"
  | guilShark => "GuilShark"
  | pofuillySlime => "PofuillySlime"
  | pouillySlime => "PouillySlime"
  | panArms => "PanArms"
  | deRolLe => "DeRolLe"
  | dubchic => "Dubchic"
  | gilchic => "Gilchic"
  | garanz => "Garanz"
  | sinowBeat => "SinowBeat"
  | sinowGold => "SinowGold"
  | canadine => "Canadine"
  | canane => "Canane"
  | dubswitch => "Dubswitch"
  | volOpt => "VolOpt"
  | delsaber => "Delsaber"
  | chaosSorcerer => "ChaosSorcerer"
  | darkGunner => "DarkGunner"
  | deathGunner => "DeathGunner"
  | chaosBringer => "ChaosBringer"
  | darkBelra => "DarkBelra"
  | dimenian => "Dimenian"
  | laDimenian => "LaDimenian"
  | soDimenian => "SoDimenian"
  | bulclaw => "Bulclaw"
  | bulk => "Bulk"
  | claw => "Claw"
  | darkFalz => "DarkFalz"
  | hildebear2 => "Hildebear2"
  | hildeblue2 => "Hildeblue2"
  | ragRappy2 => "RagRappy2"
  | loveRappy => "LoveRappy"
  | stRappy => "StRappy"
  | halloRappy => "HalloRappy"
  | eggRappy => "EggRappy"
  | monest2 => "Monest2"
  | poisonLily2 => "PoisonLily2"
  | narLily2 => "NarLily2"
  | grassAssassin2 => "GrassAssassin2"
  | dimenian2 => "Dimenian2"
  | laDimenian2 => "LaDimenian2"
  | soDimenian2 => "SoDimenian2"
  | darkBelra2 => "DarkBelra2"
  | barbaRay => "BarbaRay"
  | savageWolf2 => "SavageWolf2"
  | barbarousWolf2 => "BarbarousWolf2"
  | panArms2 => "PanArms2"
  | dubchic2 => "Dubchic2"
  | gilchic2 => "Gilchic2"
  | garanz2 => "Garanz2"
  | dubswitch2 => "Dubswitch2"
  | delsaber2 => "Delsaber2"
  | chaosSorcerer2 => "ChaosSorcerer2"
  | golDragon => "GolDragon"
  | sinowBerill => "SinowBerill"
  | sinowSpigell => "SinowSpigell"
  | merillia => "Merillia"
  | meriltas => "Meriltas"
  | mericarol => "Mericarol"
  | mericus => "Mericus"
  | merikle => "Merikle"
  | ulGibbon => "UlGibbon"
  | zolGibbon => "ZolGibbon"
  | gibbles => "Gibbles"
  | gee => "Gee"
  | giGue => "GiGue"
  | galGryphon => "GalGryphon"
  | deldepth => "Deldepth"
  | delbiter => "Delbiter"
  | dolmolm => "Dolmolm"
  | dolmdarl => "Dolmdarl"
  | morfos => "Morfos"
  | recobox => "Recobox"
  | recon => "Recon"
  | epsilon => "Epsilon"
  | sinowZoa => "SinowZoa"
  | sinowZele => "SinowZele"
  | illGill => "IllGill"
  | delLily => "DelLily"
  | olgaFlow => "OlgaFlow"
  | sandRappy => "SandRappy"
  | delRappy => "DelRappy"
  | astark => "Astark"
  | satelliteLizard => "SatelliteLizard"
  | yowie => "Yowie"
  | merissaA => "MerissaA"
  | merissaAA => "MerissaAA"
  | girtablulu => "Girtablulu"
  | zu => "Zu"
  | pazuzu => "Pazuzu"
  | boota => "Boota"
  | zeBoota => "ZeBoota"
  | baBoota => "BaBoota"
  | dorphon => "Dorphon"
  | dorphonEclair => "DorphonEclair"
  | goran => "Goran"
  | pyroGoran => "PyroGoran"
  | goranDetonator => "GoranDetonator"
  | saintMilion => "SaintMilion"
  | shambertin => "Shambertin"
  | kondrieu => "Kondrieu"

def ofName? (name : String) : Option NpcType := all.find? (·.name = name)

end NpcType
end QuestArchive
