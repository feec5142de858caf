import QuestArchive.Number.Numeral

/-!
The types of objects: their names, and the names of their seven properties.  A property
that holds a label of the script has a name that says so; the others are numbered.
-/

namespace QuestArchive
namespace ObjectType

def names : List (Int × String) :=
  [(0x000, "Player Set"),
   (0x001, "Particle"),
   (0x002, "Teleporter"),
   (0x003, "Warp"),
   (0x004, "Light Collision"),
   (0x005, "Item"),
   (0x006, "Env Sound"),
   (0x007, "Fog Collision"),
   (0x008, "Event Collision"),
   (0x009, "Chara Collision"),
   (0x00A, "Elemental Trap"),
   (0x00B, "Status Trap"),
   (0x00C, "Heal Trap"),
   (0x00D, "Large Elemental Trap"),
   (0x00E, "Obj Room Id"),
   (0x00F, "Sensor"),
   (0x011, "Lensflare"),
   (0x012, "Script Collision"),
   (0x013, "Heal Ring"),
   (0x014, "Map Collision"),
   (0x015, "Script Collision A"),
   (0x016, "Item Light"),
   (0x017, "Radar Collision"),
   (0x018, "Fog Collision Sw"),
   (0x019, "Boss Teleporter"),
   (0x01A, "Image Board"),
   (0x01B, "Quest Warp"),
   (0x01C, "Epilogue"),
   (0x020, "Box Detect Object"),
   (0x021, "Symbol Chat Object"),
   (0x022, "Touch Plate Object"),
   (0x023, "Targetable Object"),
   (0x024, "Effect Object"),
   (0x025, "Count Down Object"),
   (0x040, "Menu Activation"),
   (0x041, "Telepipe Location"),
   (0x042, "Bgm Collision"),
   (0x043, "Main Ragol Teleporter"),
   (0x044, "Lobby Teleporter"),
   (0x045, "Principal Warp"),
   (0x046, "Shop Door"),
   (0x047, "Hunters Guild Door"),
   (0x048, "Teleporter Door"),
   (0x049, "Medical Center Door"),
   (0x04A, "Elevator"),
   (0x080, "Forest Door"),
   (0x081, "Forest Switch"),
   (0x082, "Laser Fence"),
   (0x083, "Laser Square Fence"),
   (0x084, "Forest Laser Fence Switch"),
   (0x085, "Light Rays"),
   (0x086, "Blue Butterfly"),
   (0x087, "Probe"),
   (0x088, "Random Type Box 1"),
   (0x089, "Forest Weather Station"),
   (0x08A, "Battery"),
   (0x08B, "Forest Console"),
   (0x08C, "Black Sliding Door"),
   (0x08D, "Rico Message Pod"),
   (0x228, "Talk Link To Support")]

def name (typeId : Int) : String :=
  match names.find? (·.1 = typeId) with
  | some row => row.2
  | none => "Unknown object " ++ Numeral.hexText 5 typeId

/-- The properties that hold labels, by type and place. -/
def labelSlots : List (Int × Nat × String) :=
  [(0x012, 3, "script_label"),
   (0x08B, 3, "script_label"),
   (0x228, 3, "script_label"),
   (0x08D, 4, "script_label"),
   (0x08D, 5, "script_label_2")]

def labelNames : List String := ["script_label", "script_label_2"]

def propertyCount : Nat := 7

def propertyName (typeId : Int) (place : Nat) : String :=
  match labelSlots.find? fun slot => slot.1 = typeId && slot.2.1 = place with
  | some slot => slot.2.2
  | none => "property_" ++ Numeral.decimalText place

def propertyNames (typeId : Int) : List String :=
  (List.range propertyCount).map (propertyName typeId)

end ObjectType
end QuestArchive
