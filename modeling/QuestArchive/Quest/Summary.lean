import QuestArchive.Quest.Basic

/-!
A quest as lines for a reader.
-/

namespace QuestArchive
namespace Quest

def languages : List String := ["Japanese", "English", "German", "French", "Spanish"]

def languageName (language : Int) : String :=
  let known := if language < 0 then none else languages[language.toNat]?
  known.getD ("unknown (" ++ Numeral.decimalText language ++ ")")

def summary (q : Quest) : Except Fault (List Text) := do
  let episode ← q.episode
  let designations ← q.designations
  let shopItems := q.shopItems.filter (· ≠ 0)
  let designated := designations.map fun d =>
    d.1.plain ++ Text.ofString "→" ++ d.2.plain
  return [
      .ofString ("Quest " ++ Numeral.decimalText q.id ++ ": ") ++ q.name,
      .ofString ("  Language: " ++ languageName q.language),
      .ofString ("  Episode: " ++ episode.numeral),
      .ofString "  Short description: " ++ q.shortDescription,
      .ofString ("  Objects: " ++ Numeral.countText q.objects ++
        ", NPCs: " ++ Numeral.countText q.npcs ++
        ", unknown DAT sections: " ++ Numeral.countText q.kept),
      .ofString ("  Segments: " ++ Numeral.countText q.segments)] ++
    (if designated.isEmpty then []
      else [.ofString "  Map designations: " ++ Text.join (.ofString ", ") designated]) ++
    (if shopItems.isEmpty then []
      else [.ofString ("  Shop items: " ++ Numeral.countText shopItems)])

def objectLine (o : QuestObject) : Except Fault Text := do
  let labels ← o.scriptLabels
  let referred :=
    if labels.isEmpty then ""
    else " script " ++ ", ".intercalate (labels.map Numeral.decimalText)
  return .ofString ("  [area " ++ Numeral.padLeft 2 o.areaId ++ "] " ++ o.typeName ++ " (id " ++
    Numeral.decimalText o.id ++ ", section " ++ Numeral.decimalText o.sectionId ++ ")" ++ referred)

def objectLines (q : Quest) : Except Fault (List Text) := q.objects.mapM objectLine

def npcLines (q : Quest) : List Text :=
  let names := q.npcs.map (·.type.name)
  (names.eraseDups.mergeSort fun a b => decide (a ≤ b)).map fun name =>
    .ofString ("  " ++ name ++ ": " ++ Numeral.decimalText (names.count name))

end Quest
end QuestArchive
