import QuestArchive.Quest.Summary
import QuestArchive.Script.Listing
import QuestArchive.Shell.Tool

/-!
The command that shows a quest: a summary, the warnings, and the parts asked for.
-/

namespace QuestArchive
namespace Shell
namespace Dump

def lenient : Flag := { long := "--lenient" }

def objects : Flag := { long := "--objects" }

def npcs : Flag := { long := "--npcs" }

def script : Flag := { long := "--script" }

def flags : List Flag := [lenient, objects, npcs, script, verbose]

def maxOperands : Nat := 1

/-- The sections of the output, the ones that were asked for or all of them. -/
def sections (a : Arguments) (r : Quest.Reading) : List (Except Fault (List Text)) :=
  let all := !(a.has objects || a.has npcs || a.has script)
  let warnings := r.diagnostics.map fun d => Text.ofString ("  - " ++ d.render)
  let part (f : Flag) (title : String) (lines : Except Fault (List Text)) :=
    if all || a.has f then [.ok [[], Text.ofString title], lines] else []
  [r.quest.summary] ++
    (if warnings.isEmpty then []
      else
        [.ok ([[], Text.ofString (Numeral.countText warnings ++ " warnings:")] ++ warnings)]) ++
    part objects "Objects:" r.quest.objectLines ++
    part npcs "NPCs:" (.ok r.quest.npcLines) ++
    part script "Script:" (Script.listing r.quest.segments)

/-- Prints sections up to the first one that cannot be made. -/
def printSections (d : Directory) : List (Except Fault (List Text)) → Outcome
  | [] => { output := [], directory := d, status := .ok 0 }
  | .error f :: _ => { output := [], directory := d, status := .error f }
  | .ok lines :: rest => (printSections d rest).after lines

def run (d : Directory) (args : List String) : Outcome :=
  match Arguments.parse? flags maxOperands args with
  | none => .usage d
  | some a =>
    match readQuest d (a.operands.headD "") { lenient := a.has lenient } with
    | .error f => .fail d isReadFault f
    | .ok r => printSections d (sections a r)

end Dump
end Shell
end QuestArchive
