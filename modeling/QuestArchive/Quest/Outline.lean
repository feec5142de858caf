import QuestArchive.Diagnostic
import QuestArchive.Npc.Identity
import QuestArchive.Script.Instruction

/-!
What the script of a quest says about the quest: its episode, and which variant of a map
it uses in an area.  Both stand in the segment that runs first, the code of label zero.
-/

namespace QuestArchive
namespace Script

def startCode? (segments : List Segment) : Option (List Instruction) :=
  segments.findSome? fun
    | .code labels instructions => if labels.contains 0 then some instructions else none
    | _ => none

def argValue (i : Instruction) (place : Nat) : Except Fault Value :=
  match i.args[place]? with
  | none => .error .noArgument
  | some a => .ok a.value

def episodeCall? (code : List Instruction) : Option Instruction :=
  code.find? (·.opcode = Opcode.setEpisode)

def episodeOfIndex (index : Value) : Episode :=
  if index.equals (.int 1) then .two else if index.equals (.int 2) then .four else .one

/-- The episode that the first code sets; without that it is the first one. -/
def episode (segments : List Segment) : Except Fault Episode :=
  match (startCode? segments).bind episodeCall? with
  | none => .ok .one
  | some i => do return episodeOfIndex (← argValue i 0)

def designation (i : Instruction) : Except Fault (Value × Value) := do
  let area ← argValue i 0
  let variant ← argValue i 2
  return (area, variant)

/-- Designates a variant for an area, which keeps its place if it has one. -/
def designate (d : Value × Value) : List (Value × Value) → List (Value × Value)
  | [] => [d]
  | e :: rest => if e.1.equals d.1 then (e.1, d.2) :: rest else e :: designate d rest

/-- The variants of areas, areas ascending; the last call for an area counts. -/
def designations (segments : List Segment) : Except Fault (List (Value × Value)) := do
  let calls := ((startCode? segments).getD []).filter (·.opcode = Opcode.mapDesignate)
  let found := (← calls.mapM designation).foldl (fun found d => designate d found) []
  if 1 < found.length ∧ !found.all (·.1.isNumber) then throw .wrongKind
  return found.mergeSort fun d e => !e.1.precedes d.1

def episodeNotices (segments : List Segment) : List Notice :=
  if segments.isEmpty then [.noObjectCode]
  else
    match startCode? segments with
    | none => [.noStartSegment]
    | some code => if (episodeCall? code).isSome then [] else [.noEpisode]

end Script
end QuestArchive
