import QuestArchive.Script.Assemble
import QuestArchive.Script.Listing
import QuestArchive.Shell.Tool
import QuestArchive.Text.Lines

/-!
The command that puts an assembled source into a quest, or exports the source of a quest.
-/

namespace QuestArchive
namespace Shell
namespace Assemble

def outputFlag : Flag := { long := "--output", short := some 'o', takesValue := true }

def exportFlag : Flag := { long := "--export", takesValue := true }

def flags : List Flag := [outputFlag, exportFlag, verbose]

def maxOperands : Nat := 2

def chars (data : Bytes) : Except Fault (List Char) :=
  match String.fromUTF8? (ByteArray.mk data.toArray) with
  | some s => .ok s.toList
  | none => .error .notText

def sourceLines (source : List Char) : List Text :=
  (Text.lines (Text.foldLineEnds source)).map (·.map .char)

def sourceFile (lines : List Text) : Bytes :=
  (Outcome.print (if lines.isEmpty then [[]] else lines)).toString.toUTF8.toList

def wrote (p : Path) (more : String) : Text := .ofString ("Wrote " ++ p.text ++ more)

def exportSource (d : Directory) (q : Quest) (target : Path) : Outcome :=
  match Script.listing q.segments >>= fun lines => d.write target (sourceFile lines) with
  | .error f => .fail d (fun _ => false) f
  | .ok d' => { output := Outcome.print [wrote target ""], directory := d', status := .ok 0 }

def writeQuest (d : Directory) (q : Quest) (target : Path) : Outcome :=
  match q.write target.name {} with
  | .error f => .fail d isWriteFault f
  | .ok data =>
    match d.write target data, q.episode with
    | .error f, _ | _, .error f => .fail d (fun _ => false) f
    | .ok d', .ok episode =>
      let more := " (" ++ Numeral.countText data ++ " bytes, episode " ++ episode.numeral ++ ")"
      { output := Outcome.print [wrote target more], directory := d', status := .ok 0 }

def diagnosticLines (label : String) (ds : List Diagnostic) : List Text :=
  ds.map fun d => .ofString (label ++ ": " ++ d.render)

/-- Assembles a source into a quest.  That there is no name to write it to shows only when
it is to be written. -/
def assembleInto (d : Directory) (q : Quest) (source : Path) (target? : Option Path) : Outcome :=
  match d.read source >>= chars >>= fun cs => Script.assemble (sourceLines cs) with
  | .error f => .fail d (fun _ => false) f
  | .ok a =>
    let told : Outcome :=
      if a.errors.isEmpty then
        match target? with
        | some target => writeQuest d { q with segments := a.segments } target
        | none => .fail d (fun _ => false) .noOutput
      else
        { output := Outcome.print (diagnosticLines "Error" a.errors)
          directory := d
          status := .ok 1 }
    told.after (diagnosticLines "Warning" a.warnings)

/-- The path that an argument names.  Two dashes name none. -/
def path? (argument : String) : Option Path :=
  if argument = "--" then none else some (.ofString argument)

def run (d : Directory) (args : List String) : Outcome :=
  match Arguments.parse? flags maxOperands args with
  | none => .usage d
  | some a =>
    match readQuest d (a.operands.headD "") {} with
    | .error f => .fail d isReadFault f
    | .ok r =>
      match (a.value? exportFlag).bind path?, a.operands[1]?.bind path?, a.value? outputFlag with
      | some target, _, _ => exportSource d r.quest target
      | none, some source, some target => assembleInto d r.quest source (path? target)
      | none, _, _ => .usage d

end Assemble
end Shell
end QuestArchive
