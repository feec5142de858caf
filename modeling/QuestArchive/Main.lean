import QuestArchive.Shell.Assemble
import QuestArchive.Shell.Dump

/-!
The program: `dump` shows a quest, `assemble` puts a script into one.
-/

namespace QuestArchive
namespace Shell

def folderErrorCode : UInt32 := 21

/-- The places that the arguments lead through, files with what they hold. -/
def load (args : Option Arguments) : IO Directory := do
  let paths := (args.elim [] (·.texts)).map Path.ofString
  let mut files := #[]
  let mut folders := #[]
  for place in paths.flatMap fun p => p.start.places p.parts do
    try
      let data ← IO.FS.readBinFile place.text
      files := files.push (place.text, data.toList)
    catch e =>
      match e with
      | .inappropriateType _ code _ =>
        if code = folderErrorCode then folders := folders.push place.text
      | _ => pure ()
  return { files := files.toList, folders := folders.toList }

/-- Writes what a command changed, tells what it printed, and ends as it does. -/
def finish (before : Directory) (o : Outcome) : IO UInt32 := do
  for f in before.changedSince o.directory do
    IO.FS.writeBinFile f.1 (ByteArray.mk f.2.toArray)
  IO.print o.output.toString
  match o.status with
  | .ok status => return UInt32.ofNat status
  | .error f =>
    IO.eprintln f.message
    return 1

def start (args : List String) : IO UInt32 := do
  match args with
  | "dump" :: rest =>
    let d ← load (Arguments.parse? Dump.flags Dump.maxOperands rest)
    finish d (Dump.run d rest)
  | "assemble" :: rest =>
    let d ← load (Arguments.parse? Assemble.flags Assemble.maxOperands rest)
    finish d (Assemble.run d rest)
  | _ =>
    IO.eprintln "usage: dump QUEST | assemble QUEST [SOURCE]"
    return 2

end Shell
end QuestArchive

def main (args : List String) : IO UInt32 := QuestArchive.Shell.start args
