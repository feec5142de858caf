import QuestArchive.Quest.Codec
import QuestArchive.Shell.Arguments
import QuestArchive.Shell.Directory

/-!
What running a command comes to.  A command prints, may write a file, and ends with a
status or with a fault that it does not handle.
-/

namespace QuestArchive
namespace Shell

structure Outcome where
  output : Text
  directory : Directory
  status : Except Fault Nat

namespace Outcome

def print (lines : List Text) : Text := lines.flatMap (· ++ [.char '\n'])

/-- Ends a command that was called wrongly; its usage is no part of the output. -/
def usage (d : Directory) : Outcome := { output := [], directory := d, status := .ok 2 }

def errorLine (f : Fault) : Text := .ofString ("Error: " ++ f.message)

/-- Ends with a fault: a handled one is told, any other stops the command. -/
def fail (d : Directory) (handled : Fault → Bool) (f : Fault) : Outcome :=
  if handled f then { output := print [errorLine f], directory := d, status := .ok 1 }
  else { output := [], directory := d, status := .error f }

def after (lines : List Text) (o : Outcome) : Outcome :=
  { o with output := print lines ++ o.output }

end Outcome

def isReadFault (f : Fault) : Bool := f.isPath || f.isFormat

def isWriteFault (f : Fault) : Bool := f.isFormat || f.isValue

def readQuest (d : Directory) (path : String) (options : QuestOptions) :
    Except Fault Quest.Reading := do
  Quest.read (← d.read (.ofString path)) options

def verbose : Flag := { long := "--verbose", short := some 'v' }

end Shell
end QuestArchive
