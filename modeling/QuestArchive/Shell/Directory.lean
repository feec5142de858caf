import QuestArchive.Fault
import QuestArchive.Bytes.Word

/-!
The files that a command can see, and the paths that lead to them.

A path is relative or absolute.  It is followed part by part: what a part starts from
must be a folder, and two points lead to the folder above.
-/

namespace QuestArchive
namespace Shell

/-- A path without empty parts and without parts that stay where they are. -/
structure Path where
  /-- The slashes in front: none, one, or the two that are kept as two. -/
  slashes : Nat
  parts : List String
  deriving DecidableEq, Repr

namespace Path

def splitParts (part : List Char) : List Char → List (List Char)
  | [] => [part.reverse]
  | c :: rest =>
    if c = '/' then part.reverse :: splitParts [] rest else splitParts (c :: part) rest

def ofString (s : String) : Path :=
  let slashes := (s.toList.takeWhile (· = '/')).length
  { slashes := if slashes = 2 then 2 else min slashes 1
    parts := (splitParts [] s.toList).filterMap fun p =>
      if p.isEmpty ∨ p = ['.'] then none else some (String.ofList p) }

def text (p : Path) : String :=
  if p.slashes = 0 ∧ p.parts.isEmpty then "."
  else String.ofList (List.replicate p.slashes '/') ++ "/".intercalate p.parts

def name (p : Path) : String := p.parts.getLastD ""

def start (p : Path) : Path := { slashes := min p.slashes 1, parts := [] }

/-- The step from a folder to one of its entries or to the folder above it.  Nothing is
above the root. -/
def step (here : Path) (part : String) : Path :=
  if part = ".." then
    if here.parts.isEmpty ∧ 0 < here.slashes then here
    else if here.parts.all (· = "..") then { here with parts := here.parts ++ [part] }
    else { here with parts := here.parts.dropLast }
  else { here with parts := here.parts ++ [part] }

def places (here : Path) : List String → List Path
  | [] => [here]
  | part :: rest => here :: places (here.step part) rest

def maxSize : Nat := 4095

def maxPartSize : Nat := 255

end Path

/-- The file that is there on any system, reads as empty and keeps nothing. -/
def nullFile : String := "/dev/null"

structure Directory where
  files : List (String × Bytes)
  folders : List String := []
  deriving DecidableEq, Repr

namespace Directory

/-- The working folder, the root and every folder above the working folder are there. -/
def isFolder (d : Directory) (here : Path) : Bool :=
  here.parts.all (· = "..") || d.folders.contains here.text

def file? (d : Directory) (here : Path) : Option Bytes :=
  if here.text = nullFile then some [] else (d.files.find? (·.1 = here.text)).map (·.2)

def follow (d : Directory) (here : Path) : List String → Except PathError Path
  | [] => .ok here
  | part :: rest =>
    if (d.file? here).isSome then .error .notFolder
    else if !d.isFolder here then .error .missing
    else if Path.maxPartSize < part.utf8ByteSize then .error .longName
    else d.follow (here.step part) rest

def locate (d : Directory) (p : Path) : Except Fault Path :=
  if p.text.contains '\x00' then .error .nullInPath
  else if Path.maxSize < p.text.utf8ByteSize then .error (.path .longName p.text)
  else
    match d.follow p.start p.parts with
    | .ok here => .ok here
    | .error e => .error (.path e p.text)

def read (d : Directory) (p : Path) : Except Fault Bytes := do
  let here ← d.locate p
  if d.isFolder here then throw (.path .folder p.text)
  match d.file? here with
  | some data => return data
  | none => throw (.path .missing p.text)

def write (d : Directory) (p : Path) (data : Bytes) : Except Fault Directory := do
  let here ← d.locate p
  if d.isFolder here then throw (.path .folder p.text)
  if (d.file? here).isSome then
    return { d with
      files := d.files.map fun f => if f.1 = here.text then (f.1, data) else f }
  else return { d with files := d.files ++ [(here.text, data)] }

def changedSince (before after : Directory) : List (String × Bytes) :=
  after.files.filter fun f => !before.files.contains f

end Directory
end Shell
end QuestArchive
