import QuestArchive.Script.Call

/-!
The lines of a source.  A line is a directive that starts a section, or it holds a label,
content for the current section, or both.
-/

namespace QuestArchive

namespace SegmentKind

def marker : SegmentKind → String
  | code => ".code"
  | data => ".data"
  | text => ".string"

def ofMarker? (marker : Text) : Option SegmentKind :=
  [code, data, text].find? fun kind => Text.ofString kind.marker = marker.lower

end SegmentKind

namespace Script

inductive Line where
  | blank
  | directive (marker : Text)
  /-- A label by the digits of its number, and what follows it, trimmed. -/
  | label (digits : List Nat) (rest : Text)
  | content (text : Text)
  deriving DecidableEq, Repr

/-- The label at the start of a line; nothing behind it may break the line. -/
def label? (t : Text) : Option Line := do
  let digits ← Literal.digits? Rune.digit? (t.takeWhile Rune.isDigit)
  match (t.dropWhile Rune.isDigit).dropWhile Rune.isBlank with
  | .char ':' :: rest =>
    if rest.contains (.char '\n') then none else some (.label digits (Text.trim rest))
  | _ => none

def Line.ofText (line : Text) : Line :=
  let t := Text.trim (stripComment line)
  match t with
  | [] => .blank
  | .char '.' :: _ => .directive (t.words.headD [])
  | _ => (label? t).getD (.content t)

inductive Content where
  | code (instructions : List Instruction)
  | data (bytes : Bytes)
  | text (pieces : List Text)
  deriving DecidableEq, Repr

/-- A byte in hexadecimal, with or without the mark in front. -/
def byte? (token : Text) : Option UInt8 := do
  let digits :=
    match token with
    | .char '0' :: .char 'x' :: rest | .char '0' :: .char 'X' :: rest => rest
    | _ => token
  let ds ← Literal.digits? Rune.hexDigit? digits
  if ds.length ≤ 2 then some (UInt8.ofNat (Literal.ofDigits 16 ds)) else none

/-- The bytes up to the first token that is none, and that token's fault. -/
def readBytes : List Text → Bytes × Option Fault
  | [] => ([], none)
  | token :: rest =>
    match byte? token with
    | none => ([], some (.source (.badByte token)))
    | some b =>
      let r := readBytes rest
      (b :: r.1, r.2)

def readLiteral (line : Text) : Except Fault Text := do
  match ← Literal.parse line with
  | .text t => return t
  | _ => throw (.source .literalExpected)

namespace Content

def empty : SegmentKind → Content
  | .code => code []
  | .data => data []
  | .text => text []

/-- Whether nothing was added yet; an empty text counts as something. -/
def isEmpty : Content → Bool
  | code is => is.isEmpty
  | data bs => bs.isEmpty
  | text ts => ts.isEmpty

def append : Content → Content → Content
  | code a, code b => code (a ++ b)
  | data a, data b => data (a ++ b)
  | text a, text b => text (a ++ b)
  | a, _ => a

/-- The content of a line in a section of some kind, as far as it can be read, and what
is wrong with the rest. -/
def read (kind : SegmentKind) (line : Text) : Content × Option Fault :=
  match kind with
  | .code =>
    match readCall line with
    | .ok instructions => (code instructions, none)
    | .error fault => (code [], some fault)
  | .data =>
    let r := readBytes line.words
    (data r.1, r.2)
  | .text =>
    match readLiteral line with
    | .ok t => (text [t], none)
    | .error fault => (text [], some fault)

def segment (labels : List Nat) : Content → Segment
  | code instructions => .code (labels.map fun (n : Nat) => n) instructions
  | data bytes => .data (labels.map fun (n : Nat) => n) bytes
  | text pieces => .text (labels.map fun (n : Nat) => n) pieces.flatten

end Content

end Script
end QuestArchive
