import QuestArchive.Diagnostic
import QuestArchive.Script.Line

/-!
Assembling a source into segments.

A line has an effect that depends on the lines before it only through the current
section and the labels in use: it enters a section, names a label or adds content.  The
effects of all lines in order give the segments.  A line with an error keeps the part of
its effect that comes before the error.
-/

namespace QuestArchive
namespace Script

inductive Event where
  /-- Enters a section of another kind. -/
  | enter (kind : SegmentKind)
  | label (n : Nat)
  | content (c : Content)
  deriving DecidableEq, Repr

/-- What a line depends on: the current section, and the labels in use, the last one
first. -/
structure Context where
  kind : SegmentKind := .code
  labels : List Nat := []
  deriving DecidableEq, Repr

structure Effect where
  events : List Event := []
  context : Context
  notice : Option Notice := none
  fault : Option Fault := none

namespace Context

def fail (c : Context) (error : SourceError) : Effect :=
  { context := c, fault := some (.source error) }

def enter (c : Context) (marker : Text) : Effect :=
  match SegmentKind.ofMarker? marker with
  | none => c.fail (.unknownDirective marker)
  | some kind =>
    if kind = c.kind then { context := c, notice := some (.redundantSection marker) }
    else { events := [.enter kind], context := { c with kind } }

def addContent (c : Context) (line : Text) : Effect :=
  if c.labels.isEmpty then c.fail .unlabelledStart
  else
    let r := Content.read c.kind line
    { events := [.content r.1], context := c, fault := r.2 }

/-- Names a label and goes on with what follows it.  A label that cannot be named ends
the line. -/
def addLabel (c : Context) (digits : List Nat) (rest : Text) : Effect :=
  match Literal.natural digits with
  | .error fault => { context := c, fault := some fault }
  | .ok n =>
    if 0xFFFF < n then c.fail (.labelRange n)
    else if c.labels.contains n then c.fail (.duplicateLabel n)
    else
      let named := { c with labels := n :: c.labels }
      if rest.isEmpty then { events := [.label n], context := named }
      else
        let e := named.addContent rest
        { e with events := .label n :: e.events }

def read (c : Context) (line : Text) : Effect :=
  match Line.ofText line with
  | .blank => { context := c }
  | .directive marker => c.enter marker
  | .label digits rest => c.addLabel digits rest
  | .content t => c.addContent t

end Context

/-- What is to be said about a line.  Only errors in the source are said; any other
fault ends the work. -/
def Effect.notices (e : Effect) : Except Fault (List Notice) :=
  match e.fault with
  | none => .ok e.notice.toList
  | some (.source error) => .ok (e.notice.toList ++ [.badLine error])
  | some fault => .error fault

def run (c : Context) (n : Nat) : List Text → Except Fault (List Event × List Diagnostic)
  | [] => .ok ([], [])
  | line :: rest => do
    let e := c.read line
    let notices ← e.notices
    let r ← run e.context (n + 1) rest
    return (e.events ++ r.1, notices.map ({ notice := ·, line := some n }) ++ r.2)

structure Draft where
  labels : List Nat
  content : Content
  deriving DecidableEq, Repr

namespace Draft

def segment (d : Draft) : Segment := d.content.segment d.labels

end Draft

/-- The segments of some events, from a section and a draft on.  A label starts a
segment unless nothing stands between it and the label before. -/
def segments (kind : SegmentKind) (draft : Option Draft) : List Event → List Segment
  | [] => draft.toList.map (·.segment)
  | .enter kind :: rest => draft.toList.map (·.segment) ++ segments kind none rest
  | .label n :: rest =>
    match draft with
    | none => segments kind (some ⟨[n], .empty kind⟩) rest
    | some d =>
      if d.content.isEmpty then segments kind (some { d with labels := d.labels ++ [n] }) rest
      else d.segment :: segments kind (some ⟨[n], .empty kind⟩) rest
  | .content c :: rest =>
    match draft with
    | none => segments kind (some ⟨[], c⟩) rest
    | some d => segments kind (some { d with content := d.content.append c }) rest

structure Assembly where
  segments : List Segment
  diagnostics : List Diagnostic
  deriving DecidableEq, Repr

namespace Assembly

def warnings (a : Assembly) : List Diagnostic :=
  a.diagnostics.filter (·.severity = .warning)

def errors (a : Assembly) : List Diagnostic :=
  a.diagnostics.filter (·.severity = .error)

end Assembly

/-- Assembles a source.  With errors the segments are incomplete. -/
def assemble (lines : List Text) : Except Fault Assembly := do
  let r ← run {} 1 lines
  return { segments := Script.segments .code none r.1, diagnostics := r.2 }

end Script
end QuestArchive
