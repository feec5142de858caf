import QuestArchive.Diagnostic
import QuestArchive.ObjectCode.Layout
import Std.Data.TreeMap

/-!
Reading a script back from its stored form.

The code has no table of segments.  They start where the label table says, and what a
segment holds follows from how its labels are used: reading starts with a queue of
references and follows every reference found in the code, the ones passed on the
argument stack among them, and the next label where a segment does not end in a return
or a jump.  Whatever nothing refers to becomes data.
-/

namespace QuestArchive
namespace ObjectCode

/-- Whether code that cannot be read is an error, or ends its segment. -/
inductive Mode where
  | strict
  | lenient
  deriving DecidableEq, Repr

/-- A label and the kind of segment that it is used for. -/
structure Reference where
  label : Int
  kind : SegmentKind
  deriving DecidableEq, Repr

def entries (labels : List Int) : List Reference :=
  labels.eraseDups.mergeSort.map (⟨·, .code⟩)

/-- What is known of an offset of the label table: its labels, ascending, and where the
next offset of the table lies, or the end of the code. -/
structure Start where
  labels : List Nat
  stop : Int
  deriving DecidableEq, Repr

def labelsByOffset (offsets : List Int) : Std.TreeMap Int (List Nat) :=
  offsets.zipIdx.foldr
    (fun entry found =>
      if entry.1 = -1 then found
      else found.insert entry.1 (entry.2 :: found.getD entry.1 []))
    ∅

def withStops (size : Int) : List (Int × List Nat) → List (Int × Start)
  | [] => []
  | [(offset, labels)] => [(offset, ⟨labels, size⟩)]
  | (offset, labels) :: (next, labels') :: rest =>
    (offset, ⟨labels, min next size⟩) :: withStops size ((next, labels') :: rest)

def starts (size : Int) (offsets : List Int) : List (Int × Start) :=
  withStops size (labelsByOffset offsets).toList

/-- The instructions before the cursor's bound; and where reading stopped and why, if
it stopped before that. -/
def readInstructions (c : Cursor) : List Instruction × Option (Int × Fault) :=
  if c.remaining = 0 then ([], none)
  else
    match h : readInstruction c with
    | .error fault _ => ([], some (c.position, fault))
    | .ok i c' =>
      have := moves_readInstruction.remaining_lt (by omega) h
      let rest := readInstructions c'
      (i :: rest.1, rest.2)
termination_by c.remaining.toNat

def inlineReferences (i : Instruction) : List Reference :=
  (i.opcode.params.zip i.args).flatMap fun pa =>
    match pa.1, pa.2.value with
    | .codeLabels, .list ns => ns.map (⟨·, .code⟩)
    | param, .int n => (param.refersTo?.map (⟨n, ·⟩)).toList
    | _, _ => []

/-- Whether an instruction pushes what a register holds, which says nothing about
labels. -/
def pushesRegister (i : Instruction) : Bool :=
  i.opcode.code = Opcode.pushRegister.code || i.opcode.code = Opcode.pushRegisterTuple.code

/-- The labels among the arguments that were pushed for an operation.  The last push is
for the last parameter. -/
def pushedReferences (op : Opcode) (pushes : List Instruction) : List Reference :=
  let count := min pushes.length op.params.length
  let params := op.params.drop (op.params.length - count)
  let pushed := pushes.drop (pushes.length - count)
  (params.zip pushed).filterMap fun pp => do
    if pushesRegister pp.2 then none
    else some ⟨← (← pp.2.args.head?).int?, ← pp.1.refersTo?⟩

/-- The references of some instructions, with the arguments that are on the stack
before them. -/
def references (stack : List Instruction) : List Instruction → List Reference
  | [] => []
  | i :: rest =>
    if i.opcode.pushesArgument then references (stack ++ [i]) rest
    else if i.opcode.popsArguments then
      pushedReferences i.opcode stack ++ references [] rest
    else inlineReferences i ++ references stack rest

/-- Whether control runs on behind some instructions. -/
def runsOn (instructions : List Instruction) : Bool :=
  instructions.getLast?.all fun i => !i.opcode.isTerminator

def isMalformed : Fault → Bool
  | .pastBound .. | .unterminated .. => true
  | _ => false

structure Finding where
  segment : Segment
  references : List Reference := []
  notices : List Notice := []

def Start.mainLabel (s : Start) : Nat := s.labels.headD 0

def Start.names (s : Start) : List Int := s.labels.map fun (n : Nat) => n

def readData (code : Array UInt8) (offset : Int) (s : Start) : Finding :=
  { segment := .data s.names (Cursor.span code offset s.stop) }

/-- Reads a text; one without a null unit extends to the next start. -/
def readText (code : Array UInt8) (offset : Int) (label : Nat) (s : Start) :
    Except Fault Finding :=
  let c := Cursor.window code offset s.stop
  match Read.within c (Read.terminated (s.stop - offset)) with
  | .ok value => .ok { segment := .text s.names value }
  | .error fault =>
    if isMalformed fault then do
      let value ← Read.within c (Read.text (s.stop - offset))
      return { segment := .text s.names value, notices := [.unterminatedText label] }
    else .error fault

/-- Reads code.  `next` is the first label at the offset where the segment ends. -/
def readCode (mode : Mode) (code : Array UInt8) (offset : Int) (s : Start)
    (next : Option Nat) : Except Fault Finding :=
  let (instructions, problem) := readInstructions (.window code offset s.stop)
  let following :=
    match next with
    | some label => if runsOn instructions then [⟨label, .code⟩] else []
    | none => []
  let found (notices : List Notice) : Finding :=
    { segment := .code s.names instructions
      references := references [] instructions ++ following
      notices }
  match problem with
  | none => .ok (found [])
  | some (position, fault) =>
    if isMalformed fault then
      let unreadable := Fault.unreadable (offset + position) s.mainLabel fault
      match mode with
      | .strict => .error unreadable
      | .lenient => .ok (found [.unreadableInstruction unreadable])
    else .error fault

structure Input where
  code : Array UInt8
  offsets : Array Int
  starts : Std.TreeMap Int Start
  mode : Mode

namespace Input

def size (s : Input) : Nat := s.code.size

def offset? (s : Input) (label : Int) : Option Int :=
  if label < 0 then none else s.offsets[label.toNat]?.filter (· ≠ -1)

def readAt (s : Input) (offset : Int) (start : Start) (r : Reference) :
    Except Fault Finding :=
  match r.kind with
  | .data => .ok (readData s.code offset start)
  | .text => readText s.code offset r.label.toNat start
  | .code =>
    let next := (s.starts[start.stop]?).bind (·.labels.head?)
    readCode s.mode s.code offset start next

end Input

/-- How far reading has come: the starts where nothing was read yet, and what was read
at the others. -/
structure Progress where
  todo : Std.TreeMap Int Start
  done : Std.TreeMap Int Segment := ∅
  notices : Array Notice := #[]

namespace Progress

def note (p : Progress) (notice : Notice) : Progress :=
  { p with notices := p.notices.push notice }

def place (p : Progress) (offset : Int) (f : Finding) : Progress :=
  { todo := p.todo.erase offset
    done := p.done.insert offset f.segment
    notices := p.notices ++ f.notices }

theorem size_place_lt {p : Progress} {offset : Int} {start : Start} {f : Finding}
    (h : p.todo[offset]? = some start) : (p.place offset f).todo.size < p.todo.size := by
  have hm : offset ∈ p.todo := by
    rw [Std.TreeMap.mem_iff_isSome_getElem?, h]
    rfl
  have hs : 0 < p.todo.size := by
    rcases Nat.eq_zero_or_pos p.todo.size with h0 | h0
    · have he : p.todo.isEmpty = true := by
        simp [Std.TreeMap.isEmpty_eq_size_eq_zero, h0]
      exact absurd hm (Std.TreeMap.not_mem_of_isEmpty he)
    · exact h0
  have he := Std.TreeMap.size_erase (t := p.todo) (k := offset)
  rw [if_pos (Std.TreeMap.contains_iff_mem.2 hm)] at he
  show (p.todo.erase offset).size < p.todo.size
  omega

/-- Works off a queue of references, first come, first served. -/
def follow (s : Input) (queue : List Reference) (p : Progress) : Except Fault Progress :=
  match queue with
  | [] => .ok p
  | r :: queue =>
    match s.offset? r.label with
    | none => follow s queue (p.note (.unregisteredLabel r.label))
    | some offset =>
      match h : p.todo[offset]? with
      | none => follow s queue p
      | some start =>
        if s.size < offset then
          follow s queue (p.note (.labelPastEnd r.label.toNat offset s.size))
        else
          match s.readAt offset start r with
          | .error fault => .error fault
          | .ok f =>
            have := size_place_lt (f := f) h
            follow s (queue ++ f.references) (p.place offset f)
termination_by (p.todo.size, queue.length)

end Progress

/-- The ranges below `limit` that none of the given ranges covers, with everything below
`position` covered. -/
def gaps (limit position : Int) : List (Int × Int) → List (Int × Int)
  | [] => if position < limit then [(position, limit)] else []
  | (start, stop) :: rest =>
    (if position < start then [(position, start)] else []) ++
      gaps limit (max position stop) rest

def cut (points : List Int) (range : Int × Int) : List (Int × Int) :=
  let inside := points.filter fun b => range.1 < b && b < range.2
  (range.1 :: inside).zip (inside ++ [range.2])

namespace Input

/-- Turns every range without a segment into data, one segment for each start in it. -/
def fill (s : Input) (done : Std.TreeMap Int Segment) : Std.TreeMap Int Segment :=
  let covered := done.toList.map fun entry => (entry.1, entry.1 + entry.2.extent)
  let missing := (gaps s.size 0 covered).flatMap (cut s.starts.keys)
  missing.foldl
    (fun done range =>
      let labels := (s.starts[range.1]?).elim [] (·.names)
      done.insert range.1 (.data labels (Cursor.span s.code range.1 range.2)))
    done

def unplaced (s : Input) (done : Std.TreeMap Int Segment) : List Notice :=
  s.starts.toList.flatMap fun entry =>
    if done.contains entry.1 then []
    else entry.2.labels.map fun label => .unplacedLabel label entry.1

end Input

structure Reading where
  segments : List Segment
  diagnostics : List Diagnostic
  deriving DecidableEq, Repr

/-- Reads a script, its segments in the order of their offsets. -/
def read (mode : Mode) (stored : Stored) (queue : List Reference) : Except Fault Reading := do
  let code := stored.code.toArray
  let starts := Std.TreeMap.ofList (ObjectCode.starts code.size stored.offsets)
  let s : Input := { code, offsets := stored.offsets.toArray, starts, mode }
  let p ← Progress.follow s queue { todo := starts }
  let done := s.fill p.done
  let segments := done.values
  let total := QuestArchive.total (segments.map (·.extent))
  let notices := p.notices.toList ++ s.unplaced done
  if total = code.size then
    return { segments, diagnostics := notices.map ({ notice := · }) }
  else
    match mode with
    | .strict => throw (.codeSize code.size total.toNat)
    | .lenient =>
      let notices := notices ++ [.codeSize code.size total.toNat]
      return { segments, diagnostics := notices.map ({ notice := · }) }

end ObjectCode
end QuestArchive
