import Mathlib.Data.List.Forall2
import QuestArchive.Proofs.Text.Units
import QuestArchive.Script.Instruction

/-!
# Well-formed instructions

An instruction is typed if its operation is one of the table and its arguments are values of
the kinds that the parameters call for, in range; it is well formed if they also have the sizes
that these values take.  An operation that takes its arguments from the stack has none of its
own.
-/

namespace QuestArchive

def Value.Suits (param : ParamKind) (value : Value) : Prop :=
  match param with
  | .byte | .word | .dword | .int | .codeLabel | .dataLabel | .textLabel =>
    ∃ n range, value = .int n ∧ param.range? = some range ∧ range.1 ≤ n ∧ n ≤ range.2
  | .register | .registerTuple => ∃ n, value = .int n ∧ 0 ≤ n ∧ n ≤ 0xFF
  | .float => ∃ x, value = .float x
  | .string => ∃ t, value = .text t ∧ Text.Encodable t
  | .codeLabels => ∃ ns, value = .list ns ∧ ∀ n ∈ ns, 0 ≤ n ∧ n ≤ 0xFFFF
  | .registers => ∃ ns, value = .list ns ∧ ∀ n ∈ ns, 0 ≤ n ∧ n ≤ 0xFF

/-- An argument suits a parameter if its value does and its size is that of an operand with
this value. -/
def Arg.Suits (param : ParamKind) (a : Arg) : Prop :=
  a.value.Suits param ∧ Arg.make param a.value = .ok a

structure Instruction.WellFormed (i : Instruction) : Prop where
  opcode : i.opcode ∈ Opcode.table
  args : if i.opcode.popsArguments then i.args = []
    else List.Forall₂ Arg.Suits i.opcode.params i.args

/-- The values of an instruction are what its operation calls for, whatever sizes it states. -/
structure Instruction.Typed (i : Instruction) : Prop where
  opcode : i.opcode ∈ Opcode.table
  args : if i.opcode.popsArguments then i.args = []
    else List.Forall₂ (fun param a => a.value.Suits param) i.opcode.params i.args

theorem Instruction.WellFormed.typed {i : Instruction} (h : i.WellFormed) : i.Typed := by
  refine ⟨h.opcode, ?_⟩
  have hargs := h.args
  split
  · next hpop => rwa [if_pos hpop] at hargs
  · next hpop =>
    rw [if_neg hpop] at hargs
    exact hargs.imp fun _ _ ha => ha.1

def Segment.Typed : Segment → Prop
  | .code _ instructions => ∀ i ∈ instructions, i.Typed
  | .data .. | .text .. => True

end QuestArchive
