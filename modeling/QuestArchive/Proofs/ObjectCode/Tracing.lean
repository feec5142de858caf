import QuestArchive.ObjectCode.Decode
import QuestArchive.Proofs.Lists

/-!
# Which segments a script reaches

`Refers` says what refers to a label, without a worklist or a stack: a label that an
instruction holds itself, or an integer pushed for a label parameter, where the last push is
for the last parameter.  `Reached` closes this under the references of code and under
control running on into the next segment.
-/

namespace QuestArchive
namespace ObjectCode

/-- The pushes that are on the stack behind some instructions, the last one first. -/
def pushesBehind (before : List Instruction) : List Instruction :=
  (before.reverse.takeWhile fun i => !i.opcode.popsArguments).filter (·.opcode.pushesArgument)

def Names (param : ParamKind) (value : Value) (r : Reference) : Prop :=
  (value = .int r.label ∧ param.refersTo? = some r.kind) ∨
    ∃ ns, param = .codeLabels ∧ value = .list ns ∧ r.label ∈ ns ∧ r.kind = .code

/-- A push passes a label for a parameter.  What a register holds names none. -/
def Passes (param : ParamKind) (push : Instruction) (r : Reference) : Prop :=
  pushesRegister push = false ∧ param.refersTo? = some r.kind ∧
    ∃ a rest, push.args = a :: rest ∧ a.value = .int r.label

inductive Refers (is : List Instruction) (r : Reference) : Prop where
  | inline {i : Instruction} {param : ParamKind} {a : Arg} (hi : i ∈ is)
      (hs : i.opcode.stack = none) (ha : (param, a) ∈ i.opcode.params.zip i.args)
      (hn : Names param a.value r)
  | pushed {before after : List Instruction} {i push : Instruction} {param : ParamKind}
      (h : is = before ++ i :: after) (hs : i.opcode.stack = some .pop)
      (hp : (param, push) ∈ i.opcode.params.reverse.zip (pushesBehind before))
      (hn : Passes param push r)

/-- The segments that control or a reference reaches from some labels. -/
inductive Reached (segments : List Segment) (labels : List Int) : Segment → Prop where
  | entry {l : Int} {s : Segment} (hl : l ∈ labels) (hs : s ∈ segments) (h : l ∈ s.labels) :
      Reached segments labels s
  | refers {ls : List Int} {is : List Instruction} {r : Reference} {s : Segment}
      (hr : Reached segments labels (.code ls is)) (h : Refers is r) (hs : s ∈ segments)
      (hl : r.label ∈ s.labels) : Reached segments labels s
  | behind {before after : List Segment} {ls : List Int} {is : List Instruction} {s : Segment}
      (hr : Reached segments labels (.code ls is)) (hi : runsOn is = true)
      (h : segments = before ++ .code ls is :: s :: after) : Reached segments labels s

/-! ## The references that reading collects -/

theorem mem_inlineReferences {i : Instruction} {r : Reference} :
    r ∈ inlineReferences i ↔ ∃ pa ∈ i.opcode.params.zip i.args, Names pa.1 pa.2.value r := by
  unfold inlineReferences
  rw [List.mem_flatMap]
  refine exists_congr fun pa => and_congr_right fun hm => ?_
  obtain ⟨param, value, size⟩ := pa
  clear hm
  unfold Names
  dsimp only
  split
  · next ns =>
    rw [List.mem_map]
    constructor
    · intro h
      obtain ⟨n, hn, rfl⟩ := h
      exact Or.inr ⟨ns, rfl, rfl, hn, rfl⟩
    · intro h
      rcases h with ⟨h, -⟩ | ⟨ns', -, h, hl, hk⟩
      · cases h
      · cases h
        exact ⟨r.label, hl, by rw [← hk]⟩
  · next n =>
    rw [Option.mem_toList, Option.map_eq_some_iff]
    constructor
    · intro h
      obtain ⟨kind, hk, rfl⟩ := h
      exact Or.inl ⟨rfl, hk⟩
    · intro h
      rcases h with ⟨h, hk⟩ | ⟨ns, -, h, -⟩
      · cases h
        exact ⟨r.kind, hk, rfl⟩
      · cases h
  · next hlist hint =>
    refine iff_of_false List.not_mem_nil fun h => ?_
    rcases h with ⟨h, -⟩ | ⟨ns, hp, h, -⟩
    · exact hlist _ h
    · exact hint ns hp h

/-- Both lists are matched from their ends. -/
theorem zip_drop_reverse {α β : Type} (xs : List α) (ys : List β) :
    ((xs.drop (xs.length - min ys.length xs.length)).zip
      (ys.drop (ys.length - min ys.length xs.length))).reverse = xs.reverse.zip ys.reverse := by
  have hlen : (xs.drop (xs.length - min ys.length xs.length)).length =
      (ys.drop (ys.length - min ys.length xs.length)).length := by
    simp only [List.length_drop]
    omega
  rw [List.zip_eq_zipWith, List.reverse_zipWith hlen, ← List.zip_eq_zipWith, List.reverse_drop,
    List.reverse_drop]
  rw [show xs.length - (xs.length - min ys.length xs.length) = min ys.length xs.length by omega,
    show ys.length - (ys.length - min ys.length xs.length) = min ys.length xs.length by omega]
  have h := @List.zip_eq_zip_take_min _ _ xs.reverse ys.reverse
  rw [List.length_reverse, List.length_reverse, Nat.min_comm] at h
  exact h.symm

theorem mem_pushedReferences {op : Opcode} {pushes : List Instruction} {r : Reference} :
    r ∈ pushedReferences op pushes ↔
      ∃ pp ∈ op.params.reverse.zip pushes.reverse, Passes pp.1 pp.2 r := by
  unfold pushedReferences
  rw [List.mem_filterMap, ← zip_drop_reverse op.params pushes]
  simp only [List.mem_reverse]
  refine exists_congr fun pp => and_congr_right fun _ => ?_
  unfold Passes
  split
  · next h => simp [h]
  · next h =>
    have hf : pushesRegister pp.2 = false := by simpa using h
    simp only [Option.bind_eq_bind, Option.bind_eq_some_iff, Option.some.injEq, hf, true_and]
    constructor
    · intro h
      obtain ⟨a, ha, n, hn, kind, hk, rfl⟩ := h
      obtain ⟨rest, hargs⟩ := List.head?_eq_some_iff.1 ha
      refine ⟨hk, a, rest, hargs, ?_⟩
      unfold Arg.int? at hn
      split at hn
      · next hv =>
        cases hn
        exact hv
      · cases hn
    · intro h
      obtain ⟨hk, a, rest, hargs, hv⟩ := h
      refine ⟨a, by rw [hargs]; rfl, r.label, ?_, r.kind, hk, rfl⟩
      unfold Arg.int?
      rw [hv]

/-! ## What an instruction does to the stack -/

section Stack

variable {before : List Instruction} {i : Instruction}

theorem pushesBehind_push (h : i.opcode.stack = some .push) :
    pushesBehind (before ++ [i]) = i :: pushesBehind before := by
  simp [pushesBehind, Opcode.popsArguments, Opcode.pushesArgument, h]

theorem pushesBehind_pop (h : i.opcode.stack = some .pop) : pushesBehind (before ++ [i]) = [] := by
  simp [pushesBehind, Opcode.popsArguments, h]

theorem pushesBehind_other (h : i.opcode.stack = none) :
    pushesBehind (before ++ [i]) = pushesBehind before := by
  simp [pushesBehind, Opcode.popsArguments, Opcode.pushesArgument, h]

theorem references_push (h : i.opcode.stack = some .push) (stack is : List Instruction) :
    references stack (i :: is) = references (stack ++ [i]) is := by
  simp [references, Opcode.pushesArgument, h]

theorem references_pop (h : i.opcode.stack = some .pop) (stack is : List Instruction) :
    references stack (i :: is) = pushedReferences i.opcode stack ++ references [] is := by
  simp [references, Opcode.popsArguments, Opcode.pushesArgument, h]

theorem references_other (h : i.opcode.stack = none) (stack is : List Instruction) :
    references stack (i :: is) = inlineReferences i ++ references stack is := by
  simp [references, Opcode.popsArguments, Opcode.pushesArgument, h]

end Stack

/-- The references of instructions that stand behind others: what is on the stack is what
these have pushed. -/
theorem mem_references_behind {is before : List Instruction} {r : Reference} :
    r ∈ references (pushesBehind before).reverse is ↔
      (∃ i ∈ is, i.opcode.stack = none ∧ r ∈ inlineReferences i) ∨
        ∃ mid i after, is = mid ++ i :: after ∧ i.opcode.stack = some .pop ∧
          r ∈ pushedReferences i.opcode (pushesBehind (before ++ mid)).reverse := by
  induction is generalizing before with
  | nil => simp [references]
  | cons j is ih =>
    have hstep := @ih (before ++ [j])
    simp only [List.append_assoc, List.singleton_append] at hstep
    rw [exists_split_cons_iff, List.append_nil, List.exists_mem_cons_iff]
    cases hj : j.opcode.stack with
    | none =>
      rw [pushesBehind_other hj] at hstep
      rw [references_other hj, List.mem_append, hstep]
      simp [or_assoc]
    | some use =>
      cases use with
      | push =>
        rw [pushesBehind_push hj, List.reverse_cons] at hstep
        rw [references_push hj, hstep]
        simp
      | pop =>
        rw [pushesBehind_pop hj, List.reverse_nil] at hstep
        rw [references_pop hj, List.mem_append, hstep]
        simp [or_left_comm]

/-- Reading collects just what refers. -/
theorem mem_references {is : List Instruction} {r : Reference} :
    r ∈ references [] is ↔ Refers is r := by
  refine (@mem_references_behind is [] r).trans ?_
  constructor
  · intro h
    rcases h with ⟨i, hi, hs, hr⟩ | ⟨mid, i, after, he, hs, hr⟩
    · obtain ⟨⟨param, a⟩, ha, hn⟩ := mem_inlineReferences.1 hr
      exact .inline hi hs ha hn
    · obtain ⟨⟨param, push⟩, hp, hn⟩ := mem_pushedReferences.1 hr
      rw [List.reverse_reverse] at hp
      exact .pushed he hs hp hn
  · intro h
    cases h with
    | inline hi hs ha hn => exact Or.inl ⟨_, hi, hs, mem_inlineReferences.2 ⟨_, ha, hn⟩⟩
    | pushed he hs hp hn =>
      refine Or.inr ⟨_, _, _, he, hs, mem_pushedReferences.2 ⟨(_, _), ?_, hn⟩⟩
      rw [List.reverse_reverse]
      exact hp

end ObjectCode
end QuestArchive
