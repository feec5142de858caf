import QuestArchive.Proofs.ObjectCode.Encoding

/-!
# Instructions written one behind the other and read again

An instruction is read by its operation and then by its operands, and a list of instructions
by doing this again wherever the last one ended.  Instructions that can be stored come back
in this way from what is written for them, whatever follows it.  What is read anywhere is
written as just the bytes that were passed over, unless one of its operands is illegible.
-/

namespace QuestArchive
namespace ObjectCode

/-- An instruction is read at a cursor, its operation first, and takes so many bytes. -/
structure ReadsAt (c : Cursor) (i : Instruction) (size : Nat) : Prop where
  opcode : readOpcode c = .ok i.opcode (c.advance i.opcode.size)
  operands : readOperands i.opcode (c.advance i.opcode.size) = .ok i.args (c.advance size)

/-- Instructions are read one after the other, and each takes the bytes of its own. -/
inductive ReadsEach : Cursor → List Instruction → List Bytes → Prop where
  | nil (c : Cursor) : ReadsEach c [] []
  | cons {c : Cursor} {i : Instruction} {bs : Bytes} {is : List Instruction} {parts : List Bytes}
      (h : ReadsAt c i bs.length) (hs : ReadsEach (c.advance bs.length) is parts) :
      ReadsEach c (i :: is) (bs :: parts)

theorem readsAt_of_stores {bs rest : Bytes} {i : Instruction} (h : Stores bs i) {c : Cursor}
    (hc : c.Inside) (hv : c.view = bs ++ rest) : ReadsAt c i bs.length := by
  obtain ⟨front, back, code, rfl, hn, hop, ha⟩ := h
  have hsize : i.opcode.size = front.length := by
    have hs := size_of_number hn (Opcode.code_of_ofCode? hop)
    omega
  rw [List.append_assoc] at hv
  constructor
  · rw [hsize]
    exact describes_readOpcode.accepts hc hv ⟨code, hn, hop⟩
  · rw [hsize, List.length_append, ← Cursor.advance_advance]
    exact (describes_readOperands i.opcode).accepts (Cursor.inside_advance hc hv)
      (Cursor.view_advance hc hv) ha

theorem readsEach_of_stores {is : List Instruction} {parts : List Bytes}
    (h : List.Forall₂ Stores parts is) {c : Cursor} (hc : c.Inside) {rest : Bytes}
    (hv : c.view = parts.flatten ++ rest) : ReadsEach c is parts := by
  induction h generalizing c with
  | nil => exact .nil c
  | cons hi _ ih =>
    rw [List.flatten_cons, List.append_assoc] at hv
    apply ReadsEach.cons (readsAt_of_stores hi hc hv)
    exact ih (Cursor.inside_advance hc hv) (Cursor.view_advance hc hv)

/-- What is read as an operation and operands for all its parameters is written as it stood,
also for an operation that takes its arguments from the stack. -/
theorem writeInstruction_of_operands {front back : Bytes} {code : Nat} {op : Opcode}
    {args : List Arg} (hn : Number front code) (hop : Opcode.ofCode? code = some op)
    (ho : Operands op.params back args) (hl : ∀ a ∈ args, a.value.Legible) :
    writeInstruction ⟨op, args⟩ = .ok (front ++ back) := by
  obtain ⟨parts, hp, hflat⟩ := mapM_writeOperand ho hl
  unfold writeInstruction
  rw [writeOpcode_of_number hn (Opcode.code_of_ofCode? hop), ok_bind, hp, ok_bind, hflat]
  rfl

theorem writeInstruction_of_read {c c₁ c₂ : Cursor} {op : Opcode} {args : List Arg}
    (hc : c.Inside) (ho : readOpcode c = .ok op c₁)
    (ha : readOperands op c₁ = .ok args c₂ ∨ readArgs op.params c₁ = .ok args c₂)
    (hl : ∀ a ∈ args, a.value.Legible) :
    ∃ bs rest, c.view = bs ++ rest ∧ c₂ = c.advance bs.length ∧
      writeInstruction ⟨op, args⟩ = .ok bs := by
  obtain ⟨front, rest, hv, ⟨code, hn, hop⟩, rfl⟩ := describes_readOpcode.yields hc ho
  have hc₁ := Cursor.inside_advance hc hv
  have hv₁ := Cursor.view_advance hc hv
  have hback : ∃ back rest', rest = back ++ rest' ∧
      c₂ = (c.advance front.length).advance back.length ∧
      writeInstruction ⟨op, args⟩ = .ok (front ++ back) := by
    rcases ha with ha | ha
    · obtain ⟨back, rest', hv', hr, he⟩ := (describes_readOperands op).yields hc₁ ha
      have hstores : Stores (front ++ back) ⟨op, args⟩ := ⟨front, back, code, rfl, hn, hop, hr⟩
      exact ⟨back, rest', hv₁.symm.trans hv', he, writeInstruction_of_stores hstores hl⟩
    · obtain ⟨back, rest', hv', hr, he⟩ := (describes_readArgs op.params).yields hc₁ ha
      exact ⟨back, rest', hv₁.symm.trans hv', he, writeInstruction_of_operands hn hop hr hl⟩
  obtain ⟨back, rest', rfl, rfl, hw⟩ := hback
  exact ⟨front ++ back, rest', by rw [hv, List.append_assoc],
    by rw [Cursor.advance_advance, List.length_append], hw⟩

/-- Instructions that can be stored are written as the bytes that their sizes add up to, and
read back one by one from wherever these bytes stand.  Conversely, an operation and operands
that are read anywhere are written as the bytes from there to where reading them ended. -/
theorem instructions_round_trip {is : List Instruction} (h : ∀ i ∈ is, i.WellFormed ∧ i.Storable) :
    (∃ parts, List.Forall₂ (fun i bs => writeInstruction i = .ok bs) is parts ∧
      (parts.flatten.length : Int) = total (is.map (·.size)) ∧
      ∀ (c : Cursor) (rest : Bytes), c.Inside → c.view = parts.flatten ++ rest →
        ReadsEach c is parts) ∧
    ∀ (c c₁ c₂ : Cursor) (op : Opcode) (args : List Arg), c.Inside → readOpcode c = .ok op c₁ →
      readOperands op c₁ = .ok args c₂ ∨ readArgs op.params c₁ = .ok args c₂ →
      (∀ a ∈ args, a.value.Legible) →
      ∃ bs rest, c.view = bs ++ rest ∧ c₂ = c.advance bs.length ∧
        writeInstruction ⟨op, args⟩ = .ok bs := by
  constructor
  · obtain ⟨parts, hparts⟩ := exists_forall₂
      (R := fun i bs => Stores bs i ∧ writeInstruction i = .ok bs) fun i hi =>
        exists_stores (h i hi).1 (h i hi).2
    have hstores : List.Forall₂ Stores parts is := hparts.flip.imp fun _ _ hi => hi.1
    have htotal : total (is.map (·.size)) = parts.flatten.length :=
      total_of_forall₂ (hparts.imp fun _ _ hi => size_of_stores hi.1)
    exact ⟨parts, hparts.imp fun _ _ hi => hi.2, htotal.symm, fun c rest hc hv =>
      readsEach_of_stores hstores hc hv⟩
  · intro c c₁ c₂ op args hc ho ha hl
    exact writeInstruction_of_read hc ho ha hl

/-- An operation of two bytes with a number, a list, and a call with its push. -/
def runSampler : List Instruction :=
  [⟨.plain 0xF904 "fleti" [.registerTuple, .float],
      [⟨.int 5, 1⟩, ⟨.float ⟨0xBFF8000000000000⟩, 4⟩]⟩,
    ⟨.plain 0x40 "switch_jmp" [.register, .codeLabels], [⟨.int 1, 1⟩, ⟨.list [0, 2], 5⟩]⟩,
    ⟨.pushString, [⟨.text [.char 'a'], 4⟩]⟩,
    ⟨.pops 0x5A "window_msg" [.string], []⟩]

theorem storable_runSampler : ∀ i ∈ runSampler, i.WellFormed ∧ i.Storable := by
  have known {i : Instruction} (h : i.opcode ∈ Opcode.known) : i.opcode ∈ Opcode.table :=
    List.mem_append_left _ h
  intro i hi
  simp only [runSampler, List.mem_cons, List.not_mem_nil, or_false] at hi
  rcases hi with rfl | rfl | rfl | rfl
  · refine ⟨⟨known (by decide +kernel), ?_⟩, ?_⟩
    · rw [if_neg (by decide)]
      exact .cons ⟨⟨5, rfl, by decide, by decide⟩, rfl⟩ (.cons ⟨⟨_, rfl⟩, rfl⟩ .nil)
    · simp only [Instruction.Storable, List.mem_cons, List.not_mem_nil, or_false, forall_eq_or_imp,
        forall_eq, Value.Storable, true_and]
      exact ⟨0xBFC00000, by decide +kernel, by decide +kernel⟩
  · refine ⟨⟨known (by decide +kernel), ?_⟩, ?_⟩
    · rw [if_neg (by decide)]
      exact .cons ⟨⟨1, rfl, by decide, by decide⟩, rfl⟩ (.cons ⟨⟨[0, 2], rfl, by decide⟩, rfl⟩ .nil)
    · simp [Instruction.Storable, Value.Storable]
  · refine ⟨⟨known (by decide +kernel), ?_⟩, ?_⟩
    · rw [if_neg (by decide)]
      refine .cons ⟨⟨[.char 'a'], rfl, ?_⟩, rfl⟩ .nil
      simp [Text.Encodable]
    · simp [Instruction.Storable, Value.Storable]
  · refine ⟨⟨known (by decide +kernel), ?_⟩, ?_⟩
    · rw [if_pos (by decide)]
    · simp [Instruction.Storable]

/-- Behind the run stands a byte that begins no instruction. -/
theorem instructions_round_trip_sampler : (∀ i ∈ runSampler, i.WellFormed ∧ i.Storable) ∧
    ∃ parts, List.Forall₂ (fun i bs => writeInstruction i = .ok bs) runSampler parts ∧
      (parts.flatten.length : Int) = 20 ∧
      ReadsEach (.whole (parts.flatten ++ [0xFA]).toArray) runSampler parts ∧
      ∃ op args c₁ c₂ bs rest,
        readOpcode (.whole (parts.flatten ++ [0xFA]).toArray) = .ok op c₁ ∧
        readOperands op c₁ = .ok args c₂ ∧ (∀ a ∈ args, a.value.Legible) ∧
        parts.flatten ++ [0xFA] = bs ++ rest ∧ writeInstruction ⟨op, args⟩ = .ok bs := by
  obtain ⟨⟨parts, hw, hlen, hread⟩, hback⟩ := instructions_round_trip storable_runSampler
  have hc := Cursor.inside_whole (parts.flatten ++ [0xFA]).toArray
  have hv := Cursor.view_whole (parts.flatten ++ [0xFA])
  have heach := hread _ _ hc hv
  refine ⟨storable_runSampler, parts, hw, hlen, heach, ?_⟩
  cases heach with
  | cons h _ =>
    have hl : ∀ a ∈ [(⟨.int 5, 1⟩ : Arg), ⟨.float ⟨0xBFF8000000000000⟩, 4⟩], a.value.Legible := by
      simp only [List.mem_cons, List.not_mem_nil, or_false, forall_eq_or_imp, forall_eq,
        Value.Legible, true_and]
      decide
    obtain ⟨bs, rest, hview, -, hwrite⟩ := hback _ _ _ _ _ hc h.opcode (.inl h.operands) hl
    exact ⟨_, _, _, _, bs, rest, h.opcode, h.operands, hl, hv.symm.trans hview, hwrite⟩

end ObjectCode
end QuestArchive
