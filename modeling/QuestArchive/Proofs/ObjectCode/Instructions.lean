import QuestArchive.ObjectCode.Decode
import QuestArchive.Proofs.Bytes.Faults
import QuestArchive.Proofs.Bytes.Results
import QuestArchive.Proofs.ObjectCode.Operand
import QuestArchive.Proofs.Script.Table

/-!
# Reading instructions one after the other

Where reading instructions stops, all bytes before that place are stored instructions;
and stored instructions are read to their end.  Nothing that can be read refers to a
text, as no operation has a parameter for one.
-/

namespace QuestArchive

theorem total_nonneg {sizes : List Int} (h : ∀ n ∈ sizes, 0 ≤ n) : 0 ≤ total sizes := by
  induction sizes with
  | nil => exact Int.le_refl 0
  | cons n sizes ih =>
    have hn := h n List.mem_cons_self
    have hrest := ih fun m hm => h m (List.mem_cons_of_mem _ hm)
    rw [total]
    omega

theorem total_eq_zero_iff {sizes : List Int} (h : ∀ n ∈ sizes, 0 ≤ n) :
    total sizes = 0 ↔ ∀ n ∈ sizes, n = 0 := by
  induction sizes with
  | nil => exact iff_of_true rfl fun n hn => absurd hn List.not_mem_nil
  | cons n sizes ih =>
    obtain ⟨hn, hsizes⟩ := List.forall_mem_cons.1 h
    have hrest := total_nonneg hsizes
    rw [List.forall_mem_cons, ← ih hsizes, total]
    omega

namespace ObjectCode

open Read

theorem readInstructions_nil {c : Cursor} (h : c.remaining = 0) :
    readInstructions c = ([], none) := by
  rw [readInstructions]
  exact if_pos h

theorem readInstructions_error {c c' : Cursor} {fault : Fault} (h0 : c.remaining ≠ 0)
    (h : readInstruction c = .error fault c') :
    readInstructions c = ([], some (c.position, fault)) := by
  rw [readInstructions, if_neg h0]
  split
  · next hf =>
    rw [h] at hf
    cases hf
    rfl
  · next ho =>
    rw [h] at ho
    cases ho

theorem readInstructions_ok {c c' : Cursor} {i : Instruction} (h0 : c.remaining ≠ 0)
    (h : readInstruction c = .ok i c') :
    readInstructions c = (i :: (readInstructions c').1, (readInstructions c').2) := by
  rw [readInstructions, if_neg h0]
  split
  · next hf =>
    rw [h] at hf
    cases hf
  · next ho =>
    rw [h] at ho
    cases ho
    rfl

/-- The instructions that are read are stored in front of where reading stopped. -/
theorem readInstructions_stored {c : Cursor} (hc : c.Inside) :
    ∃ front rest, c.view = front ++ rest ∧ StoresAll front (readInstructions c).1 ∧
      ((readInstructions c).2 = none → rest = []) := by
  induction c using readInstructions.induct with
  | case1 c h0 =>
    have hlen := Cursor.length_view hc
    refine ⟨[], [], List.length_eq_zero_iff.1 (by omega), ?_, fun _ => rfl⟩
    rw [readInstructions_nil h0]
    exact .nil
  | case2 c h0 fault c' h =>
    refine ⟨[], c.view, rfl, ?_, ?_⟩
    · rw [readInstructions_error h0 h]
      exact .nil
    · rw [readInstructions_error h0 h]
      exact fun hn => absurd hn (Option.some_ne_none _)
  | case3 c h0 i c' h _ ih =>
    obtain ⟨bs, tail, hv, hs, rfl⟩ := describes_readInstruction.yields hc h
    obtain ⟨front, rest, hv', hs', hn⟩ := ih (Cursor.inside_advance hc hv)
    rw [Cursor.view_advance hc hv] at hv'
    rw [readInstructions_ok h0 h]
    exact ⟨bs ++ front, rest, by rw [hv, hv', List.append_assoc], .cons hs hs', hn⟩

theorem length_pos_of_number {bs : Bytes} {code : Nat} (h : Number bs code) : 0 < bs.length := by
  rcases h with ⟨b, rfl, -⟩ | ⟨high, low, rfl, -⟩
  · exact Nat.one_pos
  · exact Nat.two_pos

theorem length_pos_of_stores {bs : Bytes} {i : Instruction} (h : Stores bs i) :
    0 < bs.length := by
  obtain ⟨front, back, code, rfl, hn, -⟩ := h
  rw [List.length_append]
  exact Nat.add_pos_left (length_pos_of_number hn) _

theorem length_pos_of_storesAll {bs : Bytes} {is : List Instruction} (h : StoresAll bs is)
    (hne : is ≠ []) : 0 < bs.length := by
  cases h with
  | nil => exact absurd rfl hne
  | cons h _ =>
    rw [List.length_append]
    exact Nat.add_pos_left (length_pos_of_stores h) _

theorem exists_stores_of_mem {bs : Bytes} {is : List Instruction} (h : StoresAll bs is) :
    ∀ i ∈ is, ∃ piece, Stores piece i := by
  induction h with
  | nil => exact fun i hi => absurd hi List.not_mem_nil
  | cons h _ ih => exact List.forall_mem_cons.2 ⟨⟨_, h⟩, ih⟩

/-- Stored instructions are read back up to the end of the window. -/
theorem readInstructions_of_storesAll {bs : Bytes} {is : List Instruction} (h : StoresAll bs is)
    {c : Cursor} (hc : c.Inside) (hv : c.view = bs) : readInstructions c = (is, none) := by
  induction h generalizing c with
  | nil =>
    have hlen := Cursor.length_view hc
    rw [hv] at hlen
    exact readInstructions_nil hlen.symm
  | cons h _ ih =>
    have hlen := Cursor.length_view hc
    have hpos := length_pos_of_stores h
    rw [hv, List.length_append] at hlen
    rw [readInstructions_ok (by omega) (describes_readInstruction.accepts hc hv h),
      ih (Cursor.inside_advance hc hv) (Cursor.view_advance hc hv)]

theorem stores_unique {front rest front' rest' : Bytes} {i i' : Instruction} (h : Stores front i)
    (h' : Stores front' i') (he : front ++ rest = front' ++ rest') : front = front' ∧ i = i' := by
  have hc := Cursor.inside_whole (front ++ rest).toArray
  have hv := Cursor.view_whole (front ++ rest)
  have hread := describes_readInstruction.accepts hc hv h
  rw [describes_readInstruction.accepts hc (hv.trans he) h'] at hread
  obtain ⟨hi, hadvance⟩ := EStateM.Result.ok.inj hread
  have hpos := congrArg Cursor.pos hadvance
  simp only [Cursor.advance] at hpos
  exact ⟨(List.append_inj he (by omega)).1, hi.symm⟩

/-- Instructions that are stored in front of other bytes come first among those that are stored
in all of them. -/
theorem exists_append_of_storesAll {bs more : Bytes} {is js : List Instruction}
    (h : StoresAll bs is) (h' : StoresAll (bs ++ more) js) :
    ∃ rest, js = is ++ rest ∧ StoresAll more rest := by
  induction h generalizing js with
  | nil => exact ⟨js, rfl, h'⟩
  | @cons front back i is h _ ih =>
    generalize hbs : front ++ back ++ more = bs at h'
    have hpos := length_pos_of_stores h
    cases h' with
    | nil =>
      have hlen := congrArg List.length hbs
      simp only [List.length_append, List.length_nil] at hlen
      omega
    | @cons front' back' i' js h' hs' =>
      obtain ⟨rfl, rfl⟩ := stores_unique h h' ((List.append_assoc _ _ _).symm.trans hbs)
      rw [List.append_assoc, List.append_right_inj] at hbs
      subst hbs
      obtain ⟨rest, rfl, hrest⟩ := ih hs'
      exact ⟨rest, rfl, hrest⟩

/-! ## Faults -/

/-- The faults of reading instructions: bytes are missing, or a number is no operation's. -/
def IsScanFault (e : Fault) : Prop := e.IsShortage ∨ ∃ code, e = .unknownOpcode code

theorem raises_readNumber : Raises readNumber IsScanFault := by
  have u8 : Raises u8 IsScanFault := raises_u8.mono fun _ h => Or.inl h
  refine u8.bind fun first => ?_
  split
  · exact u8.map _
  · exact Raises.pure first

theorem raises_readOpcode : Raises readOpcode IsScanFault := by
  refine raises_readNumber.bind fun code => ?_
  split
  · exact Raises.pure _
  · exact Raises.throw (Or.inr ⟨code, rfl⟩)

theorem raises_readArg (param : ParamKind) : Raises (readArg param) Fault.IsShortage := by
  cases param with
  | byte | register | registerTuple => exact raises_u8.bind fun _ => Raises.pure _
  | word | codeLabel | dataLabel | textLabel => exact raises_u16.bind fun _ => Raises.pure _
  | dword => exact raises_u32.bind fun _ => Raises.pure _
  | int => exact raises_i32.bind fun _ => Raises.pure _
  | float => exact raises_single.bind fun _ => Raises.pure _
  | string =>
    refine raises_position.bind fun _ => raises_remaining.bind fun _ => ?_
    exact (raises_terminated _).bind fun _ => raises_position.bind fun _ => Raises.pure _
  | codeLabels =>
    exact raises_u8.bind fun _ => (raises_u16Array _).bind fun _ => Raises.pure _
  | registers => exact raises_u8.bind fun _ => (raises_bytes _).bind fun _ => Raises.pure _

theorem raises_readOperands (op : Opcode) : Raises (readOperands op) IsScanFault := by
  unfold readOperands
  split
  · exact Raises.pure _
  · exact (Raises.mapM raises_readArg op.params).mono fun _ h => Or.inl h

theorem raises_readInstruction : Raises readInstruction IsScanFault :=
  raises_readOpcode.bind fun op => (raises_readOperands op).bind fun _ => Raises.pure _

theorem readInstructions_fault {c : Cursor} {position : Int} {e : Fault}
    (h : (readInstructions c).2 = some (position, e)) : IsScanFault e := by
  induction c using readInstructions.induct with
  | case1 c h0 =>
    rw [readInstructions_nil h0] at h
    cases h
  | case2 c h0 fault c' hf =>
    rw [readInstructions_error h0 hf] at h
    cases h
    exact raises_readInstruction c _ c' hf
  | case3 c h0 i c' hi _ ih =>
    rw [readInstructions_ok h0 hi] at h
    exact ih h

/-! ## The instructions that can be read -/

theorem gives_readOpcode : Gives readOpcode (· ∈ Opcode.table) := by
  refine (Gives.trivial readNumber).bind fun code _ => ?_
  split
  · next hop => exact Gives.pure (List.mem_of_find?_eq_some hop)
  · exact Gives.throw _

theorem gives_readArg (param : ParamKind) : Gives (readArg param) fun a => 0 ≤ a.size := by
  cases param with
  | byte | register | registerTuple | word | codeLabel | dataLabel | textLabel | dword | int
    | float => exact (Gives.trivial _).bind fun _ _ => Gives.pure (by dsimp only; omega)
  | codeLabels | registers =>
    refine (Gives.trivial _).bind fun count _ => (Gives.trivial _).bind fun _ _ => ?_
    exact Gives.pure (by dsimp only; omega)
  | string =>
    intro c a c' h
    rw [readArg_string] at h
    obtain ⟨value, c'', hs, h⟩ := Read.ok_of_bind h
    have hmoved := (Read.moves_terminated _ _ _ _ hs).2.1
    have hstart : c''.start = c.start := by
      unfold Read.terminated at hs
      split at hs
      · cases hs
      · cases hs
      · cases hs
        rfl
    cases h
    show 0 ≤ c'.position - c.position
    unfold Cursor.position
    omega

/-- An instruction that can be read is one of the table's and takes some bytes. -/
theorem gives_readInstruction :
    Gives readInstruction fun i => i.opcode ∈ Opcode.table ∧ 0 < i.size := by
  have operands : ∀ op, Gives (readOperands op) fun as => ∀ a ∈ as, 0 ≤ a.size := by
    intro op
    unfold readOperands
    split
    · exact Gives.pure fun a ha => absurd ha List.not_mem_nil
    · exact fun c as c' h => (Gives.mapM gives_readArg _ c as c' h).2
  refine gives_readOpcode.bind fun op hop => (operands op).bind fun as has => Gives.pure ⟨hop, ?_⟩
  have hargs : 0 ≤ total (as.map (·.size)) := total_nonneg (List.forall_mem_map.2 has)
  have hop : 0 < op.size := by
    unfold Opcode.size
    split
    all_goals omega
  show 0 < (op.size : Int) + total (as.map (·.size))
  omega

theorem forall_readInstructions {P : Instruction → Prop} (h : Gives readInstruction P)
    (c : Cursor) : ∀ i ∈ (readInstructions c).1, P i := by
  induction c using readInstructions.induct with
  | case1 c h0 =>
    rw [readInstructions_nil h0]
    exact fun i hi => absurd hi List.not_mem_nil
  | case2 c h0 fault c' hr =>
    rw [readInstructions_error h0 hr]
    exact fun i hi => absurd hi List.not_mem_nil
  | case3 c h0 i c' hr _ ih =>
    rw [readInstructions_ok h0 hr]
    exact List.forall_mem_cons.2 ⟨h c i c' hr, ih⟩

theorem textLabel_not_mem_params {op : Opcode} (h : op ∈ Opcode.table) :
    ParamKind.textLabel ∉ op.params := by
  refine Opcode.forall_table (p := fun op => ParamKind.textLabel ∉ op.params) ?_ ?_ op h
  · decide +kernel
  · exact fun _ => List.not_mem_nil

theorem refersTo?_text {param : ParamKind} (h : param.refersTo? = some .text) :
    param = .textLabel := by
  cases param <;> first | rfl | exact absurd h (by decide)

theorem inlineReferences_not_text {i : Instruction} (h : i.opcode ∈ Opcode.table) :
    ∀ r ∈ inlineReferences i, r.kind ≠ .text := by
  intro r hr htext
  obtain ⟨⟨param, a⟩, hpa, hr⟩ := List.mem_flatMap.1 hr
  have hparam : param ≠ .textLabel := by
    rintro rfl
    exact textLabel_not_mem_params h (List.of_mem_zip hpa).1
  dsimp only at hr
  split at hr
  · obtain ⟨n, -, rfl⟩ := List.mem_map.1 hr
    cases htext
  · rw [Option.mem_toList, Option.map_eq_some_iff] at hr
    obtain ⟨kind, hk, rfl⟩ := hr
    exact hparam (refersTo?_text (htext ▸ hk))
  · exact absurd hr List.not_mem_nil

theorem pushedReferences_not_text {op : Opcode} (h : op ∈ Opcode.table)
    (pushes : List Instruction) : ∀ r ∈ pushedReferences op pushes, r.kind ≠ .text := by
  intro r hr htext
  obtain ⟨⟨param, push⟩, hpp, hr⟩ := List.mem_filterMap.1 hr
  have hparam : param ≠ .textLabel := by
    rintro rfl
    exact textLabel_not_mem_params h (List.mem_of_mem_drop (List.of_mem_zip hpp).1)
  dsimp only at hr
  split at hr
  · cases hr
  · simp only [Option.bind_eq_bind, Option.bind_eq_some_iff, Option.some.injEq] at hr
    obtain ⟨a, -, n, -, kind, hk, rfl⟩ := hr
    exact hparam (refersTo?_text (htext ▸ hk))

theorem references_not_text {is : List Instruction} (h : ∀ i ∈ is, i.opcode ∈ Opcode.table)
    (stack : List Instruction) : ∀ r ∈ references stack is, r.kind ≠ .text := by
  induction is generalizing stack with
  | nil => exact fun r hr => absurd hr List.not_mem_nil
  | cons i is ih =>
    have ih := ih fun j hj => h j (List.mem_cons_of_mem _ hj)
    have hi := h i List.mem_cons_self
    intro r hr
    unfold references at hr
    split at hr
    · exact ih _ r hr
    · split at hr
      · rcases List.mem_append.1 hr with hr | hr
        · exact pushedReferences_not_text hi stack r hr
        · exact ih _ r hr
      · rcases List.mem_append.1 hr with hr | hr
        · exact inlineReferences_not_text hi r hr
        · exact ih _ r hr

end ObjectCode
end QuestArchive
