import QuestArchive.Proofs.ObjectCode.Packing

/-!
# What is left of an instruction once it is stored

A number is rounded to single precision, and a text ends at its first null character.  So what
was written for an instruction without such texts is read as the instruction with its numbers
rounded, and the size of neither shows the difference.
-/

namespace QuestArchive

def Value.narrowed : Value → Value
  | .float x => .float ((x.toSingle?.map Double.ofSingle).getD x)
  | value => value

def Arg.narrowed (a : Arg) : Arg := { a with value := a.value.narrowed }

def Instruction.narrowed (i : Instruction) : Instruction :=
  { i with args := i.args.map Arg.narrowed }

/-- No null character stands in a text, which would be read up to there. -/
def Value.NullFree : Value → Prop
  | .text t => Rune.char '\x00' ∉ t
  | _ => True

instance (v : Value) : Decidable v.NullFree :=
  match v with
  | .text t => inferInstanceAs (Decidable (Rune.char '\x00' ∉ t))
  | .int _ | .float _ | .list _ | .register _ => inferInstanceAs (Decidable True)

def Instruction.NullFree (i : Instruction) : Prop := ∀ a ∈ i.args, a.value.NullFree

instance (i : Instruction) : Decidable i.NullFree :=
  inferInstanceAs (Decidable (∀ a ∈ i.args, a.value.NullFree))

/-- No parameter takes a number but one of single precision. -/
theorem Value.suits_float {param : ParamKind} {x : Double} (h : (Value.float x).Suits param) :
    param = .float := by
  cases param with
  | float => rfl
  | byte | word | dword | int | codeLabel | dataLabel | textLabel =>
    obtain ⟨n, range, he, -⟩ := h
    cases he
  | register | registerTuple | string | codeLabels | registers =>
    obtain ⟨n, he, -⟩ := h
    cases he

theorem Value.nullFree_narrowed {v : Value} : v.narrowed.NullFree ↔ v.NullFree := by
  cases v
  all_goals exact Iff.rfl

namespace Instruction

@[simp] theorem opcode_narrowed (i : Instruction) : i.narrowed.opcode = i.opcode := rfl

theorem size_narrowed (i : Instruction) : i.narrowed.size = i.size := by
  unfold size narrowed
  rw [List.map_map]
  rfl

theorem nullFree_narrowed {i : Instruction} : i.narrowed.NullFree ↔ i.NullFree := by
  unfold NullFree narrowed
  rw [List.forall_mem_map]
  exact forall₂_congr fun a _ => Value.nullFree_narrowed

/-- Narrowing leaves an instruction alone if no parameter of its operation is a number. -/
theorem narrowed_eq {i : Instruction} (h : i.WellFormed) (hp : ParamKind.float ∉ i.opcode.params) :
    i.narrowed = i := by
  have hargs : ∀ a ∈ i.args, a.narrowed = a := by
    have h := h.args
    split at h
    · rw [h]
      exact fun a ha => absurd ha List.not_mem_nil
    · intro a ha
      obtain ⟨param, hparam, hsuits⟩ := exists_of_forall₂ h.flip a ha
      obtain ⟨value, size⟩ := a
      cases value with
      | float x => exact absurd (Value.suits_float hsuits.1 ▸ hparam) hp
      | int n | text t | list ns | register number => rfl
  unfold narrowed
  rw [List.map_congr_left hargs, List.map_id']

end Instruction

namespace ObjectCode

/-! ## Operands -/

/-- An operand is written as bytes that hold it with its number rounded. -/
theorem exists_narrowed_operand {param : ParamKind} {a : Arg} (h : a.Suits param)
    (hp : a.value.Packable) (hu : a.value.NullFree) :
    ∃ bs, Operand param bs a.narrowed ∧ writeOperand param a.value = .ok bs := by
  obtain ⟨value, size⟩ := a
  cases value with
  | float x =>
    obtain ⟨s, hs⟩ := hp
    cases Value.suits_float h.1
    cases h.2
    refine ⟨Word.encode 4 s.toNat, ⟨Word.length_encode 4 s.toNat, ?_⟩, ?_⟩
    · unfold Arg.narrowed Value.narrowed Read.singleOf
      dsimp only
      rw [Word.decode_encode s.toNat_lt, UInt32.ofNat_toNat, hs]
      rfl
    · show Field.single x = _
      unfold Field.single
      rw [hs]
  | text t => exact exists_operand h hu
  | int n | list ns | register number => exact exists_operand h hp

/-! ## Instructions -/

theorem exists_narrowed_instruction {i : Instruction} (h : i.WellFormed) (hp : i.Packable)
    (hu : i.NullFree) : ∃ bs, Stores bs i.narrowed ∧ writeInstruction i = .ok bs := by
  refine exists_stores_map h.opcode ?_
  have hargs := h.args
  split at hargs
  · next hpop => rwa [if_pos hpop]
  · next hpop =>
    rw [if_neg hpop]
    exact forall₂_imp_mem hargs fun _ _ a ha hsuits =>
      exists_narrowed_operand hsuits (hp a ha) (hu a ha)

/-- Code that was written is stored with its numbers rounded. -/
theorem storesAll_narrowed {ls : List Int} {is : List Instruction} {bs : Bytes}
    (h : ∀ i ∈ is, i.WellFormed) (hu : ∀ i ∈ is, i.NullFree)
    (hw : writeSegment (.code ls is) = .ok bs) :
    StoresAll bs (is.map Instruction.narrowed) := by
  have hp : ∀ i ∈ is, i.Packable :=
    packable_of_writeSegment (fun _ _ he => (Segment.code.inj he).2 ▸ h) hw
  obtain ⟨_, parts, hs, hm, rfl⟩ := exists_storesAll_map fun i hi =>
    exists_narrowed_instruction (h i hi) (hp i hi) (hu i hi)
  obtain ⟨parts', hm', he⟩ := bind_eq_ok_iff.1 hw
  cases hm.symm.trans hm'
  cases he
  exact hs

/-! ## What was read -/

theorem nullFree_of_operand {param : ParamKind} {bs : Bytes} {a : Arg} (h : Operand param bs a) :
    a.value.NullFree := by
  cases param with
  | string =>
    obtain ⟨units, -, hn, rfl⟩ := h
    exact (Text.fits_decode16 hn).noNull
  | byte | register | registerTuple =>
    obtain ⟨b, -, rfl⟩ := h
    exact trivial
  | word | codeLabel | dataLabel | textLabel | dword | int | float =>
    obtain ⟨-, rfl⟩ := h
    exact trivial
  | codeLabels | registers =>
    obtain ⟨count, body, -, -, rfl⟩ := h
    exact trivial

/-- A text that was read ends where it ended in the code. -/
theorem nullFree_of_stores {bs : Bytes} {i : Instruction} (h : Stores bs i) : i.NullFree := by
  obtain ⟨front, back, code, -, -, -, ha⟩ := h
  split at ha
  · unfold Instruction.NullFree
    rw [ha.2]
    exact fun a ha => absurd ha List.not_mem_nil
  · intro a hmem
    obtain ⟨param, -, _, ho⟩ := exists_of_forall₂ (forall₂_of_operands ha).flip a hmem
    exact nullFree_of_operand ho

end ObjectCode
end QuestArchive
