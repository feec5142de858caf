import QuestArchive.Proofs.ObjectCode.Laying

/-!
# Which well-formed segments have a stored form

Three things can be well formed and have no bytes: a number that is too large for single
precision, a list of more elements than a byte counts, and a text with half of a surrogate
pair.  Everything else is written, and as many bytes as its size says.  For that an operation
need not be one of the table, nor have an operand for each of its parameters.
-/

namespace QuestArchive

/-- A value has bytes wherever it suits. -/
def Value.Packable : Value → Prop
  | .float x => ∃ s, x.toSingle? = some s
  | .list ns => ns.length ≤ 255
  | _ => True

def Instruction.Packable (i : Instruction) : Prop := ∀ a ∈ i.args, a.value.Packable

/-- The code takes one byte or two, and the operands are right for the first parameters. -/
structure Instruction.Sized (i : Instruction) : Prop where
  code : 0 ≤ i.opcode.code ∧ i.opcode.code ≤ 0xFFFF
  args : ∃ params, params <+: i.opcode.params ∧
    List.Forall₂ (fun param a => Arg.Suits param a ∧ a.value.Packable) params i.args

def Segment.Packable : Segment → Prop
  | .code _ instructions => ∀ i ∈ instructions, i.Packable
  | .data .. => True
  | .text _ value => Text.Encodable value

def Segment.Sized : Segment → Prop
  | .code _ instructions => ∀ i ∈ instructions, i.Sized
  | .data .. => True
  | .text _ value => Text.Encodable value

theorem Instruction.sized_of_packable {i : Instruction} (h : i.WellFormed) (hp : i.Packable) :
    i.Sized := by
  constructor
  · obtain ⟨code, hc, he⟩ := Opcode.code_mem_codes h.opcode
    have hcode := Opcode.mem_codes.1 hc
    omega
  · have hargs := h.args
    split at hargs
    · rw [hargs]
      exact ⟨[], List.nil_prefix, .nil⟩
    · exact ⟨_, List.prefix_rfl,
        forall₂_imp_mem hargs fun _ _ a ha hsuits => ⟨hsuits, hp a ha⟩⟩

theorem Segment.sized_of_packable {s : Segment}
    (h : ∀ ls is, s = .code ls is → ∀ i ∈ is, i.WellFormed) (hp : s.Packable) : s.Sized := by
  cases s with
  | code ls is => exact fun i hi => Instruction.sized_of_packable (h ls is rfl i hi) (hp i hi)
  | data ls bytes => exact True.intro
  | text ls value => exact hp

namespace ObjectCode

/-! ## Operands -/

theorem exists_packed_operand {param : ParamKind} {a : Arg} (h : a.Suits param)
    (hp : a.value.Packable) :
    ∃ bs, writeOperand param a.value = .ok bs ∧ a.size = bs.length := by
  have plain : a.value.Storable → ∃ bs, writeOperand param a.value = .ok bs ∧
      a.size = bs.length := by
    intro hs
    obtain ⟨bs, ho, hw⟩ := exists_operand h hs
    exact ⟨bs, hw, size_of_operand ho⟩
  obtain ⟨value, size⟩ := a
  cases param with
  | float =>
    obtain ⟨⟨x, rfl⟩, hm⟩ := h
    cases hm
    obtain ⟨s, hs⟩ := hp
    refine ⟨Word.encode 4 s.toNat, ?_, by rw [Word.length_encode]; rfl⟩
    show Field.single x = _
    unfold Field.single
    rw [hs]
  | string =>
    obtain ⟨⟨t, rfl, ht⟩, hm⟩ := h
    have hb := textBytes_of_encodable ht
    obtain ⟨bs, hbs, hm⟩ := bind_eq_ok_iff.1 hm
    cases hm
    refine ⟨bs ++ [0, 0], ?_, by rw [List.length_append]; rfl⟩
    show (Field.textBytes t >>= fun bs => _) = _
    rw [show Field.textBytes t = .ok bs from hbs]
    rfl
  | codeLabels =>
    obtain ⟨⟨ns, rfl, -⟩, -⟩ := h
    exact plain hp
  | registers =>
    obtain ⟨⟨ns, rfl, -⟩, -⟩ := h
    exact plain hp
  | register | registerTuple =>
    obtain ⟨⟨n, rfl, -⟩, -⟩ := h
    exact plain True.intro
  | byte | word | dword | int | codeLabel | dataLabel | textLabel =>
    obtain ⟨⟨n, range, rfl, -⟩, -⟩ := h
    exact plain True.intro

theorem length_le_of_counted {ns : List Int} {body : Except Fault Bytes} {bs : Bytes}
    (h : (Value.list ns).counted body = .ok bs) : ns.length ≤ 255 := by
  unfold Value.counted at h
  obtain ⟨items, hi, h⟩ := bind_eq_ok_iff.1 h
  obtain ⟨count, hc, -⟩ := bind_eq_ok_iff.1 h
  cases hi
  unfold Field.u8 Field.unsigned at hc
  split at hc
  · next hlt =>
    rw [List.length_map, show Word.bound 1 = 256 from rfl] at hlt
    omega
  · cases hc

theorem packable_of_writeOperand {param : ParamKind} {a : Arg} {bs : Bytes} (h : a.Suits param)
    (hw : writeOperand param a.value = .ok bs) : a.value.Packable := by
  obtain ⟨value, size⟩ := a
  cases param with
  | float =>
    obtain ⟨⟨x, rfl⟩, -⟩ := h
    change Field.single x = .ok bs at hw
    unfold Field.single at hw
    split at hw
    · next s hs => exact ⟨s, hs⟩
    · cases hw
  | string =>
    obtain ⟨⟨t, rfl, -⟩, -⟩ := h
    exact True.intro
  | codeLabels =>
    obtain ⟨⟨ns, rfl, -⟩, -⟩ := h
    exact length_le_of_counted hw
  | registers =>
    obtain ⟨⟨ns, rfl, -⟩, -⟩ := h
    exact length_le_of_counted hw
  | register | registerTuple =>
    obtain ⟨⟨n, rfl, -⟩, -⟩ := h
    exact True.intro
  | byte | word | dword | int | codeLabel | dataLabel | textLabel =>
    obtain ⟨⟨n, range, rfl, -⟩, -⟩ := h
    exact True.intro

/-- Parameters for which there is no operand are passed over. -/
theorem exists_packed_operands {params more : List ParamKind} {as : List Arg}
    (h : List.Forall₂ (fun param a => Arg.Suits param a ∧ a.value.Packable) params as) :
    ∃ parts, ((params ++ more).zip as).mapM (fun pa => writeOperand pa.1 pa.2.value) = .ok parts ∧
      total (as.map (·.size)) = parts.flatten.length := by
  induction h with
  | nil => exact ⟨[], by rw [List.zip_nil_right]; rfl, rfl⟩
  | cons ha _ ih =>
    obtain ⟨bs, hw, hlen⟩ := exists_packed_operand ha.1 ha.2
    obtain ⟨parts, hm, htotal⟩ := ih
    refine ⟨bs :: parts, ?_, ?_⟩
    · rw [List.cons_append, List.zip_cons_cons, List.mapM_cons, hw]
      show (_ >>= fun parts => _) = _
      rw [hm]
      rfl
    · rw [List.map_cons, total, hlen, htotal, List.flatten_cons, List.length_append]
      omega

theorem packable_of_writeOperands {params : List ParamKind} {as : List Arg} {parts : List Bytes}
    (h : List.Forall₂ Arg.Suits params as)
    (hw : (params.zip as).mapM (fun pa => writeOperand pa.1 pa.2.value) = .ok parts) :
    ∀ a ∈ as, a.value.Packable := by
  induction h generalizing parts with
  | nil => exact fun a ha => absurd ha List.not_mem_nil
  | cons ha _ ih =>
    rw [List.zip_cons_cons, mapM_eq_ok_iff] at hw
    obtain ⟨bs, rest, hbs, hrest, rfl⟩ := List.forall₂_cons_left_iff.1 hw
    exact List.forall_mem_cons.2 ⟨packable_of_writeOperand ha hbs, ih (mapM_eq_ok_iff.2 hrest)⟩

/-! ## Instructions and segments -/

theorem exists_writeOpcode {op : Opcode} (h : 0 ≤ op.code ∧ op.code ≤ 0xFFFF) :
    ∃ bs, writeOpcode op = .ok bs ∧ op.size = bs.length := by
  obtain ⟨low, -, hlow⟩ := @exists_byte (op.code % 256) (by omega) (by omega)
  by_cases hc : op.code < 0x100
  · have hs : op.size = 1 := if_pos hc
    refine ⟨[low], ?_, hs⟩
    simp only [writeOpcode, hs, OfNat.one_ne_ofNat, if_false, Field.u8, hlow]
    rfl
  · have hs : op.size = 2 := if_neg hc
    obtain ⟨high, -, hhigh⟩ := @exists_byte (op.code / 256) (by omega) (by omega)
    refine ⟨[high, low], ?_, hs⟩
    simp only [writeOpcode, hs, if_true, Field.u8, hlow, hhigh]
    rfl

theorem exists_packed_instruction {i : Instruction} (h : i.Sized) :
    ∃ bs, writeInstruction i = .ok bs ∧ i.size = bs.length := by
  obtain ⟨front, hw, hsize⟩ := exists_writeOpcode h.code
  obtain ⟨params, ⟨more, hparams⟩, hargs⟩ := h.args
  obtain ⟨parts, hm, htotal⟩ := @exists_packed_operands params more _ hargs
  rw [hparams] at hm
  refine ⟨front ++ parts.flatten, ?_, ?_⟩
  · unfold writeInstruction
    rw [hw, ok_bind, hm]
    rfl
  · unfold Instruction.size
    rw [htotal, hsize, List.length_append]
    omega

theorem packable_of_writeInstruction {i : Instruction} {bs : Bytes} (h : i.WellFormed)
    (hw : writeInstruction i = .ok bs) : i.Packable := by
  unfold writeInstruction at hw
  obtain ⟨_, -, hw⟩ := bind_eq_ok_iff.1 hw
  obtain ⟨parts, hm, -⟩ := bind_eq_ok_iff.1 hw
  have hargs := h.args
  split at hargs
  · intro a ha
    rw [hargs] at ha
    exact absurd ha List.not_mem_nil
  · exact packable_of_writeOperands hargs hm

theorem exists_fills {s : Segment} (h : s.Sized) : ∃ bs, Fills s bs := by
  cases s with
  | code ls is =>
    obtain ⟨parts, hparts⟩ := exists_forall₂
      (R := fun i bs => writeInstruction i = .ok bs ∧ i.size = bs.length) fun i (hi : i ∈ is) =>
        exists_packed_instruction (h i hi)
    refine ⟨parts.flatten, ?_, ?_, rfl⟩
    · show (is.mapM writeInstruction >>= fun parts => _) = _
      rw [mapM_eq_ok_iff.2 (hparts.imp fun _ _ hi => hi.1)]
      rfl
    · show total (is.map (·.size)) = _
      exact total_of_forall₂ (hparts.imp fun _ _ hi => hi.2)
  | data ls bytes => exact ⟨bytes, rfl, rfl, rfl⟩
  | text ls value =>
    have hb := textBytes_of_encodable h
    have hsize := Text.size16_of_encodable h
    have heven : Segment.textExtent value = 4 * (((Text.unitBytes value).length / 2 + 2) / 2) := by
      unfold Segment.textExtent
      rw [hsize]
    refine ⟨Text.unitBytes value ++ Field.zeros (Segment.textExtent value -
      (Text.unitBytes value).length : Int), ?_, ?_, ?_⟩
    · show (Field.textBytes value >>= fun units => _) = _
      rw [hb]
      rfl
    · show ((Segment.textExtent value : Nat) : Int) = _
      unfold Field.zeros
      rw [List.length_append, List.length_replicate, heven]
      omega
    · show (Field.textBytes value >>= fun _ => _) = _
      rw [hb]
      rfl

theorem packable_of_writeSegment {s : Segment} {bs : Bytes}
    (h : ∀ ls is, s = .code ls is → ∀ i ∈ is, i.WellFormed) (hw : writeSegment s = .ok bs) :
    s.Packable := by
  cases s with
  | code ls is =>
    obtain ⟨parts, hm, -⟩ := bind_eq_ok_iff.1 hw
    intro i hi
    obtain ⟨bs, -, hi'⟩ := exists_of_forall₂ (mapM_eq_ok_iff.1 hm) i hi
    exact packable_of_writeInstruction (h ls is rfl i hi) hi'
  | data ls bytes => exact True.intro
  | text ls value =>
    obtain ⟨units, hb, -⟩ := bind_eq_ok_iff.1 hw
    unfold Field.textBytes at hb
    split at hb
    · next he => exact Text.encodable_of_encode16 he
    · cases hb

/-! ## Scripts -/

theorem mem_laid_of_split {segments before after : List Segment} {s : Segment} (pos : Int)
    (h : segments = before ++ s :: after) :
    (pos + total (before.map (·.extent)), s) ∈ laid pos segments := by
  rw [h, laid_append]
  exact List.mem_append_right _ List.mem_cons_self

section

variable {segments : List Segment}

/-- A script of well-formed instructions whose labels can be placed has a stored form if
everything in it has bytes.  Its code takes the sizes of all segments, and the label table has
for each label the sizes of the segments before its own. -/
theorem exists_write_of_packable
    (h : ∀ s ∈ segments, ∀ ls is, s = .code ls is → ∀ i ∈ is, i.WellFormed)
    (hp : ∀ s ∈ segments, s.Packable) (hn : (segments.flatMap Segment.labels).Nodup)
    (h0 : ∀ s ∈ segments, ∀ l ∈ s.labels, 0 ≤ l) :
    ∃ stored, write segments = .ok stored ∧
      (stored.code.length : Int) = total (segments.map (·.extent)) ∧
      (∀ s ∈ segments, s.size = .ok s.extent) ∧
      ∀ before s after, segments = before ++ s :: after → ∀ l ∈ s.labels,
        stored.offsets[l.toNat]? = some (total (before.map (·.extent))) := by
  obtain ⟨pieces, hfills⟩ := exists_forall₂ fun s hs =>
    exists_fills (Segment.sized_of_packable (h s hs) (hp s hs))
  obtain ⟨offsets, hw, hset, -⟩ := exists_write_of_fills hfills hn h0
  refine ⟨_, hw, (total_of_forall₂ (hfills.imp fun _ _ hs => hs.length)).symm, ?_, ?_⟩
  · intro s hs
    obtain ⟨bs, -, hb⟩ := exists_of_forall₂ hfills s hs
    exact hb.size
  · intro before s after he l hl
    have hlaid := mem_laid_of_split 0 he
    rw [Int.zero_add] at hlaid
    exact hset _ s hlaid l hl

theorem packable_of_write {stored : Stored}
    (h : ∀ s ∈ segments, ∀ ls is, s = .code ls is → ∀ i ∈ is, i.WellFormed)
    (hw : write segments = .ok stored) : ∀ s ∈ segments, s.Packable := by
  unfold write at hw
  obtain ⟨_, -, hw⟩ := bind_eq_ok_iff.1 hw
  obtain ⟨pieces, hm, -⟩ := bind_eq_ok_iff.1 hw
  intro s hs
  obtain ⟨bs, -, hs'⟩ := exists_of_forall₂ (mapM_eq_ok_iff.1 hm) s hs
  exact packable_of_writeSegment (h s hs) hs'

end

end ObjectCode
end QuestArchive
