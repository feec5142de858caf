import QuestArchive.ObjectCode.Layout
import QuestArchive.Proofs.Bytes.Field
import QuestArchive.Proofs.Number.Single
import QuestArchive.Proofs.ObjectCode.Operand
import QuestArchive.Proofs.Script.Table

/-!
# Writing what was read

An instruction that some bytes store takes as many bytes as it says, and is written as
just these bytes if nothing was lost when its operands were read.
-/

namespace QuestArchive

/-- A NaN or a replacement character does not say which bytes it was read from. -/
def Value.Legible : Value → Prop
  | .float x => x.isNaN = false
  | .text t => Rune.replacement ∉ t
  | _ => True

def Instruction.Legible (i : Instruction) : Prop := ∀ a ∈ i.args, a.value.Legible

def Segment.Legible : Segment → Prop
  | .code _ instructions => ∀ i ∈ instructions, i.Legible
  | _ => True

namespace ObjectCode

/-- A segment holds what some bytes store.  No text is ever read. -/
def Holds (bs : Bytes) : Segment → Prop
  | .code _ instructions => StoresAll bs instructions
  | .data _ content => content = bs
  | .text _ _ => False

/-! ## Sizes -/

theorem size_of_operand {param : ParamKind} {bs : Bytes} {a : Arg} (h : Operand param bs a) :
    a.size = bs.length := by
  cases param with
  | byte | register | registerTuple =>
    obtain ⟨b, rfl, rfl⟩ := h
    rfl
  | word | codeLabel | dataLabel | textLabel | dword | int | float =>
    obtain ⟨hl, rfl⟩ := h
    rw [hl]
    rfl
  | string =>
    obtain ⟨units, rfl, -, rfl⟩ := h
    rfl
  | codeLabels | registers =>
    obtain ⟨count, body, rfl, hl, rfl⟩ := h
    simp only [List.length_cons, hl]
    omega

theorem size_of_operands {params : List ParamKind} {bs : Bytes} {as : List Arg}
    (h : Operands params bs as) : total (as.map (·.size)) = bs.length := by
  induction params generalizing bs as with
  | nil =>
    obtain ⟨rfl, rfl⟩ := h
    rfl
  | cons param params ih =>
    obtain ⟨front, back, a, rest, rfl, rfl, ha, hr⟩ := h
    simp only [List.map_cons, total, size_of_operand ha, ih hr, List.length_append]
    omega

theorem size_of_number {bs : Bytes} {op : Opcode} {code : Nat} (h : Number bs code)
    (hc : op.code = code) : op.size = bs.length := by
  unfold Opcode.size
  rcases h with ⟨b, rfl, -, rfl⟩ | ⟨high, low, rfl, hh, rfl⟩
  · have hb := b.toNat_lt
    rw [if_pos (by omega)]
    rfl
  · rw [if_neg (by omega)]
    rfl

theorem size_of_stores {bs : Bytes} {i : Instruction} (h : Stores bs i) : i.size = bs.length := by
  obtain ⟨front, back, code, rfl, hn, hop, ha⟩ := h
  have hs := size_of_number hn (Opcode.code_of_ofCode? hop)
  have hb : total (i.args.map (·.size)) = back.length := by
    split at ha
    · obtain ⟨rfl, hargs⟩ := ha
      rw [hargs]
      rfl
    · exact size_of_operands ha
  rw [Instruction.size, hs, hb, List.length_append]
  omega

theorem size_of_storesAll {bs : Bytes} {is : List Instruction} (h : StoresAll bs is) :
    total (is.map (·.size)) = bs.length := by
  induction h with
  | nil => rfl
  | cons h _ ih =>
    simp only [List.map_cons, total, size_of_stores h, ih, List.length_append]
    omega

theorem total_of_forall₂ {α : Type} {size : α → Int} {xs : List α} {parts : List Bytes}
    (h : List.Forall₂ (fun x bs => size x = bs.length) xs parts) :
    total (xs.map size) = parts.flatten.length := by
  induction h with
  | nil => rfl
  | cons hx _ ih =>
    rw [List.map_cons, total, hx, ih, List.flatten_cons, List.length_append]
    omega

theorem extent_of_holds {bs : Bytes} {s : Segment} (h : Holds bs s) : s.extent = bs.length := by
  cases s with
  | code labels instructions => exact size_of_storesAll h
  | data labels content => exact congrArg (fun bs : Bytes => (bs.length : Int)) h
  | text labels value => exact h.elim

theorem size_of_holds {bs : Bytes} {s : Segment} (h : Holds bs s) : s.size = .ok s.extent := by
  cases s with
  | code labels instructions | data labels content => rfl
  | text labels value => exact h.elim

/-! ## Writing -/

theorem single_singleOf {bs : Bytes} (hl : bs.length = 4) (h : (Read.singleOf bs).isNaN = false) :
    Field.single (Read.singleOf bs) = .ok bs := by
  have hlt := Word.decode_lt bs
  rw [hl] at hlt
  have hn : (UInt32.ofNat (Word.decode bs)).toNat = Word.decode bs :=
    Nat.mod_eq_of_lt (by rwa [show Word.bound 4 = 2 ^ 32 from rfl] at hlt)
  unfold Field.single
  rw [show (Read.singleOf bs).toSingle? = _ from Double.toSingle?_ofSingle h]
  show Except.ok (Word.encode 4 (UInt32.ofNat (Word.decode bs)).toNat) = _
  rw [hn, ← hl, Word.encode_decode]

theorem mapM_words {count : Nat} {bs : Bytes} (h : bs.length = 2 * count) :
    ∃ parts, ((Read.groups 2 count bs).map fun w => Value.int (Word.decode w : Int)).mapM
      (Value.unsigned 2) = .ok parts ∧ parts.flatten = bs := by
  induction count generalizing bs with
  | zero => exact ⟨[], rfl, (List.length_eq_zero_iff.1 h).symm⟩
  | succ count ih =>
    obtain ⟨parts, hp, hflat⟩ := @ih (bs.drop 2) (by rw [List.length_drop]; omega)
    have htake : (bs.take 2).length = 2 := by
      rw [List.length_take]
      omega
    have hfirst : Value.unsigned 2 (.int (Word.decode (bs.take 2) : Int)) = .ok (bs.take 2) := by
      have h := Field.unsigned_decode (bs.take 2)
      rwa [htake] at h
    refine ⟨bs.take 2 :: parts, ?_, ?_⟩
    · rw [Read.groups, List.map_cons, List.mapM_cons, hfirst]
      show (_ >>= fun parts => _) = _
      rw [hp]
      rfl
    · rw [List.flatten_cons, hflat, List.take_append_drop]

theorem bytes_list (numbers : Bytes) :
    Value.bytes (.list (numbers.map fun b => (b.toNat : Int))) = .ok numbers := by
  show (if _ then _ else _) = _
  rw [if_pos]
  · rw [List.map_map]
    exact congrArg Except.ok (List.map_id'' (fun b => by simp) numbers)
  · simp only [List.all_map, List.all_eq_true, Function.comp_apply, Bool.and_eq_true,
      decide_eq_true_eq]
    intro b _
    have hb := b.toNat_lt
    omega

theorem counted_list {ns : List Int} {count : UInt8} {body : Bytes}
    (h : ns.length = count.toNat) :
    (Value.list ns).counted (.ok body) = .ok (count :: body) := by
  have hi : (Value.list ns).items = .ok (ns.map Value.int) := rfl
  have hc : Field.u8 ((ns.map Value.int).length : Int) = .ok [count] := by
    rw [List.length_map, h, Field.u8, Field.unsigned_byte]
  unfold Value.counted
  simp only [hi, Except.bind, Bind.bind, hc]
  rfl

theorem writeOperand_of_operand {param : ParamKind} {bs : Bytes} {a : Arg}
    (h : Operand param bs a) (hl : a.value.Legible) : writeOperand param a.value = .ok bs := by
  cases param with
  | byte | register | registerTuple =>
    obtain ⟨b, rfl, rfl⟩ := h
    exact Field.unsigned_byte b
  | word | codeLabel | dataLabel | textLabel | dword =>
    obtain ⟨hlen, rfl⟩ := h
    have hd := Field.unsigned_decode bs
    rw [hlen] at hd
    exact hd
  | int =>
    obtain ⟨hlen, rfl⟩ := h
    have hw := Word.wrap_decode bs
    have he := Word.encode_decode bs
    rw [hlen] at hw he
    show Except.ok (Word.encode 4 (Word.wrap 4 (Word.signed 4 (Word.decode bs)))) = _
    rw [hw, he]
  | float =>
    obtain ⟨hlen, rfl⟩ := h
    exact single_singleOf hlen hl
  | string =>
    obtain ⟨units, rfl, -, rfl⟩ := h
    obtain ⟨henc, hbytes⟩ := Text.unitBytes_decode16 hl
    show (Field.textBytes (Text.decode16 units) >>= fun bs => _) = _
    rw [Field.textBytes, Text.encode16_of_encodable henc, hbytes]
    rfl
  | codeLabels =>
    obtain ⟨count, words, rfl, hlen, rfl⟩ := h
    obtain ⟨parts, hp, hflat⟩ := mapM_words hlen
    have hw : Value.words (.list ((Read.groups 2 count.toNat words).map
        fun w => (Word.decode w : Int))) = .ok words := by
      show (((List.map _ _).map Value.int).mapM (Value.unsigned 2) >>= fun parts => _) = _
      rw [List.map_map]
      refine (congrArg (· >>= _) hp).trans ?_
      exact congrArg Except.ok hflat
    unfold writeOperand
    rw [hw]
    exact counted_list (by rw [List.length_map, Read.length_groups])
  | registers =>
    obtain ⟨count, numbers, rfl, hlen, rfl⟩ := h
    unfold writeOperand
    rw [bytes_list]
    exact counted_list (by rw [List.length_map, hlen])

theorem mapM_writeOperand {params : List ParamKind} {bs : Bytes} {as : List Arg}
    (h : Operands params bs as) (hl : ∀ a ∈ as, a.value.Legible) :
    ∃ parts, (params.zip as).mapM (fun pa => writeOperand pa.1 pa.2.value) = .ok parts ∧
      parts.flatten = bs := by
  induction params generalizing bs as with
  | nil =>
    obtain ⟨rfl, rfl⟩ := h
    exact ⟨[], rfl, rfl⟩
  | cons param params ih =>
    obtain ⟨front, back, a, rest, rfl, rfl, ha, hr⟩ := h
    obtain ⟨parts, hp, hflat⟩ := ih hr fun a ha => hl a (List.mem_cons_of_mem _ ha)
    refine ⟨front :: parts, ?_, by rw [List.flatten_cons, hflat]⟩
    rw [List.zip_cons_cons, List.mapM_cons,
      writeOperand_of_operand ha (hl a List.mem_cons_self)]
    show (_ >>= fun parts => _) = _
    rw [hp]
    rfl

theorem writeOpcode_of_number {bs : Bytes} {op : Opcode} {code : Nat} (h : Number bs code)
    (hc : op.code = code) : writeOpcode op = .ok bs := by
  have hs := size_of_number h hc
  unfold writeOpcode
  rcases h with ⟨b, rfl, -, rfl⟩ | ⟨high, low, rfl, -, rfl⟩
  · have hb := b.toNat_lt
    have hm : op.code % 256 = b.toNat := by omega
    have h2 : op.size ≠ 2 := by
      rw [hs]
      exact Nat.ne_of_lt Nat.one_lt_two
    simp only [h2, if_false, hm, Field.u8, Field.unsigned_byte]
    rfl
  · have hb := low.toNat_lt
    have hm : op.code % 256 = low.toNat := by omega
    have hd : op.code / 256 = high.toNat := by omega
    have h2 : op.size = 2 := hs
    simp only [h2, if_true, hm, hd, Field.u8, Field.unsigned_byte]
    rfl

theorem writeInstruction_of_stores {bs : Bytes} {i : Instruction} (h : Stores bs i)
    (hl : i.Legible) : writeInstruction i = .ok bs := by
  obtain ⟨front, back, code, rfl, hn, hop, ha⟩ := h
  have hparts : ∃ parts, (i.opcode.params.zip i.args).mapM
      (fun pa => writeOperand pa.1 pa.2.value) = .ok parts ∧ parts.flatten = back := by
    split at ha
    · obtain ⟨rfl, hargs⟩ := ha
      rw [hargs, List.zip_nil_right]
      exact ⟨[], rfl, rfl⟩
    · exact mapM_writeOperand ha hl
  obtain ⟨parts, hp, hflat⟩ := hparts
  unfold writeInstruction
  rw [writeOpcode_of_number hn (Opcode.code_of_ofCode? hop)]
  show (_ >>= fun parts => _) = _
  rw [hp, ← hflat]
  rfl

theorem mapM_writeInstruction {bs : Bytes} {is : List Instruction} (h : StoresAll bs is)
    (hl : ∀ i ∈ is, i.Legible) :
    ∃ parts, is.mapM writeInstruction = .ok parts ∧ parts.flatten = bs := by
  induction h with
  | nil => exact ⟨[], rfl, rfl⟩
  | cons h _ ih =>
    obtain ⟨parts, hp, hflat⟩ := ih fun i hi => hl i (List.mem_cons_of_mem _ hi)
    refine ⟨_ :: parts, ?_, by rw [List.flatten_cons, hflat]⟩
    rw [List.mapM_cons, writeInstruction_of_stores h (hl _ List.mem_cons_self)]
    show (_ >>= fun parts => _) = _
    rw [hp]
    rfl

theorem writeSegment_of_holds {bs : Bytes} {s : Segment} (h : Holds bs s) (hl : s.Legible) :
    writeSegment s = .ok bs := by
  cases s with
  | code labels instructions =>
    obtain ⟨parts, hp, hflat⟩ := mapM_writeInstruction h hl
    show (instructions.mapM writeInstruction >>= fun parts => _) = _
    rw [hp, ← hflat]
    rfl
  | data labels content => exact congrArg Except.ok h
  | text labels value => exact h.elim

end ObjectCode
end QuestArchive
