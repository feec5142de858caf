import QuestArchive.Proofs.ObjectCode.Rewriting
import QuestArchive.Proofs.Script.WellFormed

/-!
# Well-formed instructions have a stored form

A number that is no single-precision number would come back rounded, a text with a null
character cut off, and a list of more than 255 elements has no stored form at all; every
other well-formed instruction is written as bytes that store it.
-/

namespace QuestArchive

def Value.Storable : Value → Prop
  | .float x => ∃ s, x = Double.ofSingle s ∧ x.isNaN = false
  | .text t => Rune.char '\x00' ∉ t
  | .list ns => ns.length ≤ 255
  | _ => True

def Instruction.Storable (i : Instruction) : Prop := ∀ a ∈ i.args, a.value.Storable

namespace ObjectCode

/-! ## Operands -/

theorem exists_unsigned {width : Nat} {n : Int} (h0 : 0 ≤ n) (hn : n < Word.bound width) :
    ∃ bs : Bytes, bs.length = width ∧ n = Word.decode bs ∧ Field.unsigned width n = .ok bs := by
  refine ⟨Word.encode width n.toNat, Word.length_encode _ _, ?_, ?_⟩
  · rw [Word.decode_encode (by omega)]
    omega
  · unfold Field.unsigned
    rw [if_pos ⟨h0, hn⟩]

theorem exists_byte {n : Int} (h0 : 0 ≤ n) (hn : n ≤ 0xFF) :
    ∃ b : UInt8, n = b.toNat ∧ Field.unsigned 1 n = .ok [b] := by
  have hb : (UInt8.ofNat n.toNat).toNat = n.toNat := by
    simp only [UInt8.toNat_ofNat']
    omega
  have he : n = ((UInt8.ofNat n.toNat).toNat : Int) := by omega
  have hu := Field.unsigned_byte (UInt8.ofNat n.toNat)
  rw [← he] at hu
  exact ⟨UInt8.ofNat n.toNat, he, hu⟩

/-- The bytes of a signed integer in range, which wrapping leaves alone. -/
theorem exists_signed {n : Int} (hl : -0x80000000 ≤ n) (hr : n ≤ 0x7FFFFFFF) :
    ∃ bs : Bytes, bs.length = 4 ∧ n = Word.signed 4 (Word.decode bs) ∧
      Word.encode 4 (Word.wrap 4 n) = bs := by
  have hw : Word.wrap 4 n = (n % 0x100000000).toNat := rfl
  have hs : ∀ m : Nat, Word.signed 4 m =
      if 2 * m < 0x100000000 then (m : Int) else (m : Int) - 0x100000000 := fun _ => rfl
  refine ⟨_, Word.length_encode 4 (Word.wrap 4 n), ?_, rfl⟩
  rw [Word.decode_encode (by rw [hw, show Word.bound 4 = 0x100000000 from rfl]; omega), hs, hw]
  split <;> omega

theorem exists_single {x : Double} {s : UInt32} (hx : x = Double.ofSingle s)
    (hn : x.isNaN = false) :
    ∃ bs : Bytes, bs.length = 4 ∧ x = Read.singleOf bs ∧ Field.single x = .ok bs := by
  have hlen := Word.length_encode 4 s.toNat
  have hs : x = Read.singleOf (Word.encode 4 s.toNat) := by
    unfold Read.singleOf
    rw [Word.decode_encode s.toNat_lt, UInt32.ofNat_toNat]
    exact hx
  refine ⟨_, hlen, hs, ?_⟩
  rw [hs] at hn ⊢
  exact single_singleOf hlen hn

theorem exists_words {ns : List Int} (h : ∀ n ∈ ns, 0 ≤ n ∧ n ≤ 0xFFFF) :
    ∃ words : Bytes, words.length = 2 * ns.length ∧
      ns = (Read.groups 2 ns.length words).map fun w => (Word.decode w : Int) := by
  induction ns with
  | nil => exact ⟨[], rfl, rfl⟩
  | cons n ns ih =>
    obtain ⟨words, hlen, hns⟩ := ih fun m hm => h m (List.mem_cons_of_mem _ hm)
    obtain ⟨h0, hn⟩ := h n List.mem_cons_self
    obtain ⟨bs, hbs, hn, -⟩ := exists_unsigned h0
      (show n < Word.bound 2 by rw [show Word.bound 2 = 0x10000 from rfl]; omega)
    refine ⟨bs ++ words, by simp [hbs, hlen]; omega, ?_⟩
    rw [List.length_cons, Read.groups, List.take_left' hbs, List.drop_left' hbs, List.map_cons,
      ← hns, ← hn]

theorem exists_bytes {ns : List Int} (h : ∀ n ∈ ns, 0 ≤ n ∧ n ≤ 0xFF) :
    ∃ numbers : Bytes, numbers.length = ns.length ∧ ns = numbers.map fun b => (b.toNat : Int) := by
  induction ns with
  | nil => exact ⟨[], rfl, rfl⟩
  | cons n ns ih =>
    obtain ⟨numbers, hlen, hns⟩ := ih fun m hm => h m (List.mem_cons_of_mem _ hm)
    obtain ⟨h0, hn⟩ := h n List.mem_cons_self
    obtain ⟨b, hb, -⟩ := exists_byte h0 hn
    exact ⟨b :: numbers, by rw [List.length_cons, hlen, List.length_cons],
      by rw [List.map_cons, ← hns, ← hb]⟩

theorem textBytes_of_encodable {t : Text} (h : Text.Encodable t) :
    Field.textBytes t = .ok (Text.unitBytes t) := by
  unfold Field.textBytes
  rw [Text.encode16_of_encodable h]

theorem text_operand {t : Text} (h : t.Encodable) (hz : Rune.char '\x00' ∉ t) :
    Operand .string (Text.unitBytes t ++ [0, 0]) ⟨.text t, (Text.unitBytes t).length + 2⟩ ∧
      writeOperand .string (.text t) = .ok (Text.unitBytes t ++ [0, 0]) := by
  constructor
  · refine ⟨_, rfl, Text.noNull_unitBytes hz, ?_⟩
    rw [Text.decode16_unitBytes h, List.length_append]
    rfl
  · show (Field.textBytes t >>= fun bs => _) = _
    rw [textBytes_of_encodable h]
    rfl

theorem toNat_count {ns : List Int} (h : ns.length ≤ 255) :
    (UInt8.ofNat ns.length).toNat = ns.length := by
  rw [UInt8.toNat_ofNat']
  omega

theorem exists_operand {param : ParamKind} {a : Arg} (h : a.Suits param)
    (hs : a.value.Storable) :
    ∃ bs, Operand param bs a ∧ writeOperand param a.value = .ok bs := by
  obtain ⟨value, size⟩ := a
  obtain ⟨hv, hm⟩ := h
  dsimp only at hv hm hs ⊢
  cases param with
  | byte =>
    obtain ⟨n, range, rfl, hr, hl, hh⟩ := hv
    cases hr
    cases hm
    obtain ⟨b, hb, hw⟩ := exists_byte hl hh
    exact ⟨[b], ⟨b, rfl, by rw [hb]; rfl⟩, hw⟩
  | register | registerTuple =>
    obtain ⟨n, rfl, hl, hh⟩ := hv
    cases hm
    obtain ⟨b, hb, hw⟩ := exists_byte hl hh
    exact ⟨[b], ⟨b, rfl, by rw [hb]; rfl⟩, hw⟩
  | word | codeLabel | dataLabel | textLabel =>
    obtain ⟨n, range, rfl, hr, hl, hh⟩ := hv
    cases hr
    cases hm
    obtain ⟨bs, hlen, hn, hw⟩ := exists_unsigned hl
      (show n < Word.bound 2 by rw [show Word.bound 2 = 0x10000 from rfl]; omega)
    exact ⟨bs, ⟨hlen, by rw [hn]; rfl⟩, hw⟩
  | dword =>
    obtain ⟨n, range, rfl, hr, hl, hh⟩ := hv
    cases hr
    cases hm
    obtain ⟨bs, hlen, hn, hw⟩ := exists_unsigned hl
      (show n < Word.bound 4 by rw [show Word.bound 4 = 0x100000000 from rfl]; omega)
    exact ⟨bs, ⟨hlen, by rw [hn]; rfl⟩, hw⟩
  | int =>
    obtain ⟨n, range, rfl, hr, hl, hh⟩ := hv
    cases hr
    cases hm
    obtain ⟨bs, hlen, hn, hw⟩ := exists_signed hl hh
    exact ⟨bs, ⟨hlen, by rw [← hn]; rfl⟩, congrArg Except.ok hw⟩
  | float =>
    obtain ⟨x, rfl⟩ := hv
    cases hm
    obtain ⟨s, hx, hn⟩ := hs
    obtain ⟨bs, hlen, hx, hw⟩ := exists_single hx hn
    exact ⟨bs, ⟨hlen, by rw [← hx]; rfl⟩, hw⟩
  | string =>
    obtain ⟨t, rfl, ht⟩ := hv
    have hm : (Field.textBytes t >>= fun bs => _) = _ := hm
    rw [textBytes_of_encodable ht] at hm
    cases hm
    exact ⟨_, text_operand ht hs⟩
  | codeLabels =>
    obtain ⟨ns, rfl, hr⟩ := hv
    cases hm
    obtain ⟨words, hlen, hns⟩ := exists_words hr
    have hle : ns.length ≤ 255 := hs
    have hc := toNat_count hle
    have ho : Operand .codeLabels (UInt8.ofNat ns.length :: words)
        ⟨.list ns, 1 + 2 * ns.length⟩ :=
      ⟨_, words, rfl, by rw [hc, hlen], by rw [hc, ← hns]⟩
    have hlegible : (Value.list ns).Legible := True.intro
    have hw := writeOperand_of_operand ho hlegible
    exact ⟨_, ho, hw⟩
  | registers =>
    obtain ⟨ns, rfl, hr⟩ := hv
    cases hm
    obtain ⟨numbers, hlen, hns⟩ := exists_bytes hr
    have hle : ns.length ≤ 255 := hs
    have hc := toNat_count hle
    have ho : Operand .registers (UInt8.ofNat ns.length :: numbers)
        ⟨.list ns, 1 + ns.length⟩ :=
      ⟨_, numbers, rfl, by rw [hc, hlen], by rw [hc, ← hns]⟩
    have hlegible : (Value.list ns).Legible := True.intro
    have hw := writeOperand_of_operand ho hlegible
    exact ⟨_, ho, hw⟩

/-- Arguments are written as bytes that store whatever stands for them, if each of them is. -/
theorem exists_operands {f : Arg → Arg} {params : List ParamKind} {as : List Arg}
    (h : List.Forall₂ (fun param a => ∃ bs, Operand param bs (f a) ∧
      writeOperand param a.value = .ok bs) params as) :
    ∃ bs parts, Operands params bs (as.map f) ∧
      (params.zip as).mapM (fun pa => writeOperand pa.1 pa.2.value) = .ok parts ∧
      parts.flatten = bs := by
  induction h with
  | nil => exact ⟨[], [], ⟨rfl, rfl⟩, rfl, rfl⟩
  | cons ha _ ih =>
    obtain ⟨front, ho, hw⟩ := ha
    obtain ⟨back, parts, hos, hp, hflat⟩ := ih
    refine ⟨front ++ back, front :: parts, ⟨front, back, _, _, rfl, rfl, ho, hos⟩, ?_, ?_⟩
    · rw [List.zip_cons_cons, List.mapM_cons, hw]
      show (_ >>= fun parts => _) = _
      rw [hp]
      rfl
    · rw [List.flatten_cons, hflat]

/-! ## Instructions -/

theorem exists_number {op : Opcode} (h : op ∈ Opcode.table) :
    ∃ bs code, Number bs code ∧ Opcode.ofCode? code = some op ∧ writeOpcode op = .ok bs := by
  obtain ⟨code, hc, he⟩ := Opcode.code_mem_codes h
  have hn : ∃ bs, Number bs code := by
    rcases Opcode.mem_codes.1 hc with hlt | hlt
    · have hb : (UInt8.ofNat code).toNat = code := by
        simp only [UInt8.toNat_ofNat']
        omega
      exact ⟨[UInt8.ofNat code], Or.inl ⟨_, rfl, by omega, hb.symm⟩⟩
    · have hh : (UInt8.ofNat (code / 256)).toNat = code / 256 := by
        simp only [UInt8.toNat_ofNat']
        omega
      have hl : (UInt8.ofNat (code % 256)).toNat = code % 256 := by
        simp only [UInt8.toNat_ofNat']
        omega
      exact ⟨[UInt8.ofNat (code / 256), UInt8.ofNat (code % 256)],
        Or.inr ⟨_, _, rfl, by omega, by omega⟩⟩
  obtain ⟨bs, hbs⟩ := hn
  exact ⟨bs, code, hbs, Opcode.ofCode?_of_mem h he, writeOpcode_of_number hbs he⟩

/-- An instruction is written as bytes that store the instruction with whatever stands for its
arguments. -/
theorem exists_stores_map {f : Arg → Arg} {i : Instruction} (h : i.opcode ∈ Opcode.table)
    (hargs : if i.opcode.popsArguments then i.args = []
      else List.Forall₂ (fun param a => ∃ bs, Operand param bs (f a) ∧
        writeOperand param a.value = .ok bs) i.opcode.params i.args) :
    ∃ bs, Stores bs { i with args := i.args.map f } ∧ writeInstruction i = .ok bs := by
  obtain ⟨front, code, hn, hop, hw⟩ := exists_number h
  have hparts : ∃ back parts, (if i.opcode.popsArguments then back = [] ∧ i.args.map f = []
        else Operands i.opcode.params back (i.args.map f)) ∧
      (i.opcode.params.zip i.args).mapM (fun pa => writeOperand pa.1 pa.2.value) = .ok parts ∧
      parts.flatten = back := by
    split at hargs
    · next hpop =>
      simp only [hpop, if_true, hargs, List.zip_nil_right]
      exact ⟨[], [], ⟨rfl, rfl⟩, rfl, rfl⟩
    · next hpop =>
      simp only [hpop]
      exact exists_operands hargs
  obtain ⟨back, parts, ho, hp, hflat⟩ := hparts
  refine ⟨front ++ back, ⟨front, back, code, rfl, hn, hop, ho⟩, ?_⟩
  unfold writeInstruction
  rw [hw]
  show (_ >>= fun parts => _) = _
  rw [hp, ← hflat]
  rfl

theorem exists_stores {i : Instruction} (h : i.WellFormed) (hs : i.Storable) :
    ∃ bs, Stores bs i ∧ writeInstruction i = .ok bs := by
  have hargs := h.args
  have hall : if i.opcode.popsArguments then i.args = []
      else List.Forall₂ (fun param a => ∃ bs, Operand param bs (id a) ∧
        writeOperand param a.value = .ok bs) i.opcode.params i.args := by
    split at hargs
    · next hpop => rwa [if_pos hpop]
    · next hpop =>
      rw [if_neg hpop]
      exact forall₂_imp_mem hargs fun _ _ a ha hsuits => exists_operand hsuits (hs a ha)
  obtain ⟨bs, hstores, hw⟩ := exists_stores_map h.opcode hall
  rw [List.map_id] at hstores
  exact ⟨bs, hstores, hw⟩

/-- Instructions are written as bytes that store whatever stands for them, if each of them is. -/
theorem exists_storesAll_map {f : Instruction → Instruction} {is : List Instruction}
    (h : ∀ i ∈ is, ∃ bs, Stores bs (f i) ∧ writeInstruction i = .ok bs) :
    ∃ bs parts, StoresAll bs (is.map f) ∧ is.mapM writeInstruction = .ok parts ∧
      parts.flatten = bs := by
  induction is with
  | nil => exact ⟨[], [], .nil, rfl, rfl⟩
  | cons i is ih =>
    obtain ⟨front, hi, hwrite⟩ := h i List.mem_cons_self
    obtain ⟨back, parts, his, hp, hflat⟩ := ih fun j hj => h j (List.mem_cons_of_mem _ hj)
    refine ⟨front ++ back, front :: parts, .cons hi his, ?_, by rw [List.flatten_cons, hflat]⟩
    rw [List.mapM_cons, hwrite]
    show (_ >>= fun parts => _) = _
    rw [hp]
    rfl

theorem exists_storesAll {is : List Instruction}
    (h : ∀ i ∈ is, i.WellFormed ∧ i.Storable) :
    ∃ bs parts, StoresAll bs is ∧ is.mapM writeInstruction = .ok parts ∧ parts.flatten = bs := by
  have hall := exists_storesAll_map (f := id) fun i hi => exists_stores (h i hi).1 (h i hi).2
  rwa [List.map_id] at hall

end ObjectCode
end QuestArchive
