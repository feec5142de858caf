import QuestArchive.Proofs.ObjectCode.Packing
import QuestArchive.Proofs.ObjectCode.Writable

/-!
# Stored instructions are well formed

Whatever bytes store an instruction, its operation is one of the table and its arguments suit
the parameters: numbers are in range, texts have no lone surrogates, and the sizes are those of
the operands.
-/

namespace QuestArchive
namespace ObjectCode

theorem range_of_byte (b : UInt8) : 0 ≤ (b.toNat : Int) ∧ (b.toNat : Int) ≤ 0xFF := by
  have hlt := b.toNat_lt
  omega

theorem range_of_word {bs : Bytes} (h : bs.length = 2) :
    0 ≤ (Word.decode bs : Int) ∧ (Word.decode bs : Int) ≤ 0xFFFF := by
  have hlt := Word.decode_lt bs
  rw [h, show Word.bound 2 = 0x10000 from rfl] at hlt
  omega

theorem range_of_dword {bs : Bytes} (h : bs.length = 4) :
    0 ≤ (Word.decode bs : Int) ∧ (Word.decode bs : Int) ≤ 0xFFFFFFFF := by
  have hlt := Word.decode_lt bs
  rw [h, show Word.bound 4 = 0x100000000 from rfl] at hlt
  omega

theorem range_of_int {bs : Bytes} (h : bs.length = 4) :
    -0x80000000 ≤ Word.signed 4 (Word.decode bs) ∧
      Word.signed 4 (Word.decode bs) ≤ 0x7FFFFFFF := by
  obtain ⟨low, high⟩ := Word.signed_bounds h
  omega

theorem suits_of_operand {param : ParamKind} {bs : Bytes} {a : Arg} (h : Operand param bs a) :
    a.Suits param := by
  cases param with
  | byte =>
    obtain ⟨b, -, rfl⟩ := h
    exact ⟨⟨_, _, rfl, rfl, range_of_byte b⟩, rfl⟩
  | register | registerTuple =>
    obtain ⟨b, -, rfl⟩ := h
    exact ⟨⟨_, rfl, range_of_byte b⟩, rfl⟩
  | word | codeLabel | dataLabel | textLabel =>
    obtain ⟨hlen, rfl⟩ := h
    exact ⟨⟨_, _, rfl, rfl, range_of_word hlen⟩, rfl⟩
  | dword =>
    obtain ⟨hlen, rfl⟩ := h
    exact ⟨⟨_, _, rfl, rfl, range_of_dword hlen⟩, rfl⟩
  | int =>
    obtain ⟨hlen, rfl⟩ := h
    exact ⟨⟨_, _, rfl, rfl, range_of_int hlen⟩, rfl⟩
  | float =>
    obtain ⟨-, rfl⟩ := h
    exact ⟨⟨_, rfl⟩, rfl⟩
  | string =>
    obtain ⟨units, rfl, hn, rfl⟩ := h
    have henc := (Text.fits_decode16 hn).encodable
    refine ⟨⟨_, rfl, henc⟩, ?_⟩
    show (Field.textBytes (Text.decode16 units) >>= fun bs => _) = _
    rw [textBytes_of_encodable henc]
    show Except.ok (⟨_, _⟩ : Arg) = _
    rw [Text.length_unitBytes_decode16 hn, List.length_append]
    rfl
  | codeLabels =>
    obtain ⟨count, body, rfl, hlen, rfl⟩ := h
    refine ⟨⟨_, rfl, fun n hn => ?_⟩, ?_⟩
    · obtain ⟨w, hw, rfl⟩ := List.mem_map.1 hn
      exact range_of_word ((Read.flatten_groups (Nat.le_of_eq hlen.symm)).1 w hw)
    · show Except.ok (⟨_, 1 + 2 * ((List.map _ _).length : Int)⟩ : Arg) = _
      rw [List.length_map, Read.length_groups]
  | registers =>
    obtain ⟨count, body, rfl, hlen, rfl⟩ := h
    refine ⟨⟨_, rfl, fun n hn => ?_⟩, ?_⟩
    · obtain ⟨b, -, rfl⟩ := List.mem_map.1 hn
      exact range_of_byte b
    · show Except.ok (⟨_, 1 + ((List.map _ _).length : Int)⟩ : Arg) = _
      rw [List.length_map, hlen]

theorem suits_of_operands {params : List ParamKind} {bs : Bytes} {as : List Arg}
    (h : Operands params bs as) : List.Forall₂ Arg.Suits params as :=
  (forall₂_of_operands h).imp fun _ _ ⟨_, ho⟩ => suits_of_operand ho

theorem wellFormed_of_stores {bs : Bytes} {i : Instruction} (h : Stores bs i) : i.WellFormed := by
  obtain ⟨front, back, code, -, -, hop, hargs⟩ := h
  refine ⟨List.mem_of_find?_eq_some hop, ?_⟩
  by_cases hpop : i.opcode.popsArguments = true
  · rw [if_pos hpop] at hargs ⊢
    exact hargs.2
  · rw [if_neg hpop] at hargs ⊢
    exact suits_of_operands hargs

theorem wellFormed_of_storesAll {bs : Bytes} {is : List Instruction} (h : StoresAll bs is) :
    ∀ i ∈ is, i.WellFormed := by
  intro i hi
  obtain ⟨_, hpiece⟩ := exists_stores_of_mem h i hi
  exact wellFormed_of_stores hpiece

end ObjectCode
end QuestArchive
