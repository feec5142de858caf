import Mathlib.Data.List.Nodup
import QuestArchive.Script.OpcodeTable

/-!
# The table of operations

The table holds the known operations and one for each code that is left, so that a code stands
for one operation.
-/

namespace QuestArchive
namespace Opcode

theorem nodup_known : (known.map (·.code)).Nodup := by
  have h : (known.map (·.code)).IsChain (· < ·) := by decide +kernel
  exact (List.isChain_iff_pairwise.1 h).imp fun hlt => Int.ne_of_lt hlt

theorem mem_codes {code : Nat} :
    code ∈ codes ↔ code < 0xF8 ∨ 0xF800 ≤ code ∧ code < 0xFA00 := by
  unfold codes
  rw [List.mem_append, List.mem_range, List.mem_map]
  refine or_congr Iff.rfl ?_
  constructor
  · intro h
    obtain ⟨n, hn, rfl⟩ := h
    have hlt := List.mem_range.1 hn
    omega
  · intro h
    exact ⟨code - 0xF800, List.mem_range.2 (by omega), by omega⟩

theorem known_mem_codes : ∀ op ∈ known, ∃ code ∈ codes, op.code = (code : Int) := by
  have h : ∀ op ∈ known, 0 ≤ op.code ∧
      (op.code < 0xF8 ∨ 0xF800 ≤ op.code ∧ op.code < 0xFA00) := by
    decide +kernel
  intro op hop
  obtain ⟨h0, hc⟩ := h op hop
  exact ⟨op.code.toNat, mem_codes.2 (by omega), (Int.toNat_of_nonneg h0).symm⟩

theorem table_cases {op : Opcode} (h : op ∈ table) :
    op ∈ known ∨ ∃ code ∈ codes, (∀ op ∈ known, op.code ≠ (code : Int)) ∧ op = unknown code := by
  rcases List.mem_append.1 h with h | h
  · exact Or.inl h
  · obtain ⟨code, hc, rfl⟩ := List.mem_map.1 h
    obtain ⟨hmem, hall⟩ := List.mem_filter.1 hc
    refine Or.inr ⟨code, hmem, fun op hop => ?_, rfl⟩
    exact of_decide_eq_true (List.all_eq_true.1 hall op hop)

theorem code_mem_codes {op : Opcode} (h : op ∈ table) : ∃ code ∈ codes, op.code = (code : Int) := by
  rcases table_cases h with h | ⟨code, hc, -, rfl⟩
  · exact known_mem_codes op h
  · exact ⟨code, hc, rfl⟩

theorem eq_of_code_eq {op op' : Opcode} (h : op ∈ table) (h' : op' ∈ table)
    (hc : op.code = op'.code) : op = op' := by
  rcases table_cases h with h | ⟨code, -, hne, rfl⟩
  · rcases table_cases h' with h' | ⟨code', -, hne', rfl⟩
    · exact List.inj_on_of_nodup_map nodup_known h h' hc
    · exact absurd hc (hne' op h)
  · rcases table_cases h' with h' | ⟨code', -, hne', rfl⟩
    · exact absurd hc.symm (hne op' h')
    · rw [Int.ofNat_inj.1 hc]

/-- What holds of the known operations and of those that only have a code holds of all. -/
theorem forall_table {p : Opcode → Prop} (hknown : ∀ op ∈ known, p op)
    (hunknown : ∀ code, p (unknown code)) (op : Opcode) (h : op ∈ table) : p op := by
  rcases table_cases h with h | ⟨code, -, -, rfl⟩
  · exact hknown op h
  · exact hunknown code

theorem code_of_ofCode? {code : Nat} {op : Opcode} (h : ofCode? code = some op) :
    op.code = code := by
  have hp := List.find?_some h
  exact of_decide_eq_true hp

theorem ofCode?_of_mem {op : Opcode} (h : op ∈ table) {code : Nat} (hc : op.code = code) :
    ofCode? code = some op := by
  cases hf : ofCode? code with
  | none =>
    have hn := List.find?_eq_none.1 hf op h
    exact absurd hc (by simpa using hn)
  | some op' =>
    rw [eq_of_code_eq (List.mem_of_find?_eq_some hf) h ((code_of_ofCode? hf).trans hc.symm)]

/-- Every code that a script can name stands for an operation. -/
theorem exists_ofCode? {code : Nat} (h : code ∈ codes) : ∃ op, ofCode? code = some op := by
  by_cases hk : ∃ op ∈ known, op.code = (code : Int)
  · obtain ⟨op, hop, hc⟩ := hk
    exact ⟨op, ofCode?_of_mem (List.mem_append_left _ hop) hc⟩
  · refine ⟨unknown code, ofCode?_of_mem (List.mem_append_right _ ?_) rfl⟩
    refine List.mem_map_of_mem (List.mem_filter.2 ⟨h, List.all_eq_true.2 fun op hop => ?_⟩)
    exact decide_eq_true fun he => hk ⟨op, hop, he⟩

end Opcode

end QuestArchive
