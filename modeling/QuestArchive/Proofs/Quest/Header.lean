import QuestArchive.Proofs.Entity.Grammar
import QuestArchive.Proofs.ObjectCode.Failing
import QuestArchive.Proofs.ObjectCode.Suiting
import QuestArchive.Proofs.Quest.ScriptFile

/-!
# Script files that cannot be read

The header of a script file takes as many bytes as it does whatever they are.  So a header is
missing only where the file ends inside it, or where the offsets that it states do not fit the
file; all other reasons lie in the object code and the label table.
-/

namespace QuestArchive

namespace Read

variable {α β : Type} {m n : Nat}

/-- An action takes just some number of bytes, whatever they are, and fails where fewer are left,
for want of them. -/
structure Takes (n : Nat) (a : Read α) : Prop where
  enough : Suffices n a
  short : ∀ {c : Cursor}, c.Inside → c.view.length < n →
    ∃ use size offset c', a c = .error (.pastBound use size offset c.size) c'

namespace Takes

theorem pure (x : α) : Takes 0 (Pure.pure x : Read α) where
  enough := .pure x
  short _ hlt := absurd hlt (Nat.not_lt_zero _)

theorem bind {a : Read α} {f : α → Read β} (ha : Takes m a) (hf : ∀ x, Takes n (f x)) :
    Takes (m + n) (a >>= f) where
  enough := ha.enough.bind fun x => (hf x).enough
  short := by
    intro c hc hlt
    by_cases hm : c.view.length < m
    · obtain ⟨use, size, offset, c', he⟩ := ha.short hc hm
      exact ⟨use, size, offset, c', bind_of_error he⟩
    · -- the first action takes its bytes, and the second one finds too few behind them
      obtain ⟨x, hx⟩ := ha.enough c hc (Nat.le_of_not_lt hm)
      have hv : c.view = c.view.take m ++ c.view.drop m := (List.take_append_drop m c.view).symm
      have htake : (c.view.take m).length = m := List.length_take_of_le (Nat.le_of_not_lt hm)
      have hin := Cursor.inside_advance hc hv
      have hview := Cursor.view_advance hc hv
      rw [htake] at hin hview
      have hshort : (c.advance m).view.length < n := by
        rw [hview, List.length_drop]
        omega
      obtain ⟨use, size, offset, c', he⟩ := (hf x).short hin hshort
      exact ⟨use, size, offset, c', (bind_of_ok hx).trans he⟩

end Takes

theorem takes_bytes (n : Nat) : Takes n (bytes n) where
  enough := suffices_bytes n
  short := by
    intro c hc hlt
    have hlen := Cursor.length_view hc
    unfold Cursor.remaining at hlen
    refine ⟨.read, n, c.position, c, ?_⟩
    unfold bytes
    rw [if_pos (by omega)]

theorem takes_u32 : Takes 4 u32 where
  enough := suffices_u32
  short hc hlt := by
    obtain ⟨use, size, offset, c', he⟩ := (takes_bytes 4).short hc hlt
    exact ⟨use, size, offset, c', bind_of_error (bind_of_error he)⟩

theorem takes_u32Array (count : Nat) : Takes (4 * count) (u32Array count) where
  enough := suffices_u32Array count
  short hc hlt := by
    obtain ⟨use, size, offset, c', he⟩ := (takes_bytes (4 * count)).short hc hlt
    rw [Int.natCast_mul] at he
    exact ⟨use, size, offset, c', bind_of_error (bind_of_error he)⟩

theorem takes_text (size : Nat) : Takes size (text size) :=
  (takes_bytes size).bind fun _ => .pure _

theorem takes_skip (n : Nat) : Takes n (skip n) where
  enough := (describes_skip n).suffices fun _ h => ⟨(), h⟩
  short := by
    intro c hc hlt
    have hlen := Cursor.length_view hc
    unfold Cursor.remaining at hlen
    refine ⟨.skip, n, c.position, c, ?_⟩
    unfold skip
    rw [if_pos (by omega)]

end Read

namespace ScriptFile

open Read (Takes)

theorem takes_readFields : Takes headerSize readFields :=
  Read.takes_u32.bind fun _ => Read.takes_u32.bind fun _ => Read.takes_u32.bind fun _ =>
    (Read.takes_skip 4).bind fun _ => Read.takes_u32.bind fun _ => Read.takes_u32.bind fun _ =>
    (Read.takes_text nameSize).bind fun _ => (Read.takes_text shortDescriptionSize).bind fun _ =>
    (Read.takes_text longDescriptionSize).bind fun _ => (Read.takes_skip 4).bind fun _ =>
    (Read.takes_u32Array shopItemCount).bind fun _ => .pure _

/-- A file whose header cannot be read ends inside it, or is told that its offsets do not fit. -/
theorem Header.fault_of_read {bs : Bytes} {e : Fault}
    (h : Read.within (.whole bs.toArray) (Header.read bs.length) = .error e) :
    e.isFormat = true ∨ bs.length < headerSize ∧
      ∃ use size offset, e = .pastBound use size offset bs.length := by
  have hin := Cursor.inside_whole bs.toArray
  have hlen : (Cursor.whole bs.toArray).view.length = bs.length :=
    congrArg List.length (Cursor.view_whole bs)
  rw [Header.read_eq] at h
  unfold Read.within EStateM.run at h
  by_cases hshort : bs.length < headerSize
  · obtain ⟨use, size, offset, c', he⟩ := takes_readFields.short hin (hlen.symm ▸ hshort)
    rw [Read.bind_of_error he] at h
    cases h
    exact Or.inr ⟨hshort, use, size, offset, congrArg _ (Int.sub_zero _)⟩
  · obtain ⟨fields, hfields⟩ :=
      takes_readFields.enough _ hin (hlen.symm ▸ Nat.le_of_not_lt hshort)
    rw [Read.bind_of_ok hfields] at h
    by_cases hbad : fields.tableOffset < fields.codeOffset ∨ bs.length < fields.tableOffset
    · unfold readTable at h
      rw [if_pos hbad] at h
      cases h
      exact Or.inl rfl
    · obtain ⟨hcode, htable⟩ := not_or.1 hbad
      obtain ⟨c, hok⟩ := (@readTable_eq_ok_iff bs fields _ _).2
        ⟨Nat.le_of_not_lt hcode, Nat.le_of_not_lt htable, rfl⟩
      unfold Cursor.advance at h
      rw [hok] at h
      cases h

variable {mode : ObjectCode.Mode} {bs : Bytes} {labels : List Int}

theorem fault_of_read {e : Fault} (h : read mode bs labels = .error e) :
    e.isFormat = true ∨
    (bs.length < headerSize ∧ ∃ use size offset, e = .pastBound use size offset bs.length) ∨
    (∃ b ∈ bs, 0xFA ≤ b.toNat ∧ e = .unknownOpcode b.toNat) ∨
    ∃ header, Read.within (.whole bs.toArray) (Header.read bs.length) = .ok header ∧
      (∃ o ∈ header.labelOffsets, o < -1) ∧
        (e = .cutField ∨ e = .noByte ∨ ∃ code, e = .unknownOpcode code) := by
  unfold read at h
  dsimp only at h
  rw [List.size_toArray] at h
  rcases bind_eq_error_iff.1 h with h | ⟨header, hheader, h⟩
  · exact (Header.fault_of_read h).imp_right Or.inl
  rcases bind_eq_error_iff.1 h with h | ⟨reading, -, h⟩
  · rcases ObjectCode.fault_of_read h with h | ⟨b, hb, hbyte⟩ | h
    · exact Or.inl h
    · refine Or.inr (Or.inr (Or.inl ⟨b, ?_, hbyte⟩))
      rw [Array.toList_extract, List.extract_eq_take_drop] at hb
      exact List.mem_of_mem_drop (List.mem_of_mem_take hb)
    · exact Or.inr (Or.inr (Or.inr ⟨header, hheader, h⟩))
  · cases h

theorem typed_of_read {f : ScriptFile} {diagnostics : List Diagnostic}
    (h : read mode bs labels = .ok (f, diagnostics)) : ∀ s ∈ f.segments, s.Typed := by
  obtain ⟨header, code, r, -, hr, hsegments⟩ := exists_reading h
  rw [hsegments]
  exact ObjectCode.typed_of_read hr

end ScriptFile
end QuestArchive
