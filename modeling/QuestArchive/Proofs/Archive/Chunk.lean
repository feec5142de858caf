import QuestArchive.Archive.Read
import QuestArchive.Archive.Write
import QuestArchive.Proofs.Bytes.Field

/-!
# Files cut into chunks

A written record is read as the chunk or the header that it was made from.  Laid over
zeros, the chunks of a file are the file again, and none of them is worth a notice.
-/

namespace QuestArchive
namespace Archive

/-! ## Records -/

theorem slot_front {part rest : Bytes} {size : Nat} (h : part.length = size) :
    slot (part ++ rest) 0 size = part := List.take_left' h

theorem slot_behind {part rest : Bytes} {n start size : Nat} (h : part.length = n) :
    slot (part ++ rest) (n + start) size = slot rest start size := by
  unfold slot
  rw [← List.drop_drop, List.drop_left' h]

theorem length_slot {bs : Bytes} {start size : Nat} (h : start + size ≤ bs.length) :
    (slot bs start size).length = size := by
  unfold slot
  rw [List.length_take, List.length_drop]
  omega

theorem Chunk.ofRecord_append {mark number gap name payload size rest : Bytes}
    (lm : mark.length = 4) (ln : number.length = 1) (lg : gap.length = 3) (lt : name.length = 16)
    (lp : payload.length = payloadSize) (ls : size.length = 4) :
    ofRecord (mark ++ (number ++ (gap ++ (name ++ (payload ++ (size ++ rest)))))) =
      { number := Word.decode number, name := Read.asciiOf name, payload
        size := Word.decode size } := by
  have to_number : ∀ bs, slot (mark ++ (number ++ bs)) (4 + 0) 1 = number :=
    fun _ => (slot_behind lm).trans (slot_front ln)
  have to_name : ∀ bs, slot (mark ++ (number ++ (gap ++ (name ++ bs)))) (4 + (1 + (3 + 0))) 16 =
      name :=
    fun _ => (slot_behind lm).trans ((slot_behind ln).trans ((slot_behind lg).trans
      (slot_front lt)))
  have to_payload : ∀ bs, slot (mark ++ (number ++ (gap ++ (name ++ (payload ++ bs)))))
      (4 + (1 + (3 + (16 + 0)))) payloadSize = payload :=
    fun _ => (slot_behind lm).trans ((slot_behind ln).trans ((slot_behind lg).trans
      ((slot_behind lt).trans (slot_front lp))))
  have to_size : ∀ bs, slot (mark ++ (number ++ (gap ++ (name ++ (payload ++ (size ++ bs))))))
      (4 + (1 + (3 + (16 + (payloadSize + 0))))) 4 = size :=
    fun _ => (slot_behind lm).trans ((slot_behind ln).trans ((slot_behind lg).trans
      ((slot_behind lt).trans ((slot_behind lp).trans (slot_front ls)))))
  unfold ofRecord
  rw [Chunk.mk.injEq]
  exact ⟨congrArg _ (to_number _), congrArg _ (to_name _), to_payload _, congrArg _ (to_size _)⟩

theorem Header.ofRecord_append {sizes questNo gap name size second : Bytes}
    (lm : sizes.length = 4) (lq : questNo.length = 2) (lg : gap.length = 38)
    (ln : name.length = 16) (ls : size.length = 4) (l2 : second.length = 24) :
    ofRecord (sizes ++ (questNo ++ (gap ++ (name ++ (size ++ second))))) =
      { questNo := Word.decode questNo, name := Read.asciiOf name, size := Word.decode size
        secondName := Read.asciiOf second } := by
  have to_quest : ∀ bs, slot (sizes ++ (questNo ++ bs)) (4 + 0) 2 = questNo :=
    fun _ => (slot_behind lm).trans (slot_front lq)
  have to_name : ∀ bs, slot (sizes ++ (questNo ++ (gap ++ (name ++ bs)))) (4 + (2 + (38 + 0))) 16 =
      name :=
    fun _ => (slot_behind lm).trans ((slot_behind lq).trans ((slot_behind lg).trans
      (slot_front ln)))
  have to_size : ∀ bs, slot (sizes ++ (questNo ++ (gap ++ (name ++ (size ++ bs)))))
      (4 + (2 + (38 + (16 + 0)))) 4 = size :=
    fun _ => (slot_behind lm).trans ((slot_behind lq).trans ((slot_behind lg).trans
      ((slot_behind ln).trans (slot_front ls))))
  have to_second : slot (sizes ++ (questNo ++ (gap ++ (name ++ (size ++ second)))))
      (4 + (2 + (38 + (16 + (4 + 0))))) 24 = second :=
    (slot_behind lm).trans ((slot_behind lq).trans ((slot_behind lg).trans ((slot_behind ln).trans
      ((slot_behind ls).trans (List.take_of_length_le (Nat.le_of_eq l2))))))
  unfold ofRecord
  rw [Header.mk.injEq]
  exact ⟨congrArg _ (to_quest _), congrArg _ (to_name _), congrArg _ (to_size _),
    congrArg _ to_second⟩

namespace NewMember

def part (f : NewMember) (number : Nat) : Bytes :=
  slot f.data (number * payloadSize) payloadSize

theorem length_part (f : NewMember) (number : Nat) :
    (f.part number).length = min payloadSize (f.data.length - number * payloadSize) := by
  unfold part slot
  rw [List.length_take, List.length_drop]

def chunkOf (f : NewMember) (number : Nat) : Chunk where
  number := number
  name := f.name
  payload := Field.fixed payloadSize (f.part number)
  size := (f.part number).length

/-- A file that an archive can hold under its name. -/
structure Storable (f : NewMember) : Prop where
  name : Field.IsName f.name
  nameLength : f.name.length ≤ maxNameLength
  nonempty : f.data ≠ []
  size : f.data.length ≤ maxFileSize

variable {f : NewMember} {number : Nat} {bs : Bytes}

/-- The record of a chunk is read as it, with the name that its field shows. -/
theorem exists_ofRecord_chunk (hw : f.chunk number = .ok bs) :
    bs.length = chunkSize ∧ ∃ name, Field.ascii f.name maxNameLength = .ok name ∧
      Chunk.ofRecord bs = { f.chunkOf number with name := Read.asciiOf name } := by
  unfold chunk at hw
  obtain ⟨num, hnum, hw⟩ := bind_eq_ok_iff.1 hw
  obtain ⟨name, hname, hw⟩ := bind_eq_ok_iff.1 hw
  obtain ⟨lnum, rnum⟩ := Field.unsigned_eq_ok_iff.1 hnum
  have lname := Field.length_ascii hname
  have hbs := Except.ok.inj hw
  clear hw
  have lpart : (f.part number).length ≤ payloadSize := by
    rw [length_part]
    exact Nat.min_le_left _ _
  have lpayload := Field.length_fixed payloadSize (f.part number)
  have lsize := Word.length_encode 4 (f.part number).length
  have rsize := @Word.decode_encode 4 (f.part number).length
    (Nat.lt_of_le_of_lt lpart (by decide))
  simp only [List.append_assoc] at hbs
  rw [← hbs]
  refine ⟨?_, name, hname, ?_⟩
  · simp only [List.length_append]
    show 4 + (num.length + (3 + (name.length + ((Field.fixed payloadSize (f.part number)).length +
      ((Word.encode 4 (f.part number).length).length + 4))))) = chunkSize
    rw [lnum, lname, lpayload, lsize]
    rfl
  · refine (Chunk.ofRecord_append rfl lnum rfl lname lpayload lsize).trans ?_
    rw [rsize, ← Int.ofNat.inj rnum]
    rfl

theorem ofRecord_chunk (h : f.Storable) (hw : f.chunk number = .ok bs) :
    bs.length = chunkSize ∧ Chunk.ofRecord bs = f.chunkOf number := by
  obtain ⟨hlen, name, hname, hread⟩ := exists_ofRecord_chunk hw
  obtain ⟨name', hname', -, hback⟩ := Field.exists_ascii h.name h.nameLength
  cases hname.symm.trans hname'
  rw [hback] at hread
  exact ⟨hlen, hread⟩

def headerOf (f : NewMember) (second : String) : Header where
  questNo := (f.questNo.getD 0).toNat
  name := f.name
  size := f.data.length
  secondName := second

/-- The record of a header is read as it, with the names that their fields show. -/
theorem exists_ofRecord_header (hw : f.header = .ok bs) :
    bs.length = headerSize ∧ (∀ rest, Version.detect (bs ++ rest) = .blueBurst) ∧
      f.name.length ≤ maxNameLength ∧ ∃ name second,
        Field.ascii f.name maxNameLength = .ok name ∧
        Header.ofRecord bs = { f.headerOf second with name := Read.asciiOf name } ∧
        (Field.IsName f.secondNameOrDefault → second = f.secondNameOrDefault) := by
  unfold header at hw
  split at hw
  · cases hw
  · next hlen =>
    dsimp only at hw
    split at hw
    · cases hw
    · next hlen2 =>
      obtain ⟨quest, hquest, hw⟩ := bind_eq_ok_iff.1 hw
      obtain ⟨name, hname, hw⟩ := bind_eq_ok_iff.1 hw
      obtain ⟨size, hsize, hw⟩ := bind_eq_ok_iff.1 hw
      obtain ⟨second, hsecond, hw⟩ := bind_eq_ok_iff.1 hw
      obtain ⟨lquest, rquest⟩ := Field.unsigned_eq_ok_iff.1 hquest
      obtain ⟨lsize, rsize⟩ := Field.unsigned_eq_ok_iff.1 hsize
      have lname := Field.length_ascii hname
      have lsecond := Field.length_ascii hsecond
      have hbs := Except.ok.inj hw
      clear hw
      simp only [List.append_assoc] at hbs
      rw [← hbs]
      refine ⟨?_, fun rest => rfl, Nat.le_of_not_lt hlen, name, Read.asciiOf second, hname, ?_, ?_⟩
      · simp only [List.length_append]
        show 2 + (2 + (quest.length + (38 + (name.length + (size.length + second.length))))) = _
        rw [lquest, lname, lsize, lsecond]
        rfl
      · refine (@Header.ofRecord_append (Word.encode 2 headerSize ++ Word.encode 2 0x44) _
          (Field.zeros 38) _ _ _ rfl lquest rfl lname lsize lsecond).trans ?_
        have hq : (f.questNo.getD 0).toNat = Word.decode quest := by omega
        rw [← hq, ← Int.ofNat.inj rsize]
        rfl
      · intro h2
        obtain ⟨second', hs, -, hr⟩ := Field.exists_ascii h2 (Nat.le_of_not_lt hlen2)
        cases hs.symm.trans hsecond
        exact hr

/-- A second name with a null character is cut. -/
theorem ofRecord_header (hn : Field.IsName f.name) (hw : f.header = .ok bs) :
    ∃ second, Header.ofRecord bs = f.headerOf second ∧
      (Field.IsName f.secondNameOrDefault → second = f.secondNameOrDefault) := by
  obtain ⟨-, -, hlen, name, second, hname, hread, hs⟩ := exists_ofRecord_header hw
  obtain ⟨name', hname', -, hback⟩ := Field.exists_ascii hn hlen
  cases hname.symm.trans hname'
  rw [hback] at hread
  exact ⟨second, hread, hs⟩

end NewMember
end Archive
end QuestArchive
