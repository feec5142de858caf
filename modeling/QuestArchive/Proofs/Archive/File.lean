import Mathlib.Data.List.Range
import Mathlib.Data.List.Nodup
import QuestArchive.Proofs.Archive.Chunk

/-!
# A file put together from its chunks

Laid over zeros at their numbers, the chunks of a file are the file.  Its size is where the
last of them ends, every number below their count occurs, and nothing is worth a notice.
-/

namespace QuestArchive
namespace Archive

/-- The last chunk begins inside the file, and it ends the file. -/
theorem chunkCount_bounds {size : Nat} (h : 0 < size) :
    ∃ last, chunkCount size = last + 1 ∧ last * payloadSize < size ∧
      size ≤ last * payloadSize + payloadSize := by
  have hp : payloadSize = 1024 := rfl
  unfold chunkCount
  rw [hp]
  exact ⟨(size - 1) / 1024, by omega, by omega, by omega⟩

namespace NewMember

def chunksOf (f : NewMember) : List Chunk := (List.range f.chunkCount).map f.chunkOf

variable {f : NewMember}

theorem mem_chunksOf {c : Chunk} : c ∈ f.chunksOf ↔ ∃ n < f.chunkCount, f.chunkOf n = c := by
  unfold chunksOf
  rw [List.mem_map]
  exact exists_congr fun n => and_congr_left' List.mem_range

theorem any_number (n : Nat) :
    f.chunksOf.any (·.number = n) = decide (n < f.chunkCount) := by
  rw [Bool.eq_iff_iff, List.any_eq_true, decide_eq_true_eq]
  constructor
  · intro h
    obtain ⟨c, hc, hn⟩ := h
    obtain ⟨m, hm, rfl⟩ := mem_chunksOf.1 hc
    exact (of_decide_eq_true hn : m = n) ▸ hm
  · exact fun h => ⟨_, mem_chunksOf.2 ⟨n, h, rfl⟩, decide_eq_true rfl⟩

theorem block_chunksOf {n : Nat} (h : n < f.chunkCount) :
    block f.chunksOf n =
      f.part n ++ List.replicate (payloadSize - (f.part n).length) 0 := by
  have hone : f.chunksOf.filter (·.number = n) = [f.chunkOf n] := by
    unfold chunksOf
    rw [List.filter_map]
    show ((List.range f.chunkCount).filter fun m => decide (m = n)).map _ = _
    rw [List.filter_eq, List.count_range, if_pos h]
    rfl
  have hle : (f.part n).length ≤ payloadSize := by
    rw [length_part]
    exact Nat.min_le_left _ _
  have hbody : (f.chunkOf n).body = f.part n := by
    show (Field.fixed payloadSize (f.part n)).take (f.part n).length = f.part n
    rw [Field.fixed_of_le hle, List.take_left' rfl]
  unfold block
  rw [hone]
  show overlay (List.replicate payloadSize 0) (f.chunkOf n).body = _
  unfold overlay
  rw [hbody, List.drop_replicate]

theorem flatMap_part {k : Nat} (h : k * payloadSize ≤ f.data.length) :
    (List.range k).flatMap f.part = f.data.take (k * payloadSize) := by
  induction k with
  | zero => rw [Nat.zero_mul, List.take_zero, List.range_zero, List.flatMap_nil]
  | succ k ih =>
    rw [Nat.succ_mul] at h ⊢
    rw [List.range_succ, List.flatMap_append, ih (by omega), List.flatMap_singleton, List.take_add]
    rfl

theorem length_part_of_le {n : Nat} (h : (n + 1) * payloadSize ≤ f.data.length) :
    (f.part n).length = payloadSize := by
  rw [Nat.succ_mul] at h
  rw [length_part]
  omega

theorem fileData_chunksOf (h : f.data ≠ []) : fileData f.chunksOf f.data.length = f.data := by
  obtain ⟨last, hcount, hlow, hhigh⟩ := chunkCount_bounds (List.length_pos_of_ne_nil h)
  have hblocks : (List.range last).flatMap (block f.chunksOf) =
      (List.range last).flatMap f.part := by
    refine List.flatMap_congr fun n hn => ?_
    have hlt := List.mem_range.1 hn
    have hfull : (f.part n).length = payloadSize := by
      refine length_part_of_le (Nat.le_trans (Nat.mul_le_mul_right _ hlt) (Nat.le_of_lt hlow))
    rw [block_chunksOf (by unfold chunkCount; omega), hfull, Nat.sub_self, List.replicate_zero,
      List.append_nil]
  have hlast : f.part last = f.data.drop (last * payloadSize) := by
    unfold part slot
    exact List.take_of_length_le (by rw [List.length_drop]; omega)
  unfold fileData
  rw [hcount, List.range_succ, List.flatMap_append, List.flatMap_singleton, hblocks,
    flatMap_part (Nat.le_of_lt hlow), block_chunksOf (by unfold chunkCount; omega), hlast,
    ← List.append_assoc, List.take_append_drop, List.take_left' rfl]

theorem stop_chunksOf (h : f.data ≠ []) :
    (f.chunksOf.map Chunk.stop).foldl max 0 = f.data.length := by
  obtain ⟨last, hcount, hlow, hhigh⟩ := chunkCount_bounds (List.length_pos_of_ne_nil h)
  have hstop : ∀ n, (f.chunkOf n).stop = n * payloadSize + min payloadSize
      (f.data.length - n * payloadSize) := by
    intro n
    show n * payloadSize + min (f.part n).length payloadSize = _
    rw [length_part]
    omega
  have hcut : f.chunksOf = (List.range last).map f.chunkOf ++ [f.chunkOf last] := by
    unfold chunksOf chunkCount
    rw [hcount, List.range_succ, List.map_append]
    rfl
  have hfront : (((List.range last).map f.chunkOf).map Chunk.stop).foldl max 0 ≤ f.data.length := by
    refine foldl_max_le_iff.2 ⟨Nat.zero_le _, fun s hs => ?_⟩
    obtain ⟨c, hc, rfl⟩ := List.mem_map.1 hs
    obtain ⟨n, hn, rfl⟩ := List.mem_map.1 hc
    have hle := Nat.mul_le_mul_right payloadSize (Nat.le_of_lt (List.mem_range.1 hn))
    rw [hstop]
    omega
  rw [hcut, List.map_append, List.foldl_append]
  show max _ (f.chunkOf last).stop = _
  rw [hstop]
  omega

theorem fileSize_chunksOf (h : f.data ≠ []) :
    fileSize f.chunksOf (some f.data.length) = f.data.length := by
  unfold fileSize
  rw [stop_chunksOf h]
  exact Nat.max_self _

theorem fileNotices_chunksOf (h : f.data ≠ []) :
    fileNotices f.name f.chunksOf (some f.data.length) = [] := by
  unfold fileNotices
  dsimp only
  rw [stop_chunksOf h, if_pos rfl, fileSize_chunksOf h]
  have hnone : ((List.range (Archive.chunkCount f.data.length)).filter fun n =>
      !f.chunksOf.any (·.number = n)) = [] := by
    refine List.filter_eq_nil_iff.2 fun n hn => ?_
    rw [any_number, decide_eq_true (List.mem_range.1 hn : n < f.chunkCount)]
    exact Bool.false_ne_true
  rw [hnone]
  rfl

theorem chunkCount_le (h : f.data.length ≤ maxFileSize) : f.chunkCount ≤ 256 := by
  have hm : maxFileSize = 262144 := rfl
  unfold chunkCount Archive.chunkCount
  rw [show payloadSize = 1024 from rfl]
  omega

theorem chunkNumbers_chunksOf (h : f.data.length ≤ maxFileSize) :
    chunkNumbers f.chunksOf = List.range f.chunkCount := by
  have hle := chunkCount_le h
  unfold chunkNumbers
  rw [show 256 = f.chunkCount + (256 - f.chunkCount) by omega, List.range_add, List.filter_append]
  have hall : (List.range f.chunkCount).filter (fun n => f.chunksOf.any (·.number = n)) =
      List.range f.chunkCount := by
    refine List.filter_eq_self.2 fun n hn => ?_
    rw [any_number]
    exact decide_eq_true (List.mem_range.1 hn)
  have hnone : ((List.range (256 - f.chunkCount)).map (f.chunkCount + ·)).filter
      (fun n => f.chunksOf.any (·.number = n)) = [] := by
    refine List.filter_eq_nil_iff.2 fun n hn => ?_
    obtain ⟨d, -, rfl⟩ := List.mem_map.1 hn
    rw [any_number, decide_eq_false (by omega)]
    exact Bool.false_ne_true
  rw [hall, hnone, List.append_nil]

/-! ## What can be written -/

structure Labelled (f : NewMember) : Prop where
  second : Field.IsName f.secondNameOrDefault
  secondLength : f.secondNameOrDefault.length ≤ maxSecondNameLength
  questNo : Word.Fits 2 (f.questNo.getD 0)

theorem exists_header (h : f.Storable) (hl : f.Labelled) : ∃ bs, f.header = .ok bs := by
  obtain ⟨_, hname, -⟩ := Field.exists_ascii h.name h.nameLength
  obtain ⟨_, hsecond, -⟩ := Field.exists_ascii hl.second hl.secondLength
  obtain ⟨_, -, -, hquest⟩ := Field.exists_unsigned hl.questNo
  have hfits : Word.Fits 4 f.data.length :=
    ⟨Int.natCast_nonneg _, Int.ofNat_lt.2 (Nat.lt_of_le_of_lt h.size (by decide))⟩
  obtain ⟨_, -, -, hsize⟩ := Field.exists_unsigned hfits
  unfold header Field.u16 Field.u32
  rw [if_neg (Nat.not_lt.2 h.nameLength)]
  dsimp only
  rw [if_neg (Nat.not_lt.2 hl.secondLength), hquest, hname, hsize, hsecond]
  exact ⟨_, rfl⟩

theorem exists_chunk (h : f.Storable) {n : Nat} (hn : n < f.chunkCount) :
    ∃ bs, f.chunk n = .ok bs := by
  obtain ⟨_, hname, -⟩ := Field.exists_ascii h.name h.nameLength
  have hfits : Word.Fits 1 n :=
    ⟨Int.natCast_nonneg _, Int.ofNat_lt.2 (Nat.lt_of_lt_of_le hn (chunkCount_le h.size))⟩
  obtain ⟨_, -, -, hnumber⟩ := Field.exists_unsigned hfits
  unfold chunk Field.u8
  rw [hnumber, hname]
  exact ⟨_, rfl⟩

end NewMember
end Archive
end QuestArchive
