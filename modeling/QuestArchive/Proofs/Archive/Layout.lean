import Mathlib.Algebra.BigOperators.Group.List.Lemmas
import Mathlib.Algebra.GroupWithZero.Nat
import QuestArchive.Proofs.Archive.RoundTrip

/-!
# The layout of an archive

The files of an archive take turns: each file that is left puts out a chunk, and is left for
another turn if bytes of it are behind that chunk (`turns`).  The order that comes of this is the
one by number and then by place, each chunk of each file stands in it once, and the records of a
written archive are in this order (`write_layout`).
-/

namespace QuestArchive
namespace Archive

/-- A file at its place among some files, about to put out a chunk. -/
structure Turn where
  place : Nat
  file : NewMember
  number : Nat
  deriving DecidableEq, Repr

namespace Turn

def next? (t : Turn) : Option Turn :=
  if (t.number + 1) * payloadSize < t.file.data.length then some { t with number := t.number + 1 }
  else none

/-- The first turns of some files.  An empty file has none. -/
def first (files : List NewMember) : List Turn :=
  (files.zipIdx.filter (·.1.data ≠ [])).map fun x => ⟨x.2, x.1, 0⟩

/-- The order by number and then by place. -/
def Before (s t : Turn) : Prop := s.number < t.number ∨ s.number = t.number ∧ s.place < t.place

def following (ts : List Turn) : List Turn := ts.filterMap next?

/-- The bytes behind the start of a turn's chunk, and one more. -/
def left (t : Turn) : Nat := t.file.data.length - t.number * payloadSize + 1

theorem left_lt_of_next {s t : Turn} (h : s.next? = some t) : t.left < s.left := by
  unfold next? at h
  split at h
  · next hlt =>
    cases h
    rw [Nat.succ_mul, show payloadSize = 1024 from rfl] at hlt
    show s.file.data.length - (s.number + 1) * payloadSize + 1 < s.left
    unfold left
    rw [Nat.succ_mul, show payloadSize = 1024 from rfl]
    omega
  · cases h

theorem sum_left_following (ts : List Turn) :
    ((following ts).map left).sum + ts.length ≤ (ts.map left).sum := by
  induction ts with
  | nil => exact Nat.le_refl _
  | cons t ts ih =>
    unfold following at ih ⊢
    rw [List.map_cons, List.sum_cons, List.length_cons]
    cases h : t.next? with
    | none =>
      have hpos : 0 < t.left := Nat.succ_pos _
      rw [List.filterMap_cons_none h]
      omega
    | some t' =>
      have hlt := left_lt_of_next h
      rw [List.filterMap_cons_some h, List.map_cons, List.sum_cons]
      omega

end Turn

/-- The chunks of some files in the order in which the files take turns. -/
def turns (pending : List Turn) : List Turn :=
  if pending = [] then [] else pending ++ turns (Turn.following pending)
termination_by (pending.map Turn.left).sum
decreasing_by
  have hlength := List.length_pos_of_ne_nil ‹pending ≠ []›
  have hleft := Turn.sum_left_following pending
  omega

theorem lt_chunkCount_iff {f : NewMember} {n : Nat} :
    n < f.chunkCount ↔ n * payloadSize < f.data.length := by
  unfold NewMember.chunkCount chunkCount
  rw [show payloadSize = 1024 from rfl]
  omega

section

variable {files : List NewMember}

def round (files : List NewMember) (n : Nat) : List Turn :=
  (files.zipIdx.filter (n < ·.1.chunkCount)).map fun x => ⟨x.2, x.1, n⟩

theorem turns_eq (pending : List Turn) :
    turns pending = pending ++ turns (Turn.following pending) := by
  by_cases h : pending = []
  · subst h
    rfl
  · rw [turns, if_neg h]

theorem first_eq_round (files : List NewMember) : Turn.first files = round files 0 := by
  unfold Turn.first round
  congr 1
  refine List.filter_congr fun x _ => decide_eq_decide.2 ?_
  rw [lt_chunkCount_iff, Nat.zero_mul, List.length_pos_iff]

/-- After one turn of each file, those are left that have a chunk of the next number. -/
theorem following_round (n : Nat) : Turn.following (round files n) = round files (n + 1) := by
  unfold Turn.following round
  rw [List.filterMap_map, List.filterMap_filter, ← List.filterMap_eq_map, List.filterMap_filter]
  refine List.filterMap_congr fun x _ => ?_
  have hnext := @lt_chunkCount_iff x.1 (n + 1)
  simp only [decide_eq_true_eq, Function.comp_apply, Turn.next?]
  by_cases h : n + 1 < x.1.chunkCount
  · rw [if_pos (Nat.lt_of_succ_lt h), if_pos (hnext.1 h), if_pos h]
  · rw [if_neg fun hlt => h (hnext.2 hlt), if_neg h, ite_self]

/-- Turn by turn, the rounds that are left come one behind the other. -/
theorem turns_round {n k : Nat} (h : rounds files ≤ n + k) :
    turns (round files n) = (List.range k).flatMap fun d => round files (n + d) := by
  induction k generalizing n with
  | zero =>
    have hnone : round files n = [] := by
      refine List.map_eq_nil_iff.2 (List.filter_eq_nil_iff.2 fun x hx hlt => ?_)
      have hle := chunkCount_le_rounds (List.mem_of_getElem? (List.mem_zipIdx_iff_getElem?.1 hx))
      have hlt := of_decide_eq_true hlt
      omega
    rw [hnone, turns, if_pos rfl]
    rfl
  | succ k ih =>
    rw [turns_eq, following_round, ih (by omega), List.range_succ_eq_map, List.flatMap_cons,
      List.flatMap_map]
    congr 1
    refine List.flatMap_congr fun d _ => ?_
    rw [Nat.add_assoc, Nat.add_comm 1 d]

theorem turns_first (files : List NewMember) :
    turns (Turn.first files) = (List.range (rounds files)).flatMap (round files) := by
  rw [first_eq_round, turns_round (k := rounds files) (by omega)]
  simp only [Nat.zero_add]

/-- The chunks of all files are in the order of the turns. -/
theorem chunkOrder_eq_turns (files : List NewMember) :
    chunkOrder files = (turns (Turn.first files)).map fun t => (t.file, t.number) := by
  rw [turns_first, List.map_flatMap]
  refine List.flatMap_congr fun n _ => ?_
  have hfiles : files.filter (n < ·.chunkCount) =
      (files.zipIdx.filter (n < ·.1.chunkCount)).map (·.1) := by
    conv_lhs => rw [← List.zipIdx_map_fst 0 files, List.filter_map]
    rfl
  rw [hfiles, round, List.map_map, List.map_map]
  rfl

theorem mem_round {n : Nat} {t : Turn} :
    t ∈ round files n ↔ t.number = n ∧ files[t.place]? = some t.file ∧ n < t.file.chunkCount := by
  unfold round
  rw [List.mem_map]
  constructor
  · rintro ⟨x, hx, rfl⟩
    obtain ⟨hx, hlt⟩ := List.mem_filter.1 hx
    exact ⟨rfl, List.mem_zipIdx_iff_getElem?.1 hx, of_decide_eq_true hlt⟩
  · rintro ⟨rfl, hf, hlt⟩
    exact ⟨(t.file, t.place), List.mem_filter.2
      ⟨List.mem_zipIdx_iff_getElem?.2 hf, decide_eq_true hlt⟩, rfl⟩

theorem mem_turns {t : Turn} : t ∈ turns (Turn.first files) ↔
    files[t.place]? = some t.file ∧ t.number < t.file.chunkCount := by
  rw [turns_first, List.mem_flatMap]
  constructor
  · rintro ⟨n, -, ht⟩
    obtain ⟨rfl, ht⟩ := mem_round.1 ht
    exact ht
  · intro ht
    have hle := chunkCount_le_rounds (List.mem_of_getElem? ht.1)
    exact ⟨t.number, List.mem_range.2 (Nat.lt_of_lt_of_le ht.2 hle), mem_round.2 ⟨rfl, ht⟩⟩

theorem pairwise_round (n : Nat) : (round files n).Pairwise Turn.Before := by
  have hplaces : files.zipIdx.Pairwise fun x y => x.2 < y.2 := by
    rw [← List.pairwise_map, List.zipIdx_map_snd]
    exact List.pairwise_lt_range' 1
  refine List.pairwise_map.2 ((hplaces.filter _).imp fun hlt => Or.inr ⟨rfl, hlt⟩)

/-- No turn comes twice, and each comes behind those of lower numbers and lower places. -/
theorem pairwise_turns (files : List NewMember) :
    (turns (Turn.first files)).Pairwise Turn.Before := by
  rw [turns_first]
  refine List.pairwise_flatMap.2 ⟨fun n _ => pairwise_round n, ?_⟩
  refine List.pairwise_lt_range.imp fun hlt s hs t ht => Or.inl ?_
  rwa [(mem_round.1 hs).1, (mem_round.1 ht).1]

/-- The chunks are counted round by round as they are file by file. -/
theorem sum_length_filter {m : Nat} (h : ∀ f ∈ files, f.chunkCount ≤ m) :
    ((List.range m).map fun n => (files.filter (n < ·.chunkCount)).length).sum =
      (files.map (·.chunkCount)).sum := by
  induction files with
  | nil => simp
  | cons f files ih =>
    obtain ⟨hf, hfiles⟩ := List.forall_mem_cons.1 h
    have hone := congrArg List.length (flatMap_range_ite id hf)
    rw [List.length_flatMap, List.length_map, List.length_range] at hone
    rw [List.map_cons, List.sum_cons, ← ih hfiles, ← hone, ← List.sum_map_add]
    refine congrArg List.sum (List.map_congr_left fun n _ => ?_)
    rw [List.filter_cons]
    by_cases hn : n < f.chunkCount
    · rw [if_pos hn, if_pos (decide_eq_true hn), List.length_cons, Nat.add_comm]
      rfl
    · rw [if_neg hn, if_neg (by simpa using hn), List.length_nil, Nat.zero_add]

/-- There are as many turns as the files have chunks. -/
theorem length_turns (files : List NewMember) :
    (turns (Turn.first files)).length = (files.map (·.chunkCount)).sum := by
  have hlength := congrArg List.length (chunkOrder_eq_turns files)
  rw [List.length_map] at hlength
  rw [← hlength, ← sum_length_filter fun f hf => chunkCount_le_rounds hf]
  unfold chunkOrder
  rw [List.length_flatMap]
  simp only [List.length_map]
  rfl

theorem sum_sizes (files : List NewMember) :
    files.length * 88 + (files.map (·.chunkCount)).sum * 1056 =
      (files.map fun f => 88 + 1056 * f.chunkCount).sum := by
  induction files with
  | nil => rfl
  | cons f files ih =>
    simp only [List.map_cons, List.sum_cons, List.length_cons]
    omega

/-! ## Records -/

/-- A record is that of a chunk: its number and its file's name, 1024 bytes of the file from where
the number says with zeros behind them, and how many bytes of the file these are. -/
def NewMember.Recorded (f : NewMember) (n : Nat) (record : Bytes) : Prop :=
  let part := (f.data.drop (1024 * n)).take 1024
  ∃ name, Field.ascii f.name 16 = .ok name ∧
    record = [0x1C, 0x04, 0x13, 0x00] ++ [UInt8.ofNat n, 0, 0, 0] ++ name ++
      (part ++ List.replicate (1024 - part.length) 0) ++ Word.encode 4 part.length ++ [0, 0, 0, 0]

theorem NewMember.recorded_of_chunk {f : NewMember} {n : Nat} {record : Bytes}
    (h : f.chunk n = .ok record) : f.Recorded n record ∧ record.length = 1056 ∧ n ≤ 255 := by
  have hlen := (exists_ofRecord_chunk h).1
  unfold chunk at h
  obtain ⟨number, hn, h⟩ := bind_eq_ok_iff.1 h
  obtain ⟨name, hname, h⟩ := bind_eq_ok_iff.1 h
  obtain ⟨lnumber, rnumber⟩ := Field.unsigned_eq_ok_iff.1 hn
  obtain ⟨b, rfl⟩ := List.length_eq_one_iff.1 lnumber
  have hb : n = b.toNat := Int.ofNat.inj rnumber
  have hpart : slot f.data (n * payloadSize) payloadSize = (f.data.drop (1024 * n)).take 1024 := by
    rw [Nat.mul_comm]
    rfl
  have hfixed : Field.fixed payloadSize ((f.data.drop (1024 * n)).take 1024) =
      (f.data.drop (1024 * n)).take 1024 ++
        List.replicate (1024 - ((f.data.drop (1024 * n)).take 1024).length) 0 :=
    Field.fixed_of_le (List.length_take_le _ _)
  have hnumber : UInt8.ofNat n = b := by rw [hb, UInt8.ofNat_toNat]
  have hbyte := b.toNat_lt
  refine ⟨⟨name, hname, ?_⟩, hlen, by omega⟩
  rw [hpart, hfixed] at h
  rw [← Except.ok.inj h, hnumber]
  rfl

/-- Written files are laid out as their headers, in their order, and then one record for each
chunk of each file, by number and then by place: the order in which the files take turns. -/
theorem write_layout {bs : Bytes} (h : write files = .ok bs) :
    ∃ heads records : List Bytes, bs = heads.flatten ++ records.flatten ∧
      List.Forall₂ (fun f head => f.header = .ok head ∧ head.length = 88) files heads ∧
      List.Forall₂ (fun t record => t.file.Recorded t.number record ∧ record.length = 1056)
        (turns (Turn.first files)) records ∧
      (turns (Turn.first files)).Pairwise Turn.Before ∧
      (∀ t, t ∈ turns (Turn.first files) ↔
        files[t.place]? = some t.file ∧ t.number < (t.file.data.length + 1023) / 1024) ∧
      (∀ t ∈ turns (Turn.first files), t.number ≤ 255) ∧
      bs.length = (files.map fun f => 88 + 1056 * ((f.data.length + 1023) / 1024)).sum := by
  obtain ⟨-, heads, records, rfl, hheads, hrecords⟩ := exists_parts h
  have hheads : List.Forall₂ (fun f head => f.header = .ok head ∧ head.length = 88) files heads :=
    hheads.imp fun f head hf => ⟨hf, (NewMember.exists_ofRecord_header hf).1⟩
  rw [chunkOrder_eq_turns, List.forall₂_map_left_iff] at hrecords
  have hrecords := hrecords.imp fun t record ht => NewMember.recorded_of_chunk ht
  refine ⟨heads, records, rfl, hheads, hrecords.imp fun _ _ hr => ⟨hr.1, hr.2.1⟩,
    pairwise_turns files, fun t => mem_turns, fun t ht => ?_, ?_⟩
  · obtain ⟨record, -, -, -, hle⟩ := exists_of_forall₂ hrecords t ht
    exact hle
  · have h88 := map_eq_map_of_forall₂ (hheads.imp fun _ _ hh => hh.2.symm)
    have h1056 := map_eq_map_of_forall₂ (hrecords.imp fun _ _ hr => hr.2.1.symm)
    calc (heads.flatten ++ records.flatten).length
        = files.length * 88 + (turns (Turn.first files)).length * 1056 := by
          rw [List.length_append, List.length_flatten, List.length_flatten, ← h88, ← h1056,
            List.map_const', List.map_const', List.sum_replicate_nat, List.sum_replicate_nat]
      _ = (files.map fun f => 88 + 1056 * f.chunkCount).sum := by
          rw [length_turns, sum_sizes]

/-- A file that ends with its first chunk, and one that goes on into a third. -/
theorem write_layout_turns :
    let f : NewMember := { name := "q.bin", data := List.replicate 1024 7 }
    let g : NewMember := { name := "q.dat", data := List.replicate 2049 9 }
    ∃ bs, write [f, g] = .ok bs ∧ bs.length = 4400 ∧
      turns (Turn.first [f, g]) = [⟨0, f, 0⟩, ⟨1, g, 0⟩, ⟨1, g, 1⟩, ⟨1, g, 2⟩] := by
  intro f g
  have lf : f.data.length = 1024 := List.length_replicate
  have lg : g.data.length = 2049 := List.length_replicate
  have hf : f.Fitting :=
    ⟨by decide, by decide, List.ne_nil_of_length_pos (by omega), by omega, by decide, by decide⟩
  have hg : g.Fitting :=
    ⟨by decide, by decide, List.ne_nil_of_length_pos (by omega), by omega, by decide, by decide⟩
  obtain ⟨bs, hw⟩ := exists_write hf.storable hg.storable hf.labelled hg.labelled
  obtain ⟨-, -, -, -, -, -, -, -, hlen⟩ := write_layout hw
  refine ⟨bs, hw, ?_, ?_⟩
  · rw [hlen, List.map_cons, List.map_singleton, lf, lg]
    rfl
  · have cf : f.chunkCount = 1 := by rw [NewMember.chunkCount, lf]; rfl
    have cg : g.chunkCount = 3 := by rw [NewMember.chunkCount, lg]; rfl
    have hrounds : rounds [f, g] = 3 := by simp [rounds, cf, cg]
    simp [turns_first, hrounds, round, List.range_succ, cf, cg]

end

end Archive
end QuestArchive
