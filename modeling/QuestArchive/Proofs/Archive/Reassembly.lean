import QuestArchive.Proofs.Archive.Reading

/-!
# Files put together from any chunks

The chunks of an archive come in any order, more than once, cut short or not at all.  A byte
of a file is what the last chunk that reaches it says, and zero where none does.
-/

namespace QuestArchive
namespace Archive

/-! ## The bytes of a file -/

theorem getElem?_overlay (old new : Bytes) (j : Nat) :
    (overlay old new)[j]? = if j < new.length then new[j]? else old[j]? := by
  unfold overlay
  rw [List.getElem?_append]
  by_cases h : j < new.length
  · rw [if_pos h, if_pos h]
  · rw [if_neg h, if_neg h, List.getElem?_drop]
    congr 1
    omega

theorem length_overlay {old new : Bytes} (h : new.length ≤ old.length) :
    (overlay old new).length = old.length := by
  unfold overlay
  rw [List.length_append, List.length_drop]
  omega

/-- One more chunk is laid over the bytes at its number, and leaves the others. -/
theorem block_concat (file : List Chunk) (c : Chunk) (n : Nat) :
    block (file ++ [c]) n =
      if c.number = n then overlay (block file n) c.body else block file n := by
  unfold block
  by_cases h : c.number = n <;> simp [List.filter_append, h]

/-- What a record guarantees of its chunk. -/
structure Chunk.Whole (c : Chunk) : Prop where
  payload : c.payload.length = 1024
  number : c.number < 256

theorem Chunk.whole_ofRecord {record : Bytes} (h : record.length = chunkSize) :
    (ofRecord record).Whole where
  payload := length_slot (by rw [h]; decide)
  number := by
    have hlt := Word.decode_lt (slot record 4 1)
    rw [length_slot (by rw [h]; decide)] at hlt
    exact hlt

theorem Chunk.Whole.length_body {c : Chunk} (h : c.Whole) : c.body.length = min c.size 1024 := by
  unfold body
  rw [List.length_take, h.payload]

def Chunk.Reaches (c : Chunk) (i : Nat) : Prop :=
  c.number = i / 1024 ∧ i % 1024 < min c.size 1024

instance (c : Chunk) (i : Nat) : Decidable (c.Reaches i) :=
  inferInstanceAs (Decidable (_ ∧ _))

/-- The byte at a place of a file, from the last chunk that has one for it. -/
def byteAt (file : List Chunk) (i : Nat) : Option UInt8 :=
  match (file.filter (·.Reaches i)).getLast? with
  | some c => c.payload[i % 1024]?
  | none => some 0

theorem byteAt_concat (file : List Chunk) (c : Chunk) (i : Nat) :
    byteAt (file ++ [c]) i = if c.Reaches i then c.payload[i % 1024]? else byteAt file i := by
  unfold byteAt
  by_cases h : c.Reaches i <;> simp [List.filter_append, h]

section File

variable {file : List Chunk}

/-- Chunk by chunk, what is laid over the bytes at a number is the last there. -/
theorem block_eq (hw : ∀ c ∈ file, c.Whole) (n : Nat) :
    (block file n).length = 1024 ∧
      ∀ j < 1024, (block file n)[j]? = byteAt file (n * 1024 + j) := by
  -- From the right: the chunk that is laid on last is the one that stays.
  induction file using List.reverseRecOn with
  | nil =>
    refine ⟨List.length_replicate, fun j hj => ?_⟩
    show (List.replicate 1024 0)[j]? = some 0
    rw [List.getElem?_replicate, if_pos hj]
  | append_singleton file c ih =>
    have hc : c.Whole := hw c (by simp)
    obtain ⟨hlen, hbytes⟩ := ih fun d hd => hw d (List.mem_append_left _ hd)
    have hbody := hc.length_body
    rw [block_concat]
    by_cases hn : c.number = n
    · rw [if_pos hn]
      refine ⟨(length_overlay (by omega)).trans hlen, fun j hj => ?_⟩
      have hreach : c.Reaches (n * 1024 + j) ↔ j < min c.size 1024 := by
        unfold Chunk.Reaches
        omega
      rw [byteAt_concat, getElem?_overlay, hbody, hbytes j hj]
      by_cases hlt : j < min c.size 1024
      · have hmod : (n * 1024 + j) % 1024 = j := by omega
        rw [if_pos hlt, if_pos (hreach.2 hlt), hmod]
        unfold Chunk.body
        rw [List.getElem?_take, if_pos (by omega)]
      · rw [if_neg hlt, if_neg (mt hreach.1 hlt)]
    · rw [if_neg hn]
      refine ⟨hlen, fun j hj => ?_⟩
      have hreach : ¬ c.Reaches (n * 1024 + j) := by
        unfold Chunk.Reaches
        omega
      rw [byteAt_concat, if_neg hreach, hbytes j hj]

theorem fileData_eq (hw : ∀ c ∈ file, c.Whole) (size : Nat) :
    (fileData file size).length = size ∧ ∀ i < size, (fileData file size)[i]? = byteAt file i := by
  have hblock := fun n => (block_eq hw n).1
  have hcount : size ≤ chunkCount size * 1024 := by
    unfold chunkCount payloadSize
    omega
  unfold fileData
  refine ⟨?_, fun i hi => ?_⟩
  · rw [List.length_take, length_flatMap_range hblock]
    omega
  · rw [List.getElem?_take, if_pos hi, getElem?_flatMap_range hblock (by omega),
      (block_eq hw _).2 _ (Nat.mod_lt _ (by decide)), Nat.div_add_mod']

theorem fileSize_le_iff {expected : Option Nat} {bound : Nat} :
    fileSize file expected ≤ bound ↔
      (∀ size ∈ expected, size ≤ bound) ∧ ∀ c ∈ file, c.stop ≤ bound := by
  unfold fileSize
  rw [Nat.max_le, foldl_max_le_iff]
  cases expected <;> simp [and_comm]

theorem mem_chunkNumbers (hw : ∀ c ∈ file, c.Whole) {n : Nat} :
    n ∈ chunkNumbers file ↔ ∃ c ∈ file, c.number = n := by
  simp only [chunkNumbers, List.mem_filter, List.mem_range, List.any_eq_true, decide_eq_true_eq]
  refine and_iff_right_of_imp fun h => ?_
  obtain ⟨c, hc, hn⟩ := h
  exact hn ▸ (hw c hc).number

theorem pairwise_chunkNumbers (file : List Chunk) : (chunkNumbers file).Pairwise (· < ·) :=
  List.pairwise_lt_range.filter _

end File

/-! ## The notices of missing chunks -/

def missing (notices : List Notice) : List Notice :=
  notices.filter (·.code = "missing_chunk")

theorem missing_append (ns ms : List Notice) : missing (ns ++ ms) = missing ns ++ missing ms :=
  List.filter_append ..

/-- A chunk that is there says nothing of one that is not. -/
theorem missing_chunkNotices (earlier cs : List Chunk) :
    missing (chunkNotices earlier cs) = [] := by
  induction cs generalizing earlier with
  | nil => rfl
  | cons c cs ih =>
    unfold chunkNotices
    rw [missing_append, missing_append, ih, List.append_nil]
    split <;> split <;> rfl

theorem missing_fileNotices (name : String) (file : List Chunk) (expected : Option Nat) :
    missing (fileNotices name file expected) =
      ((List.range (chunkCount (fileSize file expected))).filter fun n =>
        !file.any (·.number = n)).map (.missingChunk name) := by
  have hall : ∀ ns : List Nat,
      missing (ns.map (.missingChunk name)) = ns.map (.missingChunk name) := by
    intro ns
    refine List.filter_eq_self.2 fun notice hnotice => ?_
    obtain ⟨n, -, rfl⟩ := List.mem_map.1 hnotice
    rfl
  unfold fileNotices
  rw [missing_append, hall]
  cases expected with
  | none => rfl
  | some size =>
    dsimp only
    split <;> rfl

/-! ## The archive -/

/-- A file is what the headers and the chunks of its name say. -/
structure Member.Reassembles (m : Member) (first second : Header) (found : List Chunk) :
    Prop where
  expected : m.expectedSize =
    if second.name = m.name then some second.size
    else if first.name = m.name then some first.size
    else none
  /-- It ends where its header says or, if that is farther, where the last of its chunks does. -/
  length : ∀ bound, m.data.length ≤ bound ↔ (∀ size ∈ m.expectedSize, size ≤ bound) ∧
    ∀ c ∈ found, c.name = m.name → c.number * 1024 + min c.size 1024 ≤ bound
  bytes : ∀ i < m.data.length, m.data[i]? = byteAt (found.filter (·.name = m.name)) i
  seen : ∀ n, n ∈ m.chunkNumbers ↔ ∃ c ∈ found, c.name = m.name ∧ c.number = n
  ascending : m.chunkNumbers.Pairwise (· < ·)

/-- The numbers below the chunk count of a file that did not come up. -/
def Member.gaps (m : Member) : List Nat :=
  (List.range ((m.data.length + 1023) / 1024)).filter (· ∉ m.chunkNumbers)

/-- An archive has one file for each name, in the order in which the names come up first, and
is told of the chunks that are missing. -/
structure Contents.Reassembles (contents : Contents) (first second : Header)
    (found : List Chunk) : Prop where
  named : ∀ name, name ∈ contents.members.map (·.name) ↔ name ∈ found.map (·.name)
  ordered : (contents.members.map (·.name)).Pairwise fun a b =>
    (found.map (·.name)).idxOf a < (found.map (·.name)).idxOf b
  files : ∀ m ∈ contents.members, m.Reassembles first second found
  missing : contents.diagnostics.filter (·.notice.code = "missing_chunk") =
    contents.members.flatMap fun m => m.gaps.map fun n => { notice := .missingChunk m.name n }

section

variable {first second : Header} {found : List Chunk}

theorem reassembles_member (hw : ∀ c ∈ found, c.Whole) (name : String) :
    (member [first, second] [second, first] found name).1.Reassembles first second found := by
  have hfile : ∀ c ∈ found.filter (·.name = name), c.Whole :=
    fun c hc => hw c (List.mem_of_mem_filter hc)
  have hdata := fileData_eq hfile
  unfold member
  refine ⟨?_, fun bound => ?_, fun i hi => ?_, fun n => ?_, pairwise_chunkNumbers _⟩
  · by_cases hs : second.name = name
    · simp [hs]
    · by_cases hf : first.name = name <;> simp [hs, hf]
  · dsimp only
    rw [(hdata _).1, fileSize_le_iff]
    simp only [List.mem_filter, decide_eq_true_eq, and_imp]
    rfl
  · dsimp only at hi ⊢
    rw [(hdata _).1] at hi
    exact (hdata _).2 i hi
  · simp only [mem_chunkNumbers hfile, List.mem_filter, decide_eq_true_eq, and_assoc]

theorem missing_member (hw : ∀ c ∈ found, c.Whole) (name : String) :
    missing (member [first, second] [second, first] found name).2 =
      (member [first, second] [second, first] found name).1.gaps.map (.missingChunk name) := by
  have hfile : ∀ c ∈ found.filter (·.name = name), c.Whole :=
    fun c hc => hw c (List.mem_of_mem_filter hc)
  unfold member Member.gaps
  rw [missing_fileNotices]
  dsimp only
  rw [(fileData_eq hfile _).1]
  refine congrArg _ (List.filter_congr fun n _ => ?_)
  rw [Bool.eq_iff_iff]
  simp [mem_chunkNumbers hfile]

theorem reassembles_contentsOf (hw : ∀ c ∈ found, c.Whole) (left : Nat) :
    (contentsOf first second found left).Reassembles first second found := by
  have hnames : (contentsOf first second found left).members.map (·.name) =
      (found.map (·.name)).eraseDups := by
    unfold contentsOf
    dsimp only
    rw [List.map_map, List.map_map]
    exact List.map_id _
  refine ⟨fun name => ?_, ?_, fun m hm => ?_, ?_⟩
  · rw [hnames, List.mem_eraseDups]
  · rw [hnames]
    exact pairwise_idxOf_eraseDups _
  · obtain ⟨c, -, rfl⟩ := mem_members_contentsOf.1 hm
    exact reassembles_member hw c.name
  · have hleft : missing (if left = 0 then [] else [.trailingBytes left]) = [] := by
      split <;> rfl
    unfold contentsOf
    dsimp only
    rw [List.filter_map]
    show (missing _).map _ = _
    rw [missing_append, missing_append, missing_chunkNotices, hleft, List.append_nil,
      List.nil_append]
    unfold missing
    rw [List.filter_flatMap, List.flatMap_map, List.map_flatMap, List.flatMap_map, List.flatMap_map]
    refine List.flatMap_congr fun name _ => ?_
    show (missing _).map _ = _
    rw [missing_member hw, List.map_map]
    rfl

end

/-- The chunks of every archive are put together, whatever they are. -/
theorem read_reassembles {bs : Bytes} (hv : Version.detect bs = .blueBurst)
    (hl : 176 ≤ bs.length) :
    ∃ contents, read bs = .ok contents ∧
      contents.Reassembles (.ofRecord (slot bs 0 88)) (.ofRecord (slot bs 88 88))
        ((List.range ((bs.length - 176) / 1056)).map fun i =>
          .ofRecord (slot bs (176 + i * 1056) 1056)) := by
  have h1 : recordAt bs.toArray 0 headerSize = .ok (slot bs 0 88) :=
    recordAt_eq_ok (by unfold headerSize; omega)
  have h2 : recordAt bs.toArray headerSize headerSize = .ok (slot bs 88 88) :=
    recordAt_eq_ok (by unfold headerSize; omega)
  refine ⟨_, read_eq_ok hv h1 h2, ?_⟩
  rw [chunks_eq_map]
  refine reassembles_contentsOf (fun c hc => ?_) _
  obtain ⟨i, hi, rfl⟩ := List.mem_map.1 hc
  have hlt : i < (bs.length - 176) / 1056 := List.mem_range.1 hi
  refine Chunk.whole_ofRecord (length_slot ?_)
  unfold headerSize chunkSize
  omega

/-! ### An archive with a gap, a repeat and a stated size that is too large -/

def sampleHeader (letter : UInt8) (size : Nat) : Bytes :=
  [0x58, 0, 0x44, 0] ++ ([1, 0] ++ (List.replicate 38 0 ++ ((letter :: List.replicate 15 0) ++
    (Word.encode 4 size ++ (letter :: List.replicate 23 0)))))

def sampleChunk (letter number : UInt8) (front : Bytes) (size : Nat) : Bytes :=
  [0x1C, 4, 0x13, 0] ++ ([number] ++ ([0, 0, 0] ++ ((letter :: List.replicate 15 0) ++
    (Field.fixed payloadSize front ++ (Word.encode 4 size ++ [0, 0, 0, 0])))))

theorem ofRecord_sampleHeader (letter : UInt8) {size : Nat} (h : size < Word.bound 4) :
    (sampleHeader letter size).length = headerSize ∧
      Header.ofRecord (sampleHeader letter size) =
        { questNo := 1, name := Read.asciiOf (letter :: List.replicate 15 0), size
          secondName := Read.asciiOf (letter :: List.replicate 23 0) } := by
  have hsize := Word.length_encode 4 size
  refine ⟨by simp [sampleHeader, hsize, headerSize], ?_⟩
  refine (Header.ofRecord_append rfl rfl rfl rfl hsize rfl).trans ?_
  rw [Word.decode_encode h]
  rfl

theorem ofRecord_sampleChunk (letter number : UInt8) (front : Bytes) {size : Nat}
    (h : size < Word.bound 4) :
    (sampleChunk letter number front size).length = chunkSize ∧
      Chunk.ofRecord (sampleChunk letter number front size) =
        { number := number.toNat, name := Read.asciiOf (letter :: List.replicate 15 0)
          payload := Field.fixed payloadSize front, size } := by
  have hpayload := Field.length_fixed payloadSize front
  have hsize := Word.length_encode 4 size
  refine ⟨?_, ?_⟩
  · simp only [sampleChunk, List.length_append, List.length_cons, List.length_replicate, hpayload,
      hsize]
    rfl
  refine (Chunk.ofRecord_append rfl rfl rfl rfl hpayload hsize).trans ?_
  rw [Word.decode_encode h]
  simp [Word.decode]

/-- The later chunk 1 of the first file is the shorter one, and its chunk 0 is missing. -/
def scatteredChunks : List Bytes :=
  [sampleChunk 97 1 [7, 8] 2, sampleChunk 98 0 [5] 5000, sampleChunk 97 1 [9] 1]

def scattered : Bytes :=
  (sampleHeader 97 1 ++ sampleHeader 98 3) ++ (scatteredChunks.flatten ++ [1])

theorem read_reassembles_scattered :
    Version.detect scattered = .blueBurst ∧ 176 ≤ scattered.length ∧
      ∃ contents, read scattered = .ok contents ∧
        contents.Reassembles { questNo := 1, name := "a", size := 1, secondName := "a" }
          { questNo := 1, name := "b", size := 3, secondName := "b" }
          [{ number := 1, name := "a", payload := Field.fixed payloadSize [7, 8], size := 2 },
           { number := 0, name := "b", payload := Field.fixed payloadSize [5], size := 5000 },
           { number := 1, name := "a", payload := Field.fixed payloadSize [9], size := 1 }] ∧
        ∃ m ∈ contents.members, m.name = "a" ∧
          m.data[1023]? = some 0 ∧ m.data[1024]? = some 9 ∧ m.data[1025]? = some 8 := by
  obtain ⟨l1, r1⟩ := ofRecord_sampleHeader 97 (show 1 < Word.bound 4 by decide)
  obtain ⟨l2, r2⟩ := ofRecord_sampleHeader 98 (show 3 < Word.bound 4 by decide)
  obtain ⟨l3, r3⟩ := ofRecord_sampleChunk 97 1 [7, 8] (show 2 < Word.bound 4 by decide)
  obtain ⟨l4, r4⟩ := ofRecord_sampleChunk 98 0 [5] (show 5000 < Word.bound 4 by decide)
  obtain ⟨l5, r5⟩ := ofRecord_sampleChunk 97 1 [9] (show 1 < Word.bound 4 by decide)
  have hheads : (sampleHeader 97 1 ++ sampleHeader 98 3).length = 2 * headerSize := by
    rw [List.length_append, l1, l2]
    rfl
  have hrecords : ∀ r ∈ scatteredChunks, r.length = chunkSize := by
    simp [scatteredChunks, l3, l4, l5]
  have hlen : 176 ≤ scattered.length := by
    unfold scattered
    rw [List.length_append, hheads]
    exact Nat.le_trans (by decide) (Nat.le_add_right _ _)
  have hfirst : slot scattered 0 88 = sampleHeader 97 1 := by
    unfold scattered
    rw [List.append_assoc]
    exact slot_front l1
  have hsecond : slot scattered 88 88 = sampleHeader 98 3 := by
    unfold scattered
    rw [List.append_assoc]
    exact (slot_behind l1).trans (slot_front l2)
  have hcut : chunks scattered.toArray = scatteredChunks.map Chunk.ofRecord :=
    (chunks_append hheads hrecords (by decide)).1
  rw [chunks_eq_map] at hcut
  simp only [headerSize, chunkSize, Nat.reduceMul, scatteredChunks, List.map_cons, List.map_nil,
    r3, r4, r5] at hcut
  obtain ⟨contents, hread, h⟩ := read_reassembles (show Version.detect scattered = _ from rfl) hlen
  rw [hfirst, hsecond, hcut, r1, r2, show Read.asciiOf (97 :: List.replicate 15 0) = "a" by decide,
    show Read.asciiOf (98 :: List.replicate 15 0) = "b" by decide,
    show Read.asciiOf (97 :: List.replicate 23 0) = "a" by decide,
    show Read.asciiOf (98 :: List.replicate 23 0) = "b" by decide] at h
  refine ⟨rfl, hlen, contents, hread, h, ?_⟩
  obtain ⟨m, hm, hname⟩ := List.mem_map.1 ((h.named "a").2 (by decide))
  have hm' := h.files m hm
  have hmore : 1025 < m.data.length := by
    refine Nat.lt_of_not_le fun hle => ?_
    have hstop := ((hm'.length 1025).1 hle).2 _ List.mem_cons_self hname.symm
    exact absurd hstop (by decide)
  have hbytes := hm'.bytes
  rw [hname] at hbytes
  refine ⟨m, hm, hname, ?_, ?_, ?_⟩
  · rw [hbytes _ (by omega)]
    decide
  · rw [hbytes _ (by omega)]
    decide
  · rw [hbytes _ hmore]
    decide

end Archive
end QuestArchive
