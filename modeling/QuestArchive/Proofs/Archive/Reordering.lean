import Mathlib.Data.List.Perm.Basic
import QuestArchive.Proofs.Archive.Reassembly

/-!
# Chunks in another order

Where no number comes twice in a file, each chunk has its place to itself, and the order in
which the chunks come is of no consequence.
-/

namespace QuestArchive
namespace Archive

def Chunk.key (c : Chunk) : String × Nat := (c.name, c.number)

section

variable {found other : List Chunk}

/-- Of the chunks of a file, at most one has a number. -/
theorem length_filter_key_le (hd : (found.map Chunk.key).Nodup) (name : String) (n : Nat) :
    ((found.filter (·.name = name)).filter (·.number = n)).length ≤ 1 := by
  have hcount := List.nodup_iff_count_le_one.1 hd (name, n)
  rw [List.count_eq_countP, List.countP_map, List.countP_eq_length_filter] at hcount
  rw [List.filter_filter]
  refine Nat.le_trans (Nat.le_of_eq (congrArg _ (List.filter_congr fun c _ => ?_))) hcount
  rw [Bool.eq_iff_iff]
  simp [Chunk.key, and_comm]

theorem fileData_perm (hp : found.Perm other) (hd : (found.map Chunk.key).Nodup) (name : String)
    (size : Nat) : fileData (found.filter (·.name = name)) size =
      fileData (other.filter (·.name = name)) size := by
  unfold fileData
  refine congrArg _ (List.flatMap_congr fun n _ => ?_)
  unfold block
  have hone := eq_of_perm_of_length_le_one ((hp.filter (·.name = name)).filter (·.number = n))
    (length_filter_key_le hd name n)
  rw [hone]

theorem member_perm {headers all : List Header} (hp : found.Perm other)
    (hd : (found.map Chunk.key).Nodup) (name : String) :
    member headers all found name = member headers all other name := by
  have hfile := hp.filter (·.name = name)
  have hstop : ((found.filter (·.name = name)).map Chunk.stop).foldl max 0 =
      ((other.filter (·.name = name)).map Chunk.stop).foldl max 0 :=
    (hfile.map _).foldl_eq 0
  have hany : ∀ n, (found.filter (·.name = name)).any (·.number = n) =
      (other.filter (·.name = name)).any (·.number = n) := fun n => hfile.any_eq
  unfold member fileNotices chunkNumbers fileSize
  simp only [hstop, hany, fileData_perm hp hd]

theorem chunkNotices_perm (hp : found.Perm other) (hd : (found.map Chunk.key).Nodup) :
    (chunkNotices [] found).Perm (chunkNotices [] other) := by
  have hall : ∀ {cs : List Chunk}, (cs.map Chunk.key).Nodup →
      chunkNotices [] cs = cs.flatMap Chunk.notices := by
    intro cs hcs
    refine chunkNotices_of_pairwise ?_ fun e he => absurd he List.not_mem_nil
    refine (List.pairwise_map.1 hcs).imp fun hne hand => hne ?_
    exact Prod.ext hand.2 hand.1
  rw [hall hd, hall ((hp.map _).nodup_iff.1 hd)]
  exact hp.flatMap_right _

theorem contentsOf_perm (first second : Header) (left : Nat) (hp : found.Perm other)
    (hd : (found.map Chunk.key).Nodup) :
    (contentsOf first second found left).members.Perm
        (contentsOf first second other left).members ∧
      (contentsOf first second found left).diagnostics.Perm
        (contentsOf first second other left).diagnostics := by
  have hnames : ((found.map (·.name)).eraseDups).Perm ((other.map (·.name)).eraseDups) := by
    refine (List.perm_ext_iff_of_nodup (nodup_eraseDups _) (nodup_eraseDups _)).2 fun name => ?_
    rw [List.mem_eraseDups, List.mem_eraseDups, (hp.map _).mem_iff]
  have hfiles := hnames.map (member [first, second] [second, first] other)
  have hsame : member [first, second] [second, first] found =
      member [first, second] [second, first] other := funext (member_perm hp hd)
  unfold contentsOf
  rw [hsame]
  refine ⟨hfiles.map _, List.Perm.map _ (List.Perm.append ?_ (hfiles.flatMap_right _))⟩
  exact (chunkNotices_perm hp hd).append_right _

end

theorem detect_append {front rest : Bytes} (h : 3 ≤ front.length) :
    Version.detect (front ++ rest) = Version.detect front := by
  unfold Version.detect
  rw [List.getElem?_append_left (by omega), List.getElem?_append_left (by omega)]

/-- In whatever order its chunks come, an archive has the same files and the same notices. -/
theorem read_perm {first second tail : Bytes} {records others : List Bytes}
    (hv : Version.detect (first ++ second ++ (records.flatten ++ tail)) = .blueBurst)
    (h1 : first.length = 88) (h2 : second.length = 88) (hr : ∀ r ∈ records, r.length = 1056)
    (ht : tail.length < 1056) (hd : (records.map fun r => (Chunk.ofRecord r).key).Nodup)
    (hp : records.Perm others) :
    ∃ contents reordered, read (first ++ second ++ (records.flatten ++ tail)) = .ok contents ∧
      read (first ++ second ++ (others.flatten ++ tail)) = .ok reordered ∧
      contents.version = reordered.version ∧ contents.members.Perm reordered.members ∧
      contents.diagnostics.Perm reordered.diagnostics := by
  have hheads : 3 ≤ (first ++ second).length := by
    rw [List.length_append]
    omega
  have hv' : Version.detect (first ++ second ++ (others.flatten ++ tail)) = .blueBurst := by
    rw [detect_append hheads] at hv ⊢
    exact hv
  have hr' : ∀ r ∈ others, r.length = 1056 := fun r hm => hr r (hp.mem_iff.2 hm)
  have hkeys : ((records.map Chunk.ofRecord).map Chunk.key).Nodup := by
    rw [List.map_map]
    exact hd
  obtain ⟨hmembers, hdiagnostics⟩ := contentsOf_perm (.ofRecord first) (.ofRecord second)
    tail.length (hp.map Chunk.ofRecord) hkeys
  exact ⟨_, _, read_append hv h1 h2 hr ht, read_append hv' h1 h2 hr' ht, rfl, hmembers,
    hdiagnostics⟩

/-- Among others a chunk with too large a size, one far behind the rest and one without a
byte. -/
def looseChunks : List Bytes :=
  [sampleChunk 97 1 [7, 8] 2, sampleChunk 98 0 [5] 5000, sampleChunk 97 200 [9] 1,
    sampleChunk 98 3 [] 0]

theorem read_perm_reversed :
    (looseChunks.map fun r => (Chunk.ofRecord r).key) = [("a", 1), ("b", 0), ("a", 200), ("b", 3)] ∧
      ∃ contents reordered,
        read (sampleHeader 97 1 ++ sampleHeader 98 3 ++ (looseChunks.flatten ++ [1])) =
          .ok contents ∧
        read (sampleHeader 97 1 ++ sampleHeader 98 3 ++ (looseChunks.reverse.flatten ++ [1])) =
          .ok reordered ∧
        contents.members.Perm reordered.members ∧
        contents.diagnostics.Perm reordered.diagnostics := by
  obtain ⟨l1, -⟩ := ofRecord_sampleHeader 97 (show 1 < Word.bound 4 by decide)
  obtain ⟨l2, -⟩ := ofRecord_sampleHeader 98 (show 3 < Word.bound 4 by decide)
  obtain ⟨l3, r3⟩ := ofRecord_sampleChunk 97 1 [7, 8] (show 2 < Word.bound 4 by decide)
  obtain ⟨l4, r4⟩ := ofRecord_sampleChunk 98 0 [5] (show 5000 < Word.bound 4 by decide)
  obtain ⟨l5, r5⟩ := ofRecord_sampleChunk 97 200 [9] (show 1 < Word.bound 4 by decide)
  obtain ⟨l6, r6⟩ := ofRecord_sampleChunk 98 3 [] (show 0 < Word.bound 4 by decide)
  have hrecords : ∀ r ∈ looseChunks, r.length = 1056 := by
    simp [looseChunks, l3, l4, l5, l6, chunkSize]
  have hkeys : (looseChunks.map fun r => (Chunk.ofRecord r).key) =
      [("a", 1), ("b", 0), ("a", 200), ("b", 3)] := by
    simp only [looseChunks, List.map_cons, List.map_nil, r3, r4, r5, r6]
    decide
  obtain ⟨contents, reordered, hread, hother, -, hmembers, hdiagnostics⟩ :=
    read_perm (show Version.detect _ = _ from rfl) l1 l2 hrecords
      (show [(1 : UInt8)].length < 1056 by decide) (by rw [hkeys]; decide)
      looseChunks.reverse_perm.symm
  exact ⟨hkeys, contents, reordered, hread, hother, hmembers, hdiagnostics⟩

end Archive
end QuestArchive
