import QuestArchive.Proofs.ObjectCode.Packing
import QuestArchive.Proofs.Script.Drafting

/-!
# The stored form of an assembled source

The checks of the assembler leave three things that have no bytes: a number beyond single
precision, a list of more than 255 elements and a literal of a text segment that is not
encodable.  A source without errors that has none of them is stored.
-/

namespace QuestArchive
namespace Script

/-- The script of a source without errors has a stored form if everything in it has bytes.
Then the code takes the sizes of the segments, and each label of the source has the sizes of
the segments before its own in the label table. -/
theorem write_assembled {lines : List Text} {a : Assembly} (h : assemble lines = .ok a)
    (herr : a.errors = []) :
    ((∃ stored, ObjectCode.write a.segments = .ok stored) ↔ ∀ s ∈ a.segments, s.Packable) ∧
      ∀ stored, ObjectCode.write a.segments = .ok stored →
        (stored.code.length : Int) = total (a.segments.map (·.extent)) ∧
        (∀ s ∈ a.segments, s.size = .ok s.extent) ∧
        ∀ line ∈ lines, ∀ n, (Line.ofText line).number? = some n →
          ∃ before s after, a.segments = before ++ s :: after ∧ (n : Int) ∈ s.labels ∧
            stored.offsets[n]? = some (total (before.map (·.extent))) := by
  have hd := drafted_of_assemble h herr
  have hwell : ∀ s ∈ a.segments, ∀ ls is, s = .code ls is → ∀ i ∈ is, i.WellFormed :=
    fun s hs => (hd.settled s hs).instructions
  have hlow : ∀ s ∈ a.segments, ∀ l ∈ s.labels, 0 ≤ l :=
    fun s hs l hl => ((hd.settled s hs).labels l hl).1
  constructor
  · constructor
    · intro hw
      obtain ⟨stored, hw⟩ := hw
      exact ObjectCode.packable_of_write hwell hw
    · intro hp
      obtain ⟨stored, hw, -⟩ := ObjectCode.exists_write_of_packable hwell hp hd.distinct hlow
      exact ⟨stored, hw⟩
  · intro stored hw
    obtain ⟨stored', hw', hlen, hsize, hoffsets⟩ := ObjectCode.exists_write_of_packable hwell
      (ObjectCode.packable_of_write hwell hw) hd.distinct hlow
    cases hw.symm.trans hw'
    refine ⟨hlen, hsize, fun line hline n hn => ?_⟩
    have hlabel : (n : Int) ∈ a.segments.flatMap Segment.labels := by
      rw [hd.labels]
      exact List.mem_map_of_mem (List.mem_filterMap.2 ⟨line, hline, hn⟩)
    obtain ⟨s, hs, hl⟩ := List.mem_flatMap.1 hlabel
    obtain ⟨before, after, he⟩ := List.append_of_mem hs
    exact ⟨before, s, after, he, hl, hoffsets before s after he n hl⟩

def storedSampler : List Text :=
  [.ofString "0: fleti r5, -1.5", .ofString "window_msg \"a\"", .ofString "7:", .ofString ".data",
    .ofString "01 FF", .ofString ".string", .ofString "9: \"ab\""]

theorem write_assembled_sampler : ∃ a stored, assemble storedSampler = .ok a ∧ a.errors = [] ∧
    ObjectCode.write a.segments = .ok stored ∧ (∀ s ∈ a.segments, s.Packable) ∧
      stored.code.length = 23 ∧ (stored.code.length : Int) = total (a.segments.map (·.extent)) ∧
      ∀ line ∈ storedSampler, ∀ n, (Line.ofText line).number? = some n →
        ∃ before s after, a.segments = before ++ s :: after ∧ (n : Int) ∈ s.labels ∧
          stored.offsets[n]? = some (total (before.map (·.extent))) := by
  have h : assemble storedSampler = .ok
      ⟨[.code [0]
          [⟨.plain 0xF904 "fleti" [.registerTuple, .float],
              [⟨.int 5, 1⟩, ⟨.float ⟨0xBFF8000000000000⟩, 4⟩]⟩,
            ⟨.pushString, [⟨.text [.char 'a'], 4⟩]⟩, ⟨.pops 0x5A "window_msg" [.string], []⟩],
        .code [7] [], .data [] [0x01, 0xFF], .text [9] [.char 'a', .char 'b']], []⟩ := by
    decide +kernel
  have hw : ObjectCode.write
      [.code [0]
          [⟨.plain 0xF904 "fleti" [.registerTuple, .float],
              [⟨.int 5, 1⟩, ⟨.float ⟨0xBFF8000000000000⟩, 4⟩]⟩,
            ⟨.pushString, [⟨.text [.char 'a'], 4⟩]⟩, ⟨.pops 0x5A "window_msg" [.string], []⟩],
        .code [7] [], .data [] [0x01, 0xFF], .text [9] [.char 'a', .char 'b']] =
      .ok ⟨[249, 4, 5, 0, 0, 192, 191, 78, 97, 0, 0, 0, 90, 1, 255, 97, 0, 98, 0, 0, 0, 0, 0],
        [0, -1, -1, -1, -1, -1, -1, 13, -1, 15]⟩ := by
    decide +kernel
  obtain ⟨hiff, hall⟩ := write_assembled h rfl
  obtain ⟨hlen, -, hlabels⟩ := hall _ hw
  exact ⟨_, _, h, rfl, hw, hiff.1 ⟨_, hw⟩, rfl, hlen, hlabels⟩

/-- A number that is too large for single precision is assembled without a word and has no
stored form. -/
theorem write_large_number :
    ∃ a, assemble [.ofString "0: fleti r0, 1e39"] = .ok a ∧ a.diagnostics = [] ∧
      ObjectCode.write a.segments = .error .tooLarge := by
  refine ⟨⟨[.code [0] [⟨.plain 0xF904 "fleti" [.registerTuple, .float],
    [⟨.int 0, 1⟩, ⟨.float ⟨5190260616003865117⟩, 4⟩]⟩]], []⟩, ?_, rfl, ?_⟩
  · decide +kernel
  · decide +kernel

end Script
end QuestArchive
