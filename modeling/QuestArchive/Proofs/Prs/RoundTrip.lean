import QuestArchive.Proofs.Prs.Repeats
import QuestArchive.Prs.Compress

/-!
# Compression is undone by decompression

The tokens chosen cover the data with true repeats, their stream spells just these
tokens, and what a stream spells is what it is decompressed to.
-/

namespace QuestArchive
namespace Prs

theorem decompress_encode {data : Bytes} {ts : List Token} (hc : Covers data.toArray 0 ts)
    (hs : ∀ t ∈ ts, t.Storable) : decompress (encode ts) = .ok data := by
  obtain ⟨s, hspells, -⟩ := spells_encode hs []
  rw [List.append_nil] at hspells
  have hx : expand #[] ts = .ok data.toArray := by
    have h := expand_of_covers hc
    rwa [Array.extract_zero] at h
  rw [decompress_of_spells hspells, hx]
  rfl

/-- Decompression gives compressed data back.  The stream spells the tokens that the
search chose and ends behind them; every one of them can be stored, so that none is read
as the end marker, and every copy repeats what stands before it. -/
theorem decompress_compress (data : Bytes) :
    decompress (compress data) = .ok data ∧
      (∃ s, Source.Spells { rest := compress data } (tokens data) s ∧ s.rest = []) ∧
      Covers data.toArray 0 (tokens data) ∧ ∀ t ∈ tokens data, t.Storable := by
  obtain ⟨hcov, hstore⟩ := tokens_spec data
  obtain ⟨s, hs, hend⟩ := spells_encode hstore []
  rw [List.append_nil] at hs
  exact ⟨decompress_encode hcov hstore, ⟨s, hs, hend⟩, hcov, hstore⟩

/-- A copy that reaches into its own output. -/
example : tokens [7, 7, 7, 7, 7] = [.literal 7, .short 1 4] := by cbv

end Prs
end QuestArchive
