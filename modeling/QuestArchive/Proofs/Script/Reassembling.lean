import QuestArchive.Proofs.Script.Joining
import QuestArchive.Proofs.Script.Unreadable

/-!
# Assembled sources listed and assembled again

A listing has a line for everything that an assembled source holds.  It fails to mean what the
source meant for two reasons only: two segments of one section may stand in it with nothing
between them, and a number that is infinite is written as no source can spell it.
-/

namespace QuestArchive

def Segment.Finite : Segment → Prop
  | .code _ instructions => ∀ i ∈ instructions, i.Finite
  | _ => True

namespace Script

theorem Settled.writable {s : Segment} (h : Settled s) (hf : s.Finite) : s.Writable := by
  refine ⟨h.labels, fun ls is he i hi => ⟨h.instructions ls is he i hi, ?_⟩⟩
  subst he
  exact hf i hi

/-- The listing of a script in which not all numbers are finite has a line that cannot be
read. -/
theorem exists_unreadable {segments : List Segment} {lines : List Text}
    (hs : ∀ s ∈ segments, Settled s) (hf : ¬∀ s ∈ segments, s.Finite)
    (h : listing segments = .ok lines) : ∃ line ∈ lines, Unreadable line := by
  simp only [not_forall] at hf
  obtain ⟨s, hmem, hs'⟩ := hf
  obtain ⟨content, hcontent, hall⟩ := mem_listingFrom h s hmem
  cases s with
  | data ls bytes => exact absurd True.intro hs'
  | text ls value => exact absurd True.intro hs'
  | code ls is =>
    obtain ⟨i, hi⟩ := not_forall.1 hs'
    obtain ⟨hi, hf⟩ := Classical.not_imp.1 hi
    obtain ⟨calls, hcalls, hspells⟩ := exists_calls ls ((hs _ hmem).instructions ls is rfl)
    cases hcalls.symm.trans hcontent
    obtain ⟨op, values, js, hj, hcalled⟩ := hspells.exists_of_instruction hi
    exact ⟨_, hall _ (List.mem_append_right _ (List.mem_map_of_mem hcalled.mem)),
      hcalled.unreadable hj hf⟩

/-! ## Sources -/

/-- The script of a source without errors is listed.  The listing is assembled into the same
script without errors just if all numbers are finite and the segments are kept apart; if only
the first is so, into the script with segments joined. -/
theorem assemble_listing_assembled {lines : List Text} {a : Assembly}
    (h : assemble lines = .ok a) (herr : a.errors = []) :
    ∃ listed, listing a.segments = .ok listed ∧
      ((∃ b, assemble listed = .ok b ∧ b.errors = [] ∧ b.segments = a.segments) ↔
        (∀ s ∈ a.segments, s.Finite) ∧ a.segments.IsChain Segment.Apart) ∧
      ((∀ s ∈ a.segments, s.Finite) →
        assemble listed = .ok { segments := joined a.segments, diagnostics := [] }) := by
  have hd := drafted_of_assemble h herr
  by_cases hf : ∀ s ∈ a.segments, s.Finite
  · obtain ⟨listed, hlisted, hassemble⟩ := exists_assemble_listing
      (fun s hs => (hd.settled s hs).writable (hf s hs))
      (fun s hs => (hd.settled s hs).unlabelled) hd.first hd.distinct
    refine ⟨listed, hlisted, ⟨?_, ?_⟩, fun _ => hassemble⟩
    · intro hb
      obtain ⟨b, hb, -, hsame⟩ := hb
      cases hassemble.symm.trans hb
      exact ⟨hf, joined_eq_iff.1 hsame⟩
    · exact fun hall => ⟨_, hassemble, rfl, joined_eq_iff.2 hall.2⟩
  · obtain ⟨listed, hlisted⟩ := exists_listingFrom_of_wellFormed
      (fun s hs => (hd.settled s hs).instructions) .code false
    obtain ⟨line, hline, hunreadable⟩ := exists_unreadable hd.settled hf hlisted
    refine ⟨listed, hlisted, ⟨?_, fun hall => absurd hall.1 hf⟩, fun hall => absurd hall hf⟩
    intro hb
    obtain ⟨b, hb, herrors, -⟩ := hb
    exact absurd herrors (errors_of_unreadable hline hunreadable hb)

/-- Sections with and without labels, and a label at their end. -/
theorem assemble_listing_assembled_sampler :
    let lines : List Text := [.ofString "0: ret", .ofString ".data", .ofString "AB",
      .ofString ".code", .ofString "fleti r1, 2.5", .ofString "5:"]
    ∃ a listed b, assemble lines = .ok a ∧ a.errors = [] ∧ listing a.segments = .ok listed ∧
      assemble listed = .ok b ∧ b.errors = [] ∧ b.segments = a.segments := by
  intro lines
  have h : assemble lines = .ok ⟨[.code [0] [⟨.plain 0x01 "ret" [], []⟩], .data [] [0xAB],
      .code [] [⟨.plain 0xF904 "fleti" [.registerTuple, .float],
        [⟨.int 1, 1⟩, ⟨.float ⟨0x4004000000000000⟩, 4⟩]⟩], .code [5] []], []⟩ := by
    decide +kernel
  obtain ⟨listed, hlisted, hiff, -⟩ := assemble_listing_assembled h rfl
  have hx : Double.isFinite ⟨0x4004000000000000⟩ = true := by decide
  obtain ⟨b, hb⟩ := hiff.2
    ⟨by simp [Segment.Finite, Instruction.Finite, hx], by decide +kernel⟩
  exact ⟨_, listed, b, h, rfl, hlisted, hb⟩

/-- Two segments of code with an empty section of data between them are read as one. -/
theorem assemble_listing_detour :
    ∃ a listed b, assemble [.ofString "0: nop", .ofString ".data", .ofString ".code",
        .ofString "nop"] = .ok a ∧ a.diagnostics = [] ∧ listing a.segments = .ok listed ∧
      assemble listed = .ok b ∧ b.segments ≠ a.segments := by
  refine ⟨⟨[.code [0] [⟨.plain 0 "nop" [], []⟩], .code [] [⟨.plain 0 "nop" [], []⟩]], []⟩,
    [.ofString "0:", .ofString "    nop", [], .ofString "    nop"],
    ⟨[.code [0] [⟨.plain 0 "nop" [], []⟩, ⟨.plain 0 "nop" [], []⟩]], []⟩, ?_, rfl, ?_, ?_, ?_⟩
  all_goals decide +kernel

end Script
end QuestArchive
