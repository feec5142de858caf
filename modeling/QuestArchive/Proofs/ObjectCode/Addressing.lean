import QuestArchive.Proofs.ObjectCode.Packing

/-!
# Where segments and their labels come to stand

The offsets of a script are added up from the sizes that its segments state, before any of
its bytes is made.  Where the sizes are kept, each segment's own bytes stand at its offset, and
the label table has that offset for each of its labels.  Only a label that comes twice stands
in the way of this.
-/

namespace QuestArchive

/-- Some bytes are a segment's own: its instructions one behind the other, its data, or its text
with a null unit, padded with zeros to a multiple of four. -/
def Segment.Spells : Segment → Bytes → Prop
  | .code _ instructions, bs => ∃ parts, parts.flatten = bs ∧
      List.Forall₂ (fun i part => ObjectCode.writeInstruction i = .ok part) instructions parts
  | .data _ content, bs => bs = content
  | .text _ value, bs => ∃ units pad, Text.encode16 value = .ok units ∧
      bs = units ++ [0, 0] ++ List.replicate pad 0 ∧ pad < 4 ∧ bs.length % 4 = 0

namespace ObjectCode

/-- Some code has the segments of a script at the sums of the sizes before them, and a label
table says so. -/
structure Addresses (segments : List Segment) (stored : Stored) : Prop where
  sizes : ∀ s ∈ segments, s.size = .ok s.extent
  length : (stored.code.length : Int) = total (segments.map (·.extent))
  bytes : ∀ before s after, segments = before ++ s :: after → ∃ front bs back,
    stored.code = front ++ bs ++ back ∧ (front.length : Int) = total (before.map (·.extent)) ∧
      (bs.length : Int) = s.extent ∧ s.Spells bs
  entries : ∀ n : Nat, n < stored.offsets.length ↔ ∃ s ∈ segments, ∃ l ∈ s.labels, (n : Int) ≤ l
  labels : ∀ before s after, segments = before ++ s :: after → ∀ l ∈ s.labels,
    stored.offsets[l.toNat]? = some (total (before.map (·.extent)))
  unused : ∀ n < stored.offsets.length, (∀ s ∈ segments, (n : Int) ∉ s.labels) →
    stored.offsets[n]? = some (-1)

theorem spells_of_writeSegment {s : Segment} {bs : Bytes} (h : writeSegment s = .ok bs) :
    s.Spells bs := by
  cases s with
  | code ls is =>
    obtain ⟨parts, hm, h⟩ := bind_eq_ok_iff.1 h
    exact ⟨parts, Except.ok.inj h, mapM_eq_ok_iff.1 hm⟩
  | data ls content => exact (Except.ok.inj h).symm
  | text ls value =>
    obtain ⟨units, hu, h⟩ := bind_eq_ok_iff.1 h
    unfold Field.textBytes at hu
    split at hu
    · next he =>
      cases hu
      have ht := Text.encodable_of_encode16 he
      have hunits : units = Text.unitBytes value :=
        Except.ok.inj (he.symm.trans (Text.encode16_of_encodable ht))
      have heven := Text.even_length_unitBytes value
      have hextent : Segment.textExtent value = 4 * ((units.length / 2 + 2) / 2) := by
        rw [Segment.textExtent, Text.size16_of_encodable ht, hunits]
      rw [← hunits] at heven
      -- The units fill whole words of two bytes, so one or two null units are left to be written.
      obtain ⟨pad, hpad⟩ : ∃ pad, Segment.textExtent value = units.length + (2 + pad) :=
        ⟨Segment.textExtent value - units.length - 2, by omega⟩
      have hbs : bs = units ++ [0, 0] ++ List.replicate pad 0 := by
        rw [← Except.ok.inj h, List.append_assoc, hpad, Field.zeros]
        congr 1
        rw [show ((units.length + (2 + pad) : Nat) - units.length : Int).toNat = 2 + pad by omega,
          List.replicate_add]
        rfl
      refine ⟨units, pad, he, hbs, by omega, ?_⟩
      rw [hbs, List.length_append, List.length_append, List.length_replicate]
      simp only [List.length_cons, List.length_nil]
      omega
    · cases hu

section

variable {segments : List Segment}

theorem addresses_of_fills {pieces : List Bytes} (h : List.Forall₂ Fills segments pieces)
    (hn : (segments.flatMap Segment.labels).Nodup) (h0 : ∀ s ∈ segments, ∀ l ∈ s.labels, 0 ≤ l) :
    ∃ stored, write segments = .ok stored ∧ Addresses segments stored := by
  obtain ⟨offsets, hw, hset, honly, hcount⟩ := exists_write_of_fills h hn h0
  refine ⟨_, hw, ?_, ?_, ?_, hcount, ?_, ?_⟩
  · intro s hs
    obtain ⟨bs, -, hb⟩ := exists_of_forall₂ h s hs
    exact hb.size
  · exact (total_of_forall₂ (h.imp fun _ _ hs => hs.length)).symm
  · intro before s after he
    rw [he] at h
    obtain ⟨fronts, bs, backs, rfl, hf, hs, -⟩ := exists_split_of_forall₂ h
    refine ⟨fronts.flatten, bs, backs.flatten, ?_, ?_, hs.length.symm,
      spells_of_writeSegment hs.write⟩
    · simp
    · exact (total_of_forall₂ (hf.imp fun _ _ hs => hs.length)).symm
  · intro before s after he l hl
    have hlaid := mem_laid_of_split 0 he
    rw [Int.zero_add] at hlaid
    exact hset _ s hlaid l hl
  · intro n hlt hfree
    have hget : offsets[n]? = some offsets[n] := List.getElem?_eq_getElem hlt
    rcases honly n _ hget with he | ⟨s, hs, hl⟩
    · rw [hget, he]
    · exact absurd hl (hfree s (mem_of_laid hs))

/-- A script whose operands are right is refused just if a label comes twice; otherwise code
and label table have each segment where the sizes before it say. -/
theorem write_addresses (h : ∀ s ∈ segments, s.Sized) (h0 : ∀ s ∈ segments, ∀ l ∈ s.labels, 0 ≤ l) :
    ((∃ l, write segments = .error (.duplicateLabel l)) ↔
      ∃ l, 2 ≤ (segments.flatMap Segment.labels).count l) ∧
    ((∀ l, (segments.flatMap Segment.labels).count l ≤ 1) →
      ∃ stored, write segments = .ok stored ∧ Addresses segments stored) := by
  obtain ⟨pieces, hfills⟩ := exists_forall₂ fun s hs => exists_fills (h s hs)
  have hsize : ∀ s ∈ segments, s.size = .ok s.extent := by
    intro s hs
    obtain ⟨bs, -, hb⟩ := exists_of_forall₂ hfills s hs
    exact hb.size
  have hok : (∀ l, (segments.flatMap Segment.labels).count l ≤ 1) →
      ∃ stored, write segments = .ok stored ∧ Addresses segments stored :=
    fun hc => addresses_of_fills hfills (List.nodup_iff_count_le_one.2 hc) h0
  refine ⟨⟨?_, ?_⟩, hok⟩
  · intro hw
    obtain ⟨l, hw⟩ := hw
    by_contra hnone
    rw [not_exists] at hnone
    obtain ⟨stored, hs, -⟩ := hok fun l => Nat.le_of_lt_succ (Nat.lt_of_not_le (hnone l))
    rw [hw] at hs
    cases hs
  · intro htwice
    obtain ⟨l, hl⟩ := htwice
    have hdup : ¬ (segments.flatMap Segment.labels).Nodup := by
      intro hn
      have hle := List.nodup_iff_count_le_one.1 hn l
      omega
    obtain ⟨label, he⟩ := Placement.ofSegments_eq_error hsize hdup
    unfold write
    rw [he]
    exact ⟨label, rfl⟩

end

/-- Labels in any order, an operand of an operation that takes none, a character of two units,
and a segment that holds nothing. -/
def scattered : List Segment :=
  [.code [7, 2]
      [⟨.pops 0x5A "window_msg" [.string], [⟨.text [], 2⟩]⟩,
        ⟨.plain 0xF904 "fleti" [.registerTuple, .float],
          [⟨.int 5, 1⟩, ⟨.float ⟨0x3FF8000000000000⟩, 4⟩]⟩],
    .text [] [.char 'a', .char '😀'],
    .data [0] [],
    .text [9] []]

theorem sized_scattered : ∀ s ∈ scattered, s.Sized := by
  intro s hs
  simp only [scattered, List.mem_cons, List.not_mem_nil, or_false] at hs
  rcases hs with rfl | rfl | rfl | rfl
  · intro i hi
    simp only [List.mem_cons, List.not_mem_nil, or_false] at hi
    rcases hi with rfl | rfl
    · refine ⟨by decide, _, List.prefix_rfl, .cons ⟨⟨⟨[], rfl, ?_⟩, rfl⟩, True.intro⟩ .nil⟩
      exact fun n => List.not_mem_nil
    · exact ⟨by decide, _, List.prefix_rfl,
        .cons ⟨⟨⟨5, rfl, by decide, by decide⟩, rfl⟩, True.intro⟩
          (.cons ⟨⟨⟨_, rfl⟩, rfl⟩, ⟨0x3FC00000, by decide +kernel⟩⟩ .nil)⟩
  · simp [Segment.Sized, Text.Encodable]
  · exact True.intro
  · simp [Segment.Sized, Text.Encodable]

theorem write_addresses_scattered : (∀ s ∈ scattered, s.Sized) ∧
    (∀ s ∈ scattered, ∀ l ∈ s.labels, 0 ≤ l) ∧
    (∃ stored, write scattered = .ok stored ∧ Addresses scattered stored ∧
      stored.code.length = 22 ∧ stored.offsets.length = 10 ∧ stored.offsets[9]? = some 18) ∧
    ∃ l, write (.data [3, 9] [] :: scattered) = .error (.duplicateLabel l) := by
  have h0 : ∀ s ∈ scattered, ∀ l ∈ s.labels, 0 ≤ l := by decide +kernel
  obtain ⟨-, hok⟩ := write_addresses sized_scattered h0
  obtain ⟨stored, hw, ha⟩ := hok (List.nodup_iff_count_le_one.1 (by decide +kernel))
  have hlen : (stored.code.length : Int) = 22 := ha.length.trans (by decide +kernel)
  have hentries : ¬ 10 < stored.offsets.length ∧ 9 < stored.offsets.length := by
    rw [ha.entries, ha.entries]
    decide +kernel
  obtain ⟨htwice, -⟩ := @write_addresses (.data [3, 9] [] :: scattered)
    (List.forall_mem_cons.2 ⟨True.intro, sized_scattered⟩)
    (List.forall_mem_cons.2 ⟨by decide, h0⟩)
  refine ⟨sized_scattered, h0, ⟨stored, hw, ha, by omega, by omega, ?_⟩, htwice.2 ⟨9, ?_⟩⟩
  · exact ha.labels [_, _, _] _ [] rfl 9 List.mem_cons_self
  · decide +kernel

end ObjectCode
end QuestArchive
