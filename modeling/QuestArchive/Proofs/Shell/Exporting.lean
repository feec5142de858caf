import QuestArchive.Proofs.ObjectCode.Decoding
import QuestArchive.Proofs.ObjectCode.Writable
import QuestArchive.Proofs.ObjectCode.NegativeOffsets
import QuestArchive.Proofs.Quest.Scripted
import QuestArchive.Proofs.Quest.Stability
import QuestArchive.Proofs.Script.Filing
import QuestArchive.Proofs.Script.Merging
import QuestArchive.Proofs.Shell.TextFile

/-!
# Exporting the script of a quest and assembling it again

The script of a quest that was read is listed in a text file.  The source in the file is
assembled into a script that is stored as the same bytes, unless the listing says something that
a source cannot say: bytes in front of all labels, a label above the largest, a number that is
not finite, or a text with a line end that its literal does not escape.
-/

namespace QuestArchive

open ObjectCode Script

/-- A script of which a text file can hold the source. -/
structure Segment.Exportable (segments : List Segment) : Prop where
  first : ∀ s ∈ segments.head?, s.labels ≠ []
  labels : ∀ s ∈ segments, ∀ n ∈ s.labels, n ≤ 0xFFFF
  finite : ∀ s ∈ segments, s.Finite
  texts : ∀ s ∈ segments, ∀ t, s.Quotes t → t.Unbroken

namespace Shell

variable {segments : List Segment} {lines : List Text}

/-! ## Segments that were read -/

theorem wellFormed_of_placeable (h : Placeable segments) :
    ∀ s ∈ segments, ∀ ls is, s = .code ls is → ∀ i ∈ is, i.WellFormed := by
  rintro s hs ls is rfl
  obtain ⟨bs, hb⟩ := h.holds _ hs
  exact wellFormed_of_storesAll hb

theorem encodable_of_placeable (h : Placeable segments) :
    ∀ s ∈ segments, ∀ t, s.Quotes t → Text.Encodable t := by
  intro s hs t ht
  obtain ⟨bs, hb⟩ := h.holds s hs
  cases s with
  | code ls is =>
    obtain ⟨i, hi, ht⟩ := ht
    exact Instruction.encodable_of_hasText (wellFormed_of_storesAll hb i hi) ht
  | data ls bytes => exact ht.elim
  | text ls value => exact hb.elim

theorem kind_of_placeable (h : Placeable segments) : ∀ s ∈ segments, s.kind ≠ .text := by
  intro s hs hk
  obtain ⟨bs, hb⟩ := h.holds s hs
  cases s with
  | code ls is => cases hk
  | data ls bytes => cases hk
  | text ls value => exact hb

theorem filed_of_placeable (h : Placeable segments) (hl : listing segments = .ok lines) :
    ∀ line ∈ lines, ∀ r ∈ line, r.isFiled = true := by
  intro line hline
  obtain ⟨s, hs, hlisted⟩ := exists_listed hl line hline
  exact filed_listed hlisted (wellFormed_of_placeable h s hs) (encodable_of_placeable h s hs)

/-! ## The source in the file -/

theorem fileLines_self (hf : ∀ line ∈ lines, ∀ r ∈ line, r.isFiled = true)
    (he : ∀ line ∈ lines, ∀ r ∈ line, r.endsLine = false) :
    assemble (fileLines lines) = assemble lines := by
  unfold fileLines
  by_cases hempty : lines = []
  · subst hempty
    rfl
  · rw [if_neg (mt List.isEmpty_iff.1 hempty)]
    have hself : lines.flatMap Text.split = lines.flatMap fun line => [line] :=
      List.flatMap_congr fun line hline => Text.split_self (hf line hline) (he line hline)
    rw [hself, List.flatMap_singleton']

theorem firstLine_mem_fileLines (hf : ∀ line ∈ lines, ∀ r ∈ line, r.isFiled = true) {line : Text}
    (hl : line ∈ lines) : line.firstLine ∈ fileLines lines := by
  rw [fileLines, if_neg (mt List.isEmpty_iff.1 (List.ne_nil_of_mem hl))]
  exact List.mem_flatMap.2 ⟨line, hl, Text.firstLine_mem_split (hf line hl)⟩

/-- The source of a script that can be exported is assembled without a word. -/
theorem assemble_fileLines (h : Placeable segments) (he : Segment.Exportable segments)
    (hl : listing segments = .ok lines) :
    assemble (fileLines lines) = .ok { segments := joined segments, diagnostics := [] } := by
  have hwhole : ∀ line ∈ lines, ∀ r ∈ line, r.endsLine = false := by
    intro line hline
    obtain ⟨s, hs, hlisted⟩ := exists_listed hl line hline
    exact endsLine_listed hlisted (wellFormed_of_placeable h s hs) (he.texts s hs)
  have hw : ∀ s ∈ segments, s.Writable := by
    refine fun s hs => ⟨fun n hn => ⟨h.labels s hs n hn, he.labels s hs n hn⟩, ?_⟩
    rintro ls is rfl i hi
    exact ⟨wellFormed_of_placeable h _ hs ls is rfl i hi, he.finite _ hs i hi⟩
  have hu : ∀ s ∈ segments, s.labels = [] → ¬s.Hollow := by
    intro s hs hnil
    obtain ⟨bs, rfl, hne⟩ := h.unlabelled s hs hnil
    exact hne
  obtain ⟨lines', hlines, hassemble⟩ := exists_assemble_listing hw hu he.first h.distinct
  cases hl.symm.trans hlines
  rw [fileLines_self (filed_of_placeable h hl) hwhole, hassemble]

theorem exists_dataLines {bs : Bytes} (h : bs ≠ []) : ∃ more, dataLines bs =
    Text.join [.char ' '] ((bs.take bytesPerLine).map spellByte) :: more := by
  have hpos : 0 < (bs.length + bytesPerLine - 1) / bytesPerLine := by
    have hlen := List.length_pos_of_ne_nil h
    unfold bytesPerLine
    omega
  obtain ⟨count, hcount⟩ := Nat.exists_eq_add_of_lt hpos
  rw [Nat.zero_add] at hcount
  unfold dataLines
  dsimp only
  rw [hcount, Read.groups, List.map_cons]
  exact ⟨_, rfl⟩

/-- Bytes in front of all labels are an error in a source. -/
theorem errors_of_unlabelled {bs : Bytes} {rest : List Segment} {a : Assembly} (hne : bs ≠ [])
    (hf : ∀ line ∈ lines, ∀ r ∈ line, r.isFiled = true)
    (hl : listing (.data [] bs :: rest) = .ok lines)
    (ha : assemble (fileLines lines) = .ok a) : a.errors ≠ [] := by
  obtain ⟨content, _, more, hcontent, -, hlines⟩ := listingFrom_eq_ok hl
  have whole : ∀ line, Listed (.data [] bs) line → ∀ r ∈ line, r.endsLine = false :=
    fun line hlisted => endsLine_listed hlisted nofun nofun
  obtain ⟨groups, hgroup⟩ := exists_dataLines hne
  generalize hfirst : indented (Text.join [.char ' '] ((bs.take bytesPerLine).map spellByte)) =
    first
  have hshown : content = first :: groups.map indented := by
    cases hcontent
    rw [hgroup, ← hfirst]
    rfl
  have hback : fileLines lines =
      Text.ofString ".data" :: first :: (groups.map indented ++ more).flatMap Text.split := by
    subst hshown
    have hlist : lines = Text.ofString ".data" :: first :: (groups.map indented ++ more) := hlines
    subst hlist
    rw [fileLines, if_neg (by simp), List.flatMap_cons, List.flatMap_cons,
      Text.split_self (hf _ List.mem_cons_self) (whole _ .marker),
      Text.split_self (hf _ (List.mem_cons_of_mem _ List.mem_cons_self))
        (whole _ (.content hcontent List.mem_cons_self))]
    rfl
  rw [hback] at ha
  intro herr
  have hclean := (events_of_assemble ha herr).1
  have hmarker : Context.read {} (Text.ofString ".data") =
      { events := [.enter .data], context := ⟨.data, []⟩ } := @read_marker {} .data nofun
  rw [effects, hmarker, effects] at hclean
  refine read_unlabelled (c := ⟨.data, []⟩) (ofText_bytes ?_) rfl
    (hfirst ▸ hclean _ (List.mem_cons_of_mem _ List.mem_cons_self))
  simpa [bytesPerLine] using hne

theorem exportable_of_assemble (h : Placeable segments) (hl : listing segments = .ok lines)
    {a : Assembly} (ha : assemble (fileLines lines) = .ok a) (herr : a.errors = []) :
    Segment.Exportable segments := by
  have hf := filed_of_placeable h hl
  have hread : ∀ line ∈ lines, ¬Unreadable line.firstLine := fun line hline hu =>
    errors_of_unreadable (firstLine_mem_fileLines hf hline) hu ha herr
  have hcode : ∀ s ∈ segments, ∀ ls is, s = .code ls is → ∀ i ∈ is,
      i.Finite ∧ ∀ t, i.HasText t → t.Unbroken := by
    rintro s hs ls is rfl i hi
    by_contra hbad
    obtain ⟨content, hcontent, hall⟩ := mem_listingFrom hl _ hs
    obtain ⟨line, hline, hu⟩ := exists_unreadable_firstLine
      (wellFormed_of_placeable h _ hs ls is rfl) hcontent hi hbad
    exact hread line (hall line (List.mem_append_right _ hline)) hu
  constructor
  · intro s hs hnil
    obtain ⟨rest, rfl⟩ := List.head?_eq_some_iff.1 hs
    obtain ⟨bs, rfl, hne⟩ := h.unlabelled s List.mem_cons_self hnil
    exact errors_of_unlabelled hne hf hl ha herr
  · intro s hs n hn
    obtain ⟨content, -, hall⟩ := mem_listingFrom hl s hs
    by_contra hlarge
    refine hread _ (hall _ (List.mem_append_left _ (List.mem_map_of_mem hn))) ?_
    rw [Text.firstLine_self fun r hr => (bare_labelLine n r hr).endsLine]
    exact unreadable_labelLine (Int.not_le.1 hlarge)
  · intro s hs
    cases s with
    | code ls is => exact fun i hi => (hcode _ hs ls is rfl i hi).1
    | data ls bytes => exact True.intro
    | text ls value => exact True.intro
  · intro s hs t ht
    cases s with
    | code ls is =>
      obtain ⟨i, hi, ht⟩ := ht
      exact (hcode _ hs ls is rfl i hi).2 t ht
    | data ls bytes => exact ht.elim
    | text ls value => exact absurd rfl (kind_of_placeable h _ hs)

/-! ## Archives -/

/-- The script of a quest that was read can be listed, stored and exported.  If a text file can
hold its source, assembling the lines of the file reports no error and gives a script that is
stored as the same code with the same label table; without errors no other file is assembled. -/
theorem export_assembled {data : Bytes} {options : QuestOptions} {r : Quest.Reading}
    (hm : options.lenient = false) (h : Quest.read data options = .ok r) :
    ∃ lines stored cs, listing r.quest.segments = .ok lines ∧
      ObjectCode.write r.quest.segments = .ok stored ∧
      Assemble.chars (Assemble.sourceFile lines) = .ok cs ∧
      (Segment.Exportable r.quest.segments → ∃ a, assemble (Assemble.sourceLines cs) = .ok a ∧
        a.errors = [] ∧ ObjectCode.write a.segments = .ok stored) ∧
      ∀ a, assemble (Assemble.sourceLines cs) = .ok a → a.errors = [] →
        Segment.Exportable r.quest.segments := by
  obtain ⟨t, f, e, labels, hread⟩ := Quest.exists_readFrom hm h
  obtain ⟨bs, diagnostics, hscript, -⟩ := hread.script
  obtain ⟨header, code, reading, -, hcode, hsegments⟩ := ScriptFile.exists_reading hscript
  have hp : Placeable r.quest.segments := by
    rw [hread.quest, hsegments]
    exact placeable_of_read hcode
  obtain ⟨lines, hlines⟩ :=
    exists_listingFrom_of_wellFormed (wellFormed_of_placeable hp) .code false
  obtain ⟨stored, hstored, -⟩ := exists_write_of_holds
    (fun s hs => (hp.holds s hs).elim fun _ hb => exists_holds_of_holds hb) hp.distinct hp.labels
  obtain ⟨cs, hcs, hfile⟩ := exists_sourceLines (filed_of_placeable hp hlines)
  refine ⟨lines, stored, cs, hlines, hstored, hcs, fun he => ?_, fun a ha herr => ?_⟩
  · refine ⟨{ segments := joined r.quest.segments, diagnostics := [] }, ?_, rfl, ?_⟩
    · rw [hfile, assemble_fileLines hp he hlines]
    · rw [write_joined (kind_of_placeable hp), hstored]
  · exact exportable_of_assemble hp hlines (hfile ▸ ha) herr

/-- A script of which a text file holds the source. -/
theorem export_assembled_sampler : ∃ data r lines stored cs a, Quest.read data {} = .ok r ∧
    listing r.quest.segments = .ok lines ∧ ObjectCode.write r.quest.segments = .ok stored ∧
    Assemble.chars (Assemble.sourceFile lines) = .ok cs ∧
    assemble (Assemble.sourceLines cs) = .ok a ∧ a.errors = [] ∧
    ObjectCode.write a.segments = .ok stored := by
  obtain ⟨data, r, hr, hs⟩ := Quest.exists_archive (by decide +kernel) Quest.write_outline
    Quest.read_outline (by decide)
  have he : Segment.Exportable Quest.outline.segments := by
    constructor
    · simp [Quest.outline, Segment.labels]
    · simp [Quest.outline, Segment.labels]
    · simp [Quest.outline, Segment.Finite, Instruction.Finite]
    · simp [Quest.outline, Segment.Quotes, Instruction.HasText]
  obtain ⟨lines, stored, cs, hlines, hstored, hcs, hexport, -⟩ := export_assembled rfl hr
  obtain ⟨a, ha⟩ := hexport (hs ▸ he)
  exact ⟨data, r, lines, stored, cs, a, hr, hlines, hstored, hcs, ha⟩

/-- The literal of a line separator is split, and no source is assembled without errors from the
lines of the file. -/
theorem export_line_separator : ∃ data r lines cs, Quest.read data {} = .ok r ∧
    listing r.quest.segments = .ok lines ∧ Assemble.chars (Assemble.sourceFile lines) = .ok cs ∧
    ∀ a, assemble (Assemble.sourceLines cs) = .ok a → a.errors ≠ [] := by
  obtain ⟨data, r, hr, hs⟩ := Quest.exists_archive (by decide +kernel) Quest.write_message
    Quest.read_message (by decide)
  have hp : Placeable Quest.message := placeable_of_read Quest.read_message
  obtain ⟨lines, hlines⟩ :=
    exists_listingFrom_of_wellFormed (wellFormed_of_placeable hp) .code false
  obtain ⟨cs, hcs, hfile⟩ := exists_sourceLines (filed_of_placeable hp hlines)
  refine ⟨data, r, lines, cs, hr, hs ▸ hlines, hcs, fun a ha herr => ?_⟩
  have hbroken : ¬Text.Unbroken [.char '\u2028'] := by decide
  refine hbroken ((exportable_of_assemble hp hlines (hfile ▸ ha) herr).texts _ List.mem_cons_self _
    ⟨⟨.pushString, [⟨.text [.char '\u2028'], 4⟩]⟩, ?_, _, List.mem_cons_self, rfl⟩)
  exact List.mem_cons_of_mem _ List.mem_cons_self

end Shell
end QuestArchive
