import Mathlib.Data.List.Nodup
import QuestArchive.Proofs.ObjectCode.BoundedReading
import QuestArchive.Proofs.ObjectCode.Placing
import QuestArchive.Proofs.ObjectCode.Tiling

/-!
# Reading a script loses nothing

The segments of a script that was read are written as the code that they were read from,
and each label of the label table keeps its offset, unless that lies past the code.
-/

namespace QuestArchive
namespace ObjectCode

theorem Offsets.values_eq {β : Type} (m : Std.TreeMap Int β) :
    m.values = m.toList.map Prod.snd := by
  show m.foldr (fun _ v vs => v :: vs) [] = _
  rw [Std.TreeMap.foldr_eq_foldr_toList]
  induction m.toList with
  | nil => rfl
  | cons e rest ih => rw [List.foldr_cons, ih, List.map_cons]

/-- A script was read so that it can be written again: its segments give back the code, and
the new label table gives back the offset of each label, unless that lies past the code. -/
structure Keeps (stored : Stored) (r : Reading) : Prop where
  size : ∀ expected got, { notice := .codeSize expected got } ∉ r.diagnostics
  unplaced : ∀ (label : Nat) (o : Int), { notice := .unplacedLabel label o } ∈ r.diagnostics →
    (stored.code.length : Int) ≤ o
  written : (∀ s ∈ r.segments, s.Legible) →
    ∃ w, write r.segments = .ok w ∧ w.code = stored.code ∧
      ∀ (label : Nat) (o : Int), stored.offsets[label]? = some o → o ≠ -1 →
        (r.segments.flatMap Segment.labels).count (label : Int) = 1 ∧
            w.offsets[label]? = some o ∨
          { notice := .unplacedLabel label o } ∈ r.diagnostics

namespace Input

variable {s : Input} {offsets : List Int} {done : Std.TreeMap Int Segment}

theorem mem_labelsOf (h : Charts s.size offsets s.starts) {o l : Int} :
    l ∈ s.labelsOf o ↔ ∃ n : Nat, l = n ∧ offsets[n]? = some o ∧ o ≠ -1 := by
  unfold labelsOf
  constructor
  · intro hl
    cases hst : s.starts[o]? with
    | none =>
      rw [hst] at hl
      exact absurd hl List.not_mem_nil
    | some st =>
      rw [hst] at hl
      obtain ⟨hne, hlabels, -⟩ := h.labels hst
      obtain ⟨n, hn, rfl⟩ := List.mem_map.1 hl
      rw [hlabels] at hn
      exact ⟨n, rfl, mem_labelsAt.1 hn, hne⟩
  · rintro ⟨n, rfl, hn, hne⟩
    obtain ⟨st, hst⟩ := h.complete hn hne
    rw [hst]
    refine List.mem_map.2 ⟨n, ?_, rfl⟩
    rw [(h.labels hst).2.1]
    exact mem_labelsAt.2 hn

theorem nodup_labelsOf (h : Charts s.size offsets s.starts) (o : Int) : (s.labelsOf o).Nodup := by
  unfold labelsOf
  cases hst : s.starts[o]? with
  | none => exact List.nodup_nil
  | some st =>
    have hsorted := sorted_labelsAt offsets o
    rw [← (h.labels hst).2.1] at hsorted
    exact List.pairwise_map.2 (hsorted.imp fun hlt he => by omega)

/-- No label is in two segments if each has those of its offset. -/
theorem nodup_labels (h : Charts s.size offsets s.starts)
    (hl : ∀ {o : Int} {seg : Segment}, done[o]? = some seg → seg.labels = s.labelsOf o) :
    (done.values.flatMap Segment.labels).Nodup := by
  have mem : ∀ {e : Int × Segment}, e ∈ done.toList → e.2.labels = s.labelsOf e.1 :=
    fun he => hl (Std.TreeMap.mem_toList_iff_getElem?_eq_some.1 he)
  rw [Offsets.values_eq, List.flatMap_map]
  refine List.nodup_flatMap.2 ⟨fun e he => ?_, ?_⟩
  · rw [mem he]
    exact nodup_labelsOf h e.1
  · refine (Offsets.sorted_toList _).imp_of_mem ?_
    intro e e' he he' hlt l hl hl'
    dsimp only at hl hl'
    rw [mem he] at hl
    rw [mem he'] at hl'
    obtain ⟨n, rfl, hn, -⟩ := (mem_labelsOf h).1 hl
    obtain ⟨n', hne, hn', -⟩ := (mem_labelsOf h).1 hl'
    rw [Int.ofNat_inj.1 hne, hn'] at hn
    exact absurd (Option.some.inj hn) (Int.ne_of_gt hlt)

theorem nodup_labels_fill (h : s.Reads offsets done) :
    ((s.fill done).values.flatMap Segment.labels).Nodup :=
  nodup_labels h.charts (labels_fill h)

theorem mem_unplaced {n : Notice} : n ∈ s.unplaced done ↔ ∃ o st, s.starts[o]? = some st ∧
    done[o]? = none ∧ ∃ label ∈ st.labels, n = .unplacedLabel label o := by
  unfold unplaced
  rw [List.mem_flatMap]
  constructor
  · rintro ⟨⟨o, st⟩, he, hn⟩
    dsimp only at hn
    split at hn
    · exact absurd hn List.not_mem_nil
    · next hc =>
      obtain ⟨label, hlabel, rfl⟩ := List.mem_map.1 hn
      refine ⟨o, st, Std.TreeMap.mem_toList_iff_getElem?_eq_some.1 he, ?_, label, hlabel, rfl⟩
      rw [← Option.not_isSome_iff_eq_none, ← Std.TreeMap.contains_eq_isSome_getElem?]
      exact hc
  · rintro ⟨o, st, hst, hnone, label, hlabel, rfl⟩
    refine ⟨(o, st), Std.TreeMap.mem_toList_iff_getElem?_eq_some.2 hst, ?_⟩
    have hc : done.contains o = false := by
      rw [Std.TreeMap.contains_eq_isSome_getElem?, hnone]
      rfl
    dsimp only
    rw [hc]
    exact List.mem_map.2 ⟨label, hlabel, rfl⟩

end Input

theorem placed_of_tiles {code : Array UInt8} {entries : List (Int × Segment)} {pos : Int}
    (h : Tiles code pos entries) :
    placed pos (entries.map Prod.snd) = entries.flatMap fun e => e.2.labels.map (·, e.1) := by
  induction entries generalizing pos with
  | nil => rfl
  | cons entry rest ih =>
    obtain ⟨rfl, -, -, -, hr⟩ := h
    rw [List.map_cons, placed, ih hr, List.flatMap_cons]

theorem holds_of_tiles {code : Array UInt8} {entries : List (Int × Segment)} {pos : Int}
    (h : Tiles code pos entries) : ∀ e ∈ entries, ∃ bs, Holds bs e.2 :=
  fun e he => ⟨_, (mem_tiles h e he).2.2⟩

/-- Tiles with distinct labels that are not negative are written as the code, with each label
at the offset of its tile. -/
theorem write_of_tiles {code : Array UInt8} {entries : List (Int × Segment)}
    (h : Tiles code 0 entries) (hn : ((entries.map Prod.snd).flatMap Segment.labels).Nodup)
    (h0 : ∀ e ∈ entries, ∀ l ∈ e.2.labels, 0 ≤ l) (hl : ∀ e ∈ entries, e.2.Legible) :
    ∃ w, write (entries.map Prod.snd) = .ok w ∧ w.code = code.toList ∧
      ∀ e ∈ entries, ∀ l ∈ e.2.labels, w.offsets[l.toNat]? = some e.1 := by
  have hsize : ∀ s ∈ entries.map Prod.snd, s.size = .ok s.extent := by
    intro s hs
    obtain ⟨e, he, rfl⟩ := List.mem_map.1 hs
    obtain ⟨bs, hh⟩ := holds_of_tiles h e he
    exact size_of_holds hh
  obtain ⟨parts, hp, hflat⟩ := mapM_writeSegment_of_tiles (Int.le_refl 0) h hl
  rw [Cursor.span_whole] at hflat
  have htotal : total ((entries.map Prod.snd).map (·.extent)) = code.size :=
    (total_of_tiles h).trans (Int.sub_zero _)
  have hmem : ∀ x, x ∈ (placed 0 (entries.map Prod.snd)).reverse ↔
      ∃ e ∈ entries, ∃ l ∈ e.2.labels, x = (l, e.1) := by
    intro x
    rw [List.mem_reverse, placed_of_tiles h, List.mem_flatMap]
    refine exists_congr fun e => and_congr_right fun _ => ?_
    rw [List.mem_map]
    exact exists_congr fun l => and_congr_right fun _ => eq_comm
  obtain ⟨table, ht, hset, -⟩ := Placement.table_ok
    (p := ⟨(placed 0 (entries.map Prod.snd)).reverse,
      total ((entries.map Prod.snd).map (·.extent))⟩)
    (by
      intro x hx
      obtain ⟨e, he, l, hle, rfl⟩ := (hmem x).1 hx
      exact h0 e he l hle)
    (by
      rw [List.map_reverse, List.nodup_reverse, map_fst_placed]
      exact hn)
  refine ⟨⟨code.toList, table⟩, ?_, rfl, ?_⟩
  · unfold write
    rw [Placement.ofSegments_ok hsize hn]
    show ((entries.map Prod.snd).mapM writeSegment >>= fun parts => _) = _
    rw [hp]
    show (if (parts.flatten.length : Int) ≠ _ then _ else _) = _
    rw [hflat, htotal, if_neg (by simp)]
    show (Placement.table _ >>= fun table => _) = _
    rw [← htotal, ht]
    rfl
  · intro e he l hle
    exact hset (l, e.1) ((hmem (l, e.1)).2 ⟨e, he, l, hle, rfl⟩)

/-! ## Reading and writing -/

theorem mem_offsets_of_start (mode : Mode) {stored : Stored} {o : Int} {st : Start}
    (hst : (input mode stored).starts[o]? = some st) : o ∈ stored.offsets ∧ o ≠ -1 := by
  have charts : Charts (input mode stored).size stored.offsets (input mode stored).starts :=
    charts_starts _ _
  obtain ⟨hne, hlabels, hsome⟩ := charts.labels hst
  obtain ⟨l, hl⟩ := List.exists_mem_of_ne_nil _ hsome
  rw [hlabels] at hl
  exact ⟨List.mem_of_getElem? (mem_labelsAt.1 hl), hne⟩

/-- No start lies before the code if the label table has no negative offset but -1. -/
theorem low_starts (mode : Mode) {stored : Stored} (h : ∀ o ∈ stored.offsets, -1 ≤ o) {o : Int}
    {st : Start} (hst : (input mode stored).starts[o]? = some st) : 0 ≤ o := by
  obtain ⟨hmem, hne⟩ := mem_offsets_of_start mode hst
  have hle := h o hmem
  omega

theorem sound_entries (mode : Mode) (stored : Stored) (labels : List Int) :
    Sound (input mode stored) (entries labels) { todo := (input mode stored).starts } := by
  refine ⟨?_, id, ?_, ?_⟩
  · intro r hr
    obtain ⟨l, -, rfl⟩ := List.mem_map.1 hr
    exact SegmentKind.noConfusion
  · intro o seg hd
    rw [Std.TreeMap.getElem?_emptyc] at hd
    cases hd
  · exact fun n hn => absurd hn List.not_mem_nil

/-- The worklist works off every set of entry labels, or fails for code that cannot be read. -/
theorem follow_entries (mode : Mode) {stored : Stored} (h : ∀ o ∈ stored.offsets, -1 ≤ o)
    (labels : List Int) :
    (∃ p, Progress.follow (input mode stored) (entries labels)
        { todo := (input mode stored).starts } = .ok p ∧
      (input mode stored).Reads stored.offsets p.done ∧
      ∀ n ∈ p.notices.toList, IsFollowNotice n) ∨
    ∃ e, Progress.follow (input mode stored) (entries labels)
        { todo := (input mode stored).starts } = .error e ∧
      ((∃ position label cause, e = .unreadable position label cause) ∨ IsScanFault e) := by
  have charts : Charts (input mode stored).size stored.offsets (input mode stored).starts :=
    charts_starts _ _
  have low : ∀ {o : Int} {st : Start}, (input mode stored).starts[o]? = some st → 0 ≤ o :=
    low_starts mode h
  rcases Progress.follow_cases (preserves_sound charts low) _ _ (sound_entries mode stored labels)
    with ⟨p, hp, hsound⟩ | ⟨o, st, r, e, ⟨queue, p, hsound, -, -, -⟩, he, hf⟩
  · exact Or.inl ⟨p, hp, ⟨charts, low, hsound.done⟩, hsound.notices⟩
  · refine Or.inr ⟨e, hf, ?_⟩
    unfold Input.readAt at he
    split at he
    · cases he
    · next hk => exact absurd hk (hsound.queue r List.mem_cons_self)
    · exact (Input.readCode_error he).imp_right And.left

theorem mem_diagnostics_reading {s : Input} {p : Progress} {n : Notice} :
    { notice := n } ∈ (reading s p).diagnostics ↔
      n ∈ p.notices.toList ∨ n ∈ s.unplaced (s.fill p.done) := by
  unfold reading
  dsimp only
  rw [List.mem_map, ← List.mem_append]
  exact ⟨fun ⟨n', hn, he⟩ => by cases he; exact hn, fun hn => ⟨n, hn, rfl⟩⟩

/-- Reading succeeds where following references does: the sizes always agree. -/
theorem read_ok {mode : Mode} {stored : Stored} {queue : List Reference} {p : Progress}
    (hf : Progress.follow (input mode stored) queue { todo := (input mode stored).starts } = .ok p)
    (h : (input mode stored).Reads stored.offsets p.done) :
    read mode stored queue = .ok (reading (input mode stored) p) := by
  have hextent : extentOf (input mode stored) p = (input mode stored).size := by
    unfold extentOf reading
    rw [Offsets.values_eq]
    exact (total_of_tiles (tiles_fill h)).trans (Int.sub_zero _)
  rw [read_of_follow hf, conclude, if_pos hextent]

/-- What was read is what some progress of the worklist amounts to. -/
theorem exists_progress {mode : Mode} {stored : Stored} (h : ∀ o ∈ stored.offsets, -1 ≤ o)
    {labels : List Int} {r : Reading} (hr : read mode stored (entries labels) = .ok r) :
    ∃ p, Progress.follow (input mode stored) (entries labels)
        { todo := (input mode stored).starts } = .ok p ∧
      (input mode stored).Reads stored.offsets p.done ∧ r = reading (input mode stored) p := by
  rcases follow_entries mode h labels with ⟨p, hp, hreads, -⟩ | ⟨e, he, -⟩
  · rw [read_ok hp hreads] at hr
    exact ⟨p, hp, hreads, (Except.ok.inj hr).symm⟩
  · rw [read_error he] at hr
    cases hr

/-- The segments are written as the code, and a label of a segment keeps its offset. -/
theorem write_reading {mode : Mode} {stored : Stored} {p : Progress}
    (h : (input mode stored).Reads stored.offsets p.done)
    (hl : ∀ s ∈ (reading (input mode stored) p).segments, s.Legible) :
    ∃ w, write (reading (input mode stored) p).segments = .ok w ∧ w.code = stored.code ∧
      ∀ (o : Int) (seg : Segment), ((input mode stored).fill p.done)[o]? = some seg →
        ∀ l ∈ seg.labels, w.offsets[l.toNat]? = some o := by
  have mem : ∀ {e : Int × Segment}, e ∈ ((input mode stored).fill p.done).toList ↔
      ((input mode stored).fill p.done)[e.1]? = some e.2 :=
    Std.TreeMap.mem_toList_iff_getElem?_eq_some
  have hn := Input.nodup_labels_fill h
  unfold reading at hl ⊢
  dsimp only at hl ⊢
  rw [Offsets.values_eq] at hl hn ⊢
  obtain ⟨w, hw, hcode, hoffset⟩ := write_of_tiles (tiles_fill h) hn
    (by
      intro e he l hle
      rw [Input.labels_fill h (mem.1 he)] at hle
      obtain ⟨n, rfl, -⟩ := (Input.mem_labelsOf h.charts).1 hle
      exact Int.natCast_nonneg n)
    (fun e he => hl e.2 (List.mem_map_of_mem he))
  exact ⟨w, hw, hcode, fun o seg hseg l hle => hoffset (o, seg) (mem.2 hseg) l hle⟩

theorem keeps_reading {mode : Mode} {stored : Stored} {p : Progress}
    (h : (input mode stored).Reads stored.offsets p.done)
    (hnotices : ∀ n ∈ p.notices.toList, IsFollowNotice n) :
    Keeps stored (reading (input mode stored) p) := by
  constructor
  · intro expected got hn
    rcases mem_diagnostics_reading.1 hn with hn | hn
    · exact hnotices _ hn
    · obtain ⟨_, _, _, _, _, _, he⟩ := Input.mem_unplaced.1 hn
      cases he
  · intro label o hn
    rcases mem_diagnostics_reading.1 hn with hn | hn
    · exact (hnotices _ hn).elim
    · obtain ⟨o', st, hst, hnone, label', -, he⟩ := Input.mem_unplaced.1 hn
      cases he
      by_contra hlt
      obtain ⟨seg, hseg⟩ := Input.fill_start h hst (Int.not_le.1 hlt)
      rw [hnone] at hseg
      cases hseg
  · intro hlegible
    obtain ⟨w, hw, hcode, hoffset⟩ := write_reading h hlegible
    refine ⟨w, hw, hcode, fun label o hlabel hne => ?_⟩
    cases hseg : ((input mode stored).fill p.done)[o]? with
    | none =>
      obtain ⟨st, hst⟩ := h.charts.complete hlabel hne
      refine Or.inr (mem_diagnostics_reading.2 (Or.inr (Input.mem_unplaced.2
        ⟨o, st, hst, hseg, label, ?_, rfl⟩)))
      rw [(h.charts.labels hst).2.1]
      exact mem_labelsAt.2 hlabel
    | some seg =>
      have hl := (Input.mem_labelsOf h.charts).2 ⟨label, rfl, hlabel, hne⟩
      rw [← Input.labels_fill h hseg] at hl
      refine Or.inl ⟨List.count_eq_one_of_mem (Input.nodup_labels_fill h) ?_,
        hoffset o seg hseg _ hl⟩
      refine List.mem_flatMap.2 ⟨seg, ?_, hl⟩
      unfold reading
      dsimp only
      rw [Offsets.values_eq]
      exact List.mem_map_of_mem (Std.TreeMap.mem_toList_iff_getElem?_eq_some.2 hseg)

/-- No byte of the code is lost and no label that lies in it.  This holds for code and label
tables of any content, as long as no offset but -1 is negative, and in both modes. -/
theorem read_keeps (mode : Mode) (stored : Stored) (h : ∀ o ∈ stored.offsets, -1 ≤ o)
    (labels : List Int) :
    (∀ expected got, read mode stored (entries labels) ≠ .error (.codeSize expected got)) ∧
      ∀ r, read mode stored (entries labels) = .ok r → Keeps stored r := by
  rcases follow_entries mode h labels with ⟨p, hp, hreads, hnotices⟩ | ⟨e, he, hfault⟩
  · rw [read_ok hp hreads]
    refine ⟨fun _ _ => nofun, fun r hr => ?_⟩
    rw [← Except.ok.inj hr]
    exact keeps_reading hreads hnotices
  · rw [read_error he]
    refine ⟨fun expected got heq => ?_, fun r => nofun⟩
    rw [Except.error.inj heq] at hfault
    rcases hfault with ⟨_, _, _, he⟩ | he | ⟨_, he⟩
    · cases he
    · exact he
    · cases he

/-- A tail that is no instruction becomes data, and a label past the end is reported. -/
theorem read_keeps_broken_tail :
    (∀ o ∈ [0, -1, 2, 5], (-1 : Int) ≤ o) ∧
      ∃ r w, read .lenient ⟨[0x00, 0x01, 0xF9], [0, -1, 2, 5]⟩ (entries [0, 2]) = .ok r ∧
        (∀ s ∈ r.segments, s.Legible) ∧ write r.segments = .ok w ∧
        w.code = [0x00, 0x01, 0xF9] := by
  have h : ∀ o ∈ [0, -1, 2, 5], (-1 : Int) ≤ o := by decide
  have hr : read .lenient ⟨[0x00, 0x01, 0xF9], [0, -1, 2, 5]⟩ (entries [0, 2]) =
      .ok ⟨[.code [0] [{ opcode := .plain 0x00 "nop" [] }, { opcode := .plain 0x01 "ret" [] }],
          .data [2] [0xF9]],
        [{ notice := .unreadableInstruction (.unreadable 2 2 (.pastBound .read 1 1 1)) },
          { notice := .unplacedLabel 3 5 }]⟩ :=
    read_of_readWithin (n := 4) (by decide) (by decide +kernel)
  have hl : ∀ s ∈ [Segment.code [0] [{ opcode := .plain 0x00 "nop" [] },
      { opcode := .plain 0x01 "ret" [] }], .data [2] [0xF9]], s.Legible := by
    intro s hs
    rcases List.mem_cons.1 hs with rfl | hs
    · intro i hi a ha
      rcases List.mem_cons.1 hi with rfl | hi
      · exact absurd ha List.not_mem_nil
      · rw [List.mem_singleton.1 hi] at ha
        exact absurd ha List.not_mem_nil
    · rw [List.mem_singleton.1 hs]
      trivial
  obtain ⟨w, hw, hcode, -⟩ := ((read_keeps .lenient _ h [0, 2]).2 _ hr).written hl
  exact ⟨h, _, w, hr, hl, hw, hcode⟩

end ObjectCode
end QuestArchive
