import QuestArchive.Proofs.ObjectCode.Extents

/-!
# Scripts read from any label table

An offset of the label table may lie before the code, where positions count from its end.  The
bytes that are read there are counted a second time, so that the sizes of the segments add up to
more than the code has.  Reading strictly fails then: what it gives are segments that hold bytes
of the code, whatever the label table is.
-/

namespace QuestArchive
namespace ObjectCode

/-! ## Sizes of ranges -/

def rangeTotal (ranges : List (Int × Int)) : Int := total (ranges.map fun g => g.2 - g.1)

theorem total_append (front back : List Int) :
    total (front ++ back) = total front + total back := by
  induction front with
  | nil => exact (Int.zero_add _).symm
  | cons n front ih =>
    rw [List.cons_append, total, total, ih, Int.add_assoc]

theorem rangeTotal_append (front back : List (Int × Int)) :
    rangeTotal (front ++ back) = rangeTotal front + rangeTotal back := by
  unfold rangeTotal
  rw [List.map_append, total_append]

theorem rangeTotal_cons (g : Int × Int) (ranges : List (Int × Int)) :
    rangeTotal (g :: ranges) = g.2 - g.1 + rangeTotal ranges := rfl

/-- Ranges and the gaps between them take what lies between two bounds at least, and more if one
of them starts below the bound. -/
theorem rangeTotal_gaps {limit : Int} {covered : List (Int × Int)}
    (hc : ∀ c ∈ covered, c.1 ≤ c.2) (pos : Int) :
    limit - pos ≤ rangeTotal (gaps limit pos covered) + rangeTotal covered ∧
      ((∃ c ∈ covered, c.1 < pos ∧ c.1 < c.2) →
        limit - pos < rangeTotal (gaps limit pos covered) + rangeTotal covered) := by
  induction covered generalizing pos with
  | nil =>
    refine ⟨?_, fun h => absurd h.choose_spec.1 List.not_mem_nil⟩
    rw [gaps]
    split
    · rw [rangeTotal_cons]
      simp [rangeTotal, total]
    · simp [rangeTotal, total]
      omega
  | cons c covered ih =>
    obtain ⟨start, stop⟩ := c
    obtain ⟨hle, hrest⟩ := List.forall_mem_cons.1 hc
    obtain ⟨hat, habove⟩ := ih hrest (max pos stop)
    have hfirst :
        rangeTotal (if pos < start then [(pos, start)] else []) = max 0 (start - pos) := by
      split
      · rw [rangeTotal_cons]
        simp [rangeTotal, total]
        omega
      · simp [rangeTotal, total]
        omega
    rw [gaps, rangeTotal_append, rangeTotal_cons, hfirst]
    dsimp only at hle ⊢
    refine ⟨by omega, ?_⟩
    rintro ⟨c, hmem, hlow, hpos⟩
    rcases List.mem_cons.1 hmem with rfl | hmem
    · dsimp only at hlow hpos
      omega
    · have hlt := habove ⟨c, hmem, by omega, hpos⟩
      omega

theorem rangeTotal_zip (inside : List Int) (low high : Int) :
    rangeTotal ((low :: inside).zip (inside ++ [high])) = high - low := by
  induction inside generalizing low with
  | nil => exact Int.add_zero _
  | cons q inside ih =>
    rw [List.cons_append, List.zip_cons_cons, rangeTotal_cons, ih]
    dsimp only
    omega

theorem rangeTotal_cut (points : List Int) (ranges : List (Int × Int)) :
    rangeTotal (ranges.flatMap (cut points)) = rangeTotal ranges := by
  induction ranges with
  | nil => rfl
  | cons g ranges ih =>
    rw [List.flatMap_cons, rangeTotal_append, rangeTotal_cons, ih]
    exact congrArg (· + rangeTotal ranges) (rangeTotal_zip _ _ _)

/-! ## Sizes of segments -/

def segmentTotal (done : Std.TreeMap Int Segment) : Int :=
  total (done.toList.map fun entry => entry.2.extent)

theorem rangeTotal_covered (done : Std.TreeMap Int Segment) :
    rangeTotal (covered done) = segmentTotal done := by
  unfold rangeTotal covered segmentTotal
  rw [List.map_map]
  refine congrArg total (List.map_congr_left fun e _ => ?_)
  show e.1 + e.2.extent - e.1 = e.2.extent
  omega

theorem total_perm {sizes sizes' : List Int} (h : sizes.Perm sizes') :
    total sizes = total sizes' := by
  induction h with
  | nil => rfl
  | cons n _ ih => rw [total, total, ih]
  | swap n m sizes =>
    simp only [total]
    omega
  | trans _ _ ih ih' => exact ih.trans ih'

theorem total_filter {entries : List (Int × Segment)} {p : Int × Segment → Bool}
    (h : ∀ e ∈ entries, p e = false → e.2.extent = 0) :
    total ((entries.filter p).map fun e => e.2.extent) =
      total (entries.map fun e => e.2.extent) := by
  induction entries with
  | nil => rfl
  | cons e entries ih =>
    obtain ⟨he, hrest⟩ := List.forall_mem_cons.1 h
    rw [List.filter_cons]
    split
    · rw [List.map_cons, List.map_cons, total, total, ih hrest]
    · next hp =>
      rw [ih hrest, List.map_cons, total, he (Bool.eq_false_iff.2 hp), Int.zero_add]

theorem segmentTotal_insert {done : Std.TreeMap Int Segment} {o : Int}
    (h : ∀ old, done[o]? = some old → old.extent = 0) (seg : Segment) :
    segmentTotal (done.insert o seg) = seg.extent + segmentTotal done := by
  unfold segmentTotal
  rw [total_perm (Std.TreeMap.toList_insert_perm.map fun e : Int × Segment => e.2.extent),
    List.map_cons, total, total_filter]
  intro e he hp
  have hkey : o = e.1 := by simpa using hp
  exact h e.2 (hkey ▸ Std.TreeMap.mem_toList_iff_getElem?_eq_some.1 he)

theorem segmentTotal_foldl_insert {f : Int × Int → Segment} {ranges : List (Int × Int)}
    (hf : ∀ g ∈ ranges, (f g).extent = g.2 - g.1) (hne : ranges.Pairwise (·.1 ≠ ·.1))
    {done : Std.TreeMap Int Segment}
    (hd : ∀ g ∈ ranges, ∀ old, done[g.1]? = some old → old.extent = 0) :
    segmentTotal (ranges.foldl (fun done g => done.insert g.1 (f g)) done) =
      rangeTotal ranges + segmentTotal done := by
  induction ranges generalizing done with
  | nil => exact (Int.zero_add _).symm
  | cons g ranges ih =>
    obtain ⟨hfirst, hrest⟩ := List.pairwise_cons.1 hne
    obtain ⟨hfg, hfrest⟩ := List.forall_mem_cons.1 hf
    obtain ⟨hdg, hdrest⟩ := List.forall_mem_cons.1 hd
    rw [List.foldl_cons, ih hfrest hrest, segmentTotal_insert hdg, rangeTotal_cons, hfg]
    · omega
    · intro g' hg' old ho
      rw [Offsets.getElem?_insert, if_neg (hfirst g' hg')] at ho
      exact hdrest g' hg' old ho

/-! ## What was read at any offset -/

/-- What was read at an offset of the label table, be it before the code: there it holds bytes
of the code if it takes none. -/
structure Input.Stands (s : Input) (o : Int) (seg : Segment) : Prop where
  labels : seg.labels = s.labelsOf o
  labelled : seg.labels ≠ []
  extent : 0 ≤ seg.extent ∧ o ≤ s.size
  holds : 0 ≤ o ∨ seg.extent = 0 → ∃ bs, Holds bs seg

theorem readInstructions_ne_nil {c : Cursor} (h0 : c.remaining ≠ 0)
    (h : (readInstructions c).2 = none) : (readInstructions c).1 ≠ [] := by
  cases hr : readInstruction c with
  | ok i c' =>
    rw [readInstructions_ok h0 hr]
    exact List.cons_ne_nil _ _
  | error fault c' =>
    rw [readInstructions_error h0 hr] at h
    cases h

theorem total_pos {sizes : List Int} (h : ∀ n ∈ sizes, 0 < n) (hne : sizes ≠ []) :
    0 < total sizes := by
  obtain ⟨n, sizes, rfl⟩ := List.exists_cons_of_ne_nil hne
  obtain ⟨hn, hrest⟩ := List.forall_mem_cons.1 h
  have hsum := total_nonneg fun m hm => Int.le_of_lt (hrest m hm)
  rw [total]
  omega

theorem readCode_strict {code : Array UInt8} {o : Int} {st : Start} {next : Option Nat}
    {f : Finding} (h : readCode .strict code o st next = .ok f) :
    (readInstructions (.window code o st.stop)).2 = none := by
  unfold readCode at h
  dsimp only at h
  split at h
  · assumption
  · split at h
    · cases h
    · cases h

namespace Input

variable {s : Input} {offsets : List Int}

theorem stands_of_readAt (hm : s.mode = .strict) (hs : Charts s.size offsets s.starts) {o : Int}
    {st : Start} (hst : s.starts[o]? = some st) (ho : o ≤ s.size) {r : Reference}
    (hr : r.kind ≠ .text) {f : Finding} (h : s.readAt o st r = .ok f) : s.Stands o f.segment := by
  have hlabels : s.labelsOf o = st.names := by
    unfold labelsOf
    rw [hst]
    rfl
  have hnames : st.names ≠ [] := mt List.map_eq_nil_iff.1 (hs.labels hst).2.2
  have hextent := extent_of_readAt h
  by_cases h0 : 0 ≤ o
  · obtain ⟨st', hst', hl, -, hh⟩ := places_of_readAt hs hst h0 ho hr h
    rw [hst] at hst'
    cases hst'
    exact ⟨hl.trans hlabels.symm, hl ▸ hnames, ⟨hextent, ho⟩, fun _ => ⟨_, hh⟩⟩
  · unfold readAt at h
    split at h
    · cases h
      exact ⟨hlabels.symm, hnames, ⟨hextent, ho⟩, fun _ => ⟨_, rfl⟩⟩
    · next hk => exact absurd hk hr
    · rw [hm] at h
      obtain ⟨hseg, -, -⟩ := readCode_ok rfl h
      have hne : (Cursor.window s.code o st.stop).remaining ≠ 0 := by
        have hlt := hs.lt_stop hst (by omega)
        unfold Cursor.remaining Cursor.window
        dsimp only
        omega
      -- Instructions before the code take bytes, so nothing is claimed about what holds them.
      have hpos : 0 < f.segment.extent := by
        rw [hseg]
        refine total_pos (List.forall_mem_map.2 fun i hi =>
          (forall_readInstructions gives_readInstruction _ i hi).2) ?_
        exact mt List.map_eq_nil_iff.1 (readInstructions_ne_nil hne (readCode_strict h))
      refine ⟨?_, ?_, ⟨hextent, ho⟩, fun hor => by omega⟩
      · rw [hseg]
        exact hlabels.symm
      · rw [hseg]
        exact hnames

end Input

structure Counts (s : Input) (queue : List Reference) (p : Progress) : Prop where
  queue : ∀ r ∈ queue, r.kind ≠ .text
  todo : ∀ {o : Int} {st : Start}, p.todo[o]? = some st → s.starts[o]? = some st
  done : ∀ {o : Int} {seg : Segment}, p.done[o]? = some seg → s.Stands o seg

variable {s : Input} {offsets : List Int}

theorem preserves_counts (hm : s.mode = .strict) (hs : Charts s.size offsets s.starts) :
    Preserves s (Counts s) where
  unknown h _ := ⟨fun r hr => h.queue r (List.mem_cons_of_mem _ hr), h.todo, h.done⟩
  known h _ _ := ⟨fun r hr => h.queue r (List.mem_cons_of_mem _ hr), h.todo, h.done⟩
  past h _ _ _ := ⟨fun r hr => h.queue r (List.mem_cons_of_mem _ hr), h.todo, h.done⟩
  place := by
    intro r queue p o st f h _ ht ho hf
    obtain ⟨hr, hqueue⟩ := List.forall_mem_cons.1 h.queue
    constructor
    · exact List.forall_mem_append.2 ⟨hqueue, Input.references_of_readAt hr hf⟩
    · exact fun h' => h.todo (Progress.todo_of_place h').2
    · intro o' seg h'
      rcases Progress.done_of_place h' with ⟨rfl, rfl⟩ | h'
      · exact Input.stands_of_readAt hm hs (h.todo ht) ho hr hf
      · exact h.done h'

/-! ## Segments after filling -/

namespace Input

variable {done : Std.TreeMap Int Segment}
  (h : ∀ {o : Int} {seg : Segment}, done[o]? = some seg → s.Stands o seg)

include h

theorem extent_missing {g : Int × Int} (hg : g ∈ s.missing done) :
    (Segment.data (s.labelsOf g.1) (Cursor.span s.code g.1 g.2)).extent = g.2 - g.1 ∧
      g.1 < g.2 := by
  have hb := (completes_missing fun hd => (h hd).extent).bounds g hg
  have hend := s.extent_range (s.labelsOf g.1) hb
  exact ⟨by omega, hb.2.1⟩

theorem segmentTotal_fill :
    segmentTotal (s.fill done) =
      rangeTotal (gaps s.size 0 (covered done)) + segmentTotal done := by
  have hc := completes_missing fun hd => (h hd).extent
  rw [← rangeTotal_cut s.starts.keys]
  refine segmentTotal_foldl_insert (f := fun g => .data (s.labelsOf g.1)
    (Cursor.span s.code g.1 g.2)) (fun g hg => (extent_missing h hg).1)
    (distinct_missing fun hd => (h hd).extent) fun g hg old ho => ?_
  -- What stands at the start of a missing range takes none of it.
  have hb := (hc.bounds g hg).2.1
  have ha := hc.apart g hg (g.1, g.1 + old.extent)
    (List.mem_append_left _ (mem_covered.2 ⟨old, ho, rfl⟩))
  have hext := (h ho).extent.1
  dsimp only at ha
  omega

/-- A segment before the code that takes bytes makes the sizes disagree. -/
theorem lt_segmentTotal_fill {o : Int} {seg : Segment} (hd : done[o]? = some seg) (ho : o < 0)
    (hpos : 0 < seg.extent) : (s.size : Int) < segmentTotal (s.fill done) := by
  have hgaps := (@rangeTotal_gaps s.size (covered done) (fun c hc => by
    obtain ⟨seg', hd', he⟩ := mem_covered.1 hc
    have hext := (h hd').extent.1
    omega) 0).2 ⟨(o, o + seg.extent), mem_covered.2 ⟨seg, hd, rfl⟩, ho, by dsimp only; omega⟩
  rw [rangeTotal_covered] at hgaps
  rw [segmentTotal_fill h]
  omega

end Input

/-- Segments that a script can be made of: they hold bytes, no label is negative or in two of
them, and one without labels is data. -/
structure Placeable (segments : List Segment) : Prop where
  holds : ∀ s ∈ segments, ∃ bs, Holds bs s
  labels : ∀ s ∈ segments, ∀ l ∈ s.labels, 0 ≤ l
  distinct : (segments.flatMap Segment.labels).Nodup
  unlabelled : ∀ s ∈ segments, s.labels = [] → ∃ bs, s = .data [] bs ∧ bs ≠ []

/-- Filling gives such segments if their sizes agree with the code. -/
theorem placeable_fill {done : Std.TreeMap Int Segment} (hs : Charts s.size offsets s.starts)
    (h : ∀ {o : Int} {seg : Segment}, done[o]? = some seg → s.Stands o seg)
    (htotal : segmentTotal (s.fill done) = s.size) : Placeable (s.fill done).values := by
  have mem : ∀ seg ∈ (s.fill done).values, ∃ o,
      (∃ e, (o, e) ∈ s.missing done ∧ seg = .data (s.labelsOf o) (Cursor.span s.code o e)) ∨
        done[o]? = some seg := by
    intro seg hseg
    rw [Offsets.values_eq] at hseg
    obtain ⟨⟨o, seg⟩, he, rfl⟩ := List.mem_map.1 hseg
    exact ⟨o, ((Input.getElem?_fill_iff fun hd => (h hd).extent).1
      (Std.TreeMap.mem_toList_iff_getElem?_eq_some.1 he)).imp_right And.right⟩
  constructor
  · intro seg hseg
    obtain ⟨o, ⟨e, -, rfl⟩ | hd⟩ := mem seg hseg
    · exact ⟨_, rfl⟩
    · refine (h hd).holds ?_
      by_contra hnot
      have hext := (h hd).extent.1
      have hlt := Input.lt_segmentTotal_fill h hd (by omega) (by omega)
      omega
  · intro seg hseg l hl
    have hl : ∃ o, l ∈ s.labelsOf o := by
      obtain ⟨o, ⟨e, -, rfl⟩ | hd⟩ := mem seg hseg
      · exact ⟨o, hl⟩
      · exact ⟨o, (h hd).labels ▸ hl⟩
    obtain ⟨o, hl⟩ := hl
    obtain ⟨n, rfl, -⟩ := (Input.mem_labelsOf hs).1 hl
    exact Int.natCast_nonneg n
  · refine Input.nodup_labels hs fun hseg => ?_
    rcases (Input.getElem?_fill_iff fun hd => (h hd).extent).1 hseg with ⟨e, -, rfl⟩ | ⟨-, hd⟩
    · rfl
    · exact (h hd).labels
  · intro seg hseg hnil
    obtain ⟨o, ⟨e, hm, rfl⟩ | hd⟩ := mem seg hseg
    · have hnil : s.labelsOf o = [] := hnil
      obtain ⟨hext, hlt⟩ := Input.extent_missing h hm
      refine ⟨_, by rw [hnil], fun hspan => ?_⟩
      dsimp only [Segment.extent] at hext hlt
      rw [hspan, List.length_nil] at hext
      omega
    · exact absurd hnil (h hd).labelled

/-- Whatever the label table is, what was read strictly can be put into a script again. -/
theorem placeable_of_read {stored : Stored} {labels : List Int} {r : Reading}
    (hr : read .strict stored (entries labels) = .ok r) : Placeable r.segments := by
  have charts : Charts (input .strict stored).size stored.offsets (input .strict stored).starts :=
    charts_starts _ _
  unfold read at hr
  obtain ⟨p, hp, hr⟩ := bind_eq_ok_iff.1 hr
  have hcounts : Counts (input .strict stored) [] p := by
    refine Progress.inv_of_follow (preserves_counts rfl charts) ?_ hp
    have hsound := sound_entries .strict stored labels
    refine ⟨hsound.queue, hsound.todo, fun hd => ?_⟩
    rw [Std.TreeMap.getElem?_emptyc] at hd
    cases hd
  dsimp only at hr
  split at hr
  · next htotal =>
    cases hr
    refine placeable_fill (s := input .strict stored) charts hcounts.done ?_
    rw [Offsets.values_eq, List.map_map] at htotal
    exact htotal
  · cases hr

end ObjectCode
end QuestArchive
