import QuestArchive.Proofs.ObjectCode.Filling

/-!
# The segments of a filled map

After filling, every offset up to the end of the code lies in exactly one segment, and
every start in the code is where a segment begins.  Listed in the order of their offsets
the segments hold the code from its first byte to its last.
-/

namespace QuestArchive
namespace ObjectCode

theorem getElem?_foldl_insert {β : Type} (f : Int × Int → β) {ranges : List (Int × Int)}
    (h : ranges.Pairwise (·.1 ≠ ·.1)) (m : Std.TreeMap Int β) {o : Int} {v : β} :
    (ranges.foldl (fun m r => m.insert r.1 (f r)) m)[o]? = some v ↔
      (∃ r ∈ ranges, r.1 = o ∧ f r = v) ∨ ((∀ r ∈ ranges, r.1 ≠ o) ∧ m[o]? = some v) := by
  induction ranges generalizing m with
  | nil => simp
  | cons r ranges ih =>
    obtain ⟨hfirst, hrest⟩ := List.pairwise_cons.1 h
    rw [List.foldl_cons, ih hrest, Offsets.getElem?_insert]
    constructor
    · rintro (⟨r', hr', he, hv⟩ | ⟨hn, hv⟩)
      · exact Or.inl ⟨r', List.mem_cons_of_mem _ hr', he, hv⟩
      · split at hv
        · next he => exact Or.inl ⟨r, List.mem_cons_self, he, Option.some.inj hv⟩
        · next he =>
          refine Or.inr ⟨fun r' hr' => ?_, hv⟩
          rcases List.mem_cons.1 hr' with rfl | hr'
          · exact he
          · exact hn r' hr'
    · rintro (⟨r', hr', he, hv⟩ | ⟨hn, hv⟩)
      · rcases List.mem_cons.1 hr' with rfl | hr'
        · refine Or.inr ⟨fun r'' hr'' he' => hfirst r'' hr'' (he.trans he'.symm), ?_⟩
          rw [if_pos he, hv]
        · exact Or.inl ⟨r', hr', he, hv⟩
      · refine Or.inr ⟨fun r' hr' => hn r' (List.mem_cons_of_mem _ hr'), ?_⟩
        rw [if_neg (hn r List.mem_cons_self)]
        exact hv

def covered (done : Std.TreeMap Int Segment) : List (Int × Int) :=
  done.toList.map fun entry => (entry.1, entry.1 + entry.2.extent)

theorem mem_covered {done : Std.TreeMap Int Segment} {c : Int × Int} :
    c ∈ covered done ↔ ∃ seg, done[c.1]? = some seg ∧ c.2 = c.1 + seg.extent := by
  unfold covered
  rw [List.mem_map]
  constructor
  · rintro ⟨⟨o, seg⟩, hm, rfl⟩
    exact ⟨seg, Std.TreeMap.mem_toList_iff_getElem?_eq_some.1 hm, rfl⟩
  · rintro ⟨seg, hm, he⟩
    exact ⟨(c.1, seg), Std.TreeMap.mem_toList_iff_getElem?_eq_some.2 hm, by rw [← he]⟩

namespace Input

def missing (s : Input) (done : Std.TreeMap Int Segment) : List (Int × Int) :=
  (gaps s.size 0 (covered done)).flatMap (cut s.starts.keys)

def labelsOf (s : Input) (o : Int) : List Int := (s.starts[o]?).elim [] (·.names)

/-- What was read suits the code: segments are in their places, at starts in the code. -/
structure Reads (s : Input) (offsets : List Int) (done : Std.TreeMap Int Segment) : Prop where
  charts : Charts s.size offsets s.starts
  low : ∀ {o : Int} {st : Start}, s.starts[o]? = some st → 0 ≤ o
  places : ∀ {o : Int} {seg : Segment}, done[o]? = some seg → s.Places o seg ∧ o ≤ s.size

variable {s : Input} {offsets : List Int} {done : Std.TreeMap Int Segment}

theorem Reads.bounds (h : s.Reads offsets done) {o : Int} {seg : Segment}
    (hd : done[o]? = some seg) : 0 ≤ o ∧ 0 ≤ seg.extent ∧ o + seg.extent ≤ s.size := by
  obtain ⟨⟨st, hst, -, hle, hh⟩, ho⟩ := h.places hd
  have hext := extent_of_holds hh
  have hstop := h.charts.stop_le hst
  exact ⟨h.low hst, by omega, Int.le_trans hle hstop⟩

theorem Reads.apart (h : s.Reads offsets done) {o o' : Int} {seg : Segment} {st' : Start}
    (hd : done[o]? = some seg) (hst' : s.starts[o']? = some st') (hlt : o < o') :
    o + seg.extent ≤ o' := by
  obtain ⟨⟨st, hst, -, hle, -⟩, -⟩ := h.places hd
  exact Int.le_trans hle (h.charts.stop_le_next hst hst' hlt)

theorem Reads.start (h : s.Reads offsets done) {o : Int} {seg : Segment}
    (hd : done[o]? = some seg) : ∃ st, s.starts[o]? = some st := by
  obtain ⟨⟨st, hst, -⟩, -⟩ := h.places hd
  exact ⟨st, hst⟩

theorem completes_covered (h : ∀ {o : Int} {seg : Segment}, done[o]? = some seg →
      0 ≤ seg.extent ∧ o ≤ s.size) :
    Completes 0 s.size (covered done) (gaps s.size 0 (covered done)) := by
  refine completes_gaps ?_ 0 ?_
  · exact List.pairwise_map.2 ((Offsets.sorted_toList done).imp Int.le_of_lt)
  · intro c hc
    obtain ⟨seg, hd, he⟩ := mem_covered.1 hc
    have hb := h hd
    omega

/-- The missing ranges lie between the segments of a map, cut at the starts. -/
theorem completes_missing (h : ∀ {o : Int} {seg : Segment}, done[o]? = some seg →
      0 ≤ seg.extent ∧ o ≤ s.size) :
    Completes 0 s.size (covered done ++ s.starts.keys.map fun q => (q, q)) (s.missing done) :=
  (completes_covered h).flatMap_cut (Offsets.sorted_keys s.starts)

theorem distinct_missing (h : ∀ {o : Int} {seg : Segment}, done[o]? = some seg →
      0 ≤ seg.extent ∧ o ≤ s.size) : (s.missing done).Pairwise (·.1 ≠ ·.1) := by
  have hc := completes_missing h
  refine hc.ordered.imp_of_mem fun {g g'} hg _ hle => ?_
  have hb := (hc.bounds g hg).2.1
  omega

/-- What stands at an offset after filling: a missing range as data, or what stood there. -/
theorem getElem?_fill_iff (h : ∀ {o : Int} {seg : Segment}, done[o]? = some seg →
      0 ≤ seg.extent ∧ o ≤ s.size) {o : Int} {seg : Segment} :
    (s.fill done)[o]? = some seg ↔
      (∃ e, (o, e) ∈ s.missing done ∧ seg = .data (s.labelsOf o) (Cursor.span s.code o e)) ∨
        ((∀ e, (o, e) ∉ s.missing done) ∧ done[o]? = some seg) := by
  refine (getElem?_foldl_insert (fun range => Segment.data (s.labelsOf range.1)
    (Cursor.span s.code range.1 range.2)) (distinct_missing h) done).trans
    (or_congr ?_ (and_congr ?_ Iff.rfl))
  · constructor
    · rintro ⟨⟨o', e⟩, hr, rfl, hv⟩
      exact ⟨e, hr, hv.symm⟩
    · rintro ⟨e, hr, hv⟩
      exact ⟨(o, e), hr, rfl, hv.symm⟩
  · constructor
    · exact fun hn e hr => hn (o, e) hr rfl
    · rintro hn ⟨o', e⟩ hr rfl
      exact hn e hr

theorem Reads.extent (h : s.Reads offsets done) {o : Int} {seg : Segment}
    (hd : done[o]? = some seg) : 0 ≤ seg.extent ∧ o ≤ s.size :=
  ⟨(h.bounds hd).2.1, (h.places hd).2⟩

theorem Reads.completes (h : s.Reads offsets done) :
    Completes 0 s.size (covered done ++ s.starts.keys.map fun q => (q, q)) (s.missing done) :=
  completes_missing h.extent

theorem getElem?_fill (h : s.Reads offsets done) {o : Int} {seg : Segment} :
    (s.fill done)[o]? = some seg ↔
      (∃ e, (o, e) ∈ s.missing done ∧ seg = .data (s.labelsOf o) (Cursor.span s.code o e)) ∨
        ((∀ e, (o, e) ∉ s.missing done) ∧ done[o]? = some seg) :=
  getElem?_fill_iff h.extent

theorem exists_fill_of_done (h : s.Reads offsets done) {o : Int} {seg : Segment}
    (hd : done[o]? = some seg) : ∃ seg', (s.fill done)[o]? = some seg' := by
  by_cases hm : ∃ e, (o, e) ∈ s.missing done
  · obtain ⟨e, hm⟩ := hm
    exact ⟨_, (getElem?_fill h).2 (Or.inl ⟨e, hm, rfl⟩)⟩
  · exact ⟨seg, (getElem?_fill h).2 (Or.inr ⟨fun e he => hm ⟨e, he⟩, hd⟩)⟩

theorem exists_fill_of_missing (h : s.Reads offsets done) {o e : Int}
    (hm : (o, e) ∈ s.missing done) : ∃ seg, (s.fill done)[o]? = some seg :=
  ⟨_, (getElem?_fill h).2 (Or.inl ⟨e, hm, rfl⟩)⟩

/-- What a place in the code belongs to: a segment that was read, or a missing range. -/
theorem Reads.cover (h : s.Reads offsets done) {x : Int} (h0 : 0 ≤ x) (hx : x < s.size) :
    (∃ o seg, done[o]? = some seg ∧ o ≤ x ∧ x < o + seg.extent) ∨
      ∃ g ∈ s.missing done, g.1 ≤ x ∧ x < g.2 := by
  refine (h.completes.cover x h0 hx).imp_left ?_
  rintro ⟨c, hc, hcx⟩
  rcases List.mem_append.1 hc with hc | hc
  · obtain ⟨seg, hd, he⟩ := mem_covered.1 hc
    exact ⟨c.1, seg, hd, hcx.1, by omega⟩
  · obtain ⟨q, -, rfl⟩ := List.mem_map.1 hc
    exact absurd hcx.2 (Int.not_lt.2 hcx.1)

theorem Reads.missing_apart (h : s.Reads offsets done) {g : Int × Int}
    (hg : g ∈ s.missing done) {o : Int} {seg : Segment} (hd : done[o]? = some seg) :
    g.2 ≤ o ∨ o + seg.extent ≤ g.1 :=
  h.completes.apart g hg (o, o + seg.extent)
    (List.mem_append_left _ (mem_covered.2 ⟨seg, hd, rfl⟩))

theorem Reads.missing_start (h : s.Reads offsets done) {g : Int × Int}
    (hg : g ∈ s.missing done) {o : Int} {st : Start} (hst : s.starts[o]? = some st) :
    g.2 ≤ o ∨ o ≤ g.1 := by
  refine h.completes.apart g hg (o, o) (List.mem_append_right _ (List.mem_map.2 ⟨o, ?_, rfl⟩))
  rw [Std.TreeMap.mem_keys, Std.TreeMap.mem_iff_isSome_getElem?, hst]
  rfl

theorem Reads.missing_ordered (h : s.Reads offsets done) {g g' : Int × Int}
    (hg : g ∈ s.missing done) (hg' : g' ∈ s.missing done) : g = g' ∨ g.2 ≤ g'.1 ∨ g'.2 ≤ g.1 := by
  exact List.Pairwise.forall_of_forall_of_flip (R := fun a b => a = b ∨ a.2 ≤ b.1 ∨ b.2 ≤ a.1)
    (fun _ _ => Or.inl rfl) (h.completes.ordered.imp fun hle => Or.inr (Or.inl hle))
    (h.completes.ordered.imp fun hle => Or.inr (Or.inr hle)) hg hg'

/-- Filling keeps a segment that was read, if it does not end where it begins. -/
theorem fill_of_done (h : s.Reads offsets done) {o : Int} {seg : Segment}
    (hd : done[o]? = some seg) (hpos : o < s.size → 0 < seg.extent) :
    (s.fill done)[o]? = some seg := by
  refine (getElem?_fill h).2 (Or.inr ⟨fun e he => ?_, hd⟩)
  have hb := h.completes.bounds _ he
  have ha := h.missing_apart he hd
  dsimp only at hb ha
  omega

/-! ## Where segments begin and end -/

theorem extent_range (s : Input) (labels : List Int) {o e : Int}
    (h : 0 ≤ o ∧ o < e ∧ e ≤ s.size) :
    o + (Segment.data labels (Cursor.span s.code o e)).extent = e := by
  obtain ⟨h0, hlt, hle⟩ := h
  have hlen : (Segment.data labels (Cursor.span s.code o e)).extent = e - o :=
    Cursor.length_span h0 (Int.le_of_lt hlt) hle
  omega

theorem holds_fill (h : s.Reads offsets done) {o : Int} {seg : Segment}
    (hf : (s.fill done)[o]? = some seg) :
    0 ≤ o ∧ 0 ≤ seg.extent ∧ o + seg.extent ≤ s.size ∧
      Holds (Cursor.span s.code o (o + seg.extent)) seg := by
  rcases (getElem?_fill h).1 hf with ⟨e, hm, rfl⟩ | ⟨-, hd⟩
  · have hb : 0 ≤ o ∧ o < e ∧ e ≤ s.size := h.completes.bounds _ hm
    have hend := s.extent_range (s.labelsOf o) hb
    rw [hend]
    exact ⟨hb.1, by omega, hb.2.2, rfl⟩
  · obtain ⟨h0, hext, hle⟩ := h.bounds hd
    obtain ⟨⟨st, -, -, -, hh⟩, -⟩ := h.places hd
    exact ⟨h0, hext, hle, hh⟩

theorem labels_fill (h : s.Reads offsets done) {o : Int} {seg : Segment}
    (hf : (s.fill done)[o]? = some seg) : seg.labels = s.labelsOf o := by
  rcases (getElem?_fill h).1 hf with ⟨e, -, rfl⟩ | ⟨-, hd⟩
  · rfl
  · obtain ⟨⟨st, hst, hl, -⟩, -⟩ := h.places hd
    rw [hl, labelsOf, hst]
    rfl

/-- The range of a segment after filling: a missing one, or that of a segment read. -/
theorem fill_cases (h : s.Reads offsets done) {o : Int} {seg : Segment}
    (hf : (s.fill done)[o]? = some seg) :
    (o, o + seg.extent) ∈ s.missing done ∨
      (∀ e, (o, e) ∉ s.missing done) ∧ done[o]? = some seg := by
  refine ((getElem?_fill h).1 hf).imp_left ?_
  rintro ⟨e, hm, rfl⟩
  rwa [s.extent_range (s.labelsOf o) (h.completes.bounds _ hm)]

theorem Reads.done_apart (h : s.Reads offsets done) {o o' : Int} {seg seg' : Segment}
    (hd : done[o]? = some seg) (hd' : done[o']? = some seg') (hlt : o < o') :
    o + seg.extent ≤ o' := by
  obtain ⟨st', hst'⟩ := h.start hd'
  exact h.apart hd hst' hlt

/-- After filling, a segment without extent can lie at the end of the code only. -/
theorem fill_pos (h : s.Reads offsets done) {o : Int} {seg : Segment}
    (hf : (s.fill done)[o]? = some seg) (hlt : o < s.size) : 0 < seg.extent := by
  obtain ⟨h0, hext, -, -⟩ := holds_fill h hf
  rcases fill_cases h hf with hm | ⟨hn, hd⟩
  · have hb := h.completes.bounds _ hm
    dsimp only at hb
    omega
  · by_contra hz
    rcases h.cover h0 hlt with ⟨o', seg', hd', hl, hr⟩ | ⟨g, hg, hl, hr⟩
    · rcases Int.lt_or_eq_of_le hl with hlt' | rfl
      · have ha := h.done_apart hd' hd hlt'
        omega
      · rw [hd] at hd'
        cases hd'
        omega
    · have ha := h.missing_apart hg hd
      have heq : g.1 = o := by omega
      exact hn g.2 (heq ▸ hg)

theorem fill_next (h : s.Reads offsets done) {o : Int} {seg : Segment}
    (hf : (s.fill done)[o]? = some seg) (hlt : o + seg.extent < s.size) :
    ∃ seg', (s.fill done)[o + seg.extent]? = some seg' := by
  obtain ⟨h0, hext, -, -⟩ := holds_fill h hf
  rcases h.cover (x := o + seg.extent) (by omega) hlt with ⟨o', seg', hd', hl, hr⟩ | ⟨g, hg, hl, hr⟩
  · -- The segment over the end can only begin there.
    have heq : o' = o + seg.extent := by
      rcases fill_cases h hf with hm | ⟨-, hd⟩
      · have ha := h.missing_apart hm hd'
        omega
      · rcases Int.lt_trichotomy o o' with hlt' | rfl | hlt'
        · have ha := h.done_apart hd hd' hlt'
          omega
        · rw [hd] at hd'
          cases hd'
          omega
        · have ha := h.done_apart hd' hd hlt'
          omega
    rw [← heq]
    exact exists_fill_of_done h hd'
  · have heq : g.1 = o + seg.extent := by
      rcases fill_cases h hf with hm | ⟨-, hd⟩
      · rcases h.missing_ordered hm hg with rfl | hle | hle
        · dsimp only at hr
          omega
        · dsimp only at hle
          omega
        · dsimp only at hle
          omega
      · have ha := h.missing_apart hg hd
        omega
    rw [← heq]
    exact exists_fill_of_missing h hg

theorem fill_apart (h : s.Reads offsets done) {o o' : Int} {seg seg' : Segment}
    (hf : (s.fill done)[o]? = some seg) (hf' : (s.fill done)[o']? = some seg') (hlt : o < o') :
    o + seg.extent ≤ o' := by
  have hext := (holds_fill h hf).2.1
  have hext' := (holds_fill h hf').2.1
  rcases fill_cases h hf with hm | ⟨-, hd⟩
  · rcases fill_cases h hf' with hm' | ⟨-, hd'⟩
    · rcases h.missing_ordered hm hm' with he | hle | hle
      · exact absurd (congrArg Prod.fst he) (Int.ne_of_lt hlt)
      · exact hle
      · dsimp only at hle
        omega
    · have ha := h.missing_apart hm hd'
      dsimp only at ha
      omega
  · rcases fill_cases h hf' with hm' | ⟨-, hd'⟩
    · have ha := h.missing_apart hm' hd
      have hb := h.completes.bounds _ hm'
      dsimp only at ha hb
      omega
    · exact h.done_apart hd hd' hlt

theorem fill_start (h : s.Reads offsets done) {o : Int} {st : Start}
    (hst : s.starts[o]? = some st) (hlt : o < s.size) : ∃ seg, (s.fill done)[o]? = some seg := by
  rcases h.cover (h.low hst) hlt with ⟨o', seg', hd', hl, hr⟩ | ⟨g, hg, hl, hr⟩
  · have heq : o' = o := by
      by_contra hne
      have ha := h.apart hd' hst (by omega)
      omega
    rw [← heq]
    exact exists_fill_of_done h hd'
  · have heq : g.1 = o := by
      have ha := h.missing_start hg hst
      omega
    rw [← heq]
    exact exists_fill_of_missing h hg

theorem fill_first (h : s.Reads offsets done) (hlt : 0 < (s.size : Int)) :
    ∃ seg, (s.fill done)[(0 : Int)]? = some seg := by
  rcases h.cover (Int.le_refl 0) hlt with ⟨o', seg', hd', hl, hr⟩ | ⟨g, hg, hl, hr⟩
  · have heq : o' = 0 := by
      have hb := h.bounds hd'
      omega
    rw [← heq]
    exact exists_fill_of_done h hd'
  · have heq : g.1 = 0 := by
      have hb := h.completes.bounds g hg
      omega
    rw [← heq]
    exact exists_fill_of_missing h hg

end Input

/-! ## Tilings -/

/-- Segments with their offsets hold the bytes from a position on, one behind the other up to
the end. -/
def Tiles (code : Array UInt8) : Int → List (Int × Segment) → Prop
  | pos, [] => pos = code.size
  | pos, (o, seg) :: rest => o = pos ∧ 0 ≤ seg.extent ∧ pos + seg.extent ≤ code.size ∧
      Holds (Cursor.span code pos (pos + seg.extent)) seg ∧ Tiles code (pos + seg.extent) rest

/-- Segments in the order of their offsets tile the code if each begins where one ends. -/
theorem tiles_of_sorted {code : Array UInt8} {entries : List (Int × Segment)}
    (hs : entries.Pairwise (·.1 < ·.1)) {pos : Int} (hp : pos ≤ code.size)
    (hfirst : pos < code.size → ∃ seg, (pos, seg) ∈ entries)
    (hlow : ∀ e ∈ entries, pos ≤ e.1)
    (hh : ∀ e ∈ entries, 0 ≤ e.2.extent ∧ e.1 + e.2.extent ≤ code.size ∧
      Holds (Cursor.span code e.1 (e.1 + e.2.extent)) e.2)
    (hpos : ∀ e ∈ entries, e.1 < code.size → 0 < e.2.extent)
    (hnext : ∀ e ∈ entries, e.1 + e.2.extent < code.size →
      ∃ seg, (e.1 + e.2.extent, seg) ∈ entries)
    (hapart : ∀ e ∈ entries, ∀ e' ∈ entries, e.1 < e'.1 → e.1 + e.2.extent ≤ e'.1) :
    Tiles code pos entries := by
  induction entries generalizing pos with
  | nil =>
    show pos = code.size
    by_contra hne
    obtain ⟨seg, hseg⟩ := hfirst (by omega)
    exact List.not_mem_nil hseg
  | cons entry rest ih =>
    obtain ⟨o, seg⟩ := entry
    obtain ⟨hlt, hrest⟩ := List.pairwise_cons.1 hs
    have hmem : (o, seg) ∈ (o, seg) :: rest := List.mem_cons_self
    obtain ⟨hext, hle, hseg⟩ := hh _ hmem
    have hge := hlow _ hmem
    dsimp only at hext hle hseg hge
    have heq : o = pos := by
      by_contra hne
      obtain ⟨seg', hseg'⟩ := hfirst (by omega)
      rcases List.mem_cons.1 hseg' with he | hm
      · exact hne (congrArg Prod.fst he).symm
      · have hl := hlt _ hm
        dsimp only at hl
        omega
    subst heq
    -- Whatever begins behind this segment is among the rest.
    have hbehind : ∀ e : Int × Segment, e ∈ (o, seg) :: rest → o < e.1 → e ∈ rest := by
      intro e he hoe
      rcases List.mem_cons.1 he with rfl | he
      · exact absurd hoe (Int.lt_irrefl _)
      · exact he
    refine ⟨rfl, hext, hle, hseg, ih hrest hle ?_ ?_ ?_ ?_ ?_ ?_⟩
    · intro hlt'
      obtain ⟨seg', hseg'⟩ := hnext _ hmem hlt'
      have hp' := hpos _ hmem (by dsimp only; omega)
      exact ⟨seg', hbehind _ hseg' (by dsimp only at hp' ⊢; omega)⟩
    · exact fun e he => hapart _ hmem e (List.mem_cons_of_mem _ he) (hlt e he)
    · exact fun e he => hh e (List.mem_cons_of_mem _ he)
    · exact fun e he => hpos e (List.mem_cons_of_mem _ he)
    · intro e he hlt'
      obtain ⟨seg', hseg'⟩ := hnext e (List.mem_cons_of_mem _ he) hlt'
      have hoe := hlt e he
      have hext' := (hh e (List.mem_cons_of_mem _ he)).1
      exact ⟨seg', hbehind _ hseg' (by dsimp only at hoe ⊢; omega)⟩
    · exact fun e he e' he' =>
        hapart e (List.mem_cons_of_mem _ he) e' (List.mem_cons_of_mem _ he')

theorem tiles_fill {s : Input} {offsets : List Int} {done : Std.TreeMap Int Segment}
    (h : s.Reads offsets done) : Tiles s.code 0 (s.fill done).toList := by
  have mem : ∀ {o : Int} {seg : Segment}, (o, seg) ∈ (s.fill done).toList ↔
      (s.fill done)[o]? = some seg := Std.TreeMap.mem_toList_iff_getElem?_eq_some
  refine tiles_of_sorted (Offsets.sorted_toList _) (by omega) ?_ ?_ ?_ ?_ ?_ ?_
  · intro hlt
    obtain ⟨seg, hseg⟩ := Input.fill_first h hlt
    exact ⟨seg, mem.2 hseg⟩
  · exact fun e he => (Input.holds_fill h (mem.1 he)).1
  · exact fun e he => (Input.holds_fill h (mem.1 he)).2
  · exact fun e he hlt => Input.fill_pos h (mem.1 he) hlt
  · intro e he hlt
    obtain ⟨seg, hseg⟩ := Input.fill_next h (mem.1 he) hlt
    exact ⟨seg, mem.2 hseg⟩
  · exact fun e he e' he' hlt => Input.fill_apart h (mem.1 he) (mem.1 he') hlt

theorem mem_tiles {code : Array UInt8} {entries : List (Int × Segment)} {pos : Int}
    (h : Tiles code pos entries) : ∀ e ∈ entries, pos ≤ e.1 ∧ e.1 + e.2.extent ≤ code.size ∧
      Holds (Cursor.span code e.1 (e.1 + e.2.extent)) e.2 := by
  induction entries generalizing pos with
  | nil => exact fun e he => absurd he List.not_mem_nil
  | cons entry rest ih =>
    obtain ⟨rfl, hext, hle, hh, hr⟩ := h
    intro e he
    rcases List.mem_cons.1 he with rfl | he
    · exact ⟨Int.le_refl _, hle, hh⟩
    · obtain ⟨hlow, hhigh⟩ := ih hr e he
      exact ⟨by omega, hhigh⟩

theorem cover_of_tiles {code : Array UInt8} {entries : List (Int × Segment)} {pos : Int}
    (h : Tiles code pos entries) {x : Int} (hl : pos ≤ x) (hx : x < code.size) :
    ∃ e ∈ entries, e.1 ≤ x ∧ x < e.1 + e.2.extent := by
  induction entries generalizing pos with
  | nil =>
    have he : pos = code.size := h
    omega
  | cons entry rest ih =>
    obtain ⟨rfl, -, -, -, hr⟩ := h
    by_cases hin : x < entry.1 + entry.2.extent
    · exact ⟨entry, List.mem_cons_self, hl, hin⟩
    · obtain ⟨e, he, hex⟩ := ih hr (Int.not_lt.1 hin)
      exact ⟨e, List.mem_cons_of_mem _ he, hex⟩

theorem total_of_tiles {code : Array UInt8} {entries : List (Int × Segment)} {pos : Int}
    (h : Tiles code pos entries) :
    total ((entries.map Prod.snd).map (·.extent)) = code.size - pos := by
  induction entries generalizing pos with
  | nil =>
    have he : pos = code.size := h
    simp only [List.map_nil, total]
    omega
  | cons entry rest ih =>
    obtain ⟨-, -, -, -, hr⟩ := h
    simp only [List.map_cons, total, ih hr]
    omega

theorem mapM_writeSegment_of_tiles {code : Array UInt8} {entries : List (Int × Segment)}
    {pos : Int} (h0 : 0 ≤ pos) (h : Tiles code pos entries) (hl : ∀ e ∈ entries, e.2.Legible) :
    ∃ parts, (entries.map Prod.snd).mapM writeSegment = .ok parts ∧
      parts.flatten = Cursor.span code pos code.size := by
  induction entries generalizing pos with
  | nil =>
    have he : pos = code.size := h
    refine ⟨[], rfl, ?_⟩
    rw [he, Cursor.span_self (by omega) (Int.le_refl _)]
    rfl
  | cons entry rest ih =>
    obtain ⟨-, hext, hle, hseg, hr⟩ := h
    obtain ⟨parts, hp, hflat⟩ := ih (by omega) hr fun e he => hl e (List.mem_cons_of_mem _ he)
    refine ⟨Cursor.span code pos (pos + entry.2.extent) :: parts, ?_, ?_⟩
    · rw [List.map_cons, List.mapM_cons,
        writeSegment_of_holds hseg (hl entry List.mem_cons_self)]
      show (_ >>= fun parts => _) = _
      rw [hp]
      rfl
    · rw [List.flatten_cons, hflat, Cursor.span_append h0 (by omega) hle (Int.le_refl _)]

end ObjectCode
end QuestArchive
