import Mathlib.Data.List.Sort
import QuestArchive.Proofs.ObjectCode.Laying
import QuestArchive.Proofs.ObjectCode.Tracing

/-!
# Reading written segments

Where the code and the label table are those of regular segments, a reference to code finds
just the code segment that its label names, and one to data just the data segment.
-/

namespace QuestArchive
namespace ObjectCode

/-- What is read was written from some segments. -/
structure Lays (s : Input) (offsets : List Int) (segments : List Segment) : Prop where
  regular : Regular segments
  tiles : Tiles s.code 0 (laid 0 segments)
  pos : ∀ seg ∈ segments, 0 < seg.extent
  table : ∀ (n : Nat) (o : Int), offsets[n]? = some o ∧ o ≠ -1 ↔
    ∃ seg, (o, seg) ∈ laid 0 segments ∧ (n : Int) ∈ seg.labels
  charts : Charts s.size offsets s.starts
  offsets : s.offsets = offsets.toArray

namespace Lays

variable {s : Input} {offsets : List Int} {segments : List Segment}

theorem size (h : Lays s offsets segments) : total (segments.map (·.extent)) = s.size := by
  have ht := total_of_tiles h.tiles
  rw [map_snd_laid] at ht
  exact ht.trans (Int.sub_zero _)

theorem bounds (h : Lays s offsets segments) {o : Int} {seg : Segment}
    (hl : (o, seg) ∈ laid 0 segments) : 0 ≤ o ∧ 0 < seg.extent ∧ o + seg.extent ≤ s.size ∧
      Holds (Cursor.span s.code o (o + seg.extent)) seg := by
  obtain ⟨hlow, hhigh, hh⟩ := mem_tiles h.tiles _ hl
  exact ⟨hlow, h.pos seg (mem_of_laid hl), hhigh, hh⟩

theorem start (h : Lays s offsets segments) {o : Int} :
    (∃ st, s.starts[o]? = some st) ↔ ∃ seg, (o, seg) ∈ laid 0 segments := by
  constructor
  · intro hst
    obtain ⟨st, hst⟩ := hst
    obtain ⟨hne, hlabels, hsome⟩ := h.charts.labels hst
    obtain ⟨n, hn⟩ := List.exists_mem_of_ne_nil _ hsome
    rw [hlabels] at hn
    obtain ⟨seg, hl, -⟩ := (h.table n o).1 ⟨mem_labelsAt.1 hn, hne⟩
    exact ⟨seg, hl⟩
  · intro hl
    obtain ⟨seg, hl⟩ := hl
    obtain ⟨hsome, -, hnonneg⟩ := h.regular.labels seg (mem_of_laid hl)
    obtain ⟨l, hmem⟩ := List.exists_mem_of_ne_nil _ hsome
    have hn : (l.toNat : Int) = l := Int.toNat_of_nonneg (hnonneg l hmem)
    obtain ⟨ho, hne⟩ := (h.table l.toNat o).2 ⟨seg, hl, by rw [hn]; exact hmem⟩
    exact h.charts.complete ho hne

theorem names (h : Lays s offsets segments) {o : Int} {seg : Segment} {st : Start}
    (hl : (o, seg) ∈ laid 0 segments) (hst : s.starts[o]? = some st) : st.names = seg.labels := by
  obtain ⟨-, hlabels, -⟩ := h.charts.labels hst
  obtain ⟨-, hsorted, hnonneg⟩ := h.regular.labels seg (mem_of_laid hl)
  have hnames : st.names.Pairwise (· < ·) := by
    unfold Start.names
    rw [hlabels]
    refine List.pairwise_map.2 ((sorted_labelsAt offsets o).imp ?_)
    intro a b hab
    omega
  refine hnames.eq_of_mem_iff hsorted fun l => ?_
  unfold Start.names
  rw [hlabels, List.mem_map]
  constructor
  · intro hmem
    obtain ⟨n, hn, rfl⟩ := hmem
    have hne := (h.bounds hl).1
    obtain ⟨seg', hl', hin⟩ := (h.table n o).1 ⟨mem_labelsAt.1 hn, by omega⟩
    rwa [eq_of_laid h.pos hl hl']
  · intro hmem
    have hn : (l.toNat : Int) = l := Int.toNat_of_nonneg (hnonneg l hmem)
    exact ⟨l.toNat, mem_labelsAt.2 ((h.table l.toNat o).2 ⟨seg, hl, by rw [hn]; exact hmem⟩).1, hn⟩

theorem stop (h : Lays s offsets segments) {o : Int} {seg : Segment} {st : Start}
    (hl : (o, seg) ∈ laid 0 segments) (hst : s.starts[o]? = some st) :
    st.stop = o + seg.extent := by
  obtain ⟨-, hpos, hle, -⟩ := h.bounds hl
  have hsize := h.size
  have hlt := h.charts.lt_stop hst (by omega)
  have hge : o + seg.extent ≤ st.stop := by
    rcases h.charts.stop_start hst with he | hnext
    · omega
    · obtain ⟨seg', hl'⟩ := h.start.1 hnext
      exact apart_of_laid h.pos hl hl' hlt
  have hle' : st.stop ≤ o + seg.extent := by
    rcases laid_cases hl with he | ⟨_, t, _, _, ht⟩
    · have hstop := h.charts.stop_le hst
      omega
    · obtain ⟨st', hst'⟩ := h.start.2 ⟨t, ht⟩
      exact h.charts.stop_le_next hst hst' (by omega)
  omega

theorem offset? (h : Lays s offsets segments) {l o : Int} :
    s.offset? l = some o ↔ ∃ seg, (o, seg) ∈ laid 0 segments ∧ l ∈ seg.labels := by
  rw [Input.offset?_eq_some_iff h.offsets]
  constructor
  · intro ho
    obtain ⟨hnonneg, ho⟩ := ho
    have hl := (h.table l.toNat o).1 ho
    rwa [Int.toNat_of_nonneg hnonneg] at hl
  · intro hl
    obtain ⟨seg, hl, hmem⟩ := hl
    have hnonneg := (h.regular.labels seg (mem_of_laid hl)).2.2 l hmem
    refine ⟨hnonneg, (h.table l.toNat o).2 ⟨seg, hl, ?_⟩⟩
    rwa [Int.toNat_of_nonneg hnonneg]

theorem unique (h : Lays s offsets segments) {l o o' : Int} {seg seg' : Segment}
    (hl : (o, seg) ∈ laid 0 segments) (hl' : (o', seg') ∈ laid 0 segments)
    (hmem : l ∈ seg.labels) (hmem' : l ∈ seg'.labels) : o = o' ∧ seg = seg' := by
  have ho := h.offset?.2 ⟨seg, hl, hmem⟩
  rw [h.offset?.2 ⟨seg', hl', hmem'⟩] at ho
  have he := Option.some.inj ho
  subst he
  exact ⟨rfl, eq_of_laid h.pos hl hl'⟩

theorem next (h : Lays s offsets segments) {o : Int} {t : Segment}
    (hl : (o, t) ∈ laid 0 segments) :
    ∃ l : Nat, (s.starts[o]?).bind (·.labels.head?) = some l ∧ (l : Int) ∈ t.labels := by
  obtain ⟨st, hst⟩ := h.start.2 ⟨t, hl⟩
  obtain ⟨-, -, hsome⟩ := h.charts.labels hst
  obtain ⟨l, rest, he⟩ := List.exists_cons_of_ne_nil hsome
  refine ⟨l, by rw [hst, Option.bind_some, he]; rfl, ?_⟩
  rw [← h.names hl hst]
  unfold Start.names
  rw [he]
  exact List.mem_cons_self

end Lays

/-! ## Reading a segment -/

namespace Input

def wanted (s : Input) (o : Int) : Segment → List Reference
  | .code ls is => references [] is ++
      fallThrough is ((s.starts[o + (Segment.code ls is).extent]?).bind (·.labels.head?))
  | _ => []

def found (s : Input) (o : Int) (seg : Segment) : Finding where
  segment := seg
  references := s.wanted o seg

end Input

/-- A segment that a start has the bytes and the labels of is found there. -/
theorem Input.readAt_of_holds {s : Input} {o : Int} {st : Start} {seg : Segment} {r : Reference}
    (h0 : 0 ≤ o) (hle : st.stop ≤ s.size) (hstop : st.stop = o + seg.extent)
    (hh : Holds (Cursor.span s.code o (o + seg.extent)) seg) (hnames : st.names = seg.labels)
    (hk : seg.kind = r.kind) : s.readAt o st r = .ok (s.found o seg) := by
  have hext := extent_of_holds hh
  unfold Input.readAt
  rw [← hk]
  cases seg with
  | code ls is =>
    have hin := Cursor.inside_window h0 (show o ≤ st.stop by omega) hle
    have hview : (Cursor.window s.code o st.stop).view =
        Cursor.span s.code o (o + (Segment.code ls is).extent) := by
      rw [← hstop]
      rfl
    have hread := readInstructions_of_storesAll hh hin hview
    show readCode s.mode s.code o st _ = _
    unfold readCode
    rw [hread, hstop, hnames]
    rfl
  | data ls bytes =>
    have hbytes : bytes = Cursor.span s.code o (o + (Segment.data ls bytes).extent) := hh
    show Except.ok (readData s.code o st) = _
    unfold readData
    rw [hnames, hstop, ← hbytes]
    rfl
  | text ls value => exact hh.elim

theorem readAt_laid {s : Input} {offsets : List Int} {segments : List Segment}
    (h : Lays s offsets segments) {o : Int} {seg : Segment} {st : Start} {r : Reference}
    (hl : (o, seg) ∈ laid 0 segments) (hst : s.starts[o]? = some st) (hk : seg.kind = r.kind) :
    s.readAt o st r = .ok (s.found o seg) := by
  obtain ⟨h0, -, hle, hh⟩ := h.bounds hl
  have hstop := h.stop hl hst
  exact Input.readAt_of_holds h0 (by omega) hstop hh (h.names hl hst) hk

end ObjectCode
end QuestArchive
