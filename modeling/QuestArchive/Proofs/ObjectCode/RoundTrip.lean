import Mathlib.Data.List.Sort
import QuestArchive.Proofs.ObjectCode.LaidSegments

/-!
# Reading gives back the segments that were written

The worklist reads only segments that were written, each as what it is; and when the queue is
empty it has read every segment of code that is reached.  All that is left is data, which
filling the gaps gives back.
-/

namespace QuestArchive
namespace ObjectCode

/-- The references of some segments tell what each of them is, and all code is reached from
the entry labels. -/
structure Traceable (segments : List Segment) (labels : List Int) : Prop where
  entries : ∀ l ∈ labels, ∀ s ∈ segments, l ∈ s.labels → s.kind = .code
  refers : ∀ ls is, .code ls is ∈ segments → ∀ r, Refers is r →
    ∀ s ∈ segments, r.label ∈ s.labels → s.kind = r.kind
  behind : ∀ before ls is t after, segments = before ++ .code ls is :: t :: after →
    runsOn is = true → t.kind = .code
  reached : ∀ s ∈ segments, s.kind = .code → Reached segments labels s

/-- A label is still in the queue, or its segment has been read, if it has one. -/
def Settled (segments : List Segment) (queue : List Reference) (p : Progress) (l : Int) : Prop :=
  (∃ r ∈ queue, r.label = l) ∨
    ∀ o seg, (o, seg) ∈ laid 0 segments → l ∈ seg.labels → p.done[o]? = some seg

/-- What is true of the worklist at each step, when written segments are read. -/
structure Traces (s : Input) (segments : List Segment) (labels : List Int)
    (queue : List Reference) (p : Progress) : Prop where
  kinds : ∀ r ∈ queue, ∀ seg ∈ segments, r.label ∈ seg.labels → seg.kind = r.kind
  todo : ∀ {o : Int} {st : Start}, p.todo[o]? = some st ↔
    s.starts[o]? = some st ∧ p.done[o]? = none
  done : ∀ {o : Int} {seg : Segment}, p.done[o]? = some seg → (o, seg) ∈ laid 0 segments
  entries : ∀ l ∈ labels, Settled segments queue p l
  closed : ∀ {o : Int} {seg : Segment}, p.done[o]? = some seg →
    ∀ r ∈ s.wanted o seg, Settled segments queue p r.label
  notices : ∀ n ∈ p.notices.toList, ∃ l, n = .unregisteredLabel l ∧
    l ∉ segments.flatMap Segment.labels

section Run

variable {s : Input} {offsets : List Int} {segments : List Segment} {labels : List Int}

theorem kind_of_wanted (h : Lays s offsets segments) (ht : Traceable segments labels) {o : Int}
    {seg : Segment} (hl : (o, seg) ∈ laid 0 segments) : ∀ r ∈ s.wanted o seg,
    ∀ t ∈ segments, r.label ∈ t.labels → t.kind = r.kind := by
  intro r hr t hts hmem
  cases seg with
  | code ls is =>
    rcases List.mem_append.1 hr with hr | hr
    · exact ht.refers ls is (mem_of_laid hl) r (mem_references.1 hr) t hts hmem
    · unfold Input.fallThrough at hr
      split at hr
      · next l hnext =>
        split at hr
        · next hruns =>
          rw [List.mem_singleton.1 hr] at hmem ⊢
          -- Something starts behind the code, so it is not the last segment.
          obtain ⟨o', ht'⟩ := @exists_laid segments 0 t hts
          rcases laid_cases hl with he | ⟨before, t', after, hs, hlt⟩
          · have hnone : s.starts[o + (Segment.code ls is).extent]? = none := by
              cases hst : s.starts[o + (Segment.code ls is).extent]? with
              | none => rfl
              | some st =>
                obtain ⟨t', hlt⟩ := h.start.1 ⟨st, hst⟩
                have hb := h.bounds hlt
                have hsize := h.size
                omega
            rw [hnone] at hnext
            cases hnext
          · obtain ⟨l', hl', hin⟩ := h.next hlt
            rw [hl'] at hnext
            cases hnext
            rw [(h.unique ht' hlt hmem hin).2]
            exact ht.behind before ls is t' after hs hruns
        · exact absurd hr List.not_mem_nil
      · exact absurd hr List.not_mem_nil
  | data ls bytes | text ls value => exact absurd hr List.not_mem_nil

/-- Taking the first reference from the queue settles nothing less, if its own label is
settled. -/
theorem Settled.tail {queue queue' : List Reference} {p p' : Progress} {r : Reference} {l : Int}
    (h : Settled segments (r :: queue) p l) (hq : ∀ q ∈ queue, q ∈ queue')
    (hd : ∀ {o : Int} {seg : Segment}, p.done[o]? = some seg → (o, seg) ∈ laid 0 segments →
      p'.done[o]? = some seg)
    (hr : Settled segments queue' p' r.label) : Settled segments queue' p' l := by
  rcases h with ⟨q, hqm, hql⟩ | hdone
  · rcases List.mem_cons.1 hqm with rfl | hqm
    · rw [← hql]
      exact hr
    · exact Or.inl ⟨q, hq q hqm, hql⟩
  · exact Or.inr fun o seg hl hmem => hd (hdone o seg hl hmem) hl

variable {r : Reference} {queue : List Reference} {p : Progress}

theorem Traces.note (h : Lays s offsets segments) (hi : Traces s segments labels (r :: queue) p)
    (ho : s.offset? r.label = none) :
    Traces s segments labels queue (p.note (.unregisteredLabel r.label)) := by
  have hnone : ∀ o seg, (o, seg) ∈ laid 0 segments → r.label ∉ seg.labels := by
    intro o seg hl hmem
    rw [h.offset?.2 ⟨seg, hl, hmem⟩] at ho
    cases ho
  have hr : Settled segments queue (p.note (.unregisteredLabel r.label)) r.label :=
    Or.inr fun o seg hl hmem => absurd hmem (hnone o seg hl)
  refine ⟨fun q hq => hi.kinds q (List.mem_cons_of_mem _ hq), hi.todo, hi.done, ?_, ?_, ?_⟩
  · exact fun l hl => (hi.entries l hl).tail (fun _ hq => hq) (fun hd _ => hd) hr
  · exact fun hd q hq => (hi.closed hd q hq).tail (fun _ hq => hq) (fun hd _ => hd) hr
  · intro n hn
    rcases Progress.mem_notices_note.1 hn with hn | rfl
    · exact hi.notices n hn
    · refine ⟨r.label, rfl, fun hmem => ?_⟩
      obtain ⟨seg, hseg, hmem⟩ := List.mem_flatMap.1 hmem
      obtain ⟨o, hl⟩ := @exists_laid segments 0 seg hseg
      exact hnone o seg hl hmem

theorem Traces.known (h : Lays s offsets segments) (hi : Traces s segments labels (r :: queue) p)
    {o : Int} (ho : s.offset? r.label = some o) (htodo : p.todo[o]? = none) :
    Traces s segments labels queue p := by
  obtain ⟨seg, hl, hmem⟩ := h.offset?.1 ho
  obtain ⟨st, hst⟩ := h.start.2 ⟨seg, hl⟩
  have hdone : p.done[o]? = some seg := by
    cases hd : p.done[o]? with
    | none =>
      rw [hi.todo.2 ⟨hst, hd⟩] at htodo
      cases htodo
    | some seg' => rw [eq_of_laid h.pos hl (hi.done hd)]
  have hr : Settled segments queue p r.label := by
    refine Or.inr fun o' seg' hl' hmem' => ?_
    obtain ⟨rfl, rfl⟩ := h.unique hl hl' hmem hmem'
    exact hdone
  refine ⟨fun q hq => hi.kinds q (List.mem_cons_of_mem _ hq), hi.todo, hi.done, ?_, ?_,
    hi.notices⟩
  · exact fun l hl => (hi.entries l hl).tail (fun _ hq => hq) (fun hd _ => hd) hr
  · exact fun hd q hq => (hi.closed hd q hq).tail (fun _ hq => hq) (fun hd _ => hd) hr

/-- What is read at a start is the segment that lies there, and settles its labels. -/
theorem Traces.place (h : Lays s offsets segments) (ht : Traceable segments labels)
    (hi : Traces s segments labels (r :: queue) p) {o : Int} (ho : s.offset? r.label = some o)
    {st : Start} (htodo : p.todo[o]? = some st) {f : Finding} (hf : s.readAt o st r = .ok f) :
    Traces s segments labels (queue ++ f.references) (p.place o f) := by
  obtain ⟨seg, hl, hmem⟩ := h.offset?.1 ho
  obtain ⟨hst, hnone⟩ := hi.todo.1 htodo
  have hk := hi.kinds r List.mem_cons_self seg (mem_of_laid hl) hmem
  rw [readAt_laid h hl hst hk] at hf
  cases hf
  have hkeep : ∀ {o' : Int} {seg' : Segment}, p.done[o']? = some seg' →
      (p.place o (s.found o seg)).done[o']? = some seg' := by
    intro o' seg' hd
    rw [Progress.done_place, if_neg, hd]
    intro he
    rw [← he, hnone] at hd
    cases hd
  have hr : Settled segments (queue ++ s.wanted o seg) (p.place o (s.found o seg)) r.label := by
    refine Or.inr fun o' seg' hl' hmem' => ?_
    obtain ⟨rfl, rfl⟩ := h.unique hl hl' hmem hmem'
    rw [Progress.done_place, if_pos rfl]
    rfl
  constructor
  · intro q hq
    rcases List.mem_append.1 hq with hq | hq
    · exact hi.kinds q (List.mem_cons_of_mem _ hq)
    · exact kind_of_wanted h ht hl q hq
  · exact Progress.todo_place_iff hi.todo
  · intro o' seg' hd
    rcases Progress.done_of_place hd with ⟨rfl, rfl⟩ | hd
    · exact hl
    · exact hi.done hd
  · exact fun l hl => (hi.entries l hl).tail (fun _ hq => List.mem_append_left _ hq)
      (fun hd _ => hkeep hd) hr
  · intro o' seg' hd q hq
    rcases Progress.done_of_place hd with ⟨rfl, rfl⟩ | hd
    · exact Or.inl ⟨q, List.mem_append_right _ hq, rfl⟩
    · exact (hi.closed hd q hq).tail (fun _ hq => List.mem_append_left _ hq)
        (fun hd _ => hkeep hd) hr
  · intro n hn
    rcases Progress.mem_notices_place.1 hn with hn | hn
    · exact hi.notices n hn
    · exact absurd hn List.not_mem_nil

theorem preserves_traces (h : Lays s offsets segments) (ht : Traceable segments labels) :
    Preserves s (Traces s segments labels) where
  unknown hi ho := hi.note h ho
  known hi ho htodo := hi.known h ho htodo
  past := by
    intro r queue p o st hi ho _ hlt
    obtain ⟨seg, hl, -⟩ := h.offset?.1 ho
    have hb := h.bounds hl
    omega
  place hi ho htodo _ hf := hi.place h ht ho htodo hf

/-- Written code can always be read, so following references comes to an end. -/
theorem follow_traces (h : Lays s offsets segments) (ht : Traceable segments labels)
    {queue : List Reference} {p : Progress} (hi : Traces s segments labels queue p) :
    ∃ p', Progress.follow s queue p = .ok p' ∧ Traces s segments labels [] p' := by
  rcases Progress.follow_cases (preserves_traces h ht) queue p hi with
    hok | ⟨o, st, r, e, ⟨queue', p', hi', ho, htodo, -⟩, he, -⟩
  · exact hok
  · obtain ⟨seg, hl, hmem⟩ := h.offset?.1 ho
    have hk := hi'.kinds r List.mem_cons_self seg (mem_of_laid hl) hmem
    rw [readAt_laid h hl (hi'.todo.1 htodo).1 hk] at he
    cases he

theorem mem_of_reached {seg : Segment} (h : Reached segments labels seg) : seg ∈ segments := by
  cases h with
  | entry _ hs _ => exact hs
  | refers _ _ hs _ => exact hs
  | behind _ _ he =>
    rw [he]
    simp

/-- With an empty queue, everything that is reached has been read. -/
theorem done_of_reached (h : Lays s offsets segments) {p : Progress}
    (hi : Traces s segments labels [] p) {seg : Segment} (hr : Reached segments labels seg) :
    ∀ o, (o, seg) ∈ laid 0 segments → p.done[o]? = some seg := by
  have settled : ∀ {l : Int}, Settled segments [] p l → ∀ {o : Int} {t : Segment},
      (o, t) ∈ laid 0 segments → l ∈ t.labels → p.done[o]? = some t := by
    intro l hl o t ht hmem
    rcases hl with ⟨q, hq, -⟩ | hdone
    · exact absurd hq List.not_mem_nil
    · exact hdone o t ht hmem
  induction hr with
  | entry hl hs hmem => exact fun o ho => settled (hi.entries _ hl) ho hmem
  | @refers ls is r t hr href hs hmem ih =>
    intro o ho
    obtain ⟨o', ho'⟩ := @exists_laid segments 0 _ (mem_of_reached hr)
    refine settled (hi.closed (ih o' ho') r ?_) ho hmem
    exact List.mem_append_left _ (mem_references.2 href)
  | @behind before after ls is t hr hruns he ih =>
    intro o ho
    obtain ⟨o', ho', hnext⟩ := @laid_next segments 0 _ _ _ _ he
    obtain ⟨l, hl, hmem⟩ := h.next hnext
    have heq := (h.unique ho hnext hmem hmem).1
    rw [heq]
    refine settled (hi.closed (ih o' ho') ⟨l, .code⟩ ?_) hnext hmem
    refine List.mem_append_right _ ?_
    rw [hl]
    show _ ∈ if runsOn is = true then [_] else []
    rw [if_pos hruns]
    exact List.mem_singleton_self _

/-! ## Filling the gaps -/

theorem reads_of_traces (h : Lays s offsets segments) {p : Progress}
    (hi : Traces s segments labels [] p) : s.Reads offsets p.done := by
  refine ⟨h.charts, fun hst => ?_, fun hd => ?_⟩
  · obtain ⟨seg, hl⟩ := h.start.1 ⟨_, hst⟩
    exact (h.bounds hl).1
  · have hl := hi.done hd
    obtain ⟨st, hst⟩ := h.start.2 ⟨_, hl⟩
    obtain ⟨h0, hpos, hle, hh⟩ := h.bounds hl
    refine ⟨⟨st, hst, (h.names hl hst).symm, ?_, hh⟩, by omega⟩
    exact Int.le_of_eq (h.stop hl hst).symm

/-- A written segment that was not read is found again between those that were. -/
theorem extent_of_missing (h : Lays s offsets segments) {p : Progress}
    (hi : Traces s segments labels [] p) {o e : Int} {seg : Segment}
    (hl : (o, seg) ∈ laid 0 segments) (hm : (o, e) ∈ s.missing p.done) :
    e = o + seg.extent := by
  have hreads := reads_of_traces h hi
  obtain ⟨h0, hlt, hhigh⟩ := hreads.completes.bounds _ hm
  obtain ⟨-, hpos, hle, -⟩ := h.bounds hl
  have hsize := h.size
  dsimp only at h0 hlt hhigh
  have hle' : e ≤ o + seg.extent := by
    rcases laid_cases hl with he | ⟨_, t, _, _, ht⟩
    · omega
    · obtain ⟨st', hst'⟩ := h.start.2 ⟨t, ht⟩
      have ha := hreads.missing_start hm hst'
      dsimp only at ha
      omega
  have hge : o + seg.extent ≤ e := by
    rcases hreads.completes.stops _ hm with he | ⟨c, hc, he⟩
    · dsimp only at he
      omega
    · -- A missing range ends where a segment begins.
      dsimp only at he
      have hstart : ∃ seg', (e, seg') ∈ laid 0 segments := by
        rw [← he]
        rcases List.mem_append.1 hc with hc | hc
        · obtain ⟨seg', hd, -⟩ := mem_covered.1 hc
          exact ⟨seg', hi.done hd⟩
        · obtain ⟨q, hq, rfl⟩ := List.mem_map.1 hc
          rw [Std.TreeMap.mem_keys, Std.TreeMap.mem_iff_isSome_getElem?,
            Option.isSome_iff_exists] at hq
          exact h.start.1 hq
      obtain ⟨seg', hl'⟩ := hstart
      exact apart_of_laid h.pos hl hl' hlt
  omega

theorem getElem?_fill_laid (h : Lays s offsets segments) (ht : Traceable segments labels)
    {p : Progress} (hi : Traces s segments labels [] p) {o : Int} {seg : Segment}
    (hl : (o, seg) ∈ laid 0 segments) : (s.fill p.done)[o]? = some seg := by
  have hreads := reads_of_traces h hi
  obtain ⟨h0, hpos, hle, hh⟩ := h.bounds hl
  cases hd : p.done[o]? with
  | some seg' =>
    rw [eq_of_laid h.pos hl (hi.done hd)] at hpos ⊢
    exact Input.fill_of_done hreads hd fun _ => hpos
  | none =>
    obtain ⟨st, hst⟩ := h.start.2 ⟨seg, hl⟩
    obtain ⟨seg', hf⟩ := Input.fill_start hreads hst (by omega)
    rcases (Input.getElem?_fill hreads).1 hf with ⟨e, hm, he⟩ | ⟨-, hd'⟩
    · rw [hf, he, extent_of_missing h hi hl hm]
      cases seg with
      | code ls is =>
        have hdone := done_of_reached h hi (ht.reached _ (mem_of_laid hl) rfl) o hl
        rw [hd] at hdone
        cases hdone
      | data ls bytes =>
        have hlabels : s.labelsOf o = ls := by
          unfold Input.labelsOf
          rw [hst]
          exact h.names hl hst
        rw [hlabels, ← show bytes = _ from hh]
      | text ls value => exact hh.elim
    · rw [hd] at hd'
      cases hd'

theorem toList_fill (h : Lays s offsets segments) (ht : Traceable segments labels)
    {p : Progress} (hi : Traces s segments labels [] p) :
    (s.fill p.done).toList = laid 0 segments := by
  have hreads := reads_of_traces h hi
  have anti : Std.Antisymm fun a b : Int × Segment => a.1 < b.1 :=
    ⟨fun a b hab hba => absurd hba (Int.lt_asymm hab)⟩
  have irrefl : Std.Irrefl fun a b : Int × Segment => a.1 < b.1 :=
    ⟨fun a ha => Int.lt_irrefl _ ha⟩
  refine (Offsets.sorted_toList (s.fill p.done)).eq_of_mem_iff (sorted_laid h.pos) fun entry => ?_
  obtain ⟨o, seg⟩ := entry
  rw [Std.TreeMap.mem_toList_iff_getElem?_eq_some]
  constructor
  · intro hf
    rcases Input.fill_cases hreads hf with hm | ⟨-, hd⟩
    · obtain ⟨h0, hlt, hhigh⟩ := hreads.completes.bounds _ hm
      dsimp only at h0 hlt hhigh
      obtain ⟨⟨o', seg'⟩, hl, hle, hin⟩ := cover_of_tiles h.tiles h0
        (show o < (s.size : Int) by omega)
      have hf' := getElem?_fill_laid h ht hi hl
      have heq : o' = o := by
        by_contra hne
        have ha := Input.fill_apart hreads hf' hf (by dsimp only at hle; omega)
        dsimp only at hin
        omega
      rw [heq, hf] at hf'
      rw [Option.some.inj hf', ← heq]
      exact hl
    · exact hi.done hd
  · exact getElem?_fill_laid h ht hi

end Run

theorem mem_entries {labels : List Int} {r : Reference} :
    r ∈ entries labels ↔ ∃ l ∈ labels, r = ⟨l, .code⟩ := by
  unfold entries
  rw [List.mem_map]
  refine exists_congr fun l => and_congr ?_ eq_comm
  rw [(List.mergeSort_perm _ _).mem_iff, List.mem_eraseDups]

/-- Segments whose kinds follow from the entry labels are read as they were written, in
both modes; a warning is given for labels that no segment has, and for nothing else. -/
theorem read_write (mode : Mode) {segments : List Segment} {labels : List Int}
    (h : Regular segments) (ht : Traceable segments labels) :
    ∃ stored r, write segments = .ok stored ∧ read mode stored (entries labels) = .ok r ∧
      r.segments = segments ∧ ∀ d ∈ r.diagnostics, ∃ l, d = { notice := .unregisteredLabel l } ∧
        l ∉ segments.flatMap Segment.labels := by
  obtain ⟨stored, hw, htiles, hpos, htable⟩ := exists_write h
  have hlays : Lays (input mode stored) stored.offsets segments :=
    ⟨h, htiles, hpos, htable, charts_starts _ _, rfl⟩
  have hinit : Traces (input mode stored) segments labels (entries labels)
      { todo := (input mode stored).starts } := by
    constructor
    · intro r hr seg hseg hmem
      obtain ⟨l, hl, rfl⟩ := mem_entries.1 hr
      exact ht.entries l hl seg hseg hmem
    · intro o st
      rw [Std.TreeMap.getElem?_emptyc]
      simp
    · intro o seg hd
      rw [Std.TreeMap.getElem?_emptyc] at hd
      cases hd
    · exact fun l hl => Or.inl ⟨⟨l, .code⟩, mem_entries.2 ⟨l, hl, rfl⟩, rfl⟩
    · intro o seg hd
      rw [Std.TreeMap.getElem?_emptyc] at hd
      cases hd
    · exact fun n hn => absurd hn List.not_mem_nil
  obtain ⟨p, hp, hi⟩ := follow_traces hlays ht hinit
  have hreads := reads_of_traces hlays hi
  have hfill := toList_fill hlays ht hi
  refine ⟨stored, reading (input mode stored) p, hw, read_ok hp hreads, ?_, ?_⟩
  · unfold reading
    dsimp only
    rw [Offsets.values_eq, hfill, map_snd_laid]
  · intro d hd
    obtain ⟨n, hn, rfl⟩ := List.mem_map.1 hd
    rcases List.mem_append.1 hn with hn | hn
    · obtain ⟨l, rfl, hl⟩ := hi.notices n hn
      exact ⟨l, rfl, hl⟩
    · obtain ⟨o, st, hst, hnone, -⟩ := Input.mem_unplaced.1 hn
      obtain ⟨seg, hl⟩ := hlays.start.1 ⟨st, hst⟩
      rw [getElem?_fill_laid hlays ht hi hl] at hnone
      cases hnone

def sampler : List Segment :=
  [.code [0] [⟨.plain 0x0D "leto" [.registerTuple, .dataLabel], [⟨.int 5, 1⟩, ⟨.int 1, 2⟩]⟩],
    .code [2] [⟨.plain 0x01 "ret" [], []⟩],
    .data [1] [0xAA]]

theorem regular_sampler : Regular sampler := by
  have hleto : Instruction.WellFormed
      ⟨.plain 0x0D "leto" [.registerTuple, .dataLabel], [⟨.int 5, 1⟩, ⟨.int 1, 2⟩]⟩ := by
    refine ⟨List.mem_append_left _ (by decide +kernel), ?_⟩
    rw [if_neg (by decide)]
    exact .cons ⟨⟨5, rfl, by decide, by decide⟩, rfl⟩
      (.cons ⟨⟨1, (0, 0xFFFF), rfl, rfl, by decide, by decide⟩, rfl⟩ .nil)
  have hret : Instruction.WellFormed ⟨.plain 0x01 "ret" [], []⟩ := by
    refine ⟨List.mem_append_left _ (by decide +kernel), ?_⟩
    rw [if_neg (by decide)]
    exact .nil
  constructor
  · decide +kernel
  · intro s hs
    simp only [sampler, List.mem_cons, List.not_mem_nil, or_false] at hs
    rcases hs with rfl | rfl | rfl <;> exact List.cons_ne_nil _ _
  · intro ls is hs i hi
    simp only [sampler, List.mem_cons, List.not_mem_nil, or_false, Segment.code.injEq,
      reduceCtorEq] at hs
    rcases hs with ⟨-, rfl⟩ | ⟨-, rfl⟩
    · rw [List.mem_singleton.1 hi]
      refine ⟨hleto, ?_⟩
      intro a ha
      simp only [List.mem_cons, List.not_mem_nil, or_false] at ha
      rcases ha with rfl | rfl <;> trivial
    · rw [List.mem_singleton.1 hi]
      exact ⟨hret, fun a ha => absurd ha List.not_mem_nil⟩
  · decide +kernel
  · decide +kernel

theorem traceable_sampler : Traceable sampler [0] := by
  have href : ∀ ls is, .code ls is ∈ sampler → ∀ r ∈ references [] is, r = ⟨1, .data⟩ := by
    intro ls is hs
    simp only [sampler, List.mem_cons, List.not_mem_nil, or_false, Segment.code.injEq,
      reduceCtorEq] at hs
    rcases hs with ⟨-, rfl⟩ | ⟨-, rfl⟩ <;> decide +kernel
  constructor
  · decide +kernel
  · intro ls is hs r hr s hs' hl
    rw [href ls is hs r (mem_references.2 hr)] at hl ⊢
    revert s
    decide +kernel
  · intro before ls is t after he hruns
    rcases before with _ | ⟨a, _ | ⟨b, before⟩⟩
    · cases he
      rfl
    · cases he
      exact absurd hruns (by decide +kernel)
    · have hlen := congrArg List.length he
      simp [sampler] at hlen
      omega
  · intro s hs hk
    have hentry : Reached sampler [0] _ :=
      .entry (l := 0) List.mem_cons_self List.mem_cons_self List.mem_cons_self
    simp only [sampler, List.mem_cons, List.not_mem_nil, or_false] at hs
    rcases hs with rfl | rfl | rfl
    · exact hentry
    · exact .behind hentry (by decide +kernel) (@List.nil_append Segment _).symm
    · cases hk

theorem read_write_sampler : Regular sampler ∧ Traceable sampler [0] ∧
    ∃ stored r, write sampler = .ok stored ∧ read .strict stored (entries [0]) = .ok r ∧
      r.segments = sampler := by
  obtain ⟨stored, r, hw, hr, hs, -⟩ := read_write .strict regular_sampler traceable_sampler
  exact ⟨regular_sampler, traceable_sampler, stored, r, hw, hr, hs⟩

end ObjectCode
end QuestArchive
