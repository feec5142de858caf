import Mathlib.Data.List.Sort
import QuestArchive.Proofs.ObjectCode.Containment
import QuestArchive.Proofs.ObjectCode.LaidSegments
import QuestArchive.Proofs.ObjectCode.Writable

/-!
# Reading again what was written for a script

The label table that is written for a script that was read names fewer offsets than the one
it was read with: those past the end of the code are gone, and so is the end itself where
nothing was read.  No reference to such an offset leads anywhere, so the same segments are
found again.
-/

namespace QuestArchive
namespace ObjectCode

/-! ## Reading in the strict mode -/

variable {s s' : Input} {offsets offsets' : List Int}

/-- A script is read in the strict mode, with a label table that names no place in front of
the code. -/
structure Strict (s : Input) (offsets : List Int) : Prop where
  mode : s.mode = .strict
  table : s.offsets = offsets.toArray
  charts : Charts s.size offsets s.starts
  low : ∀ {o : Int} {st : Start}, s.starts[o]? = some st → 0 ≤ o

theorem Strict.found_of_readAt (hs : Strict s offsets) {o : Int} {st : Start}
    (hst : s.starts[o]? = some st) (ho : o ≤ s.size) {r : Reference} (hr : r.kind ≠ .text)
    {f : Finding} (h : s.readAt o st r = .ok f) :
    f = s.found o f.segment ∧ f.segment.kind = r.kind ∧ f.segment.labels = st.names ∧
      st.stop = o + f.segment.extent := by
  have h0 := hs.low hst
  unfold Input.readAt at h
  split at h
  · next hk =>
    cases h
    have hlen := Cursor.length_span h0 (Input.le_stop hs.charts hst ho) (hs.charts.stop_le hst)
    refine ⟨rfl, hk.symm, rfl, ?_⟩
    show st.stop = o + ((Cursor.span s.code o st.stop).length : Int)
    omega
  · next hk => exact absurd hk hr
  · next hk =>
    rcases Input.readCode_cases hs.charts hst h0 ho
      ((s.starts[st.stop]?).bind (·.labels.head?)) with
      ⟨f', is, hok, hseg, hcases⟩ | ⟨e, herror, -⟩
    · rw [hok] at h
      cases h
      obtain ⟨hseg', hrefs, -⟩ := Input.readCode_ok rfl hok
      rw [hseg] at hseg'
      rw [← (Segment.code.inj hseg').2] at hrefs
      rcases hcases with ⟨hnotices, hstop⟩ | ⟨hlenient, -⟩
      · have hextent : o + (Segment.code st.names is).extent = st.stop := hstop
        obtain ⟨segment, refs, notices⟩ := f
        dsimp only at hseg hrefs hnotices
        subst hseg hrefs hnotices
        refine ⟨?_, hk.symm, rfl, hextent.symm⟩
        unfold Input.found Input.wanted
        dsimp only
        rw [hextent]
      · rw [hs.mode] at hlenient
        cases hlenient
    · rw [herror] at h
      cases h

structure Tracks (s : Input) (queue : List Reference) (p : Progress) : Prop where
  sound : Sound s queue p
  todo : ∀ {o : Int} {st : Start}, p.todo[o]? = some st ↔
    s.starts[o]? = some st ∧ p.done[o]? = none
  stop : ∀ {o : Int} {st : Start} {seg : Segment}, s.starts[o]? = some st →
    p.done[o]? = some seg → st.stop = o + seg.extent

theorem preserves_tracks (hs : Strict s offsets) : Preserves s (Tracks s) where
  unknown h ho := ⟨(preserves_sound hs.charts hs.low).unknown h.sound ho, h.todo, h.stop⟩
  known h ho ht := ⟨(preserves_sound hs.charts hs.low).known h.sound ho ht, h.todo, h.stop⟩
  past h ho ht hlt := ⟨(preserves_sound hs.charts hs.low).past h.sound ho ht hlt, h.todo, h.stop⟩
  place := by
    intro r queue p o st f h ho ht hle hf
    have hst := h.sound.todo ht
    have hr := h.sound.queue r List.mem_cons_self
    obtain ⟨-, -, -, hstop⟩ := hs.found_of_readAt hst hle hr hf
    refine ⟨(preserves_sound hs.charts hs.low).place h.sound ho ht hle hf, ?_, ?_⟩
    · exact Progress.todo_place_iff h.todo
    · intro o' st' seg hst' hd
      rcases Progress.done_of_place hd with ⟨rfl, rfl⟩ | hd
      · rw [hst] at hst'
        cases hst'
        exact hstop
      · exact h.stop hst' hd

theorem preserves_done (hs : Strict s offsets) (o : Int) (seg : Segment) :
    Preserves s fun queue p => Tracks s queue p ∧ p.done[o]? = some seg where
  unknown h ho := ⟨(preserves_tracks hs).unknown h.1 ho, h.2⟩
  known h ho ht := ⟨(preserves_tracks hs).known h.1 ho ht, h.2⟩
  past h ho ht hlt := ⟨(preserves_tracks hs).past h.1 ho ht hlt, h.2⟩
  place := by
    intro r queue p o' st f h ho ht hle hf
    refine ⟨(preserves_tracks hs).place h.1 ho ht hle hf, ?_⟩
    have hne : o' ≠ o := by
      rintro rfl
      have hnone := (h.1.todo.1 ht).2
      rw [h.2] at hnone
      cases hnone
    rw [Progress.done_place, if_neg hne, h.2]

/-- A reference of the queue stays there until something was read at its offset, if that is
in the code or at its end. -/
theorem preserves_queued (hs : Strict s offsets) {q : Reference} {o : Int} {st : Start}
    (hq : s.offset? q.label = some o) (hst : s.starts[o]? = some st) (hle : o ≤ s.size) :
    Preserves s fun queue p =>
      Tracks s queue p ∧ (q ∈ queue ∨ ∃ seg, p.done[o]? = some seg) where
  unknown := by
    intro r queue p h ho
    refine ⟨(preserves_tracks hs).unknown h.1 ho, h.2.imp_left fun hmem => ?_⟩
    rcases List.mem_cons.1 hmem with rfl | hmem
    · rw [hq] at ho
      cases ho
    · exact hmem
  known := by
    intro r queue p o' h ho ht
    refine ⟨(preserves_tracks hs).known h.1 ho ht, ?_⟩
    rcases h.2 with hmem | hd
    · rcases List.mem_cons.1 hmem with rfl | hmem
      · rw [hq] at ho
        cases ho
        cases hd : p.done[o]? with
        | none =>
          rw [h.1.todo.2 ⟨hst, hd⟩] at ht
          cases ht
        | some seg => exact Or.inr ⟨seg, rfl⟩
      · exact Or.inl hmem
    · exact Or.inr hd
  past := by
    intro r queue p o' st' h ho ht hlt
    refine ⟨(preserves_tracks hs).past h.1 ho ht hlt, h.2.imp_left fun hmem => ?_⟩
    rcases List.mem_cons.1 hmem with rfl | hmem
    · rw [hq] at ho
      cases ho
      omega
    · exact hmem
  place := by
    intro r queue p o' st' f h ho ht hle' hf
    refine ⟨(preserves_tracks hs).place h.1 ho ht hle' hf, ?_⟩
    by_cases he : o' = o
    · exact Or.inr ⟨f.segment, by rw [Progress.done_place, if_pos he]⟩
    · rcases h.2 with hmem | ⟨seg, hd⟩
      · rcases List.mem_cons.1 hmem with rfl | hmem
        · rw [hq] at ho
          exact absurd (Option.some.inj ho).symm he
        · exact Or.inl (List.mem_append_left _ hmem)
      · exact Or.inr ⟨seg, by rw [Progress.done_place, if_neg he, hd]⟩

/-! ## The same code with fewer labels -/

/-- An input has the segments of a map at their offsets, and of the labels of another input
those of these offsets. -/
structure Recodes (s s' : Input) (kept : Std.TreeMap Int Segment) : Prop where
  size : s'.size = s.size
  holds : ∀ {o : Int} {seg : Segment}, kept[o]? = some seg →
    Holds (Cursor.span s'.code o (o + seg.extent)) seg
  starts : ∀ o : Int, s'.starts[o]? = if kept.contains o then s.starts[o]? else none
  offset? : ∀ {l o : Int}, s'.offset? l = some o ↔ s.offset? l = some o ∧ kept.contains o = true

theorem contains_of_getElem? {m : Std.TreeMap Int Segment} {o : Int} {seg : Segment}
    (h : m[o]? = some seg) : m.contains o = true := by
  rw [Std.TreeMap.contains_eq_isSome_getElem?, h]
  rfl

namespace Recodes

variable {kept : Std.TreeMap Int Segment}

theorem wanted (h : Recodes s s' kept) (hs : Strict s offsets) {o : Int} {seg : Segment}
    (hle : o + seg.extent ≤ s.size)
    (hc : ∀ r ∈ s.wanted o seg, ∀ o', s.offset? r.label = some o' → o' ≤ s.size →
      kept.contains o' = true) : s'.wanted o seg = s.wanted o seg := by
  cases seg with
  | data ls bytes => rfl
  | text ls value => rfl
  | code ls is =>
    have hc : ∀ r ∈ references [] is ++ Input.fallThrough is _, _ := hc
    show references [] is ++ Input.fallThrough is _ = references [] is ++ Input.fallThrough is _
    rw [h.starts]
    split
    · rfl
    · next hkept =>
      cases hst : s.starts[o + (Segment.code ls is).extent]? with
      | none => rfl
      | some st =>
        -- Control does not run on to a start where nothing was read.
        obtain ⟨hne, hlabels, hsome⟩ := hs.charts.labels hst
        obtain ⟨l, rest, he⟩ := List.exists_cons_of_ne_nil hsome
        rw [hst, Option.bind_some, he] at hc
        have hl : offsets[l]? = some (o + (Segment.code ls is).extent) := by
          rw [← mem_labelsAt, ← hlabels, he]
          exact List.mem_cons_self
        by_cases hruns : runsOn is = true
        · refine absurd (hc ⟨l, .code⟩ (List.mem_append_right _ ?_) _ ?_ hle) hkept
          · show _ ∈ if runsOn is = true then [_] else []
            rw [if_pos hruns]
            exact List.mem_singleton_self _
          · exact (Input.offset?_eq_some_iff hs.table).2 ⟨Int.natCast_nonneg l, hl, hne⟩
        · rw [Option.bind_some, he]
          show _ = _ ++ (if runsOn is = true then [_] else [])
          rw [if_neg hruns]
          rfl

/-- A reference whose offset is not kept is skipped, whatever the other input does with it. -/
theorem follow_skip (h : Recodes s s' kept) {r : Reference} {queue : List Reference} {q : Progress}
    {o : Int} (hr : s.offset? r.label = some o) (hn : kept.contains o = true → q.todo[o]? = none) :
    ∃ q', Progress.follow s' (r :: queue) q = Progress.follow s' queue q' ∧
      q'.todo = q.todo ∧ q'.done = q.done := by
  by_cases hk : kept.contains o = true
  · exact ⟨q, Progress.follow_known (h.offset?.2 ⟨hr, hk⟩) (hn hk), rfl, rfl⟩
  · refine ⟨_, Progress.follow_unknown ?_, rfl, rfl⟩
    cases hr' : s'.offset? r.label with
    | none => rfl
    | some o' =>
      obtain ⟨hr'', hk'⟩ := h.offset?.1 hr'
      rw [hr] at hr''
      cases hr''
      exact absurd hk' hk

/-- What was read at a kept start is read there again, if whatever it refers to is kept. -/
theorem readAt_eq (h : Recodes s s' kept) (hs : Strict s offsets) {o : Int} {st : Start}
    (hst : s.starts[o]? = some st) {r : Reference} {f : Finding} (hfound : f = s.found o f.segment)
    (hkind : f.segment.kind = r.kind) (hlabels : f.segment.labels = st.names)
    (hstop : st.stop = o + f.segment.extent) (hkept : kept[o]? = some f.segment)
    (hc : ∀ r' ∈ f.references, ∀ o', s.offset? r'.label = some o' → o' ≤ s.size →
      kept.contains o' = true) : s'.readAt o st r = .ok f := by
  have hend := hs.charts.stop_le hst
  have hwanted : s'.wanted o f.segment = s.wanted o f.segment := by
    refine h.wanted hs (by omega) fun r' hr' => hc r' ?_
    rw [hfound]
    exact hr'
  rw [Input.readAt_of_holds (hs.low hst) (by rw [h.size]; exact hend) hstop (h.holds hkept)
    hlabels.symm hkind, hfound]
  unfold Input.found
  dsimp only
  rw [hwanted]

/-- What the worklist reads on its way to the segments that are kept is one of them, and is read
there again. -/
theorem readAt_of_place (h : Recodes s s' kept) (hs : Strict s offsets) {p p' : Progress}
    (hkept : ∀ {o : Int} {seg : Segment}, p'.done[o]? = some seg → kept[o]? = some seg)
    {r : Reference} {queue : List Reference} {o : Int} {st : Start} {f : Finding}
    (ht : Tracks s (r :: queue) p) (hr : s.offset? r.label = some o)
    (htodo : p.todo[o]? = some st) (hle : o ≤ s.size) (hread : s.readAt o st r = .ok f)
    (hf : Progress.follow s (queue ++ f.references) (p.place o f) = .ok p') :
    kept[o]? = some f.segment ∧ s'.readAt o st r = .ok f := by
  have htracks := (preserves_tracks hs).place ht hr htodo hle hread
  have hst := (ht.todo.1 htodo).1
  obtain ⟨hfound, hkind, hlabels, hstop⟩ := hs.found_of_readAt hst hle
    (ht.sound.queue r List.mem_cons_self) hread
  have hplaced : kept[o]? = some f.segment := by
    refine hkept (Progress.inv_of_follow (preserves_done hs o f.segment) ⟨htracks, ?_⟩ hf).2
    rw [Progress.done_place, if_pos rfl]
  refine ⟨hplaced, h.readAt_eq hs hst hfound hkind hlabels hstop hplaced ?_⟩
  intro r' hr' o' ho' hle'
  obtain ⟨-, hoff, hne⟩ := (Input.offset?_eq_some_iff hs.table).1 ho'
  obtain ⟨st', hst'⟩ := hs.charts.complete hoff hne
  obtain ⟨-, hqueue | ⟨seg, hseg⟩⟩ := Progress.inv_of_follow
    (preserves_queued hs ho' hst' hle') ⟨htracks, Or.inl (List.mem_append_right _ hr')⟩ hf
  · exact absurd hqueue List.not_mem_nil
  · exact contains_of_getElem? (hkept hseg)

/-- The worklist reads the same segments where the labels of the others are unknown. -/
theorem follow (h : Recodes s s' kept) (hs : Strict s offsets) {p' : Progress}
    (hkept : ∀ {o : Int} {seg : Segment}, p'.done[o]? = some seg → kept[o]? = some seg)
    (hpast : ∀ o : Int, kept.contains o = true → o ≤ s.size) {queue : List Reference}
    {p : Progress} (ht : Tracks s queue p) (hf : Progress.follow s queue p = .ok p')
    {q : Progress} (hd : q.done = p.done)
    (hq : ∀ o : Int, q.todo[o]? = if kept.contains o then p.todo[o]? else none) :
    ∃ q', Progress.follow s' queue q = .ok q' ∧ q'.done = p'.done := by
  induction queue, p using Progress.follow.induct (s := s) generalizing q with
  | case1 p =>
    rw [Progress.follow_nil] at hf
    cases hf
    exact ⟨q, Progress.follow_nil, hd⟩
  | case2 p r queue hr ih =>
    rw [Progress.follow_unknown hr] at hf
    have hr' : s'.offset? r.label = none := by
      cases hr' : s'.offset? r.label with
      | none => rfl
      | some o =>
        rw [(h.offset?.1 hr').1] at hr
        cases hr
    rw [Progress.follow_unknown hr']
    exact ih ((preserves_tracks hs).unknown ht hr) hf hd hq
  | case3 p r queue o hr htodo ih =>
    rw [Progress.follow_known hr htodo] at hf
    obtain ⟨q', hstep, htodo', hdone⟩ := h.follow_skip hr fun hk => by
      rw [hq, if_pos hk, htodo]
    rw [hstep]
    refine ih ((preserves_tracks hs).known ht hr htodo) hf (hdone.trans hd) ?_
    rw [htodo']
    exact hq
  | case4 p r queue o hr st htodo hlt ih =>
    rw [Progress.follow_past hr htodo hlt] at hf
    obtain ⟨q', hstep, htodo', hdone⟩ := h.follow_skip hr fun hk => by
      have hle := hpast o hk
      omega
    rw [hstep]
    refine ih ((preserves_tracks hs).past ht hr htodo hlt) hf (hdone.trans hd) ?_
    rw [htodo']
    exact hq
  | case5 p r queue o hr st htodo hle e he =>
    rw [Progress.follow_error hr htodo hle he] at hf
    cases hf
  | case6 p r queue o hr st htodo hle f hread _ ih =>
    rw [Progress.follow_place hr htodo hle hread] at hf
    have htracks := (preserves_tracks hs).place ht hr htodo (Int.not_lt.1 hle) hread
    obtain ⟨hplaced, hread'⟩ := h.readAt_of_place hs hkept ht hr htodo (Int.not_lt.1 hle) hread hf
    have hcontains := contains_of_getElem? hplaced
    have htodo' : q.todo[o]? = some st := by
      rw [hq, if_pos hcontains, htodo]
    rw [Progress.follow_place (h.offset?.2 ⟨hr, hcontains⟩) htodo' (by rw [h.size]; exact hle)
      hread']
    refine ih htracks hf ?_ ?_
    · show q.done.insert o f.segment = p.done.insert o f.segment
      rw [hd]
    · intro o'
      rw [Progress.todo_place, Progress.todo_place, hq]
      split <;> simp

theorem fill {done : Std.TreeMap Int Segment} (h : Recodes s s' (s.fill done))
    (hs : s.Reads offsets done) : s'.fill done = s.fill done := by
  have hkeys : ∀ g ∈ gaps s.size 0 (covered done), cut s'.starts.keys g = cut s.starts.keys g := by
    intro g hg
    have hle := ((Input.completes_covered hs.extent).bounds g hg).2.2
    have hinside : s'.starts.keys.filter (fun b => g.1 < b && b < g.2) =
        s.starts.keys.filter fun b => g.1 < b && b < g.2 := by
      refine ((Offsets.sorted_keys _).filter _).eq_of_mem_iff ((Offsets.sorted_keys _).filter _)
        fun o => ?_
      rw [List.mem_filter, List.mem_filter, Bool.and_eq_true, decide_eq_true_eq,
        decide_eq_true_eq]
      refine and_congr_left fun hin => ?_
      rw [Std.TreeMap.mem_keys, Std.TreeMap.mem_keys, Std.TreeMap.mem_iff_isSome_getElem?,
        Std.TreeMap.mem_iff_isSome_getElem?, h.starts]
      cases hst : s.starts[o]? with
      | none => simp
      | some st =>
        obtain ⟨seg, hseg⟩ := Input.fill_start hs hst (by omega)
        rw [if_pos (contains_of_getElem? hseg)]
    unfold cut
    rw [hinside]
  have hmissing : s'.missing done = s.missing done := by
    unfold Input.missing
    rw [h.size]
    exact List.flatMap_congr hkeys
  show (s'.missing done).foldl _ done = (s.missing done).foldl _ done
  rw [hmissing]
  refine List.foldl_ext _ _ _ fun m g hg => ?_
  obtain ⟨o, e⟩ := g
  have hfill := (Input.getElem?_fill hs).2 (Or.inl ⟨e, hg, rfl⟩)
  have hb := hs.completes.bounds _ hg
  have hlen := Cursor.length_span hb.1 (Int.le_of_lt hb.2.1) hb.2.2
  have hspan : Cursor.span s.code o e = Cursor.span s'.code o e := by
    have hh := h.holds hfill
    rw [show (Segment.data (s.labelsOf o) (Cursor.span s.code o e)).extent = e - o from hlen,
      show o + (e - o) = e by omega] at hh
    exact hh
  dsimp only
  rw [h.starts, if_pos (contains_of_getElem? hfill), hspan]

end Recodes

/-! ## Label tables with fewer offsets -/

/-- A start of two label tables for code of one size stops at the same place, if only starts
at the end are in one of them and not in the other. -/
theorem Charts.stop_unique {size : Int} {starts starts' : Std.TreeMap Int Start}
    (h : Charts size offsets starts) (h' : Charts size offsets' starts')
    (hsub : ∀ {o : Int} {st' : Start}, starts'[o]? = some st' → ∃ st, starts[o]? = some st)
    (hsup : ∀ {o : Int} {st : Start}, starts[o]? = some st → o < size →
      ∃ st', starts'[o]? = some st') {o : Int} {st st' : Start} (hst : starts[o]? = some st)
    (hst' : starts'[o]? = some st') : st.stop = st'.stop := by
  rcases Int.lt_or_le o size with hlt | hle
  · have h1 := h.lt_stop hst hlt
    have h2 := h'.lt_stop hst' hlt
    have h3 := h.stop_le hst
    have h4 := h'.stop_le hst'
    have hge : st.stop ≤ st'.stop := by
      rcases h'.stop_start hst' with he | ⟨st2, hst2⟩
      · omega
      · obtain ⟨st1, hst1⟩ := hsub hst2
        exact h.stop_le_next hst hst1 h2
    have hle : st'.stop ≤ st.stop := by
      rcases Int.lt_or_le st.stop size with hin | hout
      · rcases h.stop_start hst with he | ⟨st1, hst1⟩
        · omega
        · obtain ⟨st2, hst2⟩ := hsup hst1 hin
          exact h'.stop_le_next hst' hst2 h1
      · omega
    omega
  · rw [h.stop_eq hst hle, h'.stop_eq hst' hle]

/-- A label table that leaves out some offsets charts the starts of the others, each with the
same stop, if all starts in the code are kept. -/
theorem Charts.restrict {size : Int} {starts starts' : Std.TreeMap Int Start} {keep : Int → Bool}
    (h : Charts size offsets starts) (h' : Charts size offsets' starts')
    (ht : ∀ (n : Nat) (o : Int), offsets'[n]? = some o ∧ o ≠ -1 ↔
      (offsets[n]? = some o ∧ o ≠ -1) ∧ keep o = true)
    (hk : ∀ {o : Int} {st : Start}, starts[o]? = some st → o < size → keep o = true) (o : Int) :
    starts'[o]? = if keep o then starts[o]? else none := by
  have hsub : ∀ {o : Int} {st' : Start}, starts'[o]? = some st' →
      (∃ st, starts[o]? = some st) ∧ keep o = true := by
    intro o st' hst'
    obtain ⟨hne, hlabels, hsome⟩ := h'.labels hst'
    obtain ⟨n, hn⟩ := List.exists_mem_of_ne_nil _ hsome
    rw [hlabels] at hn
    obtain ⟨⟨hold, -⟩, hc⟩ := (ht n o).1 ⟨mem_labelsAt.1 hn, hne⟩
    exact ⟨h.complete hold hne, hc⟩
  have hsup : ∀ {o : Int} {st : Start}, starts[o]? = some st → keep o = true →
      ∃ st', starts'[o]? = some st' := by
    intro o st hst hc
    obtain ⟨hne, hlabels, hsome⟩ := h.labels hst
    obtain ⟨n, hn⟩ := List.exists_mem_of_ne_nil _ hsome
    rw [hlabels] at hn
    exact h'.complete ((ht n o).2 ⟨⟨mem_labelsAt.1 hn, hne⟩, hc⟩).1 hne
  split
  · next hc =>
    cases hst : starts[o]? with
    | none =>
      cases hst' : starts'[o]? with
      | none => rfl
      | some st' =>
        obtain ⟨⟨st, hst''⟩, -⟩ := hsub hst'
        rw [hst] at hst''
        cases hst''
    | some st =>
      obtain ⟨st', hst'⟩ := hsup hst hc
      have hstop : st.stop = st'.stop := h.stop_unique h' (fun hst' => (hsub hst').1)
        (fun hst hlt => hsup hst (hk hst hlt)) hst hst'
      have hlabels : st.labels = st'.labels := by
        obtain ⟨hne, hl, -⟩ := h.labels hst
        rw [hl, (h'.labels hst').2.1]
        refine (sorted_labelsAt _ _).eq_of_mem_iff (sorted_labelsAt _ _) fun n => ?_
        rw [mem_labelsAt, mem_labelsAt]
        have hn := ht n o
        simp only [hne, hc, ne_eq, not_false_eq_true, and_true] at hn
        exact hn.symm
      rw [hst']
      obtain ⟨labels, stop⟩ := st
      obtain ⟨labels', stop'⟩ := st'
      cases hstop
      cases hlabels
      rfl
  · next hc =>
    cases hst' : starts'[o]? with
    | none => rfl
    | some st' => exact absurd (hsub hst').2 hc

/-! ## Writing and reading again -/

theorem strict_input {stored : Stored} (h : ∀ o ∈ stored.offsets, -1 ≤ o) :
    Strict (input .strict stored) stored.offsets :=
  ⟨rfl, rfl, charts_starts _ _, low_starts .strict h⟩

theorem tracks_entries (stored : Stored) (labels : List Int) :
    Tracks (input .strict stored) (entries labels) { todo := (input .strict stored).starts } := by
  refine ⟨sound_entries .strict stored labels, ?_, ?_⟩
  · intro o st
    rw [Std.TreeMap.getElem?_emptyc]
    simp
  · intro o st seg _ hd
    rw [Std.TreeMap.getElem?_emptyc] at hd
    cases hd

/-- The label table of the segments that fill an input is the input's, less the offsets where
no segment is. -/
theorem table_of_fill {stored w : Stored} {done : Std.TreeMap Int Segment}
    (hr : (input .strict stored).Reads stored.offsets done)
    (ho : ∀ (n : Nat) (o : Int), w.offsets[n]? = some o ∧ o ≠ -1 ↔
      ∃ seg, (o, seg) ∈ ((input .strict stored).fill done).toList ∧ (n : Int) ∈ seg.labels)
    (n : Nat) (o : Int) : w.offsets[n]? = some o ∧ o ≠ -1 ↔
      (stored.offsets[n]? = some o ∧ o ≠ -1) ∧
        ((input .strict stored).fill done).contains o = true := by
  rw [ho n o, Std.TreeMap.contains_eq_isSome_getElem?, Option.isSome_iff_exists]
  constructor
  · intro h
    obtain ⟨seg, hseg, hl⟩ := h
    have hf := Std.TreeMap.mem_toList_iff_getElem?_eq_some.1 hseg
    rw [Input.labels_fill hr hf] at hl
    obtain ⟨n', he, hn⟩ := (Input.mem_labelsOf hr.charts).1 hl
    rw [← Int.ofNat_inj.1 he] at hn
    exact ⟨hn, seg, hf⟩
  · intro h
    obtain ⟨hn, seg, hf⟩ := h
    refine ⟨seg, Std.TreeMap.mem_toList_iff_getElem?_eq_some.2 hf, ?_⟩
    rw [Input.labels_fill hr hf]
    exact (Input.mem_labelsOf hr.charts).2 ⟨n, rfl, hn⟩

/-- What is written for a script that was read has the labels of its segments. -/
theorem recodes_of_tiles {stored w : Stored} {done : Std.TreeMap Int Segment}
    (hr : (input .strict stored).Reads stored.offsets done)
    (ht : Tiles w.code.toArray 0 ((input .strict stored).fill done).toList)
    (ho : ∀ (n : Nat) (o : Int), w.offsets[n]? = some o ∧ o ≠ -1 ↔
      ∃ seg, (o, seg) ∈ ((input .strict stored).fill done).toList ∧ (n : Int) ∈ seg.labels) :
    Recodes (input .strict stored) (input .strict w) ((input .strict stored).fill done) := by
  have htable := table_of_fill hr ho
  have hsize : (input .strict w).size = (input .strict stored).size := by
    have hw : _ = (w.code.toArray.size : Int) - 0 := total_of_tiles ht
    have hs : _ = (stored.code.toArray.size : Int) - 0 := total_of_tiles (tiles_fill hr)
    show w.code.toArray.size = stored.code.toArray.size
    omega
  have charts' : Charts (input .strict w).size w.offsets (input .strict w).starts :=
    charts_starts _ _
  rw [hsize] at charts'
  refine ⟨hsize, ?_, ?_, ?_⟩
  · intro o seg hseg
    exact (mem_tiles ht _ (Std.TreeMap.mem_toList_iff_getElem?_eq_some.2 hseg)).2.2
  · refine hr.charts.restrict charts' htable ?_
    intro o st hst hlt
    obtain ⟨seg, hseg⟩ := Input.fill_start hr hst hlt
    exact contains_of_getElem? hseg
  · intro l o
    have hw : (input .strict w).offsets = w.offsets.toArray := rfl
    have hs : (input .strict stored).offsets = stored.offsets.toArray := rfl
    rw [Input.offset?_eq_some_iff hw, Input.offset?_eq_some_iff hs, htable, ← and_assoc]

/-- Whatever was read in the strict mode can be written, and is read again from that with the
same references. -/
theorem exists_reread {stored : Stored} (h : ∀ o ∈ stored.offsets, -1 ≤ o) {labels : List Int}
    {r : Reading} (hr : read .strict stored (entries labels) = .ok r) :
    ∃ w r', write r.segments = .ok w ∧ read .strict w (entries labels) = .ok r' ∧
      r'.segments = r.segments := by
  obtain ⟨p, hp, hreads, rfl⟩ := exists_progress h hr
  have hstrict := strict_input h
  have mem : ∀ {o : Int} {seg : Segment},
      (o, seg) ∈ ((input .strict stored).fill p.done).toList ↔
        ((input .strict stored).fill p.done)[o]? = some seg :=
    Std.TreeMap.mem_toList_iff_getElem?_eq_some
  have hsegments : (reading (input .strict stored) p).segments =
      ((input .strict stored).fill p.done).toList.map Prod.snd := Offsets.values_eq _
  obtain ⟨w, hw, htiles, htable⟩ := exists_write_of_tiles (tiles_fill hreads)
    (by
      rw [← Offsets.values_eq]
      exact Input.nodup_labels_fill hreads)
    (by
      intro e he l hl
      rw [Input.labels_fill hreads (mem.1 he)] at hl
      obtain ⟨n, rfl, -⟩ := (Input.mem_labelsOf hreads.charts).1 hl
      exact Int.natCast_nonneg n)
  have hrecodes := recodes_of_tiles hreads htiles htable
  have hw0 : ∀ o ∈ w.offsets, -1 ≤ o := by
    intro o ho
    obtain ⟨n, hn⟩ := List.getElem?_of_mem ho
    by_cases hne : o = -1
    · omega
    · obtain ⟨seg, hseg, -⟩ := (htable n o).1 ⟨hn, hne⟩
      have hlow := (Input.holds_fill hreads (mem.1 hseg)).1
      omega
  have htracks := tracks_entries stored labels
  have hfinal := Progress.inv_of_follow (preserves_tracks hstrict) htracks hp
  obtain ⟨p', hp', hdone⟩ := hrecodes.follow hstrict
    (by
      intro o seg hd
      obtain ⟨st, hst⟩ := hreads.start hd
      refine Input.fill_of_done hreads hd fun hlt => ?_
      have hstop := hfinal.stop hst hd
      have hlt' := hreads.charts.lt_stop hst hlt
      omega)
    (by
      intro o hc
      rw [Std.TreeMap.contains_eq_isSome_getElem?, Option.isSome_iff_exists] at hc
      obtain ⟨seg, hseg⟩ := hc
      have hb := Input.holds_fill hreads hseg
      omega)
    htracks hp (q := { todo := (input .strict w).starts }) rfl hrecodes.starts
  rcases follow_entries .strict hw0 labels with ⟨p'', hp'', hreads', -⟩ | ⟨e, he, -⟩
  · rw [hp'] at hp''
    cases hp''
    refine ⟨w, reading (input .strict w) p', ?_, read_ok hp' hreads', ?_⟩
    · rw [hsegments, hw]
    · show ((input .strict w).fill p'.done).values = ((input .strict stored).fill p.done).values
      rw [hdone, hrecodes.fill hreads]
  · rw [hp'] at he
    cases he

end ObjectCode
end QuestArchive
