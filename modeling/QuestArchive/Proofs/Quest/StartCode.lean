import QuestArchive.Proofs.ObjectCode.Stability
import QuestArchive.Proofs.Quest.Label

/-!
# Where reading a script begins

Label zero is the first that leads anywhere, and it is taken for code.  Nothing comes before it
that could take its segment for something else, so what runs first in a script that was read is
what stands between the offset of label zero and the next one in the label table.
-/

namespace QuestArchive

namespace Script

variable {segments : List Segment}

theorem eq_of_mem_labels (hn : (segments.flatMap Segment.labels).Nodup) {s t : Segment}
    (hs : s ∈ segments) (ht : t ∈ segments) {l : Int} (hl : l ∈ s.labels) (hl' : l ∈ t.labels) :
    s = t := by
  have hone : segments.Pairwise fun s t => l ∈ s.labels → l ∈ t.labels → s = t :=
    (List.nodup_flatMap.1 hn).2.imp fun hd hl hl' => absurd hl' (hd hl)
  have hflip : segments.Pairwise fun s t => l ∈ t.labels → l ∈ s.labels → t = s :=
    hone.imp fun h hl hl' => (h hl' hl).symm
  exact hone.forall_of_forall_of_flip (fun _ _ _ _ => rfl) hflip hs ht hl hl'

/-- What comes before the segment of a label does not have that label. -/
theorem exists_first (hn : (segments.flatMap Segment.labels).Nodup) {s : Segment}
    (hs : s ∈ segments) {l : Int} (hl : l ∈ s.labels) :
    ∃ before after, segments = before ++ s :: after ∧ ∀ t ∈ before, l ∉ t.labels := by
  obtain ⟨before, after, rfl⟩ := List.append_of_mem hs
  rw [List.flatMap_append, List.flatMap_cons] at hn
  exact ⟨before, after, rfl, fun t ht hl' => (List.nodup_append.1 hn).2.2 l
    (List.mem_flatMap.2 ⟨t, ht, hl'⟩) l (List.mem_append_left _ hl) rfl⟩

theorem startCode?_eq_some {ls : List Int} {is : List Instruction}
    (hn : (segments.flatMap Segment.labels).Nodup) (hs : .code ls is ∈ segments) (h0 : 0 ∈ ls) :
    startCode? segments = some is := by
  obtain ⟨before, after, he, hfree⟩ := exists_first hn hs h0
  refine List.findSome?_eq_some_iff.2 ⟨before, _, after, he, ?_, fun s hs => ?_⟩
  · dsimp only
    rw [if_pos (List.contains_iff_mem.2 h0)]
  · cases s with
    | data ls bytes | text ls value => rfl
    | code ls' is' =>
      dsimp only
      rw [if_neg]
      exact fun hc => hfree _ hs (List.contains_iff_mem.1 hc)

theorem startCode?_eq_none (h : ∀ ls is, .code ls is ∈ segments → 0 ∉ ls) :
    startCode? segments = none := by
  refine List.findSome?_eq_none_iff.2 fun s hs => ?_
  cases s with
  | data ls bytes | text ls value => rfl
  | code ls is =>
    dsimp only
    rw [if_neg]
    exact fun hc => h ls is hs (List.contains_iff_mem.1 hc)

end Script

namespace ObjectCode

/-! ## The first reference -/

theorem exists_entries {labels : List Int} (h0 : 0 ∈ labels) :
    ∃ before after, entries labels = before ++ ⟨0, .code⟩ :: after ∧ ∀ r ∈ before, r.label < 0 := by
  have hm : 0 ∈ labels.eraseDups.mergeSort := by
    rwa [(List.mergeSort_perm _ _).mem_iff, List.mem_eraseDups]
  obtain ⟨before, after, he⟩ := List.append_of_mem hm
  have hsorted := sorted_entryLabels labels
  rw [he] at hsorted
  refine ⟨before.map (⟨·, .code⟩), after.map (⟨·, .code⟩), ?_, ?_⟩
  · unfold entries
    rw [he, List.map_append, List.map_cons]
  · intro r hr
    obtain ⟨l, hl, rfl⟩ := List.mem_map.1 hr
    exact (List.pairwise_append.1 hsorted).2.2 l hl 0 List.mem_cons_self

/-- References that lead nowhere change nothing but the notices. -/
theorem Progress.follow_nowhere {s : Input} {Inv : List Reference → Progress → Prop}
    (hs : Preserves s Inv) {before queue : List Reference} {p : Progress}
    (hb : ∀ r ∈ before, s.offset? r.label = none) (h : Inv (before ++ queue) p) :
    ∃ p', follow s (before ++ queue) p = follow s queue p' ∧ Inv queue p' ∧ p'.todo = p.todo := by
  induction before generalizing p with
  | nil => exact ⟨p, rfl, h, rfl⟩
  | cons r before ih =>
    obtain ⟨hr, hb⟩ := List.forall_mem_cons.1 hb
    obtain ⟨p', hf, hi, htodo⟩ := ih hb (hs.unknown h hr)
    exact ⟨p', (follow_unknown hr).trans hf, hi, htodo⟩

section

variable {stored : Stored} {labels : List Int}

theorem exists_code_done (h : ∀ o ∈ stored.offsets, -1 ≤ o) (h0 : 0 ∈ labels) {p : Progress}
    (hp : Progress.follow (input .strict stored) (entries labels)
      { todo := (input .strict stored).starts } = .ok p)
    {o : Int} {st : Start} (ho : (input .strict stored).offset? 0 = some o)
    (hst : (input .strict stored).starts[o]? = some st) (hle : o ≤ (input .strict stored).size) :
    ∃ is, p.done[o]? = some (.code st.names is) := by
  have hstrict := strict_input h
  have htracks := tracks_entries stored labels
  obtain ⟨before, after, he, hneg⟩ := exists_entries h0
  rw [he] at hp htracks
  have hnowhere : ∀ r ∈ before, (input .strict stored).offset? r.label = none := fun r hr => by
    unfold Input.offset?
    exact if_pos (hneg r hr)
  obtain ⟨p', hf, hi, htodo⟩ := Progress.follow_nowhere (preserves_tracks hstrict) hnowhere htracks
  have hst' : p'.todo[o]? = some st := by
    rw [htodo]
    exact hst
  rw [hf, Progress.follow_todo ho hst', if_neg (Int.not_lt.2 hle)] at hp
  cases hr : (input .strict stored).readAt o st ⟨0, .code⟩ with
  | error e =>
    rw [hr] at hp
    cases hp
  | ok f =>
    rw [hr] at hp
    have hplaced := (preserves_tracks hstrict).place hi ho hst' hle hr
    have hdone := Progress.inv_of_follow (preserves_done hstrict o f.segment)
      ⟨hplaced, by rw [Progress.done_place, if_pos rfl]⟩ hp
    obtain ⟨-, hkind, hlabels, -⟩ :=
      hstrict.found_of_readAt hst hle (fun he => SegmentKind.noConfusion he) hr
    cases hseg : f.segment with
    | code ls is =>
      rw [hseg] at hlabels hdone
      rw [show ls = st.names from hlabels] at hdone
      exact ⟨is, hdone.2⟩
    | data ls bytes | text ls value =>
      rw [hseg] at hkind
      cases hkind

variable {r : Reading}

/-- A script that was read starts with the code between the offset of label zero and the next
offset of the label table. -/
theorem startCode?_of_read (h : ∀ o ∈ stored.offsets, -1 ≤ o) (h0 : 0 ∈ labels)
    (hr : read .strict stored (entries labels) = .ok r) {o : Int}
    (ho : stored.offsets[0]? = some o) (hne : o ≠ -1) (hle : o ≤ stored.code.length) :
    ∃ st is, (input .strict stored).starts[o]? = some st ∧
      Script.startCode? r.segments = some is ∧
      StoresAll (Cursor.span stored.code.toArray o st.stop) is ∧
      st.stop = o + total (is.map (·.size)) := by
  obtain ⟨p, hp, hreads, rfl⟩ := exists_progress h hr
  have ho' : (input .strict stored).offset? 0 = some o :=
    (Input.offset?_eq_some_iff rfl).2 ⟨Int.le_refl 0, ho, hne⟩
  have hsize : o ≤ (input .strict stored).size := hle
  obtain ⟨st, hst⟩ := hreads.charts.complete ho hne
  obtain ⟨is, hdone⟩ := exists_code_done h h0 hp ho' hst hsize
  have hfinal := Progress.inv_of_follow (preserves_tracks (strict_input h))
    (tracks_entries stored labels) hp
  have hstop := hfinal.stop hst hdone
  obtain ⟨⟨st', hst', -, -, hholds⟩, -⟩ := hreads.places hdone
  rw [← hstop] at hholds
  have hfill : ((input .strict stored).fill p.done)[o]? = some (.code st.names is) := by
    refine Input.fill_of_done hreads hdone fun hlt => ?_
    have hlt := hreads.charts.lt_stop hst hlt
    omega
  have hmem : Segment.code st.names is ∈ (_ : List Segment) :=
    mem_of_laid ((mem_laid_reading hreads).2 hfill)
  refine ⟨st, is, hst, Script.startCode?_eq_some (Input.nodup_labels_fill hreads) hmem ?_,
    hholds, hstop⟩
  have hlabels := Input.labels_fill hreads hfill
  rw [show st.names = _ from hlabels]
  exact (Input.mem_labelsOf hreads.charts).2 ⟨0, rfl, ho, hne⟩

theorem startCode?_of_read_none (h : ∀ o ∈ stored.offsets, -1 ≤ o)
    (hr : read .strict stored (entries labels) = .ok r)
    (ho : ∀ o, stored.offsets[0]? = some o → o = -1) : Script.startCode? r.segments = none := by
  obtain ⟨p, hp, hreads, rfl⟩ := exists_progress h hr
  refine Script.startCode?_eq_none fun ls is hs hl => ?_
  obtain ⟨o, hlaid⟩ := @exists_laid _ 0 _ hs
  have hlabels := Input.labels_fill hreads ((mem_laid_reading hreads).1 hlaid)
  rw [show ls = _ from hlabels] at hl
  obtain ⟨n, hn, hoff, hne⟩ := (Input.mem_labelsOf hreads.charts).1 hl
  rw [← Int.ofNat_inj.1 hn] at hoff
  exact hne (ho o hoff)

end

end ObjectCode
end QuestArchive
