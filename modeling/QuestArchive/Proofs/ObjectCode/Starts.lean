import QuestArchive.ObjectCode.Decode

/-!
# The places that a label table names

The map of starts has an entry for each offset of the label table, with the labels of
that offset.  A start stops at the next one, or at the end of the code.
-/

namespace QuestArchive

/-! ## Maps from offsets -/

namespace Offsets

variable {β : Type}

theorem sorted_toList (m : Std.TreeMap Int β) : m.toList.Pairwise (·.1 < ·.1) :=
  m.ordered_keys_toList.imp fun h => Std.compare_eq_lt.1 h

theorem sorted_keys (m : Std.TreeMap Int β) : m.keys.Pairwise (· < ·) :=
  m.ordered_keys.imp fun h => Std.compare_eq_lt.1 h

theorem getElem?_insert (m : Std.TreeMap Int β) (k o : Int) (v : β) :
    (m.insert k v)[o]? = if k = o then some v else m[o]? := by
  rw [Std.TreeMap.getElem?_insert]
  by_cases h : k = o
  · rw [if_pos (Std.LawfulEqCmp.compare_eq_iff_eq.2 h), if_pos h]
  · rw [if_neg fun he => h (Std.LawfulEqCmp.eq_of_compare he), if_neg h]

theorem getElem?_erase (m : Std.TreeMap Int β) (k o : Int) :
    (m.erase k)[o]? = if k = o then none else m[o]? := by
  rw [Std.TreeMap.getElem?_erase]
  by_cases h : k = o
  · rw [if_pos (Std.LawfulEqCmp.compare_eq_iff_eq.2 h), if_pos h]
  · rw [if_neg fun he => h (Std.LawfulEqCmp.eq_of_compare he), if_neg h]

theorem getElem?_ofList {l : List (Int × β)} (h : l.Pairwise (·.1 < ·.1)) {o : Int} {v : β} :
    (Std.TreeMap.ofList l)[o]? = some v ↔ (o, v) ∈ l := by
  have distinct : l.Pairwise fun a b => ¬compare a.1 b.1 = .eq :=
    h.imp fun hlt he => absurd (Std.LawfulEqCmp.eq_of_compare he) (Int.ne_of_lt hlt)
  have found : ∀ w, (o, w) ∈ l → (Std.TreeMap.ofList l)[o]? = some w := fun w hw =>
    Std.TreeMap.getElem?_ofList_of_mem (Std.LawfulEqCmp.compare_eq_iff_eq.2 rfl) distinct hw
  constructor
  · intro hv
    by_cases hk : o ∈ l.map Prod.fst
    · obtain ⟨⟨o', w⟩, hw, rfl⟩ := List.mem_map.1 hk
      rw [found w hw] at hv
      cases hv
      exact hw
    · have hc : (l.map Prod.fst).contains o = false := by
        rw [Bool.eq_false_iff]
        exact fun hc => hk (List.contains_iff_mem.1 hc)
      rw [Std.TreeMap.getElem?_ofList_of_contains_eq_false hc] at hv
      cases hv
  · exact found v

end Offsets

namespace ObjectCode

/-! ## Labels by offset -/

def labelsAt (offsets : List Int) (o : Int) : List Nat :=
  (offsets.zipIdx.filter fun entry => entry.1 = o).map Prod.snd

theorem mem_labelsAt {offsets : List Int} {o : Int} {l : Nat} :
    l ∈ labelsAt offsets o ↔ offsets[l]? = some o := by
  unfold labelsAt
  rw [List.mem_map]
  constructor
  · rintro ⟨⟨o', l'⟩, hm, rfl⟩
    obtain ⟨hz, ho⟩ := List.mem_filter.1 hm
    rw [← of_decide_eq_true ho]
    exact List.mk_mem_zipIdx_iff_getElem?.1 hz
  · intro h
    exact ⟨(o, l), List.mem_filter.2 ⟨List.mk_mem_zipIdx_iff_getElem?.2 h,
      decide_eq_true rfl⟩, rfl⟩

theorem sorted_labelsAt (offsets : List Int) (o : Int) :
    (labelsAt offsets o).Pairwise (· < ·) := by
  have hz : (offsets.zipIdx.map Prod.snd).Pairwise (· < ·) := by
    rw [List.zipIdx_map_snd]
    exact List.pairwise_lt_range'
  exact List.Pairwise.sublist (List.filter_sublist.map Prod.snd) hz

theorem getElem?_labelsByOffset (offsets : List Int) (o : Int) :
    (labelsByOffset offsets)[o]? =
      if o = -1 ∨ labelsAt offsets o = [] then none else some (labelsAt offsets o) := by
  unfold labelsByOffset labelsAt
  generalize offsets.zipIdx = entries
  induction entries with
  | nil => simp
  | cons entry rest ih =>
    obtain ⟨o', l⟩ := entry
    rw [List.foldr_cons]
    dsimp only
    split
    · next hm =>
      -- An entry of -1 is left out, whichever offset is asked for.
      subst hm
      rw [ih]
      by_cases ho : o = -1
      · simp [ho]
      · rw [List.filter_cons_of_neg (by simpa using fun h => ho h.symm)]
    · next hm =>
      rw [Offsets.getElem?_insert]
      by_cases ho : o' = o
      · subst ho
        rw [if_pos rfl, List.filter_cons_of_pos (by simp), List.map_cons,
          if_neg (by simp [hm])]
        congr 2
        rw [Std.TreeMap.getD_eq_getD_getElem?, ih]
        split
        · next h => exact (h.resolve_left hm).symm
        · rfl
      · rw [if_neg ho, ih, List.filter_cons_of_neg (by simpa using ho)]

/-! ## Stops -/

theorem map_withStops (size : Int) (l : List (Int × List Nat)) :
    (withStops size l).map (fun entry => (entry.1, entry.2.labels)) = l := by
  induction l using withStops.induct with
  | case1 => rfl
  | case2 o labels => rfl
  | case3 o labels next labels' rest ih =>
    rw [withStops, List.map_cons, ih]

/-- Each offset stops at or before every later one, and at one of them or at the end. -/
theorem stop_of_mem_withStops {size : Int} {l : List (Int × List Nat)}
    (hl : l.Pairwise (·.1 < ·.1)) {o : Int} {st : Start} (h : (o, st) ∈ withStops size l) :
    st.stop ≤ size ∧ (o < size → o < st.stop) ∧ (size ≤ o → st.stop = size) ∧
      (∀ e ∈ l, o < e.1 → st.stop ≤ e.1) ∧ (st.stop = size ∨ ∃ e ∈ l, e.1 = st.stop) := by
  induction l using withStops.induct with
  | case1 => exact absurd h List.not_mem_nil
  | case2 o' labels =>
    rw [withStops, List.mem_singleton] at h
    cases h
    refine ⟨Int.le_refl _, id, fun _ => rfl, ?_, Or.inl rfl⟩
    intro e he hlt
    rw [List.mem_singleton.1 he] at hlt
    exact absurd hlt (Int.lt_irrefl _)
  | case3 o' labels next labels' rest ih =>
    obtain ⟨hfirst, hrest⟩ := List.pairwise_cons.1 hl
    have hnext : o' < next := hfirst _ List.mem_cons_self
    rw [withStops] at h
    rcases List.mem_cons.1 h with h | h
    · cases h
      refine ⟨Int.min_le_right _ _, fun hlt => by dsimp only; omega,
        fun hle => by dsimp only; omega, ?_, ?_⟩
      · intro e he hlt
        have hle : next ≤ e.1 := by
          rcases List.mem_cons.1 he with rfl | he
          · exact absurd hlt (Int.lt_irrefl _)
          · rcases List.mem_cons.1 he with rfl | he
            · exact Int.le_refl _
            · exact Int.le_of_lt ((List.pairwise_cons.1 hrest).1 e he)
        exact Int.le_trans (Int.min_le_left _ _) hle
      · rcases Int.le_total size next with hle | hle
        · exact Or.inl (Int.min_eq_right hle)
        · exact Or.inr ⟨(next, labels'), List.mem_cons_of_mem _ List.mem_cons_self,
            (Int.min_eq_left hle).symm⟩
    · obtain ⟨hs, hlt, heq, hle, hstart⟩ := ih hrest h
      have ho : o' < o := by
        have hm : (o, st.labels) ∈ (next, labels') :: rest := by
          rw [← map_withStops size ((next, labels') :: rest)]
          exact List.mem_map_of_mem h
        exact hfirst _ hm
      refine ⟨hs, hlt, heq, ?_, ?_⟩
      · intro e he hoe
        rcases List.mem_cons.1 he with rfl | he
        · exact absurd hoe (Int.not_lt.2 (Int.le_of_lt ho))
        · exact hle e he hoe
      · exact hstart.imp_right fun ⟨e, he, hes⟩ => ⟨e, List.mem_cons_of_mem _ he, hes⟩

/-! ## The map of starts -/

/-- A map has the starts that a label table names in code of some size. -/
structure Charts (size : Int) (offsets : List Int) (starts : Std.TreeMap Int Start) : Prop where
  labels : ∀ {o : Int} {st : Start}, starts[o]? = some st →
    o ≠ -1 ∧ st.labels = labelsAt offsets o ∧ st.labels ≠ []
  complete : ∀ {l : Nat} {o : Int}, offsets[l]? = some o → o ≠ -1 → ∃ st, starts[o]? = some st
  stop_le : ∀ {o : Int} {st : Start}, starts[o]? = some st → st.stop ≤ size
  lt_stop : ∀ {o : Int} {st : Start}, starts[o]? = some st → o < size → o < st.stop
  stop_eq : ∀ {o : Int} {st : Start}, starts[o]? = some st → size ≤ o → st.stop = size
  stop_le_next : ∀ {o o' : Int} {st st' : Start}, starts[o]? = some st →
    starts[o']? = some st' → o < o' → st.stop ≤ o'
  stop_start : ∀ {o : Int} {st : Start}, starts[o]? = some st →
    st.stop = size ∨ ∃ st', starts[st.stop]? = some st'

theorem sorted_starts (size : Int) (offsets : List Int) :
    (starts size offsets).Pairwise (·.1 < ·.1) := by
  have h := Offsets.sorted_toList (labelsByOffset offsets)
  rw [← map_withStops size (labelsByOffset offsets).toList, List.pairwise_map] at h
  exact h

theorem charts_starts (size : Int) (offsets : List Int) :
    Charts size offsets (Std.TreeMap.ofList (starts size offsets)) := by
  have hsorted := Offsets.sorted_toList (labelsByOffset offsets)
  have hmem : ∀ {o st}, (Std.TreeMap.ofList (starts size offsets))[o]? = some st →
      (o, st) ∈ withStops size (labelsByOffset offsets).toList := fun h =>
    (Offsets.getElem?_ofList (sorted_starts size offsets)).1 h
  have hlabels : ∀ {o st}, (Std.TreeMap.ofList (starts size offsets))[o]? = some st →
      (o, st.labels) ∈ (labelsByOffset offsets).toList := by
    intro o st h
    rw [← map_withStops size (labelsByOffset offsets).toList]
    exact List.mem_map_of_mem (hmem h)
  have hstart : ∀ {o labels}, (o, labels) ∈ (labelsByOffset offsets).toList →
      ∃ st, (Std.TreeMap.ofList (starts size offsets))[o]? = some st := by
    intro o labels h
    rw [← map_withStops size (labelsByOffset offsets).toList] at h
    obtain ⟨⟨o', st⟩, hst, he⟩ := List.mem_map.1 h
    cases he
    exact ⟨st, (Offsets.getElem?_ofList (sorted_starts size offsets)).2 hst⟩
  constructor
  · intro o st h
    have hl := Std.TreeMap.mem_toList_iff_getElem?_eq_some.1 (hlabels h)
    rw [getElem?_labelsByOffset] at hl
    split at hl
    · cases hl
    · next hne =>
      have he := Option.some.inj hl
      rw [not_or, he] at hne
      exact ⟨hne.1, he.symm, hne.2⟩
  · intro l o h hne
    refine @hstart o (labelsAt offsets o) ?_
    rw [Std.TreeMap.mem_toList_iff_getElem?_eq_some, getElem?_labelsByOffset, if_neg]
    rintro (hm | hnil)
    · exact hne hm
    · have hl := mem_labelsAt.2 h
      rw [hnil] at hl
      exact List.not_mem_nil hl
  · exact fun h => (stop_of_mem_withStops hsorted (hmem h)).1
  · exact fun h => (stop_of_mem_withStops hsorted (hmem h)).2.1
  · exact fun h => (stop_of_mem_withStops hsorted (hmem h)).2.2.1
  · exact fun h h' hlt => (stop_of_mem_withStops hsorted (hmem h)).2.2.2.1 _ (hlabels h') hlt
  · intro o st h
    refine (stop_of_mem_withStops hsorted (hmem h)).2.2.2.2.imp_right fun ⟨e, he, hes⟩ => ?_
    rw [← hes]
    exact hstart he

end ObjectCode
end QuestArchive
