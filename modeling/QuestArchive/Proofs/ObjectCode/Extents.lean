import QuestArchive.ObjectCode.Decode
import QuestArchive.Proofs.Lists
import QuestArchive.Proofs.ObjectCode.Lossless

/-!
# Sizes

Whatever a script is read from, with whatever label table, no segment of it takes a negative
number of bytes.  So where it is written, the label table points into the code.
-/

namespace QuestArchive

namespace ObjectCode

/-! ## What holds of every segment -/

def Each (P : Segment → Prop) (done : Std.TreeMap Int Segment) : Prop :=
  ∀ {o : Int} {seg : Segment}, done[o]? = some seg → P seg

variable {P : Segment → Prop} {done : Std.TreeMap Int Segment}

theorem Each.insert (h : Each P done) {seg : Segment} (hs : P seg) (o : Int) :
    Each P (done.insert o seg) := by
  intro o' seg' hd
  rw [Offsets.getElem?_insert] at hd
  split at hd
  · cases hd
    exact hs
  · exact h hd

theorem preserves_each {s : Input}
    (h : ∀ {o : Int} {st : Start} {r : Reference} {f : Finding}, s.readAt o st r = .ok f →
      P f.segment) : Preserves s fun _ p => Each P p.done where
  unknown hp _ := hp
  known hp _ _ := hp
  past hp _ _ _ := hp
  place := fun hp _ _ _ hf => hp.insert (h hf) _

theorem Each.fill {s : Input} (h : Each P done) (hd : ∀ ls bytes, P (.data ls bytes)) :
    Each P (s.fill done) := by
  show Each P ((s.missing done).foldl _ done)
  generalize s.missing done = missing
  induction missing generalizing done with
  | nil => exact h
  | cons range missing ih =>
    rw [List.foldl_cons]
    exact ih (h.insert (hd _ _) _)

/-- What holds of all data and of whatever is read at an offset holds of all segments of a script
that was read. -/
theorem forall_read {mode : Mode} {stored : Stored} {queue : List Reference} {r : Reading}
    (hf : ∀ {o : Int} {st : Start} {ref : Reference} {f : Finding},
      (input mode stored).readAt o st ref = .ok f → P f.segment)
    (hd : ∀ ls bytes, P (.data ls bytes)) (h : read mode stored queue = .ok r) :
    ∀ seg ∈ r.segments, P seg := by
  unfold read at h
  obtain ⟨p, hp, h⟩ := bind_eq_ok_iff.1 h
  have hnone : Each P (∅ : Std.TreeMap Int Segment) := by
    intro o seg hd
    rw [Std.TreeMap.getElem?_emptyc] at hd
    cases hd
  have hdone : Each P p.done :=
    Progress.inv_of_follow (preserves_each hf) (p := { todo := _ }) hnone hp
  have hsegments : r.segments = ((input mode stored).fill p.done).values := by
    dsimp only at h
    split at h
    · cases h
      rfl
    · split at h
      · cases h
      · cases h
        rfl
  intro seg hm
  rw [hsegments, Offsets.values_eq] at hm
  obtain ⟨⟨o, seg⟩, he, rfl⟩ := List.mem_map.1 hm
  exact hdone.fill hd (Std.TreeMap.mem_toList_iff_getElem?_eq_some.1 he)

/-! ## Sizes -/

theorem Input.extent_of_readAt {s : Input} {o : Int} {st : Start} {r : Reference} {f : Finding}
    (h : s.readAt o st r = .ok f) : 0 ≤ f.segment.extent := by
  unfold readAt at h
  split at h
  · cases h
    exact Int.natCast_nonneg _
  · obtain ⟨⟨value, hseg⟩, -⟩ := readText_ok h
    rw [hseg]
    exact Int.natCast_nonneg _
  · obtain ⟨hseg, -⟩ := readCode_ok rfl h
    rw [hseg]
    exact total_nonneg (List.forall_mem_map.2 fun i hi =>
      Int.le_of_lt (forall_readInstructions gives_readInstruction _ i hi).2)

/-- No segment of a script that was read takes a negative number of bytes. -/
theorem extent_of_read {mode : Mode} {stored : Stored} {queue : List Reference} {r : Reading}
    (h : read mode stored queue = .ok r) : ∀ seg ∈ r.segments, 0 ≤ seg.extent :=
  forall_read Input.extent_of_readAt (fun _ _ => Int.natCast_nonneg _) h

/-! ## Writing -/

namespace Placement

def Inside (p : Placement) : Prop := 0 ≤ p.size ∧ ∀ e ∈ p.labels, 0 ≤ e.2 ∧ e.2 ≤ p.size

theorem Inside.addSegment {p q : Placement} (h : p.Inside) {s : Segment} (hs : 0 ≤ s.extent)
    (hq : p.addSegment s = .ok q) : q.Inside := by
  unfold Placement.addSegment at hq
  obtain ⟨p', hp', hq⟩ := bind_eq_ok_iff.1 hq
  obtain ⟨n, hn, hq⟩ := bind_eq_ok_iff.1 hq
  have hlabels : p'.Inside := by
    refine of_foldlM h ?_ hp'
    intro l _ p q hp hq
    unfold addLabel at hq
    split at hq
    · cases hq
    · cases hq
      exact ⟨hp.1, List.forall_mem_cons.2 ⟨⟨hp.1, Int.le_refl _⟩, hp.2⟩⟩
  have hsize : n = s.extent := by
    cases s with
    | code ls is | data ls bytes =>
      cases hn
      rfl
    | text ls value =>
      obtain ⟨units, -, hn⟩ := bind_eq_ok_iff.1 hn
      cases hn
      rfl
  cases hq
  subst hsize
  refine ⟨Int.add_nonneg hlabels.1 hs, fun e he => ?_⟩
  have hb := hlabels.2 e he
  dsimp only
  omega

theorem offsets_of_table {p : Placement} {table : List Int} (h : p.table = .ok table) :
    ∀ o ∈ table, o = -1 ∨ ∃ e ∈ p.labels, e.2 = o := by
  unfold Placement.table at h
  obtain ⟨filled, hf, h⟩ := bind_eq_ok_iff.1 h
  cases h
  refine of_foldlM (P := fun t : Array Int => ∀ o ∈ t.toList, o = -1 ∨ ∃ e ∈ p.labels, e.2 = o)
    ?_ ?_ hf
  · intro o ho
    rw [Array.toList_replicate] at ho
    exact Or.inl (List.eq_of_mem_replicate ho)
  · intro e he t t' ht hset o ho
    unfold setOffset at hset
    dsimp only at hset
    generalize (if e.1 < 0 then e.1 + (t.size : Int) else e.1) = i at hset
    split at hset
    · cases hset
    · cases hset
      rw [Array.toList_setIfInBounds] at ho
      rcases List.mem_or_eq_of_mem_set ho with ho | rfl
      · exact ht o ho
      · exact Or.inr ⟨e, List.mem_reverse.1 he, rfl⟩

end Placement

/-- A label table points into the code that it is written with, or to its end. -/
theorem offsets_of_write {segments : List Segment} {stored : Stored}
    (h : ∀ s ∈ segments, 0 ≤ s.extent) (hw : write segments = .ok stored) :
    ∀ o ∈ stored.offsets, o = -1 ∨ 0 ≤ o ∧ o ≤ stored.code.length := by
  unfold write at hw
  obtain ⟨p, hp, hw⟩ := bind_eq_ok_iff.1 hw
  obtain ⟨pieces, -, hw⟩ := bind_eq_ok_iff.1 hw
  have hinside : p.Inside := by
    refine of_foldlM ⟨Int.le_refl 0, fun e he => absurd he List.not_mem_nil⟩ ?_ hp
    exact fun s hs p q hp hq => hp.addSegment (h s hs) hq
  dsimp only at hw
  split at hw
  · cases hw
  · next hsize =>
    obtain ⟨table, ht, hw⟩ := bind_eq_ok_iff.1 hw
    cases hw
    intro o ho
    refine (Placement.offsets_of_table ht o ho).imp_right fun he => ?_
    obtain ⟨e, he, rfl⟩ := he
    have hb := hinside.2 e he
    rw [not_not] at hsize
    dsimp only
    omega

end ObjectCode
end QuestArchive
