import Mathlib.Data.List.Nodup
import QuestArchive.ObjectCode.Layout
import QuestArchive.Proofs.Lists

/-!
# The label table of a script

Segments with distinct labels have a label table: an entry of it is the offset of the
segment that has the label, or else -1, and the largest label has the last one.  A label that
comes twice is found before any table is made.
-/

namespace QuestArchive
namespace ObjectCode

/-- The labels of some segments with their offsets, the segments laid out one after the other
from a position on. -/
def placed (pos : Int) : List Segment → List (Int × Int)
  | [] => []
  | s :: rest => s.labels.map (·, pos) ++ placed (pos + s.extent) rest

theorem map_fst_placed (pos : Int) (segments : List Segment) :
    (placed pos segments).map Prod.fst = segments.flatMap Segment.labels := by
  induction segments generalizing pos with
  | nil => rfl
  | cons s rest ih => simp [placed, ih, Function.comp_def]

namespace Placement

theorem addLabel_ok {p : Placement} {label : Int} (h : label ∉ p.labels.map Prod.fst) :
    p.addLabel label = .ok { p with labels := (label, p.size) :: p.labels } := by
  unfold addLabel
  rw [if_neg]
  intro hany
  obtain ⟨e, he, hl⟩ := List.any_eq_true.1 hany
  exact h (List.mem_map.2 ⟨e, he, of_decide_eq_true hl⟩)

theorem foldlM_addLabel {labels : List Int} {p : Placement}
    (h : (labels.reverse ++ p.labels.map Prod.fst).Nodup) :
    labels.foldlM addLabel p =
      .ok { p with labels := (labels.map (·, p.size)).reverse ++ p.labels } := by
  induction labels generalizing p with
  | nil => rfl
  | cons label labels ih =>
    rw [List.reverse_cons, List.append_assoc, List.singleton_append] at h
    have hfree : label ∉ p.labels.map Prod.fst :=
      (List.nodup_cons.1 (List.nodup_append.1 h).2.1).1
    rw [List.foldlM_cons, addLabel_ok hfree]
    show labels.foldlM addLabel { p with labels := (label, p.size) :: p.labels } = _
    rw [ih (p := { p with labels := (label, p.size) :: p.labels }) h]
    simp

theorem addSegment_ok {s : Segment} {p : Placement} (hsize : s.size = .ok s.extent)
    (h : (s.labels.reverse ++ p.labels.map Prod.fst).Nodup) :
    p.addSegment s =
      .ok ⟨(s.labels.map (·, p.size)).reverse ++ p.labels, p.size + s.extent⟩ := by
  unfold addSegment
  rw [foldlM_addLabel h, ok_bind, hsize]
  rfl

/-- The labels of a segment stand in front of those placed before. -/
theorem keys_placed (labels : List Int) (size : Int) (entries : List (Int × Int)) :
    ((labels.map (·, size)).reverse ++ entries).map Prod.fst =
      labels.reverse ++ entries.map Prod.fst := by
  rw [List.map_append, List.map_reverse, List.map_map]
  exact congrArg (·.reverse ++ _) (List.map_id _)

theorem foldlM_addSegment {segments : List Segment} {p : Placement}
    (hsize : ∀ s ∈ segments, s.size = .ok s.extent)
    (h : ((segments.flatMap Segment.labels).reverse ++ p.labels.map Prod.fst).Nodup) :
    segments.foldlM addSegment p =
      .ok ⟨(placed p.size segments).reverse ++ p.labels,
        p.size + total (segments.map (·.extent))⟩ := by
  induction segments generalizing p with
  | nil =>
    show Except.ok p = _
    simp [placed, total]
  | cons s rest ih =>
    rw [List.flatMap_cons, List.reverse_append, List.append_assoc] at h
    rw [List.foldlM_cons, addSegment_ok (hsize s List.mem_cons_self) (List.nodup_append.1 h).2.1,
      ok_bind, ih (fun s' hs' => hsize s' (List.mem_cons_of_mem _ hs'))]
    · simp [placed, total, Int.add_assoc]
    · rw [keys_placed]
      exact h

theorem ofSegments_ok {segments : List Segment} (hsize : ∀ s ∈ segments, s.size = .ok s.extent)
    (h : (segments.flatMap Segment.labels).Nodup) :
    ofSegments segments =
      .ok ⟨(placed 0 segments).reverse, total (segments.map (·.extent))⟩ := by
  unfold ofSegments
  rw [foldlM_addSegment hsize (by simpa using h)]
  simp

/-! ## Labels that come twice -/

theorem addLabel_eq_error {p : Placement} {label : Int} (h : label ∈ p.labels.map Prod.fst) :
    p.addLabel label = .error (.duplicateLabel label) := by
  obtain ⟨e, he, rfl⟩ := List.mem_map.1 h
  unfold addLabel
  rw [if_pos]
  exact List.any_eq_true.2 ⟨e, he, decide_eq_true rfl⟩

theorem foldlM_addLabel_eq_error {labels : List Int} {p : Placement}
    (hp : (p.labels.map Prod.fst).Nodup)
    (h : ¬ (labels.reverse ++ p.labels.map Prod.fst).Nodup) :
    ∃ label, labels.foldlM addLabel p = .error (.duplicateLabel label) := by
  induction labels generalizing p with
  | nil => exact absurd hp h
  | cons label labels ih =>
    rw [List.foldlM_cons]
    by_cases hm : label ∈ p.labels.map Prod.fst
    · rw [addLabel_eq_error hm]
      exact ⟨label, rfl⟩
    · rw [addLabel_ok hm, ok_bind]
      rw [List.reverse_cons, List.append_assoc, List.singleton_append] at h
      apply ih
      · exact List.nodup_cons.2 ⟨hm, hp⟩
      · exact h

theorem foldlM_addSegment_eq_error {segments : List Segment} {p : Placement}
    (hsize : ∀ s ∈ segments, s.size = .ok s.extent) (hp : (p.labels.map Prod.fst).Nodup)
    (h : ¬ ((segments.flatMap Segment.labels).reverse ++ p.labels.map Prod.fst).Nodup) :
    ∃ label, segments.foldlM addSegment p = .error (.duplicateLabel label) := by
  induction segments generalizing p with
  | nil => exact absurd hp h
  | cons s rest ih =>
    rw [List.foldlM_cons]
    by_cases hs : (s.labels.reverse ++ p.labels.map Prod.fst).Nodup
    · rw [addSegment_ok (hsize s List.mem_cons_self) hs, ok_bind]
      rw [List.flatMap_cons, List.reverse_append, List.append_assoc] at h
      apply ih
      · exact fun s' hs' => hsize s' (List.mem_cons_of_mem _ hs')
      · rwa [keys_placed]
      · rwa [keys_placed]
    · obtain ⟨label, hl⟩ := foldlM_addLabel_eq_error hp hs
      unfold addSegment
      rw [hl]
      exact ⟨label, rfl⟩

/-- A label that comes twice, in one segment or in two, cannot be placed. -/
theorem ofSegments_eq_error {segments : List Segment}
    (hsize : ∀ s ∈ segments, s.size = .ok s.extent)
    (h : ¬ (segments.flatMap Segment.labels).Nodup) :
    ∃ label, ofSegments segments = .error (.duplicateLabel label) := by
  apply foldlM_addSegment_eq_error hsize
  · exact List.nodup_nil
  · simpa using h

/-! ## The table -/

theorem setOffset_ok {table : Array Int} {entry : Int × Int} (h0 : 0 ≤ entry.1)
    (h : entry.1 < table.size) :
    setOffset table entry = .ok (table.setIfInBounds entry.1.toNat entry.2) := by
  unfold setOffset
  dsimp only
  rw [if_neg (Int.not_lt.2 h0), if_neg (by omega)]

theorem foldlM_setOffset {entries : List (Int × Int)} {table : Array Int}
    (h : ∀ e ∈ entries, 0 ≤ e.1 ∧ e.1 < table.size) (hn : (entries.map Prod.fst).Nodup) :
    ∃ filled, entries.foldlM setOffset table = .ok filled ∧ filled.size = table.size ∧
      (∀ e ∈ entries, filled[e.1.toNat]? = some e.2) ∧
      ∀ n : Nat, (∀ e ∈ entries, e.1 ≠ n) → filled[n]? = table[n]? := by
  induction entries generalizing table with
  | nil => exact ⟨table, rfl, rfl, fun e he => absurd he List.not_mem_nil, fun n _ => rfl⟩
  | cons entry rest ih =>
    obtain ⟨h0, hlt⟩ := h entry List.mem_cons_self
    obtain ⟨hfree, hrest⟩ := List.nodup_cons.1 hn
    obtain ⟨filled, hf, hsize, hset, hkeep⟩ :=
      @ih (table.setIfInBounds entry.1.toNat entry.2)
        (by simpa using fun e he => h e (List.mem_cons_of_mem _ he)) hrest
    refine ⟨filled, ?_, by rw [hsize, Array.size_setIfInBounds], ?_, ?_⟩
    · rw [List.foldlM_cons, setOffset_ok h0 hlt]
      exact hf
    · intro e he
      rcases List.mem_cons.1 he with rfl | he
      · rw [hkeep _ ?_, Array.getElem?_setIfInBounds_self_of_lt (by omega)]
        intro e' he' heq
        exact hfree (List.mem_map.2 ⟨e', he', by omega⟩)
      · exact hset e he
    · intro n hne
      have hentry := hne entry List.mem_cons_self
      rw [hkeep n fun e he => hne e (List.mem_cons_of_mem _ he),
        Array.getElem?_setIfInBounds_ne (by omega)]

theorem table_ok {p : Placement} (h0 : ∀ e ∈ p.labels, 0 ≤ e.1)
    (hn : (p.labels.map Prod.fst).Nodup) :
    ∃ table, p.table = .ok table ∧ (∀ e ∈ p.labels, table[e.1.toNat]? = some e.2) ∧
      (∀ (n : Nat) (o : Int), table[n]? = some o → o = -1 ∨ ((n : Int), o) ∈ p.labels) ∧
      ∀ n : Nat, n < table.length ↔ ∃ e ∈ p.labels, (n : Int) ≤ e.1 := by
  have hcount : ∀ bound : Int, (p.labels.map fun e => e.1 + 1).foldl max 0 ≤ bound ↔
      0 ≤ bound ∧ ∀ e ∈ p.labels, e.1 + 1 ≤ bound := by
    intro bound
    rw [foldl_max_le_iff, List.forall_mem_map]
  generalize hc : (p.labels.map fun e => e.1 + 1).foldl max 0 = count at hcount
  obtain ⟨filled, hf, hsize, hset, hkeep⟩ := @foldlM_setOffset p.labels.reverse
    (Array.replicate count.toNat (-1)) (by
      intro e he
      have he := List.mem_reverse.1 he
      have hle := ((hcount count).1 (Int.le_refl _)).2 e he
      have h0' := h0 e he
      rw [Array.size_replicate]
      omega) (by rwa [List.map_reverse, List.nodup_reverse])
  refine ⟨filled.toList, ?_, ?_, ?_, ?_⟩
  · unfold table
    dsimp only
    rw [hc, hf]
    rfl
  · intro e he
    rw [Array.getElem?_toList]
    exact hset e (List.mem_reverse.2 he)
  · intro n o ho
    rw [Array.getElem?_toList] at ho
    by_cases hlabel : ∃ e ∈ p.labels, e.1 = n
    · obtain ⟨e, he, heq⟩ := hlabel
      have hse := hset e (List.mem_reverse.2 he)
      rw [show e.1.toNat = n by omega, ho] at hse
      refine Or.inr ?_
      rw [← heq, Option.some.inj hse]
      exact he
    · rw [hkeep n fun e he heq => hlabel ⟨e, List.mem_reverse.1 he, heq⟩] at ho
      rw [Array.getElem?_replicate] at ho
      split at ho
      · exact Or.inl (Option.some.inj ho).symm
      · cases ho
  · intro n
    have hlow := ((hcount count).1 (Int.le_refl _)).1
    have hn : n < filled.toList.length ↔ ¬ count ≤ n := by
      rw [Array.length_toList, hsize, Array.size_replicate]
      omega
    rw [hn, hcount]
    simp only [Int.natCast_nonneg, Int.add_one_le_iff, true_and, not_forall, Int.not_lt,
      exists_prop]

end Placement
end ObjectCode
end QuestArchive
