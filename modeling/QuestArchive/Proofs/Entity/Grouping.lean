import Mathlib.Data.List.Nodup
import Mathlib.Data.List.Sort
import QuestArchive.Entity.Table
import QuestArchive.Proofs.Lists

/-!
# Grouping by area sorts

The groups of the areas, one behind the other, are the entities stably sorted by area.
Sorting before grouping changes nothing.
-/

namespace QuestArchive
namespace Entity

variable {α : Type} {area : α → Int}

/-- Entities by ascending area, those of one area in the order they had. -/
def sortedByArea (area : α → Int) (entities : List α) : List α :=
  entities.mergeSort fun a b => area a ≤ area b

theorem decide_le_trans (area : α → Int) (a b c : α) (hab : decide (area a ≤ area b) = true)
    (hbc : decide (area b ≤ area c) = true) : decide (area a ≤ area c) = true :=
  decide_eq_true (Int.le_trans (of_decide_eq_true hab) (of_decide_eq_true hbc))

theorem decide_le_total (area : α → Int) (a b : α) :
    (decide (area a ≤ area b) || decide (area b ≤ area a)) = true := by
  simpa using Int.le_total (area a) (area b)

theorem pairwise_sortedByArea (area : α → Int) (entities : List α) :
    (sortedByArea area entities).Pairwise (area · ≤ area ·) :=
  (List.pairwise_mergeSort (decide_le_trans area) (decide_le_total area) entities).imp
    fun h => of_decide_eq_true h

theorem perm_sortedByArea (area : α → Int) (entities : List α) :
    (sortedByArea area entities).Perm entities := List.mergeSort_perm _ _

theorem sortedByArea_eq_self {entities : List α} (h : entities.Pairwise (area · ≤ area ·)) :
    sortedByArea area entities = entities :=
  List.mergeSort_of_pairwise (h.imp fun hle => decide_eq_true hle)

/-- Sorting is stable: the entities of one area keep their order. -/
theorem filter_sortedByArea (area : α → Int) (entities : List α) (a : Int) :
    (sortedByArea area entities).filter (area · = a) = entities.filter (area · = a) := by
  have hsub : (entities.filter (area · = a)).Sublist (sortedByArea area entities) := by
    refine List.sublist_mergeSort (decide_le_trans area) (decide_le_total area) ?_
      List.filter_sublist
    refine List.pairwise_of_forall_mem_list fun x hx y hy => decide_eq_true ?_
    rw [of_decide_eq_true (List.mem_filter.1 hx).2, of_decide_eq_true (List.mem_filter.1 hy).2]
  have hfilter := hsub.filter (area · = a)
  rw [List.filter_filter] at hfilter
  simp only [Bool.and_self] at hfilter
  refine (hfilter.eq_of_length ?_).symm
  exact ((perm_sortedByArea area entities).filter _).length_eq.symm

/-- Sorted lists that agree on each area are equal. -/
theorem eq_of_filter_eq {xs ys : List α} (hx : xs.Pairwise (area · ≤ area ·))
    (hy : ys.Pairwise (area · ≤ area ·))
    (h : ∀ a, xs.filter (area · = a) = ys.filter (area · = a)) : xs = ys := by
  have mem : ∀ {xs ys : List α}, (∀ a, xs.filter (area · = a) = ys.filter (area · = a)) →
      ∀ {x}, x ∈ xs → x ∈ ys := by
    intro xs ys h x hx
    have hf : x ∈ xs.filter (area · = area x) :=
      List.mem_filter.2 ⟨hx, decide_eq_true rfl⟩
    rw [h] at hf
    exact (List.mem_filter.1 hf).1
  induction xs generalizing ys with
  | nil =>
    cases ys with
    | nil => rfl
    | cons y ys =>
      exact absurd (mem (fun a => (h a).symm) List.mem_cons_self) List.not_mem_nil
  | cons x xs ih =>
    cases ys with
    | nil => exact absurd (mem h List.mem_cons_self) List.not_mem_nil
    | cons y ys =>
      obtain ⟨hxfirst, hxrest⟩ := List.pairwise_cons.1 hx
      obtain ⟨hyfirst, hyrest⟩ := List.pairwise_cons.1 hy
      have hle : area y ≤ area x := by
        rcases List.mem_cons.1 (mem h List.mem_cons_self) with he | hm
        · exact Int.le_of_eq (congrArg area he).symm
        · exact hyfirst x hm
      have hle' : area x ≤ area y := by
        rcases List.mem_cons.1 (mem (fun a => (h a).symm) List.mem_cons_self) with he | hm
        · exact Int.le_of_eq (congrArg area he).symm
        · exact hxfirst y hm
      have heq : area x = area y := Int.le_antisymm hle' hle
      have hhead := h (area x)
      simp only [List.filter_cons, heq, decide_true, if_true, List.cons.injEq] at hhead
      obtain ⟨rfl, -⟩ := hhead
      rw [ih hxrest hyrest fun a => ?_]
      have ha := h a
      simp only [List.filter_cons] at ha
      split at ha
      · exact (List.cons.inj ha).2
      · exact ha

/-! ## The groups -/

def areas (area : α → Int) (entities : List α) : List Int :=
  (entities.map area).eraseDups.mergeSort

theorem mem_areas {entities : List α} {a : Int} :
    a ∈ areas area entities ↔ ∃ e ∈ entities, area e = a := by
  unfold areas
  rw [(List.mergeSort_perm _ _).mem_iff, List.mem_eraseDups, List.mem_map]

theorem sorted_areas (area : α → Int) (entities : List α) :
    (areas area entities).Pairwise (· < ·) := by
  have hle : (areas area entities).Pairwise (· ≤ ·) :=
    (List.pairwise_mergeSort (decide_le_trans id) (decide_le_total id) _).imp
      fun h => of_decide_eq_true h
  have hne : (areas area entities).Nodup :=
    (List.mergeSort_perm _ _).nodup_iff.2 (nodup_eraseDups _)
  exact hle.imp₂ (fun _ _ hab hne => Int.lt_iff_le_and_ne.2 ⟨hab, hne⟩) hne

theorem groupByArea_eq (area : α → Int) (entities : List α) :
    groupByArea area entities =
      (areas area entities).map fun a => (a, entities.filter (area · = a)) := rfl

/-- Of distinct groups, only that of an area has entities of the area. -/
theorem flatMap_filter (entities : List α) (a : Int) {bs : List Int} (h : bs.Nodup) :
    bs.flatMap (fun b => (entities.filter (area · = b)).filter (area · = a)) =
      if a ∈ bs then entities.filter (area · = a) else [] := by
  induction bs with
  | nil => rfl
  | cons b bs ih =>
    obtain ⟨hb, hbs⟩ := List.nodup_cons.1 h
    rw [List.flatMap_cons, ih hbs, List.filter_filter]
    by_cases he : b = a
    · subst he
      rw [if_neg hb, if_pos List.mem_cons_self, List.append_nil]
      simp only [Bool.and_self]
    · have hnone : entities.filter (fun e => decide (area e = a) && decide (area e = b)) = [] := by
        refine List.filter_eq_nil_iff.2 fun e _ hand => ?_
        rw [Bool.and_eq_true, decide_eq_true_eq, decide_eq_true_eq] at hand
        exact he (hand.2.symm.trans hand.1)
      have hmem : a ∈ b :: bs ↔ a ∈ bs :=
        ⟨fun hm => (List.mem_cons.1 hm).resolve_left fun hab => he hab.symm, List.mem_cons_of_mem _⟩
      rw [hnone, List.nil_append]
      simp only [hmem]

/-- One behind the other, the groups are the sorted entities. -/
theorem flatMap_groupByArea (area : α → Int) (entities : List α) :
    (groupByArea area entities).flatMap (·.2) = sortedByArea area entities := by
  rw [groupByArea_eq, List.flatMap_map]
  refine eq_of_filter_eq ?_ (pairwise_sortedByArea area entities) fun a => ?_
  · refine List.pairwise_flatMap.2 ⟨fun a _ => ?_, (sorted_areas area entities).imp ?_⟩
    · refine List.pairwise_of_forall_mem_list fun x hx y hy => ?_
      rw [of_decide_eq_true (List.mem_filter.1 hx).2, of_decide_eq_true (List.mem_filter.1 hy).2]
    · intro a b hab x hx y hy
      rw [of_decide_eq_true (List.mem_filter.1 hx).2, of_decide_eq_true (List.mem_filter.1 hy).2]
      exact Int.le_of_lt hab
  · rw [filter_sortedByArea, List.filter_flatMap, flatMap_filter entities a
      ((sorted_areas area entities).imp fun hab => Int.ne_of_lt hab)]
    split
    · rfl
    · next hnone =>
      refine (List.filter_eq_nil_iff.2 fun e he hea => hnone ?_).symm
      exact mem_areas.2 ⟨e, he, of_decide_eq_true hea⟩

/-- Sorting first makes the same groups. -/
theorem groupByArea_sortedByArea (area : α → Int) (entities : List α) :
    groupByArea area (sortedByArea area entities) = groupByArea area entities := by
  have hareas : areas area (sortedByArea area entities) = areas area entities := by
    have anti : Std.Antisymm fun a b : Int => a < b :=
      ⟨fun a b hab hba => absurd hba (Int.lt_asymm hab)⟩
    have irrefl : Std.Irrefl fun a b : Int => a < b := ⟨fun a ha => Int.lt_irrefl _ ha⟩
    refine (sorted_areas area _).eq_of_mem_iff (sorted_areas area _) fun a => ?_
    rw [mem_areas, mem_areas]
    exact exists_congr fun e => and_congr_left' (perm_sortedByArea area entities).mem_iff
  rw [groupByArea_eq, groupByArea_eq, hareas]
  exact List.map_congr_left fun a _ => by rw [filter_sortedByArea]

/-- A group has just the entities of its area, and there is one. -/
theorem mem_groupByArea {entities : List α} {group : Int × List α}
    (h : group ∈ groupByArea area entities) :
    group.2 = entities.filter (area · = group.1) ∧ ∃ e ∈ entities, area e = group.1 := by
  rw [groupByArea_eq] at h
  obtain ⟨a, ha, rfl⟩ := List.mem_map.1 h
  exact ⟨rfl, mem_areas.1 ha⟩

end Entity
end QuestArchive
