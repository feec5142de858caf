import Mathlib.Data.List.Perm.Basic
import QuestArchive.Proofs.Entity.Grouping
import QuestArchive.Proofs.Lists
import QuestArchive.Quest.Codec

/-!
# The labels where code is known to start

They come from the objects and NPCs of a quest in any order; reading the script depends on
the set of them alone.
-/

namespace QuestArchive

namespace ObjectCode

theorem sorted_entryLabels (labels : List Int) :
    labels.eraseDups.mergeSort.Pairwise (· < ·) := by
  have hs := Entity.sorted_areas id labels
  unfold Entity.areas at hs
  rwa [List.map_id] at hs

theorem entries_congr {labels labels' : List Int} (h : ∀ l, l ∈ labels ↔ l ∈ labels') :
    entries labels = entries labels' := by
  have anti : Std.Antisymm fun a b : Int => a < b :=
    ⟨fun a b hab hba => absurd hba (Int.lt_asymm hab)⟩
  have irrefl : Std.Irrefl fun a b : Int => a < b := ⟨fun a ha => Int.lt_irrefl _ ha⟩
  unfold entries
  rw [(sorted_entryLabels labels).eq_of_mem_iff (sorted_entryLabels labels') fun l => ?_]
  rw [(List.mergeSort_perm _ _).mem_iff, (List.mergeSort_perm _ _).mem_iff, List.mem_eraseDups,
    List.mem_eraseDups, h]

end ObjectCode

namespace Quest

def labelsWith (objects : List QuestObject) (more : List Int) : Except Fault (List Int) := do
  let fromObjects ← objects.mapM (·.scriptLabels)
  return 0 :: fromObjects.flatten ++ more

/-- The labels where code of a quest is known to start. -/
def labels (q : Quest) : Except Fault (List Int) :=
  labelsWith q.objects (q.npcs.filterMap (·.scriptLabel))

variable {objects objects' : List QuestObject} {more more' labels : List Int}

/-- Neither the order of objects and NPCs matters to the labels nor that of properties. -/
theorem exists_labelsWith_perm {f : QuestObject → QuestObject}
    (h : labelsWith objects more = .ok labels) (ho : objects'.Perm (objects.map f))
    (hf : ∀ o ∈ objects, (f o).scriptLabels = o.scriptLabels) (hm : more'.Perm more) :
    ∃ labels', labelsWith objects' more' = .ok labels' ∧ labels'.Perm labels := by
  unfold labelsWith at h ⊢
  obtain ⟨ls, hls, h⟩ := bind_eq_ok_iff.1 h
  cases h
  have hmap : List.Forall₂ (fun o l => QuestObject.scriptLabels o = .ok l) (objects.map f) ls := by
    refine List.forall₂_map_left_iff.2 (forall₂_imp_mem (mapM_eq_ok_iff.1 hls) ?_)
    exact fun o hm l _ hl => (hf o hm).trans hl
  obtain ⟨ls', hls', hp⟩ := List.perm_comp_forall₂ ho hmap
  rw [mapM_eq_ok_iff.2 hls']
  exact ⟨_, rfl, (hp.flatten.append hm).cons 0⟩

end Quest
end QuestArchive
