import QuestArchive.Proofs.Entity.Table

/-!
# A table comes back from its bytes

`table_round_trip`: a table that can be stored is written and read again with its objects
and its NPCs stably sorted by area, its kept sections in their order, and one notice for
each kept section that is a part of a record.  The one thing that a storable table may lack
is room: a header states the size of its section in a word, and nothing is written where an
area has more records than that.
-/

namespace QuestArchive
namespace Entity

/-! ## Sizes that no header can state -/

section Groups

variable {α : Type} {area : α → Int} {kind size : Nat} {write : α → Except Fault Bytes}
  {entities : List α}

theorem writeGroup_eq_error {group : Int × List α} (hk : Word.Fits 4 kind)
    (hs : ¬Word.Fits 4 (group.2.length * size + sectionHeaderSize : Nat)) :
    writeGroup kind size write group = .error .fieldRange := by
  obtain ⟨_, -, -, wk⟩ := Field.exists_unsigned hk
  have wt : Field.unsigned 4 (group.2.length * size + sectionHeaderSize : Nat) =
      .error .fieldRange := if_neg hs
  unfold writeGroup sectionHeader Field.u32
  rw [wk, ok_bind, wt]
  rfl

/-- The groups of storable entities are written, all of them or none. -/
theorem writeGroups_eq_error (hk : Word.Fits 4 kind)
    (hw : ∀ x ∈ entities, Word.Fits 4 (area x) ∧ ∃ bs, write x = .ok bs) {a : Int}
    (hs : ¬Word.Fits 4
      ((entities.filter (area · = a)).length * size + sectionHeaderSize : Nat)) :
    (groupByArea area entities).mapM (writeGroup kind size write) = .error .fieldRange := by
  refine mapM_eq_error (fun group hg => ?_) ?_
  · by_cases hfits : Word.Fits 4 (group.2.length * size + sectionHeaderSize : Nat)
    · obtain ⟨hgroup, x, hx, ha⟩ := mem_groupByArea hg
      refine Or.inl (exists_writeGroup hk (ha ▸ (hw x hx).1) hfits fun y hy => ?_)
      rw [hgroup] at hy
      exact (hw y (List.mem_filter.1 hy).1).2
    · exact Or.inr (writeGroup_eq_error hk hfits)
  -- an area without entities has a header that fits, so this one has a group
  · have hne : entities.filter (area · = a) ≠ [] := by
      intro hnil
      rw [hnil, List.length_nil, Nat.zero_mul] at hs
      exact hs ⟨by decide, by decide⟩
    obtain ⟨x, hx⟩ := List.exists_mem_of_ne_nil _ hne
    obtain ⟨hx, ha⟩ := List.mem_filter.1 hx
    refine ⟨(a, entities.filter (area · = a)), ?_, writeGroup_eq_error hk hs⟩
    rw [groupByArea_eq]
    exact List.mem_map.2 ⟨a, mem_areas.2 ⟨x, hx, of_decide_eq_true ha⟩, rfl⟩

end Groups

namespace Table

/-- A table with a section too large for its header is not written. -/
theorem write_eq_error {t : Table} (h : t.Storable) (hs : ¬t.Sized) :
    t.write = .error .fieldRange := by
  obtain ⟨wo, wn⟩ := exists_write_entities h
  unfold write
  by_cases ho : ∀ a, Word.Fits 4
      ((t.objects.filter (·.areaId = a)).length * objectSize + sectionHeaderSize : Nat)
  · obtain ⟨a, ha⟩ := not_forall.1 fun hn => hs ⟨ho, hn⟩
    obtain ⟨os, hos⟩ := exists_writeGroups fits_kinds.1 wo ho
    rw [hos, ok_bind, writeGroups_eq_error fits_kinds.2 wn ha]
    rfl
  · obtain ⟨a, ha⟩ := not_forall.1 ho
    rw [writeGroups_eq_error fits_kinds.1 wo ha]
    rfl

/-! ## The round trip -/

/-- A table that can be stored comes back arranged: its objects and NPCs stably sorted by
area, its kept sections as they were, and no notice but that of each part of a record.  If
the section of an area is too large for its header, the table is not written. -/
theorem table_round_trip {t : Table} (h : t.Storable) :
    (t.Sized → ∃ bs, t.write = .ok bs ∧ read bs = .ok t.arranged) ∧
      (¬t.Sized → t.write = .error .fieldRange) := by
  constructor
  · intro hs
    obtain ⟨bs, hw⟩ := exists_write h hs
    exact ⟨bs, hw, read_of_write h hw⟩
  · exact write_eq_error h

def objectAt (area id : Int) : ObjectRecord where
  typeId := 1
  id := id
  groupId := 0
  sectionId := 3
  position := ⟨.zero, .zero, .zero⟩
  rotation := ⟨.zero, .zero, .zero⟩
  properties := [.float .zero, .float .zero, .float .zero, .int 0, .int 1, .int 2, .int 3]
  areaId := area
  unknown := [List.replicate 6 5, List.replicate 2 0]

/-- Two areas taking turns, bytes left of an object, and a section of no known kind. -/
def alternating : Table where
  objects := [objectAt 2 7, objectAt 1 8, objectAt 2 9]
  npcs := [{
    typeId := 0x44, sectionId := 3, position := ⟨.zero, .zero, .zero⟩
    rotation := ⟨.zero, .zero, .zero⟩, scale := ⟨.zero, .zero, .zero⟩, npcId := .zero
    scriptLabel := .zero, roaming := 1, areaId := 1
    unknown := [List.replicate 10 0, List.replicate 6 0, List.replicate 4 0] }]
  kept := [⟨1, 19, 4, 3, [1, 2, 3]⟩, ⟨9, 18, 0, 2, [4, 5]⟩]

theorem storable_alternating : alternating.Storable := by
  have zero := Double.isSingle_zero
  have origin := Vec3.isSingle_zero
  have upright := Vec3.isRotation_zero
  have object : ∀ area id, Word.Fits 4 area → Word.Fits 2 id →
      (objectAt area id).Storable ∧ Word.Fits 4 area := fun area id ha hi =>
    ⟨⟨show Word.Fits 2 1 by decide, hi, show Word.Fits 2 0 by decide, show Word.Fits 2 3 by decide,
      origin, upright,
      ⟨.zero, .zero, .zero, [0, 1, 2, 3], rfl, ⟨zero, zero, zero⟩, rfl, by decide⟩, rfl⟩, ha⟩
  constructor
  · exact List.forall_mem_cons.2 ⟨object 2 7 (by decide) (by decide), List.forall_mem_cons.2
      ⟨object 1 8 (by decide) (by decide), List.forall_mem_singleton.2
        (object 2 9 (by decide) (by decide))⟩⟩
  · exact List.forall_mem_singleton.2 ⟨⟨by decide, by decide, origin, upright, origin, zero, zero,
      by decide, rfl⟩, by decide⟩
  · exact List.forall_mem_cons.2 ⟨⟨by decide, by decide, rfl, rfl, by decide, by decide,
      fun _ => by decide, fun he => absurd he (by decide)⟩, List.forall_mem_singleton.2
        ⟨by decide, by decide, rfl, rfl, by decide, by decide,
          fun he => absurd he (by decide), fun he => absurd he (by decide)⟩⟩

theorem sized_alternating : alternating.Sized := by
  constructor
  · intro a
    have hle := List.length_filter_le (fun o : ObjectRecord => o.areaId = a) alternating.objects
    have hlen : alternating.objects.length = 3 := rfl
    refine ⟨Int.natCast_nonneg _, Int.ofNat_lt.2 ?_⟩
    show _ * 68 + 16 < 2 ^ 32
    omega
  · intro a
    have hle := List.length_filter_le (fun n : NpcRecord => n.areaId = a) alternating.npcs
    have hlen : alternating.npcs.length = 1 := rfl
    refine ⟨Int.natCast_nonneg _, Int.ofNat_lt.2 ?_⟩
    show _ * 72 + 16 < 2 ^ 32
    omega

theorem table_round_trip_alternating : alternating.Storable ∧ alternating.Sized ∧
    alternating.arranged.objects = [objectAt 1 8, objectAt 2 7, objectAt 2 9] ∧
    alternating.arranged.diagnostics.length = 1 ∧
    ∃ bs, alternating.write = .ok bs ∧ read bs = .ok alternating.arranged := by
  refine ⟨storable_alternating, sized_alternating, ?_, rfl, ?_⟩
  · simp [alternating, arranged, sortedByArea, List.mergeSort,
      List.MergeSort.Internal.splitInTwo, objectAt]
  · exact (table_round_trip storable_alternating).1 sized_alternating

def blank : ObjectRecord where
  typeId := 0
  id := 0
  groupId := 0
  sectionId := 0
  position := ⟨.zero, .zero, .zero⟩
  rotation := ⟨.zero, .zero, .zero⟩
  properties := [.float .zero, .float .zero, .float .zero, .int 0, .int 0, .int 0, .int 0]
  areaId := 0
  unknown := [List.replicate 6 0, List.replicate 2 0]

theorem stored_blank : ObjectRecord.Stored 0 (List.replicate objectSize 0) blank := by
  refine (Read.within_eq_ok_iff (ObjectRecord.describes_read 0) fun h => ?_).1
    (by decide +kernel)
  rw [ObjectRecord.length_of_stored h, List.length_replicate]

def crowd (n : Nat) : Table where
  objects := List.replicate n blank

theorem storable_crowd (n : Nat) : (crowd n).Storable where
  objects o ho := by
    rw [List.eq_of_mem_replicate ho]
    exact ⟨(ObjectRecord.storable_of_stored stored_blank).1, by decide⟩
  npcs _ hn := absurd hn List.not_mem_nil
  kept _ hs := absurd hs List.not_mem_nil

theorem write_crowd {n : Nat} (h : 2 ^ 32 ≤ n * objectSize + sectionHeaderSize) :
    (crowd n).write = .error .fieldRange := by
  refine write_eq_error (storable_crowd n) fun hs => ?_
  have hfits := Int.ofNat_lt.1 (hs.objects 0).2
  have hall : (crowd n).objects.filter (·.areaId = 0) = (crowd n).objects :=
    List.filter_replicate_of_pos rfl
  have hlen : (crowd n).objects.length = n := List.length_replicate
  rw [hall, hlen] at hfits
  exact Nat.not_lt_of_le h hfits

/-- The least crowd whose section has a size that no header states. -/
theorem table_round_trip_crowded :
    (crowd 63161284).Storable ∧ (crowd 63161284).write = .error .fieldRange :=
  ⟨storable_crowd _, write_crowd (by decide)⟩

end Table
end Entity
end QuestArchive
