import QuestArchive.Proofs.Entity.Grouping
import QuestArchive.Proofs.Entity.Record
import QuestArchive.Proofs.Entity.Section

/-!
# A written table is read again

Writing sorts the entities by area and reading keeps the order it finds, so that what is
read from a written table is the table sorted.  Whatever is read can be stored.
-/

namespace QuestArchive
namespace Entity

/-! ## Records one behind the other -/

section Records

variable {α : Type} {read : Read α} {size : Nat} {Stored : Bytes → α → Prop}

theorem readRecords_eq_ok_iff (h : Read.Describes read Stored)
    (hs : ∀ {bs x}, Stored bs x → bs.length = size) {body : Bytes} {xs : List α} :
    readRecords read size body = .ok xs ↔
      List.Forall₂ Stored (Read.groups size (body.length / size) body) xs := by
  have hgroups : ∀ g ∈ Read.groups size (body.length / size) body, g.length = size :=
    (Read.flatten_groups (Nat.mul_div_le _ _)).1
  unfold readRecords
  rw [mapM_eq_ok_iff]
  constructor
  · intro hf
    refine forall₂_imp_mem hf fun g hg x _ hx => ?_
    exact (Read.within_eq_ok_iff h fun hr => (hs hr).trans (hgroups g hg).symm).1 hx
  · intro hf
    refine forall₂_imp_mem hf fun g hg x _ hx => ?_
    exact (Read.within_eq_ok_iff h fun hr => (hs hr).trans (hgroups g hg).symm).2 hx

/-- Stored records are read again, and nothing is left of their bytes. -/
theorem readRecords_flatten (h : Read.Describes read Stored)
    (hs : ∀ {bs x}, Stored bs x → bs.length = size) (h0 : 0 < size) {pieces : List Bytes}
    {xs : List α} (hp : List.Forall₂ Stored pieces xs) (kind area : Nat) :
    readRecords read size pieces.flatten = .ok xs ∧
      leftover ⟨kind, area, pieces.flatten⟩ size = ([], []) := by
  have hlen : ∀ p ∈ pieces, p.length = size := by
    intro p hm
    obtain ⟨x, -, hx⟩ := exists_of_forall₂ hp p hm
    exact hs hx
  have htotal := length_flatten_of_forall hlen
  constructor
  · have hgroups := Read.groups_flatten hlen []
    rw [List.append_nil] at hgroups
    rw [readRecords_eq_ok_iff h hs, htotal, Nat.mul_div_cancel _ h0, hgroups]
    exact hp
  · unfold leftover
    rw [htotal, Nat.mul_mod_left]
    rfl

end Records

/-! ## Sections -/

theorem ofSection_objects {area : Nat} {pieces : List Bytes} {os : List ObjectRecord}
    (h : List.Forall₂ (ObjectRecord.Stored area) pieces os) :
    Table.ofSection ⟨objectKind, area, pieces.flatten⟩ = .ok { objects := os } := by
  obtain ⟨hread, hrest⟩ := readRecords_flatten (ObjectRecord.describes_read area)
    ObjectRecord.length_of_stored (by decide) h objectKind area
  unfold Table.ofSection
  rw [if_pos rfl]
  show (readRecords _ _ _ >>= fun os => _) = _
  rw [hread, hrest]
  rfl

theorem ofSection_npcs {area : Nat} {pieces : List Bytes} {ns : List NpcRecord}
    (h : List.Forall₂ (NpcRecord.Stored area) pieces ns) :
    Table.ofSection ⟨npcKind, area, pieces.flatten⟩ = .ok { npcs := ns } := by
  obtain ⟨hread, hrest⟩ := readRecords_flatten (NpcRecord.describes_read area)
    NpcRecord.length_of_stored (by decide) h npcKind area
  unfold Table.ofSection
  rw [if_neg (show npcKind ≠ objectKind by decide), if_pos rfl]
  show (readRecords _ _ _ >>= fun ns => _) = _
  rw [hread, hrest]
  rfl

namespace KeptSection

/-- A kept section that is read as it is: its sizes are those of its bytes, and if its kind is
that of records then its bytes are a part of one. -/
structure Storable (s : KeptSection) : Prop where
  entityType : Word.Fits 4 s.entityType
  areaId : Word.Fits 4 s.areaId
  totalSize : s.totalSize = s.data.length + sectionHeaderSize
  entitiesSize : s.entitiesSize = s.data.length
  fits : Word.Fits 4 s.totalSize
  opens : s.entityType ≠ 0
  objects : s.entityType = objectKind → 0 < s.data.length ∧ s.data.length < objectSize
  npcs : s.entityType = npcKind → 0 < s.data.length ∧ s.data.length < npcSize

def diagnostics (s : KeptSection) : List Diagnostic :=
  if s.entityType = objectKind then
    [{ notice := .sectionRemainder true s.areaId.toNat objectSize s.data.length }]
  else if s.entityType = npcKind then
    [{ notice := .sectionRemainder false s.areaId.toNat npcSize s.data.length }]
  else []

theorem ofBody_eq {s : KeptSection} (h : s.Storable) :
    ofBody s.entityType.toNat s.areaId.toNat s.data = s := by
  obtain ⟨entityType, totalSize, areaId, entitiesSize, data⟩ := s
  obtain ⟨⟨hk, -⟩, ⟨ha, -⟩, ht, hs, -, -, -, -⟩ := h
  dsimp only at hk ha ht hs
  unfold ofBody
  rw [Int.toNat_of_nonneg hk, Int.toNat_of_nonneg ha, ht, hs]

/-- Fewer bytes than a record has are no record, and all of them are left. -/
theorem readRecords_short {α : Type} (read : Read α) {size kind area : Nat} {body : Bytes}
    (h0 : 0 < body.length) (h : body.length < size) :
    readRecords read size body = .ok [] ∧ leftover ⟨kind, area, body⟩ size =
      ([.ofBody kind area body],
        [{ notice := .sectionRemainder (kind = objectKind) area size body.length }]) := by
  constructor
  · unfold readRecords
    rw [Nat.div_eq_of_lt h]
    rfl
  · unfold leftover
    dsimp only
    rw [Nat.mod_eq_of_lt h, if_neg (by omega), Nat.sub_self, List.drop_zero]

theorem ofSection_eq {s : KeptSection} (h : s.Storable) :
    Table.ofSection ⟨s.entityType.toNat, s.areaId.toNat, s.data⟩ =
      .ok { kept := [s], diagnostics := s.diagnostics } := by
  have hkind : (s.entityType.toNat : Int) = s.entityType := Int.toNat_of_nonneg h.entityType.1
  have hnat : ∀ k : Nat, s.entityType.toNat = k ↔ s.entityType = k := fun k => by omega
  have hself := ofBody_eq h
  unfold Table.ofSection diagnostics
  dsimp only
  by_cases h1 : s.entityType = objectKind
  · obtain ⟨hpos, hlt⟩ := h.objects h1
    obtain ⟨hread, hrest⟩ := @readRecords_short _ (ObjectRecord.read s.areaId.toNat) objectSize
      s.entityType.toNat s.areaId.toNat s.data hpos hlt
    rw [if_pos ((hnat _).2 h1), if_pos h1, hrest, hself]
    show (readRecords _ _ _ >>= fun os => _) = _
    rw [hread, decide_eq_true ((hnat _).2 h1)]
    rfl
  · rw [if_neg fun he => h1 ((hnat _).1 he), if_neg h1]
    by_cases h2 : s.entityType = npcKind
    · obtain ⟨hpos, hlt⟩ := h.npcs h2
      obtain ⟨hread, hrest⟩ := @readRecords_short _ (NpcRecord.read s.areaId.toNat) npcSize
        s.entityType.toNat s.areaId.toNat s.data hpos hlt
      rw [if_pos ((hnat _).2 h2), if_pos h2, hrest, hself]
      show (readRecords _ _ _ >>= fun ns => _) = _
      rw [hread, decide_eq_false fun he => h1 ((hnat _).1 he)]
      rfl
    · rw [if_neg fun he => h2 ((hnat _).1 he), if_neg h2, hself]
      rfl

end KeptSection

/-! ## Headers -/

theorem stored_of_sectionHeader {kind : Nat} {area : Int} {body bs : Bytes} (h0 : kind ≠ 0)
    (h : sectionHeader kind area body.length = .ok bs) :
    Section.Stored (bs ++ body) ⟨kind, area.toNat, body⟩ ∧ 0 ≤ area := by
  unfold sectionHeader at h
  obtain ⟨kind', hk, h⟩ := bind_eq_ok_iff.1 h
  obtain ⟨total, ht, h⟩ := bind_eq_ok_iff.1 h
  obtain ⟨area', ha, h⟩ := bind_eq_ok_iff.1 h
  obtain ⟨size, hs, h⟩ := bind_eq_ok_iff.1 h
  obtain ⟨lk, hk⟩ := Field.unsigned_eq_ok_iff.1 hk
  obtain ⟨lt, ht⟩ := Field.unsigned_eq_ok_iff.1 ht
  obtain ⟨la, ha⟩ := Field.unsigned_eq_ok_iff.1 ha
  obtain ⟨ls, hs⟩ := Field.unsigned_eq_ok_iff.1 hs
  cases h
  have ha' : area.toNat = Word.decode area' := by omega
  refine ⟨⟨kind', total, area', size, ⟨lk, lt, la, ls⟩, ?_, Int.ofNat.inj hk, h0, ?_, ha', ?_⟩,
    by omega⟩
  · simp only [List.append_assoc]
  · exact (Int.ofNat.inj ht).symm
  · exact (Int.ofNat.inj hs).symm

theorem exists_sectionHeader {kind : Nat} {area : Int} {size : Nat} (hk : Word.Fits 4 kind)
    (ha : Word.Fits 4 area) (hs : Word.Fits 4 (size + sectionHeaderSize : Nat)) :
    ∃ bs, sectionHeader kind area size = .ok bs := by
  have hsize : Word.Fits 4 size := ⟨Int.natCast_nonneg _, by have := hs.2; omega⟩
  obtain ⟨_, -, -, wk⟩ := Field.exists_unsigned hk
  obtain ⟨_, -, -, wt⟩ := Field.exists_unsigned hs
  obtain ⟨_, -, -, wa⟩ := Field.exists_unsigned ha
  obtain ⟨_, -, -, ws⟩ := Field.exists_unsigned hsize
  unfold sectionHeader Field.u32
  rw [wk, wt, wa, ws]
  exact ⟨_, rfl⟩

namespace KeptSection

theorem write_eq {s : KeptSection} (h : s.Storable) :
    s.write = sectionHeader s.entityType.toNat s.areaId s.data.length >>= fun header =>
      .ok (header ++ s.data) := by
  have hkind : (s.entityType.toNat : Int) = s.entityType := Int.toNat_of_nonneg h.entityType.1
  unfold KeptSection.write sectionHeader
  simp only [hkind, h.totalSize, h.entitiesSize, bind_assoc, pure_bind]
  rfl

theorem exists_write {s : KeptSection} (h : s.Storable) : ∃ bs, s.write = .ok bs := by
  have hkind : (s.entityType.toNat : Int) = s.entityType := Int.toNat_of_nonneg h.entityType.1
  obtain ⟨header, hh⟩ := exists_sectionHeader (hkind ▸ h.entityType) h.areaId
    (h.totalSize ▸ h.fits)
  rw [write_eq h, hh]
  exact ⟨_, rfl⟩

theorem stored_of_write {s : KeptSection} (h : s.Storable) {bs : Bytes} (hw : s.write = .ok bs) :
    Section.Stored bs ⟨s.entityType.toNat, s.areaId.toNat, s.data⟩ := by
  rw [write_eq h] at hw
  obtain ⟨header, hh, hw⟩ := bind_eq_ok_iff.1 hw
  cases hw
  have h0 : s.entityType.toNat ≠ 0 := by
    have hopens := h.opens
    have hnat := h.entityType.1
    omega
  exact (stored_of_sectionHeader h0 hh).1

end KeptSection

/-! ## Groups -/

section Groups

variable {α : Type} {kind size : Nat} {write : α → Except Fault Bytes}
  {Q : Int → Bytes → α → Prop} {group : Int × List α}

theorem stored_of_writeGroup (h0 : kind ≠ 0)
    (hw : ∀ x ∈ group.2, ∃ bs, write x = .ok bs ∧ Q group.1 bs x)
    (hs : ∀ {a bs x}, Q a bs x → bs.length = size) {bs : Bytes}
    (h : writeGroup kind size write group = .ok bs) :
    0 ≤ group.1 ∧ ∃ pieces, List.Forall₂ (Q group.1.toNat) pieces group.2 ∧
      Section.Stored bs ⟨kind, group.1.toNat, pieces.flatten⟩ := by
  unfold writeGroup at h
  obtain ⟨header, hh, h⟩ := bind_eq_ok_iff.1 h
  obtain ⟨pieces, hp, h⟩ := bind_eq_ok_iff.1 h
  cases h
  have hstored : List.Forall₂ (Q group.1) pieces group.2 := by
    refine (forall₂_imp_mem (mapM_eq_ok_iff.1 hp) fun x hx p _ hxp => ?_).flip
    obtain ⟨p', hp', hs'⟩ := hw x hx
    rw [hxp] at hp'
    cases hp'
    exact hs'
  have hlen : pieces.flatten.length = group.2.length * size := by
    rw [← hstored.length_eq]
    refine length_flatten_of_forall fun p hp => ?_
    obtain ⟨x, -, hx⟩ := exists_of_forall₂ hstored p hp
    exact hs hx
  rw [← hlen] at hh
  obtain ⟨hsection, hnonneg⟩ := stored_of_sectionHeader h0 hh
  refine ⟨hnonneg, pieces, ?_, hsection⟩
  rw [Int.toNat_of_nonneg hnonneg]
  exact hstored

theorem exists_writeGroup (hk : Word.Fits 4 kind) (ha : Word.Fits 4 group.1)
    (hsize : Word.Fits 4 (group.2.length * size + sectionHeaderSize : Nat))
    (hw : ∀ x ∈ group.2, ∃ bs, write x = .ok bs) :
    ∃ bs, writeGroup kind size write group = .ok bs := by
  obtain ⟨header, hh⟩ := exists_sectionHeader hk ha hsize
  obtain ⟨pieces, hp⟩ := exists_forall₂ hw
  unfold writeGroup
  rw [hh, mapM_eq_ok_iff.2 hp]
  exact ⟨_, rfl⟩

/-- Entities that can be written are written in groups, if each group has a size that fits. -/
theorem exists_writeGroups {area : α → Int} {entities : List α} (hk : Word.Fits 4 kind)
    (hw : ∀ x ∈ entities, Word.Fits 4 (area x) ∧ ∃ bs, write x = .ok bs)
    (hs : ∀ a, Word.Fits 4
      ((entities.filter (area · = a)).length * size + sectionHeaderSize : Nat)) :
    ∃ pieces, (groupByArea area entities).mapM (writeGroup kind size write) = .ok pieces := by
  have hgroups : ∀ group ∈ groupByArea area entities,
      ∃ bs, writeGroup kind size write group = .ok bs := by
    intro group hg
    obtain ⟨hgroup, x, hx, ha⟩ := mem_groupByArea hg
    refine exists_writeGroup hk (ha ▸ (hw x hx).1) (hgroup ▸ hs group.1) fun y hy => ?_
    rw [hgroup] at hy
    exact (hw y (List.mem_filter.1 hy).1).2
  obtain ⟨pieces, hp⟩ := exists_forall₂ hgroups
  exact ⟨pieces, mapM_eq_ok_iff.2 hp⟩

end Groups

theorem sections_flatten {pieces : List Bytes} {ss more : List Section} {rest : Bytes}
    (h : List.Forall₂ Section.Stored pieces ss) (hr : Sections rest more) :
    Sections (pieces.flatten ++ rest) (ss ++ more) := by
  induction h with
  | nil => exact hr
  | cons hs _ ih =>
    rw [List.flatten_cons, List.append_assoc]
    exact .cons hs ih

/-! ## Tables -/

namespace Table

structure Storable (t : Table) : Prop where
  objects : ∀ o ∈ t.objects, o.Storable ∧ Word.Fits 4 o.areaId
  npcs : ∀ n ∈ t.npcs, n.Storable ∧ Word.Fits 4 n.areaId
  kept : ∀ s ∈ t.kept, s.Storable

/-- The size of each area's section can be stated in its header. -/
structure Sized (t : Table) : Prop where
  objects : ∀ a, Word.Fits 4
    ((t.objects.filter (·.areaId = a)).length * objectSize + sectionHeaderSize : Nat)
  npcs : ∀ a, Word.Fits 4
    ((t.npcs.filter (·.areaId = a)).length * npcSize + sectionHeaderSize : Nat)

/-- A table as it is read once it has been written. -/
def arranged (t : Table) : Table where
  objects := sortedByArea (·.areaId) t.objects
  npcs := sortedByArea (·.areaId) t.npcs
  kept := t.kept
  diagnostics := t.kept.flatMap (·.diagnostics)

section

variable {t : Table}

theorem exists_write_entities (h : t.Storable) :
    (∀ o ∈ t.objects, Word.Fits 4 o.areaId ∧ ∃ bs, o.write = .ok bs) ∧
      ∀ n ∈ t.npcs, Word.Fits 4 n.areaId ∧ ∃ bs, n.write = .ok bs := by
  constructor
  · intro o ho
    obtain ⟨bs, hw, -⟩ := ObjectRecord.exists_write (h.objects o ho).1
    exact ⟨(h.objects o ho).2, bs, hw⟩
  · intro n hn
    obtain ⟨bs, hw, -⟩ := NpcRecord.exists_write (h.npcs n hn).1
    exact ⟨(h.npcs n hn).2, bs, hw⟩

theorem exists_write_objects (h : t.Storable) {group : Int × List ObjectRecord}
    (hg : group ∈ groupByArea (·.areaId) t.objects) :
    ∀ o ∈ group.2, ∃ bs, o.write = .ok bs ∧ ObjectRecord.Stored group.1 bs o := by
  intro o ho
  rw [(mem_groupByArea hg).1] at ho
  obtain ⟨ho, ha⟩ := List.mem_filter.1 ho
  rw [← of_decide_eq_true ha]
  exact ObjectRecord.exists_write (h.objects o ho).1

theorem exists_write_npcs (h : t.Storable) {group : Int × List NpcRecord}
    (hg : group ∈ groupByArea (·.areaId) t.npcs) :
    ∀ n ∈ group.2, ∃ bs, n.write = .ok bs ∧ NpcRecord.Stored group.1 bs n := by
  intro n hn
  rw [(mem_groupByArea hg).1] at hn
  obtain ⟨hn, ha⟩ := List.mem_filter.1 hn
  rw [← of_decide_eq_true ha]
  exact NpcRecord.exists_write (h.npcs n hn).1

theorem concat_parts {os : List (Int × List ObjectRecord)} {ns : List (Int × List NpcRecord)}
    (ks : List KeptSection) :
    concat (os.map (fun group => { objects := group.2 }) ++
      (ns.map (fun group => { npcs := group.2 }) ++
        ks.map fun k => { kept := [k], diagnostics := k.diagnostics })) =
      { objects := os.flatMap (·.2), npcs := ns.flatMap (·.2), kept := ks
        diagnostics := ks.flatMap (·.diagnostics) } := by
  have none : ∀ {α β : Type} (xs : List α), xs.flatMap (fun _ => ([] : List β)) = [] :=
    fun _ => List.flatMap_eq_nil_iff.2 fun _ _ => rfl
  unfold concat
  simp only [List.flatMap_append, List.flatMap_map, none, List.nil_append, List.append_nil,
    List.flatMap_singleton']

/-- A written table is read as the arranged one. -/
theorem read_of_write (h : t.Storable) {bs : Bytes} (hw : t.write = .ok bs) :
    read bs = .ok t.arranged := by
  unfold write at hw
  obtain ⟨os, ho, hw⟩ := bind_eq_ok_iff.1 hw
  obtain ⟨ns, hn, hw⟩ := bind_eq_ok_iff.1 hw
  obtain ⟨ks, hk, hw⟩ := bind_eq_ok_iff.1 hw
  cases hw
  -- what is written for a group or a kept section is a section that is read as it
  obtain ⟨so, hso, ho⟩ := exists_between
    (T := fun s group => ofSection s = .ok { objects := group.2 })
    (mapM_eq_ok_iff.1 ho) fun group hg p hp => by
      obtain ⟨-, pieces, hpieces, hs⟩ := stored_of_writeGroup (Q := ObjectRecord.Stored)
        (by decide) (exists_write_objects h hg) ObjectRecord.length_of_stored hp
      exact ⟨_, hs, ofSection_objects hpieces⟩
  obtain ⟨sn, hsn, hn⟩ := exists_between
    (T := fun s group => ofSection s = .ok { npcs := group.2 })
    (mapM_eq_ok_iff.1 hn) fun group hg p hp => by
      obtain ⟨-, pieces, hpieces, hs⟩ := stored_of_writeGroup (Q := NpcRecord.Stored)
        (by decide) (exists_write_npcs h hg) NpcRecord.length_of_stored hp
      exact ⟨_, hs, ofSection_npcs hpieces⟩
  obtain ⟨sk, hsk, hk⟩ := exists_between
    (T := fun s k => ofSection s = .ok { kept := [k], diagnostics := k.diagnostics })
    (mapM_eq_ok_iff.1 hk) fun k hk p hp =>
      ⟨_, KeptSection.stored_of_write (h.kept k hk) hp, KeptSection.ofSection_eq (h.kept k hk)⟩
  have stop : Sections (Field.zeros sectionHeaderSize) [] :=
    @Sections.stop (List.replicate 4 0) _ ⟨rfl, rfl⟩
  have all := sections_flatten hso (sections_flatten hsn (sections_flatten hsk stop))
  have append := @List.rel_append _ _ fun s table => ofSection s = .ok table
  have tables : (so ++ (sn ++ sk)).mapM ofSection =
      .ok ((groupByArea (·.areaId) t.objects).map (fun group => { objects := group.2 }) ++
        ((groupByArea (·.areaId) t.npcs).map (fun group => { npcs := group.2 }) ++
          t.kept.map fun k => { kept := [k], diagnostics := k.diagnostics })) :=
    mapM_eq_ok_iff.2 (append (List.forall₂_map_right_iff.2 ho)
      (append (List.forall₂_map_right_iff.2 hn) (List.forall₂_map_right_iff.2 hk)))
  unfold read
  rw [List.append_assoc, List.append_assoc,
    Section.readAll_of_sections all (Cursor.inside_whole _) (Cursor.view_whole _)]
  show (List.mapM ofSection _ >>= fun tables => Except.ok (concat tables)) = _
  rw [List.append_nil, List.nil_append, tables]
  show Except.ok (concat _) = _
  rw [concat_parts, flatMap_groupByArea, flatMap_groupByArea]
  rfl

/-- Arranging a table first changes nothing in its bytes. -/
theorem write_arranged (t : Table) : t.arranged.write = t.write := by
  unfold write arranged
  rw [groupByArea_sortedByArea, groupByArea_sortedByArea]

theorem fits_kinds : Word.Fits 4 objectKind ∧ Word.Fits 4 npcKind :=
  ⟨⟨by decide, by decide⟩, by decide, by decide⟩

theorem exists_write (h : t.Storable) (hs : t.Sized) : ∃ bs, t.write = .ok bs := by
  obtain ⟨wo, wn⟩ := exists_write_entities h
  obtain ⟨os, ho⟩ := exists_writeGroups fits_kinds.1 wo hs.objects
  obtain ⟨ns, hn⟩ := exists_writeGroups fits_kinds.2 wn hs.npcs
  obtain ⟨ks, hk⟩ := exists_forall₂ fun s hm => KeptSection.exists_write (h.kept s hm)
  unfold write
  rw [ho, hn, mapM_eq_ok_iff.2 hk]
  exact ⟨_, rfl⟩

end

/-! ## Sizes -/

/-- The bytes of the sections of some entities, one section for each of their areas. -/
def sectionsSize (size : Nat) (areas : List Int) : Nat :=
  (areas.eraseDups.map fun a => sectionHeaderSize + areas.count a * size).sum

theorem length_filter_area {α : Type} (area : α → Int) (xs : List α) (a : Int) :
    (xs.filter (area · = a)).length = (xs.map area).count a := by
  rw [List.count, List.countP_map, List.countP_eq_length_filter]
  rfl

theorem sum_groupByArea {α : Type} (area : α → Int) (xs : List α) (size : Nat) :
    ((groupByArea area xs).map fun group => sectionHeaderSize + group.2.length * size).sum =
      sectionsSize size (xs.map area) := by
  rw [groupByArea_eq, List.map_map, sectionsSize,
    ← ((List.mergeSort_perm (xs.map area).eraseDups _).map _).sum_eq]
  congr 1
  refine List.map_congr_left fun a _ => ?_
  show _ + (xs.filter (area · = a)).length * size = _
  rw [length_filter_area]

/-- Groups that are written are as long as their headers and records. -/
theorem length_flatten_groups {α : Type} {kind size : Nat} {write : α → Except Fault Bytes}
    {Q : Int → Bytes → α → Prop} {groups : List (Int × List α)} {pieces : List Bytes}
    (h0 : kind ≠ 0)
    (hw : ∀ group ∈ groups, ∀ x ∈ group.2, ∃ bs, write x = .ok bs ∧ Q group.1 bs x)
    (hs : ∀ {a bs x}, Q a bs x → bs.length = size)
    (h : groups.mapM (writeGroup kind size write) = .ok pieces) :
    pieces.flatten.length =
      (groups.map fun group => sectionHeaderSize + group.2.length * size).sum := by
  rw [List.length_flatten]
  congr 1
  refine (map_eq_map_of_forall₂ (forall₂_imp_mem (mapM_eq_ok_iff.1 h) ?_)).symm
  intro group hg p _ hp
  obtain ⟨-, bodies, hb, hsection⟩ := stored_of_writeGroup h0 (hw group hg) hs hp
  have hlen : bodies.flatten.length = bodies.length * size := by
    refine length_flatten_of_forall fun body hm => ?_
    obtain ⟨x, -, hx⟩ := exists_of_forall₂ hb body hm
    exact hs hx
  rw [Section.length_of_stored hsection, hlen, hb.length_eq]

theorem length_write {t : Table} (h : t.Storable) {bs : Bytes} (hw : t.write = .ok bs) :
    bs.length = sectionsSize objectSize (t.objects.map (·.areaId)) +
      sectionsSize npcSize (t.npcs.map (·.areaId)) +
      (t.kept.map fun s => sectionHeaderSize + s.data.length).sum + sectionHeaderSize := by
  unfold write at hw
  obtain ⟨os, ho, hw⟩ := bind_eq_ok_iff.1 hw
  obtain ⟨ns, hn, hw⟩ := bind_eq_ok_iff.1 hw
  obtain ⟨ks, hk, hw⟩ := bind_eq_ok_iff.1 hw
  cases hw
  have hos := length_flatten_groups (Q := ObjectRecord.Stored) (by decide)
    (fun group hg => exists_write_objects h hg) ObjectRecord.length_of_stored ho
  have hns := length_flatten_groups (Q := NpcRecord.Stored) (by decide)
    (fun group hg => exists_write_npcs h hg) NpcRecord.length_of_stored hn
  have hks : ks.map List.length = t.kept.map fun s => sectionHeaderSize + s.data.length := by
    refine (map_eq_map_of_forall₂ (forall₂_imp_mem (mapM_eq_ok_iff.1 hk) ?_)).symm
    intro k hm p _ hp
    exact (Section.length_of_stored (KeptSection.stored_of_write (h.kept k hm) hp)).symm
  rw [List.length_append, List.length_append, List.length_append, hos, hns, sum_groupByArea,
    sum_groupByArea, List.length_flatten, hks]
  rfl

/-! ## What is read can be stored -/

section

variable {s : Section} {bs : Bytes}

theorem fits_of_stored (h : s.Stored bs) :
    s.kind ≠ 0 ∧ Word.Fits 4 s.kind ∧ Word.Fits 4 s.area ∧
      Word.Fits 4 (s.body.length + sectionHeaderSize : Nat) := by
  obtain ⟨kind, total, area, size, ⟨lk, lt, la, ls⟩, -, hk, h0, ht, ha, -⟩ := h
  refine ⟨h0, ?_, ?_, ?_⟩
  · rw [hk]
    exact Word.fits_decode lk
  · rw [ha]
    exact Word.fits_decode la
  · rw [← ht]
    exact Word.fits_decode lt

/-- Bytes of a section's body can be kept under its kind, if they are no record of it. -/
theorem storable_ofBody (h : s.Stored bs) {data : Bytes} (hl : data.length ≤ s.body.length)
    (ho : s.kind = objectKind → 0 < data.length ∧ data.length < objectSize)
    (hn : s.kind = npcKind → 0 < data.length ∧ data.length < npcSize) :
    (KeptSection.ofBody s.kind s.area data).Storable := by
  obtain ⟨h0, hk, ha, ht⟩ := fits_of_stored h
  refine ⟨hk, ha, rfl, rfl, ?_, fun hz => h0 (Int.ofNat.inj hz), fun he => ho (Int.ofNat.inj he),
    fun he => hn (Int.ofNat.inj he)⟩
  refine ⟨Int.natCast_nonneg (data.length + sectionHeaderSize), Int.lt_of_le_of_lt ?_ ht.2⟩
  exact Int.ofNat_le.2 (Nat.add_le_add_right hl _)

/-- What records leave of a body is less than a record. -/
theorem storable_leftover (h : s.Stored bs) {size : Nat} (h0 : 0 < size)
    (ho : s.kind = objectKind → size = objectSize) (hn : s.kind = npcKind → size = npcSize) :
    ∀ k ∈ (leftover s size).1, k.Storable := by
  intro k hk
  have hlt := Nat.mod_lt s.body.length h0
  have hle := Nat.mod_le s.body.length size
  unfold leftover at hk
  dsimp only at hk
  split at hk
  · cases hk
  · next hne =>
    have hlen : (s.body.drop (s.body.length - s.body.length % size)).length =
        s.body.length % size := by
      rw [List.length_drop]
      omega
    rw [List.mem_singleton.1 hk]
    refine storable_ofBody h (by omega) ?_ ?_
    · intro he
      rw [hlen, ← ho he]
      exact ⟨Nat.pos_of_ne_zero hne, hlt⟩
    · intro he
      rw [hlen, ← hn he]
      exact ⟨Nat.pos_of_ne_zero hne, hlt⟩

theorem storable_of_ofSection (h : s.Stored bs) {t : Table} (hr : ofSection s = .ok t) :
    t.Storable := by
  obtain ⟨-, -, ha, -⟩ := fits_of_stored h
  have none : ∀ {α : Type} {p : α → Prop}, ∀ x ∈ ([] : List α), p x :=
    fun x hx => absurd hx List.not_mem_nil
  unfold ofSection at hr
  split at hr
  · next hk =>
    obtain ⟨os, hos, hr⟩ := bind_eq_ok_iff.1 hr
    cases hr
    have hos := (readRecords_eq_ok_iff (ObjectRecord.describes_read s.area)
      ObjectRecord.length_of_stored).1 hos
    refine ⟨fun o ho => ?_, none, storable_leftover h (by decide) (fun _ => rfl) fun hn => ?_⟩
    · obtain ⟨p, -, hp⟩ := exists_of_forall₂ hos.flip o ho
      obtain ⟨hs, he⟩ := ObjectRecord.storable_of_stored hp
      exact ⟨hs, he ▸ ha⟩
    · rw [hk] at hn
      cases hn
  · split at hr
    · next ho hk =>
      obtain ⟨ns, hns, hr⟩ := bind_eq_ok_iff.1 hr
      cases hr
      have hns := (readRecords_eq_ok_iff (NpcRecord.describes_read s.area)
        NpcRecord.length_of_stored).1 hns
      refine ⟨none, fun n hn => ?_, storable_leftover h (by decide) (fun he => absurd he ho)
        fun _ => rfl⟩
      obtain ⟨p, -, hp⟩ := exists_of_forall₂ hns.flip n hn
      obtain ⟨hs, he⟩ := NpcRecord.storable_of_stored hp
      exact ⟨hs, he ▸ ha⟩
    · next ho hn =>
      cases hr
      refine ⟨none, none, fun k hk => ?_⟩
      rw [List.mem_singleton.1 hk]
      exact storable_ofBody h (Nat.le_refl _) (fun he => absurd he ho) fun he => absurd he hn

end

theorem exists_stored_of_sections {bs : Bytes} {ss : List Section} (h : Sections bs ss) :
    ∀ s ∈ ss, ∃ piece, s.Stored piece := by
  induction h with
  | nil => exact fun s hs => absurd hs List.not_mem_nil
  | stop _ => exact fun s hs => absurd hs List.not_mem_nil
  | cons h _ ih =>
    intro s hs
    rcases List.mem_cons.1 hs with rfl | hs
    · exact ⟨_, h⟩
    · exact ih s hs

theorem storable_concat {tables : List Table} (h : ∀ t ∈ tables, t.Storable) :
    (concat tables).Storable := by
  refine ⟨fun o ho => ?_, fun n hn => ?_, fun k hk => ?_⟩
  · obtain ⟨t, ht, ho⟩ := List.mem_flatMap.1 ho
    exact (h t ht).objects o ho
  · obtain ⟨t, ht, hn⟩ := List.mem_flatMap.1 hn
    exact (h t ht).npcs n hn
  · obtain ⟨t, ht, hk⟩ := List.mem_flatMap.1 hk
    exact (h t ht).kept k hk

/-- Whatever is read as a table can be stored. -/
theorem storable_of_read {data : Bytes} {t : Table} (h : read data = .ok t) : t.Storable := by
  unfold read at h
  obtain ⟨ss, hs, h⟩ := bind_eq_ok_iff.1 h
  obtain ⟨tables, ht, h⟩ := bind_eq_ok_iff.1 h
  cases h
  obtain ⟨more, rfl, hs⟩ := Section.sections_of_readAll (Cursor.inside_whole _) hs
  refine storable_concat fun t hm => ?_
  obtain ⟨s, hsm, hr⟩ := exists_of_forall₂ (mapM_eq_ok_iff.1 ht).flip t hm
  obtain ⟨piece, hp⟩ := exists_stored_of_sections hs s hsm
  exact storable_of_ofSection hp hr

end Table

end Entity
end QuestArchive
