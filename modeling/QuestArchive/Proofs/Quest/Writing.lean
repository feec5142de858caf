import QuestArchive.Proofs.Archive.Reading
import QuestArchive.Proofs.Entity.Table
import QuestArchive.Proofs.ObjectCode.Stability
import QuestArchive.Proofs.Prs.Length
import QuestArchive.Proofs.Quest.Inhabitant
import QuestArchive.Proofs.Quest.Label
import QuestArchive.Proofs.Quest.Name
import QuestArchive.Proofs.Quest.ScriptFile

/-!
# Quests that are written and read again

A quest that fits its files comes back from its archive with objects and NPCs in the order of
their areas and the properties of each object in their places.  Such an arranged quest is
written as the same bytes.
-/

namespace QuestArchive

namespace Entity

/-- Sorting by area and changing what has an area can be done in either order. -/
theorem sortedByArea_map {α β : Type} {area : α → Int} {area' : β → Int} {f : α → β} {xs : List α}
    (h : ∀ x, area' (f x) = area x) :
    sortedByArea area' (xs.map f) = (sortedByArea area xs).map f := by
  unfold sortedByArea
  refine (List.map_mergeSort fun x _ y _ => ?_).symm
  rw [h, h]

end Entity

namespace Quest

open Entity (sortedByArea)

variable {q : Quest} {options : QuestOptions} {fileName : String}

/-- The parts of a quest fit what stores them, and the object code is found again from the
labels where code is known to start. -/
structure Storable (options : QuestOptions) (q : Quest) : Prop where
  objects : ∀ o ∈ q.objects, o.Named ∧ o.record.Storable ∧ Word.Fits 4 o.areaId
  npcs : ∀ n ∈ q.npcs, (n.record .nan).Storable ∧ Word.Fits 4 n.areaId
  identities : ∀ e, q.episode = .ok e → ∀ n ∈ q.npcs, n.Recorded e options.tolerance
  kept : ∀ s ∈ q.kept, s.Storable
  script : q.scriptFile.Storable
  shopItems : q.shopItems.length = ScriptFile.shopItemCount
  code : ∃ labels stored r, q.labels = .ok labels ∧
    ObjectCode.write q.segments = .ok stored ∧
    ObjectCode.read .strict stored (ObjectCode.entries labels) = .ok r ∧
    r.segments = q.segments

def arranged (q : Quest) : Quest :=
  { q with
    objects := sortedByArea (·.areaId) (q.objects.map (·.ordered))
    npcs := sortedByArea (·.areaId) q.npcs }

/-! ## The entity table -/

/-- The table that a quest is written as has the records of its objects and NPCs. -/
structure Tabulated (options : QuestOptions) (q : Quest) (e : Episode) (t : Entity.Table) :
    Prop where
  objects : t.objects = q.objects.map (·.record)
  npcs : List.Forall₂ (fun n r => n.toRecord e options.tolerance = .ok r) q.npcs t.npcs
  kept : t.kept = q.kept
  diagnostics : t.diagnostics = []

theorem table_eq_ok_iff (h : q.Storable options) {t : Entity.Table} :
    q.table options = .ok t ↔ ∃ e, q.episode = .ok e ∧ q.Tabulated options e t := by
  have hobjects : q.objects.mapM (·.toRecord) = .ok (q.objects.map (·.record)) := by
    refine mapM_eq_ok_iff.2 (List.forall₂_map_right_iff.2 (List.forall₂_same.2 fun o ho => ?_))
    exact QuestObject.toRecord_eq (h.objects o ho).1
  unfold table
  simp only [hobjects, ok_bind]
  constructor
  · intro ht
    obtain ⟨e, he, ht⟩ := bind_eq_ok_iff.1 ht
    obtain ⟨ns, hn, ht⟩ := bind_eq_ok_iff.1 ht
    cases ht
    exact ⟨e, he, rfl, mapM_eq_ok_iff.1 hn, rfl, rfl⟩
  · intro ht
    obtain ⟨e, he, h1, h2, h3, h4⟩ := ht
    obtain ⟨objects, npcs, kept, diagnostics⟩ := t
    dsimp only at h1 h2 h3 h4
    subst h1 h3 h4
    rw [he, ok_bind, mapM_eq_ok_iff.2 h2]
    rfl

namespace Tabulated

variable {e : Episode} {t : Entity.Table}

theorem storable (ht : q.Tabulated options e t) (h : q.Storable options) (he : q.episode = .ok e) :
    t.Storable := by
  refine ⟨?_, ?_, ?_⟩
  · rw [ht.objects]
    exact List.forall_mem_map.2 fun o ho => (h.objects o ho).2
  · intro r hr
    obtain ⟨n, hn, hx⟩ := exists_of_forall₂ ht.npcs.flip r hr
    obtain ⟨x, hx', hs, -⟩ := QuestNpc.exists_toRecord (h.identities e he n hn)
    cases hx.symm.trans hx'
    obtain ⟨hstorable, hfits⟩ := h.npcs n hn
    exact ⟨{ hstorable with scriptLabel := hs }, hfits⟩
  · rw [ht.kept]
    exact h.kept

/-- The objects are read as they were, with their properties in their places. -/
theorem objects_arranged (ht : q.Tabulated options e t) (h : q.Storable options) :
    t.arranged.objects.map QuestObject.ofRecord = q.arranged.objects := by
  have hsort : sortedByArea (·.areaId) (t.objects.map QuestObject.ofRecord) =
      (sortedByArea (·.areaId) t.objects).map QuestObject.ofRecord :=
    Entity.sortedByArea_map fun _ => rfl
  refine hsort.symm.trans ?_
  unfold arranged
  dsimp only
  rw [ht.objects, List.map_map]
  congr 1
  exact List.map_congr_left fun o ho => QuestObject.ofRecord_record (h.objects o ho).1

theorem npcs_arranged (ht : q.Tabulated options e t) (h : q.Storable options)
    (he : q.episode = .ok e) :
    t.arranged.npcs.map (QuestNpc.ofRecord e options.tolerance) = q.arranged.npcs := by
  have hsort : sortedByArea (·.areaId) (t.npcs.map (QuestNpc.ofRecord e options.tolerance)) =
      (sortedByArea (·.areaId) t.npcs).map (QuestNpc.ofRecord e options.tolerance) :=
    Entity.sortedByArea_map fun _ => rfl
  have hmap : t.npcs.map (QuestNpc.ofRecord e options.tolerance) = q.npcs.map fun n => n := by
    refine map_eq_map_of_forall₂ (forall₂_imp_mem ht.npcs.flip ?_)
    exact fun r _ n hn hr => QuestNpc.ofRecord_toRecord (h.identities e he n hn) hr
  rw [hmap, List.map_id'] at hsort
  exact hsort.symm

theorem arrange (ht : q.Tabulated options e t) (h : q.Storable options)
    (he : q.episode = .ok e) : q.arranged.Tabulated options e
      { objects := t.arranged.objects, npcs := t.arranged.npcs, kept := t.kept } := by
  refine ⟨?_, ?_, ht.kept, rfl⟩
  · have hsort : sortedByArea (·.areaId) ((q.objects.map (·.ordered)).map (·.record)) =
        (sortedByArea (·.areaId) (q.objects.map (·.ordered))).map (·.record) :=
      Entity.sortedByArea_map fun _ => rfl
    refine Eq.trans ?_ hsort
    show sortedByArea (·.areaId) t.objects = _
    rw [ht.objects, List.map_map]
    congr 1
    exact List.map_congr_left fun o ho => (QuestObject.record_ordered (h.objects o ho).1).symm
  · rw [← ht.npcs_arranged h he]
    refine List.forall₂_map_left_iff.2 (List.forall₂_same.2 fun r hr => ?_)
    have hr : r ∈ t.npcs := (Entity.perm_sortedByArea _ _).mem_iff.1 hr
    obtain ⟨n, hn, hx⟩ := exists_of_forall₂ ht.npcs.flip r hr
    rwa [QuestNpc.ofRecord_toRecord (h.identities e he n hn) hx]

end Tabulated

/-! ## Labels -/

theorem exists_entryLabels {e : Episode} {t : Entity.Table} (ht : q.Tabulated options e t)
    (h : q.Storable options) (he : q.episode = .ok e) {labels : List Int}
    (hl : q.labels = .ok labels) :
    ∃ labels', entryLabels q.arranged.objects t.arranged.npcs = .ok labels' ∧
      ObjectCode.entries labels' = ObjectCode.entries labels := by
  have hnpcs : t.npcs.map (fun r => QuestNpc.labelOf? r.scriptLabel) =
      q.npcs.map (·.scriptLabel) := by
    refine map_eq_map_of_forall₂ (forall₂_imp_mem ht.npcs.flip fun r _ n hn hr => ?_)
    have hback := QuestNpc.ofRecord_toRecord (h.identities e he n hn) hr
    exact congrArg QuestNpc.scriptLabel hback
  have hmore : (t.arranged.npcs.filterMap fun r => QuestNpc.labelOf? r.scriptLabel).Perm
      (q.npcs.filterMap (·.scriptLabel)) := by
    have hids := congrArg (List.filterMap fun l : Option Int => l) hnpcs
    rw [List.filterMap_map, List.filterMap_map] at hids
    refine ((Entity.perm_sortedByArea _ _).filterMap _).trans ?_
    exact hids ▸ List.Perm.refl _
  obtain ⟨labels', hl', hperm⟩ := exists_labelsWith_perm hl (Entity.perm_sortedByArea _ _)
    (fun o ho => QuestObject.scriptLabels_ordered (h.objects o ho).1) hmore
  exact ⟨labels', hl', ObjectCode.entries_congr fun l => hperm.mem_iff⟩

/-! ## Archives -/

structure Written (options : QuestOptions) (q : Quest) (e : Episode) (t : Entity.Table)
    (table script : Bytes) : Prop where
  episode : q.episode = .ok e
  tabulated : q.Tabulated options e t
  table : t.write = .ok table
  script : q.scriptFile.write = .ok script

def newMembers (q : Quest) (options : QuestOptions) (fileName : String) (table script : Bytes) :
    List Archive.NewMember :=
  let name := baseName fileName options.baseNameLength
  [q.packed options (name ++ ".dat") table, q.packed options (name ++ ".bin") script]

theorem write_eq_ok_iff (h : q.Storable options) {w : Bytes} :
    q.write fileName options = .ok w ↔ ∃ e t table script,
      q.Written options e t table script ∧
        Archive.write (q.newMembers options fileName table script) = .ok w := by
  unfold write
  constructor
  · intro hw
    obtain ⟨t, ht, hw⟩ := bind_eq_ok_iff.1 hw
    obtain ⟨e, he, htab⟩ := (table_eq_ok_iff h).1 ht
    obtain ⟨table, htable, hw⟩ := bind_eq_ok_iff.1 hw
    obtain ⟨script, hscript, hw⟩ := bind_eq_ok_iff.1 hw
    exact ⟨e, t, table, script, ⟨he, htab, htable, hscript⟩, hw⟩
  · intro hw
    obtain ⟨e, t, table, script, ⟨he, htab, htable, hscript⟩, hw⟩ := hw
    rw [(table_eq_ok_iff h).2 ⟨e, he, htab⟩, ok_bind, htable, ok_bind, hscript, ok_bind]
    exact hw

/-- Behind a null character the two names would differ in vain. -/
theorem isName_of_parts {table script w : Bytes} {archive : Archive.Contents}
    {packed : Bytes × Bytes}
    (hw : Archive.write (q.newMembers options fileName table script) = .ok w)
    (hr : Archive.read w = .ok archive) (hp : parts archive.members = .ok packed) :
    Field.IsName (baseName fileName options.baseNameLength) := by
  obtain ⟨t, ht, s, hs, hne⟩ := exists_of_parts hp
  unfold newMembers at hw
  generalize baseName fileName options.baseNameLength = base at hw
  have hshown : ∀ m ∈ archive.members, (∀ c ∈ base.toList, c.toNat < 128) ∧
      ('\x00' ∈ base.toList → m.name = String.ofList (base.toList.takeWhile (· ≠ '\x00'))) := by
    intro m hm
    obtain ⟨n, hn, hascii, hname⟩ := Archive.name_of_write hw hr m hm
    have hbase : ∃ extension, n.name = base ++ extension := by
      rcases List.mem_cons.1 hn with rfl | hn
      · exact ⟨_, rfl⟩
      · rw [List.mem_singleton.1 hn]
        exact ⟨_, rfl⟩
    obtain ⟨extension, hbase⟩ := hbase
    rw [hbase, String.toList_append] at hascii hname
    refine ⟨fun c hc => hascii c (List.mem_append_left _ hc), fun hz => ?_⟩
    rw [hname, List.takeWhile_append, if_neg fun hlen => ?_]
    have hall := List.takeWhile_eq_self_iff.1 ((List.takeWhile_prefix _).eq_of_length hlen)
    exact absurd rfl (of_decide_eq_true (hall _ hz))
  refine fun c hc => ⟨(hshown t ht).1 c hc, fun hz => hne ?_⟩
  rw [hz] at hc
  rw [(hshown t ht).2 hc, (hshown s hs).2 hc]

/-- The two files are found in a written archive, and are decompressed to what they were. -/
theorem parts_of_write (hbase : Field.IsName (baseName fileName options.baseNameLength))
    {table script w : Bytes}
    (hw : Archive.write (q.newMembers options fileName table script) = .ok w) :
    ∃ archive packed, Archive.read w = .ok archive ∧ archive.version = .blueBurst ∧
      parts archive.members = .ok packed ∧ Prs.decompress packed.1 = .ok table ∧
      Prs.decompress packed.2 = .ok script := by
  unfold newMembers at hw
  generalize baseName fileName options.baseNameLength = base at hw hbase
  have hne : base ++ ".dat" ≠ base ++ ".bin" := by
    intro he
    have hdat : hasExtension ".dat" (base ++ ".dat") = true :=
      (hasExtension_dat (by decide)).2 rfl
    rw [he, hasExtension_bin (by decide)] at hdat
    exact absurd hdat (by decide)
  obtain ⟨s, t, hr, -⟩ := Archive.read_of_write (f := q.packed options (base ++ ".dat") table)
    (g := q.packed options (base ++ ".bin") script) hne (isName_append hbase (by decide))
    (isName_append hbase (by decide)) (Prs.compress_ne_nil table) (Prs.compress_ne_nil script) hw
  have hback : ∀ data, Prs.decompress (Prs.compress data) = .ok data := fun data =>
    Prs.decompress_encode (Prs.tokens_spec data).1 (Prs.tokens_spec data).2
  exact ⟨_, _, hr, rfl, parts_eq rfl rfl, hback table, hback script⟩

theorem Written.read_script {e : Episode} {t : Entity.Table} {table script : Bytes}
    (hw : q.Written options e t table script) (h : q.Storable options) {labels : List Int}
    (hl : ∀ labels', q.labels = .ok labels' →
      ObjectCode.entries labels = ObjectCode.entries labels') :
    ∃ diagnostics, ScriptFile.read .strict script labels = .ok (q.scriptFile, diagnostics) := by
  obtain ⟨labels', stored, r, hlabels, hstored, hr, hsegments⟩ := h.code
  have hpad : ScriptFile.paddedItems q.scriptFile.shopItems = q.scriptFile.shopItems := by
    have hcount : ScriptFile.shopItemCount - q.shopItems.length = 0 := by
      rw [h.shopItems, Nat.sub_self]
    unfold ScriptFile.paddedItems
    show q.shopItems ++ _ = q.shopItems
    rw [show q.scriptFile.shopItems = q.shopItems from rfl, hcount]
    exact List.append_nil _
  rw [ScriptFile.read_of_write h.script hstored hw.script, hl _ hlabels, hr]
  refine ⟨r.diagnostics, ?_⟩
  show Except.ok (q.scriptFile.withReading r) = _
  unfold ScriptFile.withReading
  rw [hpad, hsegments]
  rfl

/-- A quest that fits its files is read from the archive that it was written as. -/
theorem read_of_write (h : q.Storable options) (hm : options.lenient = false)
    (hn : Field.IsName fileName) {w : Bytes} (hw : q.write fileName options = .ok w) :
    ∃ r, read w options = .ok r ∧ r.quest = q.arranged ∧ r.version = .blueBurst := by
  obtain ⟨e, t, table, script, hfiles, hw⟩ := (write_eq_ok_iff h).1 hw
  have he := hfiles.episode
  have ht := hfiles.tabulated
  obtain ⟨archive, packed, harchive, hversion, hparts, htable, hpacked⟩ :=
    parts_of_write (isName_baseName hn) hw
  obtain ⟨labels, _, _, hlabels, -⟩ := h.code
  obtain ⟨labels', hl', hentries⟩ := exists_entryLabels ht h he hlabels
  have hscript : ∃ ds, ScriptFile.read .strict script labels' = .ok (q.scriptFile, ds) :=
    hfiles.read_script h fun _ hl => by
      cases hlabels.symm.trans hl
      exact hentries
  obtain ⟨diagnostics, hscript⟩ := hscript
  have hepisode : Script.episode q.scriptFile.segments = .ok e := he
  have hback := Entity.Table.read_of_write (ht.storable h he) hfiles.table
  unfold read
  simp only [harchive, hparts, htable, hpacked, hback, ok_bind, ht.objects_arranged h, hl', hm,
    Bool.false_eq_true, if_false, hscript, hepisode, ht.npcs_arranged h he]
  refine ⟨_, rfl, ?_, hversion⟩
  show Quest.mk _ _ _ _ _ _ _ t.kept _ _ = _
  rw [ht.kept]
  rfl

theorem storable_arranged (h : q.Storable options) : q.arranged.Storable options := by
  have hnpcs : ∀ n, n ∈ q.arranged.npcs ↔ n ∈ q.npcs := fun n =>
    (Entity.perm_sortedByArea _ _).mem_iff
  refine ⟨?_, fun n hn => h.npcs n ((hnpcs n).1 hn),
    fun e he n hn => h.identities e he n ((hnpcs n).1 hn), h.kept, h.script, h.shopItems, ?_⟩
  · intro o ho
    obtain ⟨p, hp, rfl⟩ := List.mem_map.1 ((Entity.perm_sortedByArea _ _).mem_iff.1 ho)
    obtain ⟨hnamed, hstorable, hfits⟩ := h.objects p hp
    exact ⟨QuestObject.named_ordered hnamed, QuestObject.record_ordered hnamed ▸ hstorable, hfits⟩
  · obtain ⟨labels, stored, r, hl, hw, hr, hs⟩ := h.code
    obtain ⟨labels', hl', hperm⟩ := exists_labelsWith_perm hl (Entity.perm_sortedByArea _ _)
      (fun o ho => QuestObject.scriptLabels_ordered (h.objects o ho).1)
      ((Entity.perm_sortedByArea (·.areaId) q.npcs).filterMap (·.scriptLabel))
    refine ⟨labels', stored, r, hl', hw, ?_, hs⟩
    rw [ObjectCode.entries_congr fun l => hperm.mem_iff, hr]

/-- An arranged quest is written as the quest that it was arranged from. -/
theorem write_arranged (h : q.Storable options) {w : Bytes}
    (hw : q.write fileName options = .ok w) : q.arranged.write fileName options = .ok w := by
  obtain ⟨e, t, table, script, hfiles, hw⟩ := (write_eq_ok_iff h).1 hw
  have ht := hfiles.tabulated
  refine (write_eq_ok_iff (storable_arranged h)).2 ⟨e, _, table, script,
    ⟨hfiles.episode, ht.arrange h hfiles.episode, ?_, hfiles.script⟩, hw⟩
  exact t.write_arranged.trans hfiles.table

end Quest
end QuestArchive
