import QuestArchive.Proofs.ObjectCode.Suiting
import QuestArchive.Proofs.Quest.Outline
import QuestArchive.Proofs.Quest.Writing

/-!
# Quests that fit an archive

The parts of a quest may fit their fields and still be too many: a section and a file state
their sizes, a label its offset, and a file of an archive has room for 256 chunks.  A quest
that keeps to these sizes can be written.
-/

namespace QuestArchive

/-- The names of a quest's files fit the records of an archive, whatever the file name. -/
structure QuestOptions.Nameable (options : QuestOptions) : Prop where
  base : 0 ≤ options.baseNameLength ∧ options.baseNameLength ≤ 12
  suffix : Field.IsName options.secondNameSuffix
  second : options.baseNameLength + options.secondNameSuffix.length ≤ 20

theorem QuestOptions.nameable_default : ({} : QuestOptions).Nameable :=
  ⟨by decide, by decide, by decide⟩

namespace Quest

variable {q : Quest} {options : QuestOptions} {fileName : String}

/-- The sizes of the sections and of the script file fit the fields that state them, and so do
the offsets of the labels. -/
structure Sized (q : Quest) : Prop where
  objects : ∀ a, Word.Fits 4
    ((q.objects.map (·.areaId)).count a * Entity.objectSize + Entity.sectionHeaderSize : Nat)
  npcs : ∀ a, Word.Fits 4
    ((q.npcs.map (·.areaId)).count a * Entity.npcSize + Entity.sectionHeaderSize : Nat)
  script : ∀ stored, ObjectCode.write q.segments = .ok stored → stored.code.length < 2 ^ 31 ∧
    Word.Fits 4 (ScriptFile.headerSize + stored.code.length + 4 * stored.offsets.length : Nat)

structure Packs (options : QuestOptions) (q : Quest) : Prop where
  table : ∀ t bs, q.table options = .ok t → t.write = .ok bs →
    (Prs.compress bs).length ≤ Archive.maxFileSize
  script : ∀ bs, q.scriptFile.write = .ok bs → (Prs.compress bs).length ≤ Archive.maxFileSize

/-! ## The script -/

theorem offsets_of_storable (h : q.Storable options) {stored : ObjectCode.Stored}
    (hs : ObjectCode.write q.segments = .ok stored) :
    ∀ o ∈ stored.offsets, o = -1 ∨ 0 ≤ o ∧ o ≤ stored.code.length := by
  obtain ⟨_, stored', r, -, hs', hr, hsegments⟩ := h.code
  cases hs.symm.trans hs'
  exact ObjectCode.offsets_of_write (hsegments ▸ ObjectCode.extent_of_read hr) hs

theorem episode_of_storable (h : q.Storable options) : ∃ e, q.episode = .ok e := by
  obtain ⟨_, stored, r, -, hs, hr, hsegments⟩ := h.code
  have htyped := ObjectCode.typed_of_read hr
  rw [hsegments] at htyped
  exact Script.exists_episode (Script.typed_of_startCode? htyped)

theorem exists_script (h : q.Storable options) (hs : q.Sized) :
    ∃ script, q.scriptFile.write = .ok script := by
  obtain ⟨_, stored, _, -, hstored, -⟩ := h.code
  obtain ⟨hcode, hsize⟩ := hs.script stored hstored
  refine ScriptFile.exists_write h.script hstored (fun o ho => ?_) hsize
  have hb := offsets_of_storable h hstored o ho
  exact Field.exists_i32 (by omega)

/-! ## The entity table -/

theorem exists_tabulated (h : q.Storable options) {e : Episode} (he : q.episode = .ok e) :
    ∃ t, q.Tabulated options e t := by
  have hone : ∀ n ∈ q.npcs, ∃ r, n.toRecord e options.tolerance = .ok r := by
    intro n hn
    obtain ⟨x, hx, -⟩ := QuestNpc.exists_toRecord (h.identities e he n hn)
    exact ⟨_, hx⟩
  obtain ⟨npcs, hnpcs⟩ := exists_forall₂ hone
  exact ⟨{ objects := _, npcs, kept := q.kept }, rfl, hnpcs, rfl, rfl⟩

namespace Tabulated

variable {e : Episode} {t : Entity.Table}

theorem map_areaId (ht : q.Tabulated options e t) (h : q.Storable options)
    (he : q.episode = .ok e) : t.objects.map (·.areaId) = q.objects.map (·.areaId) ∧
      t.npcs.map (·.areaId) = q.npcs.map (·.areaId) := by
  constructor
  · rw [ht.objects, List.map_map]
    rfl
  · refine map_eq_map_of_forall₂ (forall₂_imp_mem ht.npcs.flip fun r _ n hn hr => ?_)
    exact congrArg QuestNpc.areaId (QuestNpc.ofRecord_toRecord (h.identities e he n hn) hr)

theorem sized (ht : q.Tabulated options e t) (h : q.Storable options) (he : q.episode = .ok e)
    (hs : q.Sized) : t.Sized := by
  obtain ⟨hobjects, hnpcs⟩ := ht.map_areaId h he
  constructor
  · intro a
    rw [Entity.Table.length_filter_area, hobjects]
    exact hs.objects a
  · intro a
    rw [Entity.Table.length_filter_area, hnpcs]
    exact hs.npcs a

end Tabulated

def tableSize (q : Quest) : Nat :=
  Entity.Table.sectionsSize Entity.objectSize (q.objects.map (·.areaId)) +
    Entity.Table.sectionsSize Entity.npcSize (q.npcs.map (·.areaId)) +
    (q.kept.map fun s => Entity.sectionHeaderSize + s.data.length).sum + Entity.sectionHeaderSize

/-- Files of a third of the room fit an archive whatever they are compressed to. -/
theorem packs_of_size (h : q.Storable options)
    (ht : 3 * q.tableSize + 4 ≤ Archive.maxFileSize)
    (hs : ∀ stored, ObjectCode.write q.segments = .ok stored →
      3 * (ScriptFile.headerSize + stored.code.length + 4 * stored.offsets.length) + 4 ≤
        Archive.maxFileSize) : q.Packs options := by
  constructor
  · intro t bs htable hw
    obtain ⟨e, he, htab⟩ := (table_eq_ok_iff h).1 htable
    obtain ⟨hobjects, hnpcs⟩ := htab.map_areaId h he
    have hlen := Entity.Table.length_write (htab.storable h he) hw
    rw [hobjects, hnpcs, htab.kept] at hlen
    refine Nat.le_trans (Prs.length_compress_le bs) ?_
    rw [hlen]
    exact ht
  · intro bs hw
    obtain ⟨_, stored, _, -, hstored, -⟩ := h.code
    refine Nat.le_trans (Prs.length_compress_le bs) ?_
    rw [ScriptFile.length_write hstored hw]
    exact hs stored hstored

/-! ## The archive -/

/-- A file with a name of four letters behind a short base can be kept and labelled. -/
theorem packed_fits {base extension : String} {letters : List Char} {data : Bytes}
    (he : extension.toList = '.' :: letters) (hdot : '.' ∉ letters)
    (hext : Field.IsName extension) (hlen : extension.length = 4) (hb : Field.IsName base)
    (ho : options.Nameable) (hl : (base.length : Int) ≤ options.baseNameLength)
    (hd : (Prs.compress data).length ≤ Archive.maxFileSize) :
    (q.packed options (base ++ extension) data).Storable ∧
      (q.packed options (base ++ extension) data).Labelled := by
  have hbase := ho.base
  have hsecond := ho.second
  constructor
  · refine ⟨isName_append hb hext, ?_, Prs.compress_ne_nil data, hd⟩
    show (base ++ extension).length ≤ 16
    rw [String.length_append]
    omega
  · have hname : (q.packed options (base ++ extension) data).secondNameOrDefault =
        base ++ options.secondNameSuffix ++ extension := defaultSecondName_append he hdot
    refine ⟨?_, ?_, ?_⟩
    · rw [hname]
      exact isName_append (isName_append hb ho.suffix) hext
    · rw [hname, String.length_append, String.length_append]
      show _ ≤ 24
      omega
    · show Word.Fits 2 (q.id % 0x10000)
      exact ⟨Int.emod_nonneg _ (by decide), Int.emod_lt_of_pos _ (by decide)⟩

theorem exists_write (h : q.Storable options) (hs : q.Sized) (hp : q.Packs options)
    (ho : options.Nameable) (hn : Field.IsName fileName) :
    ∃ w, q.write fileName options = .ok w := by
  obtain ⟨e, he⟩ := episode_of_storable h
  obtain ⟨t, ht⟩ := exists_tabulated h he
  obtain ⟨table, htable⟩ := Entity.Table.exists_write (ht.storable h he) (ht.sized h he hs)
  obtain ⟨script, hscript⟩ := exists_script h hs
  have hbase : Field.IsName (baseName fileName options.baseNameLength) := isName_baseName hn
  have hlen := @length_baseName_le fileName _ ho.base.1
  obtain ⟨hf, lf⟩ := @packed_fits q options _ ".dat" _ table rfl (by decide) (by decide) rfl hbase
    ho hlen (hp.table t table ((table_eq_ok_iff h).2 ⟨e, he, ht⟩) htable)
  obtain ⟨hg, lg⟩ := @packed_fits q options _ ".bin" _ script rfl (by decide) (by decide) rfl hbase
    ho hlen (hp.script script hscript)
  obtain ⟨w, hw⟩ := Archive.exists_write hf hg lf lg
  exact ⟨w, (write_eq_ok_iff h).2 ⟨e, t, table, script, ⟨he, ht, htable, hscript⟩, hw⟩⟩

/-! ## A quest that fits -/

/-- A quest with a label of an object and one of an NPC, an NPC without one, properties out of
their places and a rest of a record; its shop sells nothing. -/
def outline : Quest where
  id := 118
  language := 1
  name := .ofString "Lost HEAT SWORD"
  shortDescription := .ofString "Retrieve a weapon"
  longDescription := .ofString "Client: Hopkins"
  objects := [
    { typeId := 0x012, id := 1, groupId := 0, areaId := 0, sectionId := 10
      position := ⟨⟨0x405EDD2F20000000⟩, .zero, .zero⟩
      rotation := ⟨.zero, ⟨0x3FF922147658A371⟩, .zero⟩
      properties := [("script_label", .int 1), ("property_0", .float .zero),
        ("property_1", .float .zero), ("property_2", .float .zero), ("property_4", .int 0),
        ("property_5", .int 0), ("property_6", .int 0)]
      unknown := [List.replicate 6 0, [1, 2]] }]
  npcs := [
    { type := .gobooma, typeId := 0x044, npcId := .zero, scriptLabel := some 2, roaming := 1
      areaId := 1, sectionId := 10, position := ⟨.zero, .zero, .zero⟩
      rotation := ⟨.zero, .zero, .zero⟩, scale := ⟨.zero, .zero, .zero⟩
      unknown := [List.replicate 10 0, List.replicate 6 0, List.replicate 4 0] },
    { type := .nurse, typeId := 0x01F, npcId := .zero, scriptLabel := none, roaming := 0
      areaId := 2, sectionId := 10, position := ⟨.zero, .zero, .zero⟩
      rotation := ⟨.zero, .zero, .zero⟩, scale := ⟨.zero, .zero, .zero⟩
      unknown := [List.replicate 10 0, List.replicate 6 0, List.replicate 4 0] }]
  kept := [{ entityType := 1, totalSize := 19, areaId := 4, entitiesSize := 3, data := [7, 8, 9] }]
  segments := [
    .code [0] [⟨.setEpisode, [⟨.int 0, 4⟩]⟩, ⟨.plain 0x01 "ret" [], []⟩],
    .code [1] [⟨.plain 0x01 "ret" [], []⟩],
    .code [2] [⟨.plain 0x01 "ret" [], []⟩]]

def sampler : Quest :=
  { outline with shopItems := List.replicate ScriptFile.shopItemCount 5 }

theorem write_outline : ObjectCode.write outline.segments =
    .ok ⟨[0xF8, 0xBC, 0, 0, 0, 0, 1, 1, 1], [0, 7, 8]⟩ := by decide +kernel

theorem read_outline : ObjectCode.read .strict
    ⟨[0xF8, 0xBC, 0, 0, 0, 0, 1, 1, 1], [0, 7, 8]⟩ (ObjectCode.entries [0, 1, 2]) =
      .ok ⟨outline.segments, []⟩ :=
  ObjectCode.read_of_readWithin (n := 4) (by decide) (by decide +kernel)

theorem storable_sampler : sampler.Storable {} := by
  have zero := Double.isSingle_zero
  have still := Angle.isAngle_zero
  have origin := Vec3.isSingle_zero
  have upright := Vec3.isRotation_zero
  refine ⟨?_, ?_, ?_, ?_, ?_, List.length_replicate, ?_⟩
  · refine List.forall_mem_singleton.2 ⟨by decide +kernel, ?_, by decide⟩
    exact ⟨by decide, by decide, by decide, by decide,
      ⟨⟨0x42F6E979, by decide +kernel⟩, zero, zero⟩,
      ⟨still, ⟨16384, by decide, by decide, by decide +kernel⟩, still⟩,
      ⟨.zero, .zero, .zero, [1, 0, 0, 0], by decide +kernel, ⟨zero, zero, zero⟩, rfl, by decide⟩,
      rfl⟩
  · have storable : ∀ n ∈ sampler.npcs, (n.record .nan).Storable ∧ Word.Fits 4 n.areaId := by
      refine List.forall_mem_cons.2 ⟨?_, List.forall_mem_singleton.2 ?_⟩ <;>
        exact ⟨⟨by decide, by decide, origin, upright, origin, zero, Double.isSingle_nan,
          by decide, rfl⟩, by decide⟩
    exact storable
  · intro e he
    have hone : outline.episode = .ok .one := by decide +kernel
    cases hone.symm.trans he
    refine List.forall_mem_cons.2 ⟨⟨by decide +kernel, fun l hl => ?_⟩,
      List.forall_mem_singleton.2 ⟨by decide +kernel, fun l hl => ?_⟩⟩
    · cases hl
      exact Double.isLabel_of_le (by decide)
    · cases hl
  · refine List.forall_mem_singleton.2 ⟨by decide, by decide, rfl, rfl, by decide, by decide,
      fun _ => by decide, fun he => absurd he (by decide)⟩
  · refine ⟨by decide, by decide, ?_, ?_, ?_, Nat.le_of_eq List.length_replicate, ?_⟩
    · exact Text.fits_ofString (by decide +kernel) (by decide +kernel)
    · exact Text.fits_ofString (by decide +kernel) (by decide +kernel)
    · exact Text.fits_ofString (by decide +kernel) (by decide +kernel)
    · intro n hn
      rw [List.eq_of_mem_replicate hn]
      decide
  · have hlabels : outline.labels = .ok [0, 1, 2] := by decide +kernel
    exact ⟨_, _, _, hlabels, write_outline, read_outline, rfl⟩

theorem sized_sampler : sampler.Sized := by
  constructor
  · intro a
    have hle := List.count_le_length (a := a) (l := sampler.objects.map (·.areaId))
    have hlen : (sampler.objects.map (·.areaId)).length = 1 := rfl
    refine ⟨Int.natCast_nonneg _, Int.ofNat_lt.2 ?_⟩
    show _ * 68 + 16 < 2 ^ 32
    omega
  · intro a
    have hle := List.count_le_length (a := a) (l := sampler.npcs.map (·.areaId))
    have hlen : (sampler.npcs.map (·.areaId)).length = 2 := rfl
    refine ⟨Int.natCast_nonneg _, Int.ofNat_lt.2 ?_⟩
    show _ * 72 + 16 < 2 ^ 32
    omega
  · intro stored hs
    cases write_outline.symm.trans hs
    decide

theorem packs_sampler : sampler.Packs {} := by
  refine packs_of_size storable_sampler (by decide +kernel) fun stored hs => ?_
  cases write_outline.symm.trans hs
  decide

end Quest
end QuestArchive
