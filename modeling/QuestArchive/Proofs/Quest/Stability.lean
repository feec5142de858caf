import QuestArchive.Proofs.Quest.Fitting

/-!
# Writing again what was read from a written archive

Whatever can be read as a quest fits the files that a quest is written to.  So the bytes that
are written for it are those that are written for what is read from them.
-/

namespace QuestArchive
namespace Quest

def labelTable (data : Bytes) : Except Fault (List Int) := do
  let archive ← Archive.read data
  let files ← parts archive.members
  let script ← Prs.decompress files.2
  let header ← Read.within (.whole script.toArray) (ScriptFile.Header.read script.length)
  return header.labelOffsets

variable {options : QuestOptions} {data : Bytes} {r : Reading}

/-- What a quest was read from: the entity table and the script file of an archive. -/
structure ReadFrom (options : QuestOptions) (data : Bytes) (q : Quest) (t : Entity.Table)
    (f : ScriptFile) (e : Episode) (labels : List Int) : Prop where
  table : ∃ bs, Entity.Table.read bs = .ok t
  entries : entryLabels (t.objects.map QuestObject.ofRecord) t.npcs = .ok labels
  script : ∃ bs diagnostics, ScriptFile.read .strict bs labels = .ok (f, diagnostics) ∧
    ∀ header, Read.within (.whole bs.toArray) (ScriptFile.Header.read bs.length) = .ok header →
      labelTable data = .ok header.labelOffsets
  episode : Script.episode f.segments = .ok e
  quest : q = {
    id := f.questId, language := f.language, name := f.name
    shortDescription := f.shortDescription, longDescription := f.longDescription
    objects := t.objects.map QuestObject.ofRecord
    npcs := t.npcs.map (QuestNpc.ofRecord e options.tolerance), kept := t.kept
    segments := f.segments, shopItems := f.shopItems }

theorem exists_readFrom (hm : options.lenient = false) (h : read data options = .ok r) :
    ∃ t f e labels, ReadFrom options data r.quest t f e labels := by
  unfold read at h
  obtain ⟨archive, harchive, h⟩ := bind_eq_ok_iff.1 h
  obtain ⟨files, hparts, h⟩ := bind_eq_ok_iff.1 h
  obtain ⟨packedTable, packedScript⟩ := files
  obtain ⟨tableData, -, h⟩ := bind_eq_ok_iff.1 h
  obtain ⟨t, ht, h⟩ := bind_eq_ok_iff.1 h
  obtain ⟨scriptData, hdata, h⟩ := bind_eq_ok_iff.1 h
  obtain ⟨labels, hlabels, h⟩ := bind_eq_ok_iff.1 h
  rw [hm] at h
  obtain ⟨⟨f, diagnostics⟩, hf, h⟩ := bind_eq_ok_iff.1 h
  obtain ⟨e, he, h⟩ := bind_eq_ok_iff.1 h
  cases h
  refine ⟨t, f, e, labels, ⟨_, ht⟩, hlabels, ⟨scriptData, diagnostics, hf, ?_⟩, he, rfl⟩
  intro header hheader
  unfold labelTable
  simp only [harchive, ok_bind, hparts, hdata, hheader]
  rfl

/-- A quest that was read fits its files, if the label table names no place in front of the
code. -/
theorem storable_of_read (hm : options.lenient = false) (h : read data options = .ok r)
    (ht : ∀ offsets, labelTable data = .ok offsets → ∀ o ∈ offsets, -1 ≤ o) :
    r.quest.Storable options := by
  obtain ⟨t, f, e, labels, ⟨bs, htable⟩, hlabels, ⟨script, ds, hf, hoffsets⟩, he, hq⟩ :=
    exists_readFrom hm h
  have hstored := Entity.Table.storable_of_read htable
  obtain ⟨hscript, hitems⟩ := ScriptFile.storable_of_read hf
  rw [hq]
  refine ⟨?_, ?_, ?_, hstored.kept, hscript, hitems, ?_⟩
  · intro o ho
    obtain ⟨p, hp, rfl⟩ := List.mem_map.1 ho
    obtain ⟨hstorable, hfits⟩ := hstored.objects p hp
    have hcount : p.properties.length = ObjectType.propertyCount := by
      obtain ⟨x, y, z, ns, hprops, -, hlen, -⟩ := hstorable.properties
      rw [hprops, List.length_append, List.length_map, hlen]
      rfl
    exact ⟨QuestObject.named_ofRecord hcount, (QuestObject.record_ofRecord hcount).symm ▸ hstorable,
      hfits⟩
  · intro n hn
    obtain ⟨p, hp, rfl⟩ := List.mem_map.1 hn
    obtain ⟨hstorable, hfits⟩ := hstored.npcs p hp
    exact ⟨QuestNpc.storable_record hstorable Double.isSingle_nan, hfits⟩
  · intro e' he' n hn
    have he' : Script.episode f.segments = .ok e' := he'
    cases he.symm.trans he'
    obtain ⟨p, hp, rfl⟩ := List.mem_map.1 hn
    exact QuestNpc.recorded_ofRecord (hstored.npcs p hp).1
  · obtain ⟨header, code, first, hheader, hread, hsegments⟩ := ScriptFile.exists_reading hf
    obtain ⟨stored, second, hw, hagain, hsame⟩ :=
      ObjectCode.exists_reread (ht _ (hoffsets header hheader)) hread
    rw [← hsegments] at hw hsame
    refine ⟨labels, stored, second, ?_, hw, hagain, hsame⟩
    show labelsWith _ ((t.npcs.map _).filterMap _) = _
    rw [List.filterMap_map]
    exact hlabels

/-- The label table of a written archive is that of the quest's code. -/
theorem labelTable_of_write {q : Quest} {fileName : String} {w : Bytes} (h : q.Storable options)
    (hn : Field.IsName fileName) (hw : q.write fileName options = .ok w)
    {stored : ObjectCode.Stored} (hs : ObjectCode.write q.segments = .ok stored) :
    labelTable w = .ok stored.offsets := by
  obtain ⟨e, t, table, script, hfiles, hw⟩ := (write_eq_ok_iff h).1 hw
  obtain ⟨archive, packed, harchive, -, hparts, -, hpacked⟩ :=
    parts_of_write (isName_baseName hn) hw
  obtain ⟨stored', p, labels, hp, rfl⟩ := ScriptFile.written_of_write hfiles.script
  cases hs.symm.trans hp.code
  have hheader := ScriptFile.header_of_written hp
  unfold labelTable
  simp only [harchive, ok_bind, hparts, hpacked, hheader]
  rfl

/-- Rewriting an archive is stable: what is written for a quest that was read can be read, and
is written as the same bytes again. -/
theorem rewrite_stable {fileName : String} {w : Bytes} (hm : options.lenient = false)
    (h : read data options = .ok r)
    (ht : ∀ offsets, labelTable data = .ok offsets → ∀ o ∈ offsets, -1 ≤ o)
    (hn : Field.IsName fileName) (hw : r.quest.write fileName options = .ok w) :
    ∃ r', read w options = .ok r' ∧ r'.quest.write fileName options = .ok w := by
  have hstorable := storable_of_read hm h ht
  obtain ⟨r', hr', hquest, -⟩ := read_of_write hstorable hm hn hw
  refine ⟨r', hr', ?_⟩
  rw [hquest]
  exact write_arranged hstorable hw

/-- An archive is written again under another name. -/
theorem rewrite_stable_sampler : ∃ data r w r',
    read data {} = .ok r ∧
    (∀ offsets, labelTable data = .ok offsets → ∀ o ∈ offsets, -1 ≤ o) ∧
    Field.IsName "rewritten.qst" ∧ r.quest.write "rewritten.qst" {} = .ok w ∧
    read w {} = .ok r' ∧ r'.quest.write "rewritten.qst" {} = .ok w := by
  have hfirst : Field.IsName "lost heat sword.qst" := by decide +kernel
  have hn : Field.IsName "rewritten.qst" := by decide +kernel
  obtain ⟨data, hdata⟩ := exists_write storable_sampler sized_sampler packs_sampler
    QuestOptions.nameable_default hfirst
  obtain ⟨r, hr, hquest, -⟩ := read_of_write storable_sampler rfl hfirst hdata
  obtain ⟨w, hw⟩ := exists_write storable_sampler sized_sampler packs_sampler
    QuestOptions.nameable_default hn
  have ht : ∀ offsets, labelTable data = .ok offsets → ∀ o ∈ offsets, -1 ≤ o := by
    intro offsets hoffsets
    cases (labelTable_of_write storable_sampler hfirst hdata write_outline).symm.trans hoffsets
    decide
  have hw' : r.quest.write "rewritten.qst" {} = .ok w := by
    rw [hquest]
    exact write_arranged storable_sampler hw
  obtain ⟨r', hr', hagain⟩ := rewrite_stable rfl hr ht hn hw'
  exact ⟨data, r, w, r', hr, ht, hn, hw', hr', hagain⟩

end Quest
end QuestArchive
