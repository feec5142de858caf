import QuestArchive.Proofs.Quest.Header
import QuestArchive.Proofs.Quest.Outline
import QuestArchive.Proofs.Quest.Stability

/-!
# Archives that cannot be read

Faults of the format tell what keeps a quest from being had from its archive.  `Defect` lists
all that they leave out, in the order in which reading meets it: data that end early, streams
that break, a byte of the script that is no operation's number, and labels in front of the code.
-/

namespace QuestArchive

/-! ## Archives and streams -/

namespace Archive

theorem recordAt_eq_error {data : Bytes} {offset size : Nat} {e : Fault}
    (h : recordAt data.toArray offset size = .error e) :
    data.length < offset + size ∧ e = .pastBound .slice size offset data.length := by
  unfold recordAt at h
  rw [List.size_toArray] at h
  split at h
  · next hlt =>
    cases h
    exact ⟨hlt, rfl⟩
  · cases h

/-- An archive that cannot be read is of a kind whose layout is not known, or ends inside its
headers. -/
theorem fault_of_read {data : Bytes} {e : Fault} (h : read data = .error e) :
    e.isFormat = true ∨ data.length < 2 * headerSize ∧
      ∃ offset : Nat, e = .pastBound .slice headerSize offset data.length := by
  unfold read at h
  dsimp only at h
  split at h
  · cases h
    exact Or.inl rfl
  · refine Or.inr ?_
    rcases bind_eq_error_iff.1 h with h | ⟨first, -, h⟩
    · obtain ⟨hlt, rfl⟩ := recordAt_eq_error h
      exact ⟨by omega, _, rfl⟩
    rcases bind_eq_error_iff.1 h with h | ⟨second, -, h⟩
    · obtain ⟨hlt, rfl⟩ := recordAt_eq_error h
      exact ⟨by omega, _, rfl⟩
    · cases h

end Archive

namespace Prs

theorem Token.fault_of_extend {t : Token} {out : Array UInt8} {e : Fault}
    (h : t.extend out = .error e) :
    ∃ distance produced, e = .copyBeforeStart distance produced := by
  cases t with
  | literal b => cases h
  | short distance length | long distance length =>
    by_cases hd : distance ≤ out.size
    · cases (if_pos hd).symm.trans h
    · cases (if_neg hd).symm.trans h
      exact ⟨_, _, rfl⟩

/-- A stream that breaks ends without its end mark, or copies from before the start. -/
theorem fault_of_decompress {data : Bytes} {e : Fault} (h : decompress data = .error e) :
    (∃ offset, e = .compressedEnd offset) ∨
      ∃ distance produced, e = .copyBeforeStart distance produced := by
  unfold decompress at h
  generalize ({ rest := data } : Source) = s at h
  generalize (#[] : Array UInt8) = out at h
  fun_induction decodeFrom data.length s out with
  | case1 =>
    cases h
    exact Or.inl ⟨_, rfl⟩
  | case2 => cases h
  | case3 _ _ _ _ _ _ _ ih => exact ih h
  | case4 _ _ _ _ _ _ he =>
    cases h
    exact Or.inr (Token.fault_of_extend he)

end Prs

/-! ## Entity tables -/

namespace Entity

theorem Break.fault {offset total : Int} {bs : Bytes} {e : Fault} (h : Break offset total bs e) :
    e.isFormat = true ∨ ∃ use size offset, e = .pastBound use size offset total := by
  cases h with
  | sizes => exact Or.inl rfl
  | kind | header | body => exact Or.inr ⟨_, _, _, rfl⟩

/-- A table that cannot be read is no row of sections, and breaks for a reason that its format
tells or where it ends. -/
theorem Table.fault_of_read {data : Bytes} {e : Fault} (h : read data = .error e) :
    e.isFormat = true ∨ (¬∃ ss, Sections data ss) ∧
      ∃ use size offset, e = .pastBound use size offset data.length := by
  rcases sections_or_break 0 data.length data with ⟨ss, hss⟩ | ⟨pieces, ss, rest, e', hd, hss, hb⟩
  · obtain ⟨t, ht⟩ := exists_read_of_sections hss
    cases ht.symm.trans h
  · have hnone : ¬∃ ss, Sections data ss := by
      rintro ⟨ss, hss⟩
      obtain ⟨t, ht⟩ := exists_read_of_sections hss
      cases ht.symm.trans h
    rw [Int.zero_add] at hb
    have herror : read data = .error e' := by
      rw [hd] at hb ⊢
      exact read_of_break hss hb
    cases herror.symm.trans h
    exact hb.fault.imp_right fun hp => ⟨hnone, hp⟩

end Entity

/-! ## Labels of objects -/

namespace ObjectType

theorem propertyName_not_label (typeId : Int) {place : Nat} (h : place < 3) :
    propertyName typeId place ∉ labelNames := by
  have hslot : labelSlots.find? (fun slot => slot.1 = typeId && slot.2.1 = place) = none := by
    refine List.find?_eq_none.2 fun slot hslot => ?_
    have hplace : ∀ slot ∈ labelSlots, 3 ≤ slot.2.1 := by decide
    have hle := hplace slot hslot
    simp only [Bool.and_eq_true, decide_eq_true_eq, not_and]
    omega
  unfold propertyName
  rw [hslot]
  match place, h with
  | 0, _ | 1, _ | 2, _ => decide +kernel

end ObjectType

namespace QuestObject

theorem exists_scriptLabels {r : Entity.ObjectRecord} (h : r.Storable) :
    ∃ labels, (ofRecord r).scriptLabels = .ok labels := by
  obtain ⟨x, y, z, ns, hprops, -⟩ := h.properties
  refine exists_mapM fun v hv => ?_
  obtain ⟨name, hname, hv⟩ := List.mem_filterMap.1 hv
  obtain ⟨p, hp, rfl⟩ := Option.map_eq_some_iff.1 hv
  have hpname : p.1 = name := by simpa using List.find?_some hp
  have hmem : p ∈ (ObjectType.propertyNames r.typeId).zip r.properties :=
    List.mem_of_find?_eq_some hp
  rw [hprops, ObjectType.propertyNames, List.range_eq_range', ObjectType.propertyCount] at hmem
  have hfirst (place : Nat) (hlt : place < 3) : p.1 ≠ ObjectType.propertyName r.typeId place :=
    fun he => ObjectType.propertyName_not_label r.typeId hlt (he ▸ hpname ▸ hname)
  -- the three numbers in front have no name of a label
  rcases List.mem_cons.1 hmem with rfl | hmem
  · exact absurd rfl (hfirst 0 (by decide))
  rcases List.mem_cons.1 hmem with rfl | hmem
  · exact absurd rfl (hfirst 1 (by decide))
  rcases List.mem_cons.1 hmem with rfl | hmem
  · exact absurd rfl (hfirst 2 (by decide))
  · obtain ⟨n, -, hn⟩ := List.mem_map.1 (List.of_mem_zip hmem).2
    rw [← hn]
    exact ⟨n, rfl⟩

end QuestObject

namespace Quest

theorem fault_of_parts {members : List Archive.Member} {e : Fault} (h : parts members = .error e) :
    e.isFormat = true := by
  unfold parts at h
  split at h
  · cases h
    rfl
  · split at h
    · cases h
      rfl
    · cases h

theorem exists_objectLabels {table : Bytes} {t : Entity.Table}
    (h : Entity.Table.read table = .ok t) :
    ∀ o ∈ t.objects.map QuestObject.ofRecord, ∃ labels, o.scriptLabels = .ok labels := by
  intro o ho
  obtain ⟨r, hr, rfl⟩ := List.mem_map.1 ho
  exact QuestObject.exists_scriptLabels ((Entity.Table.storable_of_read h).objects r hr).1

/-! ## Defects -/

def tableData (data : Bytes) : Except Fault Bytes := do
  let archive ← Archive.read data
  let files ← parts archive.members
  Prs.decompress files.1

def scriptData (data : Bytes) : Except Fault Bytes := do
  let archive ← Archive.read data
  let files ← parts archive.members
  Prs.decompress files.2

/-- What is wrong with an archive that cannot be read, and the fault of reading it, if the format
has no fault for it. -/
inductive Defect (data : Bytes) : Fault → Prop where
  /-- The archive ends inside its headers. -/
  | headers (offset : Nat) (short : data.length < 2 * Archive.headerSize) :
      Defect data (.pastBound .slice Archive.headerSize offset data.length)
  /-- The stream of the entity table or of the script ends without its end mark. -/
  | stream {archive : Archive.Contents} {files : Bytes × Bytes} {offset : Nat}
      (read : Archive.read data = .ok archive) (parts : parts archive.members = .ok files)
      (broken : Prs.decompress files.1 = .error (.compressedEnd offset) ∨
        Prs.decompress files.2 = .error (.compressedEnd offset)) :
      Defect data (.compressedEnd offset)
  /-- One of these streams copies from before the start of its data. -/
  | copy {archive : Archive.Contents} {files : Bytes × Bytes} {distance produced : Nat}
      (read : Archive.read data = .ok archive) (parts : parts archive.members = .ok files)
      (broken : Prs.decompress files.1 = .error (.copyBeforeStart distance produced) ∨
        Prs.decompress files.2 = .error (.copyBeforeStart distance produced)) :
      Defect data (.copyBeforeStart distance produced)
  /-- The entity table is no row of sections. -/
  | table {table : Bytes} (use : SpanUse) (size offset : Int) (read : tableData data = .ok table)
      (broken : ¬∃ ss, Entity.Sections table ss) :
      Defect data (.pastBound use size offset table.length)
  /-- The script file ends inside its header. -/
  | header {script : Bytes} (use : SpanUse) (size offset : Int)
      (read : scriptData data = .ok script) (short : script.length < ScriptFile.headerSize) :
      Defect data (.pastBound use size offset script.length)
  /-- A byte of the script file can open no number of an operation. -/
  | opcode {script : Bytes} {b : UInt8} (read : scriptData data = .ok script) (mem : b ∈ script)
      (high : 0xFA ≤ b.toNat) : Defect data (.unknownOpcode b.toNat)
  /-- A label has an offset in front of the code. -/
  | label {offsets : List Int} {o : Int} {e : Fault} (read : labelTable data = .ok offsets)
      (mem : o ∈ offsets) (low : o < -1)
      (fault : e = .cutField ∨ e = .noByte ∨ ∃ code, e = .unknownOpcode code) : Defect data e

variable {data : Bytes} {options : QuestOptions}

theorem Defect.of_decompress {archive : Archive.Contents} {files : Bytes × Bytes} {e : Fault}
    (ha : Archive.read data = .ok archive) (hp : parts archive.members = .ok files)
    (h : Prs.decompress files.1 = .error e ∨ Prs.decompress files.2 = .error e) :
    Defect data e := by
  rcases h.elim Prs.fault_of_decompress Prs.fault_of_decompress with ⟨_, rfl⟩ | ⟨_, _, rfl⟩
  · exact .stream ha hp h
  · exact .copy ha hp h

/-- What keeps a quest from being read is told by its format, or is a defect. -/
theorem fault_of_read {e : Fault} (h : read data options = .error e) :
    e.isFormat = true ∨ Defect data e := by
  unfold read at h
  rcases bind_eq_error_iff.1 h with h | ⟨archive, ha, h⟩
  · refine (Archive.fault_of_read h).imp_right ?_
    rintro ⟨hlt, offset, rfl⟩
    exact .headers offset hlt
  rcases bind_eq_error_iff.1 h with h | ⟨files, hp, h⟩
  · exact Or.inl (fault_of_parts h)
  obtain ⟨packedTable, packedScript⟩ := files
  rcases bind_eq_error_iff.1 h with h | ⟨table, htable, h⟩
  · exact Or.inr (.of_decompress ha hp (Or.inl h))
  have hread : tableData data = .ok table := by
    unfold tableData
    rw [ha, ok_bind, hp, ok_bind]
    exact htable
  rcases bind_eq_error_iff.1 h with h | ⟨t, ht, h⟩
  · refine (Entity.Table.fault_of_read h).imp_right ?_
    rintro ⟨hbroken, use, size, offset, rfl⟩
    exact .table use size offset hread hbroken
  rcases bind_eq_error_iff.1 h with h | ⟨script, hscript, h⟩
  · exact Or.inr (.of_decompress ha hp (Or.inr h))
  have hscriptData : scriptData data = .ok script := by
    unfold scriptData
    rw [ha, ok_bind, hp, ok_bind]
    exact hscript
  rcases bind_eq_error_iff.1 h with h | ⟨labels, -, h⟩
  · -- the labels of objects that were read are never missing
    rcases bind_eq_error_iff.1 h with h | ⟨found, -, h⟩
    · obtain ⟨found, hfound⟩ := exists_mapM (exists_objectLabels ht)
      cases hfound.symm.trans h
    · cases h
  rcases bind_eq_error_iff.1 h with h | ⟨⟨f, diagnostics⟩, hf, h⟩
  · rcases ScriptFile.fault_of_read h with h | ⟨hlt, use, size, offset, rfl⟩ |
      ⟨b, hb, hbyte, rfl⟩ | ⟨header, hheader, ⟨o, ho, hlow⟩, hfault⟩
    · exact Or.inl h
    · exact Or.inr (.header use size offset hscriptData hlt)
    · exact Or.inr (.opcode hscriptData hb hbyte)
    · have hlabels : labelTable data = .ok header.labelOffsets := by
        unfold labelTable
        simp only [ha, ok_bind, hp, hscript, hheader]
        rfl
      exact Or.inr (.label hlabels ho hlow hfault)
  rcases bind_eq_error_iff.1 h with h | ⟨episode, -, h⟩
  · obtain ⟨episode, hepisode⟩ :=
      Script.exists_episode (Script.typed_of_startCode? (ScriptFile.typed_of_read hf))
    cases hepisode.symm.trans h
  · cases h

/-- A quest that was read can be shown: its code is typed, and its objects name their labels. -/
theorem showable_of_read {r : Reading} (h : read data options = .ok r) :
    (∀ s ∈ r.quest.segments, s.Typed) ∧
      ∀ o ∈ r.quest.objects, ∃ labels, o.scriptLabels = .ok labels := by
  unfold read at h
  obtain ⟨archive, -, h⟩ := bind_eq_ok_iff.1 h
  obtain ⟨⟨packedTable, packedScript⟩, -, h⟩ := bind_eq_ok_iff.1 h
  obtain ⟨table, -, h⟩ := bind_eq_ok_iff.1 h
  obtain ⟨t, ht, h⟩ := bind_eq_ok_iff.1 h
  obtain ⟨script, -, h⟩ := bind_eq_ok_iff.1 h
  obtain ⟨labels, -, h⟩ := bind_eq_ok_iff.1 h
  obtain ⟨⟨f, diagnostics⟩, hf, h⟩ := bind_eq_ok_iff.1 h
  obtain ⟨episode, -, h⟩ := bind_eq_ok_iff.1 h
  cases h
  exact ⟨ScriptFile.typed_of_read hf, exists_objectLabels ht⟩

end Quest
end QuestArchive
