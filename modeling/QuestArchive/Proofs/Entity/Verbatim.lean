import Mathlib.Data.Finset.Sort
import QuestArchive.Proofs.Entity.RoundTrip
import QuestArchive.Proofs.ObjectCode.Rewriting

/-!
# Rewriting a table keeps its records byte for byte

`Section.rewritten` says what becomes of the sections of a table: their records are gathered
by area, object records first, and every other section and every part of a record keeps a
section of its own.  The main statement, `Table.write_read`, is that a table which was read is
written as just these bytes, and that these bytes are written as themselves.  What was read from
several sections of an area may be too much for one, and is not written then.

Nothing here is decoded: the records are cut out of the sections by their size alone.
-/

namespace QuestArchive

/-- A NaN does not say which bytes it was read from. -/
structure Vec3.Legible (v : Vec3) : Prop where
  x : v.x.isNaN = false
  y : v.y.isNaN = false
  z : v.z.isNaN = false

namespace Entity

def ObjectRecord.Legible (o : ObjectRecord) : Prop :=
  o.position.Legible ∧ ∀ p ∈ o.properties, p.Legible

structure NpcRecord.Legible (n : NpcRecord) : Prop where
  position : n.position.Legible
  scale : n.scale.Legible
  npcId : n.npcId.isNaN = false
  scriptLabel : n.scriptLabel.isNaN = false

structure Table.Legible (t : Table) : Prop where
  objects : ∀ o ∈ t.objects, o.Legible
  npcs : ∀ n ∈ t.npcs, n.Legible

/-! ## Records -/

theorem write_of_singles {bs : Bytes} {v : Vec3} (h : Singles bs v) (hl : v.Legible) :
    Field.vec3 v = .ok bs := by
  obtain ⟨x, y, z, rfl, ⟨lx, ly, lz⟩, rfl⟩ := h
  unfold Field.vec3
  rw [ObjectCode.single_singleOf lx hl.x, ObjectCode.single_singleOf ly hl.y,
    ObjectCode.single_singleOf lz hl.z, ← List.append_assoc]
  rfl

theorem write_of_turn {bs : Bytes} {x : Double} (h : Turn bs x) :
    ∃ n, Angle.toUnits x = .ok n ∧ Field.i32 n = .ok bs := by
  obtain ⟨hlen, hx⟩ := h
  have hw : Field.i32 (Word.signed 4 (Word.decode bs)) = .ok bs :=
    Field.i32_eq_ok_iff.2 ⟨hlen, rfl⟩
  obtain ⟨low, high⟩ := Word.signed_bounds hlen
  obtain ⟨y, hy, hunits⟩ := Angle.toUnits_ofUnits low high
  cases hx.symm.trans hy
  exact ⟨_, hunits, hw⟩

theorem write_of_turns {bs : Bytes} {v : Vec3} (h : Turns bs v) : writeRotation v = .ok bs := by
  obtain ⟨x, y, z, rfl, hx, hy, hz⟩ := h
  obtain ⟨_, ux, wx⟩ := write_of_turn hx
  obtain ⟨_, uy, wy⟩ := write_of_turn hy
  obtain ⟨_, uz, wz⟩ := write_of_turn hz
  unfold writeRotation
  rw [ux, ok_bind, wx, ok_bind, uy, ok_bind, wy, ok_bind, uz, ok_bind, wz, ← List.append_assoc]
  rfl

theorem mapM_unsigned_groups {width count : Nat} {bs : Bytes} (h : bs.length = width * count) :
    (((Read.groups width count bs).map Word.decode).map fun (n : Nat) => Value.int n).mapM
      (·.unsigned width) = .ok (Read.groups width count bs) := by
  have hlen := (Read.flatten_groups (Nat.le_of_eq h.symm)).1
  rw [List.map_map, mapM_eq_ok_iff, List.forall₂_map_left_iff, List.forall₂_same]
  intro g hg
  exact Field.unsigned_eq_ok_iff.2 ⟨hlen g hg, rfl⟩

/-- A legible record is written as the bytes that it was read from. -/
theorem ObjectRecord.write_of_stored {area : Int} {bs : Bytes} {o : ObjectRecord}
    (h : Stored area bs o) (hl : o.Legible) : o.write = .ok bs := by
  obtain ⟨p, v, w, ⟨l1, l2, l3, l4, l5, l6, l7, l8, l9, l10⟩, hv, hw, rfl, ho⟩ := h
  have word : ∀ {bs : Bytes} {n : Int}, bs.length = 2 → n = Word.decode bs →
      Field.unsigned 2 n = .ok bs := fun hb hn => Field.unsigned_eq_ok_iff.2 ⟨hb, hn⟩
  have w1 : Field.unsigned 2 o.typeId = .ok p.typeId := word l1 (ho ▸ rfl)
  have w3 : Field.unsigned 2 o.id = .ok p.id := word l3 (ho ▸ rfl)
  have w4 : Field.unsigned 2 o.groupId = .ok p.groupId := word l4 (ho ▸ rfl)
  have w5 : Field.unsigned 2 o.sectionId = .ok p.sectionId := word l5 (ho ▸ rfl)
  have wspans : spanAt o.unknown 0 = .ok p.unknown1 ∧ spanAt o.unknown 1 = .ok p.unknown2 := by
    rw [ho]
    exact ⟨rfl, rfl⟩
  have wv : Field.vec3 o.position = .ok p.position :=
    write_of_singles (ho ▸ hv : Singles p.position o.position) hl.1
  have ww : writeRotation o.rotation = .ok p.rotation :=
    write_of_turns (ho ▸ hw : Turns p.rotation o.rotation)
  have hprops : o.properties = [.float (Read.singleOf p.property1),
      .float (Read.singleOf p.property2), .float (Read.singleOf p.property3)] ++
      ((Read.groups 4 4 p.integers).map Word.decode).map fun (n : Nat) => .int n := by
    rw [ho]
    rfl
  have hlegible := hl.2
  rw [hprops, List.forall_mem_append] at hlegible
  obtain ⟨h7, h8, h9, -⟩ := by simpa only [List.forall_mem_cons] using hlegible.1
  have wnumbers : (o.properties.take 3).mapM (·.single) =
      .ok [p.property1, p.property2, p.property3] := by
    rw [hprops]
    exact mapM_eq_ok_iff.2 (.cons (ObjectCode.single_singleOf l7 h7)
      (.cons (ObjectCode.single_singleOf l8 h8) (.cons (ObjectCode.single_singleOf l9 h9) .nil)))
  have wintegers : (o.properties.drop 3).mapM (·.unsigned 4) =
      .ok (Read.groups 4 4 p.integers) := by
    rw [hprops]
    exact mapM_unsigned_groups l10
  have hflat : (Read.groups 4 4 p.integers).flatten = p.integers := by
    rw [(Read.flatten_groups (Nat.le_of_eq l10.symm)).2, List.take_of_length_le (by omega)]
  simp only [write, Field.u16, w1, w3, w4, w5, wv, ww, wnumbers, wintegers, wspans.1, wspans.2,
    Bind.bind, Except.bind, List.append_assoc, List.flatten_cons, List.flatten_nil,
    List.append_nil, hflat, ObjectParts.bytes]
  rfl

theorem NpcRecord.write_of_stored {area : Int} {bs : Bytes} {n : NpcRecord}
    (h : Stored area bs n) (hl : n.Legible) : n.write = .ok bs := by
  obtain ⟨p, v, w, u, ⟨l1, l2, l3, l4, l5, l6, l7, l8⟩, hv, hw, hu, rfl, hn⟩ := h
  have w1 : Field.unsigned 2 n.typeId = .ok p.typeId :=
    Field.unsigned_eq_ok_iff.2 ⟨l1, hn ▸ rfl⟩
  have w3 : Field.unsigned 2 n.sectionId = .ok p.sectionId :=
    Field.unsigned_eq_ok_iff.2 ⟨l3, hn ▸ rfl⟩
  have w7 : Field.unsigned 4 n.roaming = .ok p.roaming :=
    Field.unsigned_eq_ok_iff.2 ⟨l7, hn ▸ rfl⟩
  have wspans : spanAt n.unknown 0 = .ok p.unknown1 ∧ spanAt n.unknown 1 = .ok p.unknown2 ∧
      spanAt n.unknown 2 = .ok p.unknown3 := by
    rw [hn]
    exact ⟨rfl, rfl, rfl⟩
  have wv : Field.vec3 n.position = .ok p.position :=
    write_of_singles (hn ▸ hv : Singles p.position n.position) hl.position
  have ww : writeRotation n.rotation = .ok p.rotation :=
    write_of_turns (hn ▸ hw : Turns p.rotation n.rotation)
  have wu : Field.vec3 n.scale = .ok p.scale :=
    write_of_singles (hn ▸ hu : Singles p.scale n.scale) hl.scale
  have hid : n.npcId = Read.singleOf p.npcId := hn ▸ rfl
  have hlabel : n.scriptLabel = Read.singleOf p.scriptLabel := hn ▸ rfl
  have w5 : Field.single n.npcId = .ok p.npcId := by
    rw [hid]
    exact ObjectCode.single_singleOf l5 (hid ▸ hl.npcId)
  have w6 : Field.single n.scriptLabel = .ok p.scriptLabel := by
    rw [hlabel]
    exact ObjectCode.single_singleOf l6 (hlabel ▸ hl.scriptLabel)
  simp only [write, Field.u16, Field.u32, w1, w3, w5, w6, w7, wv, ww, wu, wspans.1, wspans.2.1,
    wspans.2.2, Bind.bind, Except.bind, List.append_assoc, NpcParts.bytes]
  rfl

/-! ## Sections cut apart and put together -/

namespace Section

def bytes (s : Section) : Bytes :=
  Word.encode 4 s.kind ++ (Word.encode 4 (s.body.length + sectionHeaderSize) ++
    (Word.encode 4 s.area ++ (Word.encode 4 s.body.length ++ s.body)))

theorem bytes_of_stored {s : Section} {bs : Bytes} (h : s.Stored bs) : bs = s.bytes := by
  obtain ⟨kind, total, area, size, ⟨lk, lt, la, ls⟩, rfl, hk, -, ht, ha, hs⟩ := h
  have word : ∀ {w : Bytes}, w.length = 4 → Word.encode 4 (Word.decode w) = w := fun hw =>
    hw ▸ Word.encode_decode _
  rw [bytes, hk, ← ht, ha, ← hs, word lk, word lt, word la, word ls]

theorem stored_bytes {s : Section} (h0 : s.kind ≠ 0) (hk : Word.Fits 4 s.kind)
    (ha : Word.Fits 4 s.area) (hs : Word.Fits 4 (s.body.length + sectionHeaderSize : Nat)) :
    s.Stored s.bytes := by
  have total := Int.ofNat_lt.1 hs.2
  refine ⟨_, _, _, _, ⟨Word.length_encode .., Word.length_encode .., Word.length_encode ..,
    Word.length_encode ..⟩, rfl, ?_, h0, Word.decode_encode total, ?_, ?_⟩
  · rw [Word.decode_encode (Int.ofNat_lt.1 hk.2)]
  · rw [Word.decode_encode (Int.ofNat_lt.1 ha.2)]
  · exact Word.decode_encode (Nat.lt_of_le_of_lt (Nat.le_add_right _ _) total)

/-- The whole records of a section of some kind, each with the area of its section. -/
def records (kind size : Nat) (s : Section) : List (Nat × Bytes) :=
  if s.kind = kind then
    (Read.groups size (s.body.length / size) s.body).map fun r => (s.area, r)
  else []

def remainder (size : Nat) (s : Section) : List Section :=
  if s.body.length % size = 0 then []
  else [{ s with body := s.body.drop (s.body.length - s.body.length % size) }]

/-- What is kept of a section as it is: all but whole records. -/
def kept (s : Section) : List Section :=
  if s.kind = objectKind then s.remainder objectSize
  else if s.kind = npcKind then s.remainder npcSize
  else [s]

def areasOf (records : List (Nat × Bytes)) : List Nat :=
  (records.map (·.1)).toFinset.sort (· ≤ ·)

/-- One section for each area that has records, areas ascending, records in their order. -/
def gathered (kind : Nat) (records : List (Nat × Bytes)) : List Section :=
  (areasOf records).map fun area =>
    { kind, area, body := (records.filter (·.1 = area)).flatMap (·.2) }

def rewritten (ss : List Section) : Bytes :=
  (gathered objectKind (ss.flatMap (records objectKind objectSize)) ++
    gathered npcKind (ss.flatMap (records npcKind npcSize)) ++
    ss.flatMap kept).flatMap bytes ++ Field.zeros sectionHeaderSize

end Section

/-! ## Groups -/

section Groups

variable {α : Type} {area : α → Int} {kind size : Nat} {write : α → Except Fault Bytes}
  {records : List (Nat × Bytes)} {entities : List α}

def Written (size : Nat) (area : α → Int) (write : α → Except Fault Bytes)
    (r : Nat × Bytes) (x : α) : Prop :=
  write x = .ok r.2 ∧ area x = r.1 ∧ r.2.length = size

theorem areas_of_written (h : List.Forall₂ (Written size area write) records entities) :
    areas area entities = (Section.areasOf records).map fun (a : Nat) => (a : Int) := by
  have anti : Std.Antisymm fun a b : Int => a < b :=
    ⟨fun a b hab hba => absurd hba (Int.lt_asymm hab)⟩
  have irrefl : Std.Irrefl fun a b : Int => a < b := ⟨fun a ha => Int.lt_irrefl _ ha⟩
  have hmap : entities.map area = records.map fun r => (r.1 : Int) :=
    (map_eq_map_of_forall₂ (h.imp fun _ _ hw => hw.2.1.symm)).symm
  refine (sorted_areas area entities).eq_of_mem_iff ?_ fun a => ?_
  · rw [List.pairwise_map]
    exact (Finset.sortedLT_sort _).pairwise.imp fun hlt => Int.ofNat_lt.2 hlt
  · have hm : a ∈ areas area entities ↔ a ∈ entities.map area :=
      mem_areas.trans List.mem_map.symm
    simp only [hm, hmap, List.mem_map, Section.areasOf, Finset.mem_sort, List.mem_toFinset]
    constructor
    · rintro ⟨r, hr, rfl⟩
      exact ⟨r.1, ⟨r, hr, rfl⟩, rfl⟩
    · rintro ⟨_, ⟨r, hr, rfl⟩, rfl⟩
      exact ⟨r, hr, rfl⟩

theorem filter_of_written (h : List.Forall₂ (Written size area write) records entities)
    (a : Nat) : List.Forall₂ (Written size area write) (records.filter (·.1 = a))
      (entities.filter (area · = a)) := by
  refine List.rel_filter (fun r x hw => ?_) h
  show decide (r.1 = a) = true ↔ decide (area x = a) = true
  rw [decide_eq_true_eq, decide_eq_true_eq, hw.2.1]
  exact Int.ofNat_inj.symm

/-- The groups of some entities are written as the gathered records. -/
theorem mapM_writeGroup (h0 : kind ≠ 0) (hk : Word.Fits 4 kind)
    (h : List.Forall₂ (Written size area write) records entities)
    (ha : ∀ x ∈ entities, Word.Fits 4 (area x))
    (hs : ∀ a, Word.Fits 4
      ((entities.filter (area · = a)).length * size + sectionHeaderSize : Nat)) :
    (groupByArea area entities).mapM (writeGroup kind size write) =
      .ok ((Section.gathered kind records).map Section.bytes) := by
  rw [groupByArea_eq, areas_of_written h, Section.gathered, List.map_map, List.map_map,
    mapM_eq_ok_iff, List.forall₂_map_left_iff, List.forall₂_map_right_iff, List.forall₂_same]
  intro a hm
  have hgroup := filter_of_written h a
  have hfits : Word.Fits 4 (a : Int) := by
    obtain ⟨x, hx, hxa⟩ := mem_areas.1 (show (a : Int) ∈ areas area entities by
      rw [areas_of_written h]
      exact List.mem_map_of_mem hm)
    exact hxa ▸ ha x hx
  have hbody : (entities.filter (area · = a)).mapM write =
      .ok ((records.filter (·.1 = a)).map (·.2)) :=
    mapM_eq_ok_iff.2 (List.forall₂_map_right_iff.2 (hgroup.imp fun _ _ hw => hw.1).flip)
  have hlen : ((records.filter (·.1 = a)).flatMap (·.2)).length =
      (entities.filter (area · = a)).length * size := by
    rw [List.flatMap_def, length_flatten_of_forall, List.length_map, hgroup.length_eq]
    intro piece hp
    obtain ⟨r, hr, rfl⟩ := List.mem_map.1 hp
    obtain ⟨x, -, hw⟩ := exists_of_forall₂ hgroup r hr
    exact hw.2.2
  obtain ⟨header, hh⟩ := exists_sectionHeader hk hfits (hs a)
  have hstored := (stored_of_sectionHeader h0 (hlen ▸ hh)).1
  show writeGroup kind size write (a, _) = _
  unfold writeGroup
  rw [hh, ok_bind, hbody, ok_bind, ← List.flatMap_def]
  exact congrArg Except.ok (Section.bytes_of_stored hstored)

end Groups

/-! ## Tables -/

/-- What is read from some sections: the records that are cut out of them, and the rest. -/
structure Table.Cut (ss : List Section) (t : Table) : Prop where
  objects : List.Forall₂ (fun r o => ObjectRecord.Stored r.1 r.2 o)
    (ss.flatMap (Section.records objectKind objectSize)) t.objects
  npcs : List.Forall₂ (fun r n => NpcRecord.Stored r.1 r.2 n)
    (ss.flatMap (Section.records npcKind npcSize)) t.npcs
  kept : t.kept = (ss.flatMap Section.kept).map fun s => .ofBody s.kind s.area s.body

theorem leftover_kept (s : Section) (size : Nat) :
    (leftover s size).1 = (s.remainder size).map fun s => .ofBody s.kind s.area s.body := by
  unfold leftover Section.remainder
  dsimp only
  split <;> rfl

namespace Table

theorem cut_ofSection {s : Section} {t : Table} (h : ofSection s = .ok t) : Cut [s] t := by
  have ne : npcKind ≠ objectKind := by decide
  have single : ∀ {β : Type} (f : Section → List β), [s].flatMap f = f s := fun f =>
    List.flatMap_singleton f s
  unfold ofSection at h
  by_cases ho : s.kind = objectKind
  · rw [if_pos ho] at h
    obtain ⟨os, hos, h⟩ := bind_eq_ok_iff.1 h
    cases h
    have hos := (readRecords_eq_ok_iff (ObjectRecord.describes_read s.area)
      ObjectRecord.length_of_stored).1 hos
    refine ⟨?_, ?_, ?_⟩
    · rw [single, Section.records, if_pos ho]
      exact List.forall₂_map_left_iff.2 hos
    · rw [single, Section.records, if_neg (ho ▸ ne.symm)]
      exact .nil
    · rw [single, Section.kept, if_pos ho]
      exact leftover_kept s objectSize
  · rw [if_neg ho] at h
    by_cases hn : s.kind = npcKind
    · rw [if_pos hn] at h
      obtain ⟨ns, hns, h⟩ := bind_eq_ok_iff.1 h
      cases h
      have hns := (readRecords_eq_ok_iff (NpcRecord.describes_read s.area)
        NpcRecord.length_of_stored).1 hns
      refine ⟨?_, ?_, ?_⟩
      · rw [single, Section.records, if_neg ho]
        exact .nil
      · rw [single, Section.records, if_pos hn]
        exact List.forall₂_map_left_iff.2 hns
      · rw [single, Section.kept, if_neg ho, if_pos hn]
        exact leftover_kept s npcSize
    · rw [if_neg hn] at h
      cases h
      refine ⟨?_, ?_, ?_⟩
      · rw [single, Section.records, if_neg ho]
        exact .nil
      · rw [single, Section.records, if_neg hn]
        exact .nil
      · rw [single, Section.kept, if_neg ho, if_neg hn]
        rfl

theorem cut_concat {ss : List Section} {tables : List Table}
    (h : List.Forall₂ (fun s t => ofSection s = .ok t) ss tables) : Cut ss (concat tables) := by
  induction h with
  | nil => exact ⟨.nil, .nil, rfl⟩
  | @cons s t ss tables hs _ ih =>
    obtain ⟨ho, hn, hk⟩ := cut_ofSection hs
    rw [List.flatMap_singleton] at ho hn hk
    refine ⟨List.rel_append ho ih.objects, List.rel_append hn ih.npcs, ?_⟩
    show t.kept ++ (concat tables).kept = _
    rw [hk, ih.kept, List.flatMap_cons, List.map_append]

/-- A table that was read is cut out of the sections that its bytes are. -/
theorem exists_cut {data : Bytes} {t : Table} (h : read data = .ok t) :
    ∃ ss, Sections data ss ∧ Cut ss t := by
  unfold read at h
  obtain ⟨ss, hs, h⟩ := bind_eq_ok_iff.1 h
  obtain ⟨tables, ht, h⟩ := bind_eq_ok_iff.1 h
  cases h
  obtain ⟨more, rfl, hs⟩ := Section.sections_of_readAll (Cursor.inside_whole _) hs
  refine ⟨_, ?_, cut_concat (mapM_eq_ok_iff.1 ht)⟩
  simpa [Cursor.view_whole] using hs

/-- What was cut out of sections is written as these sections rewritten. -/
theorem write_of_cut {ss : List Section} {t : Table} (hc : Cut ss t) (h : t.Storable)
    (hl : t.Legible) (hs : t.Sized) : t.write = .ok (Section.rewritten ss) := by
  have wo : List.Forall₂ (Written objectSize (·.areaId) ObjectRecord.write)
      (ss.flatMap (Section.records objectKind objectSize)) t.objects :=
    forall₂_imp_mem hc.objects fun _ _ o ho hr => ⟨ObjectRecord.write_of_stored hr
      (hl.objects o ho), (ObjectRecord.storable_of_stored hr).2, ObjectRecord.length_of_stored hr⟩
  have wn : List.Forall₂ (Written npcSize (·.areaId) NpcRecord.write)
      (ss.flatMap (Section.records npcKind npcSize)) t.npcs :=
    forall₂_imp_mem hc.npcs fun _ _ n hn hr => ⟨NpcRecord.write_of_stored hr (hl.npcs n hn),
      (NpcRecord.storable_of_stored hr).2, NpcRecord.length_of_stored hr⟩
  have wk : t.kept.mapM (·.write) = .ok ((ss.flatMap Section.kept).map Section.bytes) := by
    rw [hc.kept, mapM_eq_ok_iff, List.forall₂_map_left_iff, List.forall₂_map_right_iff,
      List.forall₂_same]
    intro s hm
    have hk : (KeptSection.ofBody s.kind s.area s.body).Storable :=
      h.kept _ (hc.kept ▸ List.mem_map_of_mem hm)
    obtain ⟨bs, hw⟩ := KeptSection.exists_write hk
    rw [hw, Section.bytes_of_stored (KeptSection.stored_of_write hk hw)]
    rfl
  unfold write
  rw [mapM_writeGroup (by decide) fits_kinds.1 wo (fun o ho => (h.objects o ho).2) hs.objects,
    ok_bind, mapM_writeGroup (by decide) fits_kinds.2 wn (fun n hn => (h.npcs n hn).2) hs.npcs,
    ok_bind, wk, Section.rewritten, List.flatMap_append, List.flatMap_append, List.flatMap_def,
    List.flatMap_def, List.flatMap_def]
  rfl

/-! ## Sizes -/

/-- Records take no more room than the sections that they were cut out of. -/
theorem size_records {data : Bytes} {ss : List Section} (h : Sections data ss) (kind size : Nat) :
    ss.flatMap (Section.records kind size) = [] ∨
      (ss.flatMap (Section.records kind size)).length * size + sectionHeaderSize ≤
        data.length := by
  induction h with
  | nil => exact Or.inl rfl
  | stop _ => exact Or.inl rfl
  | @cons bs rest s more hs _ ih =>
    have hone : (s.records kind size).length * size ≤ s.body.length := by
      unfold Section.records
      split
      · rw [List.length_map, Read.length_groups]
        exact Nat.div_mul_le_self _ _
      · rw [List.length_nil, Nat.zero_mul]
        exact Nat.zero_le _
    right
    rw [List.flatMap_cons, List.length_append, List.length_append, Section.length_of_stored hs,
      Nat.add_mul]
    rcases ih with hnil | hle
    · rw [hnil, List.length_nil, Nat.zero_mul]
      omega
    · omega

/-- What was read from fewer bytes than a word can count is written. -/
theorem sized_of_read {data : Bytes} {t : Table} (h : read data = .ok t)
    (hd : data.length < 2 ^ 32) : t.Sized := by
  obtain ⟨ss, hs, hc⟩ := exists_cut h
  have fits : ∀ {α : Type} {kind size : Nat} (p : α → Bool) (xs : List α),
      xs.length = (ss.flatMap (Section.records kind size)).length →
      Word.Fits 4 ((xs.filter p).length * size + sectionHeaderSize : Nat) := by
    intro α kind size p xs hlen
    refine ⟨Int.natCast_nonneg _, Int.ofNat_lt.2 ?_⟩
    have hle := Nat.mul_le_mul_right size (List.length_filter_le p xs)
    have hb : Word.bound 4 = 2 ^ 32 := rfl
    have hh : sectionHeaderSize = 16 := rfl
    rcases size_records hs kind size with hnil | hsize
    · rw [hlen, hnil, List.length_nil, Nat.zero_mul] at hle
      omega
    · rw [← hlen] at hsize
      omega
  exact ⟨fun a => fits _ _ hc.objects.length_eq.symm, fun a => fits _ _ hc.npcs.length_eq.symm⟩

/-- A table that was read, without a NaN, is written as its sections rewritten: the records of
each area together, byte for byte, and all else behind them.  Written again, these bytes stay
as they are.  Nothing is written where the records of an area take more bytes than a header
can state, and no fewer than `2 ^ 32` bytes hold so many records. -/
theorem write_read {data : Bytes} {t : Table} (h : read data = .ok t) (hl : t.Legible) :
    (t.Sized → ∃ ss, Sections data ss ∧ t.write = .ok (Section.rewritten ss) ∧
      ∃ t', read (Section.rewritten ss) = .ok t' ∧ t'.write = .ok (Section.rewritten ss)) ∧
    (¬t.Sized → t.write = .error .fieldRange) ∧ (data.length < 2 ^ 32 → t.Sized) := by
  have hstorable := storable_of_read h
  refine ⟨fun hs => ?_, write_eq_error hstorable, sized_of_read h⟩
  obtain ⟨ss, hsections, hc⟩ := exists_cut h
  have hw := write_of_cut hc hstorable hl hs
  exact ⟨ss, hsections, hw, t.arranged, read_of_write hstorable hw, (write_arranged t).trans hw⟩

def objectBytes (id : UInt8) : Bytes :=
  [1, 0] ++ List.replicate 6 5 ++ [id, 0, 0, 0, 3, 0, 0, 0] ++ List.replicate 36 0 ++
    [0, 0, 0, 0, 1, 0, 0, 0, 2, 0, 0, 0, 3, 0, 0, 0]

/-- An area's objects in two sections, one of which ends within a record. -/
def scattered : Bytes :=
  Section.bytes ⟨1, 2, objectBytes 7 ++ [42]⟩ ++ Section.bytes ⟨9, 0, [4, 5]⟩ ++
    Section.bytes ⟨1, 1, objectBytes 8⟩ ++ Section.bytes ⟨1, 2, objectBytes 9⟩ ++
    Field.zeros sectionHeaderSize

def ofScattered : Table where
  objects := [objectAt 2 7, objectAt 1 8, objectAt 2 9]
  kept := [.ofBody 1 2 [42], .ofBody 9 0 [4, 5]]
  diagnostics := [{ notice := .sectionRemainder true 2 68 1 }]

theorem write_read_scattered : read scattered = .ok ofScattered ∧ ofScattered.Legible ∧
    ofScattered.Sized ∧ ∃ ss, Sections scattered ss ∧
      ofScattered.write = .ok (Section.rewritten ss) ∧
      ∃ t', read (Section.rewritten ss) = .ok t' ∧ t'.write = .ok (Section.rewritten ss) := by
  have hread : read scattered = .ok ofScattered := by decide +kernel
  have hlegible : ofScattered.Legible := by
    have zero : Double.zero.isNaN = false := by decide
    have object : ∀ area id, (objectAt area id).Legible := fun area id =>
      ⟨⟨zero, zero, zero⟩, by simpa [objectAt, Value.Legible] using zero⟩
    refine ⟨List.forall_mem_cons.2 ⟨object 2 7, List.forall_mem_cons.2 ⟨object 1 8,
      List.forall_mem_singleton.2 (object 2 9)⟩⟩, fun n hn => absurd hn List.not_mem_nil⟩
  obtain ⟨hwrite, -, hsized⟩ := write_read hread hlegible
  have hsmall := hsized (by decide +kernel)
  exact ⟨hread, hlegible, hsmall, hwrite hsmall⟩

def crowdedSection (n : Nat) : Section := ⟨objectKind, 0, List.replicate (n * objectSize) 0⟩

/-- Blank objects in two sections of one area, the same number in each. -/
def crowdedBytes (n : Nat) : Bytes := (crowdedSection n).bytes ++ (crowdedSection n).bytes

theorem stored_crowd (n : Nat) : List.Forall₂ (ObjectRecord.Stored 0)
    (List.replicate n (List.replicate objectSize 0)) (crowd n).objects := by
  induction n with
  | zero => exact .nil
  | succ n ih => exact .cons stored_blank ih

theorem ofSection_crowdedSection (n : Nat) : ofSection (crowdedSection n) = .ok (crowd n) := by
  unfold crowdedSection
  rw [← List.flatten_replicate_replicate]
  exact ofSection_objects (stored_crowd n)

theorem concat_crowds (n : Nat) : concat [crowd n, crowd n] = crowd (n + n) := by
  unfold crowd
  rw [← List.replicate_append_replicate]
  simp [concat]

/-- Two sections that can be read make one crowd. -/
theorem read_crowdedBytes {n : Nat} (h : n * objectSize + sectionHeaderSize < 2 ^ 32) :
    read (crowdedBytes n) = .ok (crowd (n + n)) := by
  have hstored : (crowdedSection n).Stored (crowdedSection n).bytes := by
    refine Section.stored_bytes Nat.one_ne_zero fits_kinds.1
      (show Word.Fits 4 (0 : Nat) by decide) ⟨Int.natCast_nonneg _, Int.ofNat_lt.2 ?_⟩
    rwa [crowdedSection, List.length_replicate]
  have hsections := Sections.cons hstored (.cons hstored .nil)
  rw [List.append_nil] at hsections
  have hall := Section.readAll_of_sections hsections (Cursor.inside_whole _)
    (Cursor.view_whole _) #[]
  have htables : [crowdedSection n, crowdedSection n].mapM ofSection = .ok [crowd n, crowd n] :=
    mapM_eq_ok_iff.2 (.cons (ofSection_crowdedSection n) (.cons (ofSection_crowdedSection n) .nil))
  exact bind_eq_ok_iff.2 ⟨_, hall, bind_eq_ok_iff.2 ⟨_, htables, congrArg _ (concat_crowds n)⟩⟩

theorem legible_crowd (n : Nat) : (crowd n).Legible := by
  have zero : Double.zero.isNaN = false := by decide
  refine ⟨fun o ho => ?_, fun _ hn => absurd hn List.not_mem_nil⟩
  rw [List.eq_of_mem_replicate ho]
  exact ⟨⟨zero, zero, zero⟩, by simpa [blank, Value.Legible] using zero⟩

/-- Two sections that are read, and too many objects for one. -/
theorem write_read_crowded : read (crowdedBytes 31580642) = .ok (crowd 63161284) ∧
    (crowd 63161284).Legible ∧ (crowd 63161284).write = .error .fieldRange :=
  ⟨read_crowdedBytes (by decide), legible_crowd _, write_crowd (by decide)⟩

end Table

end Entity
end QuestArchive
