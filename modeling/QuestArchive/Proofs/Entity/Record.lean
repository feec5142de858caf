import QuestArchive.Entity.Record
import QuestArchive.Proofs.Bytes.Field
import QuestArchive.Proofs.Entity.Angle
import QuestArchive.Proofs.Number.Storable

/-!
# Records and the bytes that store them

`ObjectRecord.Stored` and `NpcRecord.Stored` say which bytes are a record, part by part.
Reading finds just these; what it finds can be stored, and a record that can be stored is
written as bytes that are read as this record.
-/

namespace QuestArchive

structure Vec3.IsSingle (v : Vec3) : Prop where
  x : v.x.IsSingle
  y : v.y.IsSingle
  z : v.z.IsSingle

/-- A number is the angle of a count of 32 bits. -/
def Angle.IsAngle (x : Double) : Prop := ∃ n : Int, -2 ^ 31 ≤ n ∧ n < 2 ^ 31 ∧ ofUnits n = .ok x

structure Vec3.IsRotation (v : Vec3) : Prop where
  x : Angle.IsAngle v.x
  y : Angle.IsAngle v.y
  z : Angle.IsAngle v.z

theorem Angle.isAngle_zero : Angle.IsAngle .zero :=
  ⟨0, by decide, by decide, by decide +kernel⟩

theorem Vec3.isSingle_zero : Vec3.IsSingle ⟨.zero, .zero, .zero⟩ :=
  ⟨Double.isSingle_zero, Double.isSingle_zero, Double.isSingle_zero⟩

theorem Vec3.isRotation_zero : Vec3.IsRotation ⟨.zero, .zero, .zero⟩ :=
  ⟨Angle.isAngle_zero, Angle.isAngle_zero, Angle.isAngle_zero⟩

namespace Entity

open Read (Describes singleOf)

/-! ## Three numbers -/

def Singles (bs : Bytes) (v : Vec3) : Prop :=
  ∃ x y z : Bytes, bs = x ++ (y ++ z) ∧ (x.length = 4 ∧ y.length = 4 ∧ z.length = 4) ∧
    v = ⟨singleOf x, singleOf y, singleOf z⟩

def Turn (bs : Bytes) (x : Double) : Prop :=
  bs.length = 4 ∧ Angle.ofUnits (Word.signed 4 (Word.decode bs)) = .ok x

def Turns (bs : Bytes) (v : Vec3) : Prop :=
  ∃ x y z : Bytes, bs = x ++ (y ++ z) ∧ Turn x v.x ∧ Turn y v.y ∧ Turn z v.z

theorem groups_thirds {x y z : Bytes} (h : x.length = 4 ∧ y.length = 4 ∧ z.length = 4) :
    Read.groups 4 3 (x ++ (y ++ z)) = [x, y, z] := by
  have hg := @Read.groups_flatten 4 [x, y, z] (by simpa using h) []
  simpa using hg

theorem exists_thirds {bs : Bytes} (h : bs.length = 12) :
    ∃ x y z : Bytes, bs = x ++ (y ++ z) ∧ x.length = 4 ∧ y.length = 4 ∧ z.length = 4 := by
  obtain ⟨hlen, hflat⟩ := @Read.flatten_groups 4 3 bs (by omega)
  refine ⟨_, _, _, ?_, hlen _ List.mem_cons_self,
    hlen _ (List.mem_cons_of_mem _ List.mem_cons_self),
    hlen _ (List.mem_cons_of_mem _ (List.mem_cons_of_mem _ List.mem_cons_self))⟩
  rw [List.take_of_length_le (by omega)] at hflat
  simpa [Read.groups] using hflat.symm

theorem singles_iff {bs : Bytes} {v : Vec3} : Singles bs v ↔
    bs.length = 12 ∧
      v = ⟨singleOf (bs.take 4), singleOf ((bs.drop 4).take 4), singleOf (bs.drop 8)⟩ := by
  constructor
  · rintro ⟨x, y, z, rfl, ⟨hx, hy, hz⟩, rfl⟩
    refine ⟨by simp only [List.length_append]; omega, ?_⟩
    rw [List.take_left' hx, List.drop_left' hx, List.take_left' hy,
      show 8 = 4 + 4 from rfl, ← List.drop_drop, List.drop_left' hx, List.drop_left' hy]
  · rintro ⟨hlen, rfl⟩
    obtain ⟨x, y, z, rfl, hx, hy, hz⟩ := exists_thirds hlen
    refine ⟨x, y, z, rfl, ⟨hx, hy, hz⟩, ?_⟩
    rw [List.take_left' hx, List.drop_left' hx, List.take_left' hy,
      show 8 = 4 + 4 from rfl, ← List.drop_drop, List.drop_left' hx, List.drop_left' hy]

theorem describes_singles : Describes Read.vec3 Singles :=
  Read.describes_vec3.congr fun _ _ => singles_iff.symm

theorem describes_rotation : Describes readRotation Turns := by
  have angles : ∀ x y z : Int, Describes
      (do return ⟨← Read.ofExcept (Angle.ofUnits x), ← Read.ofExcept (Angle.ofUnits y),
        ← Read.ofExcept (Angle.ofUnits z)⟩ : Read Vec3) fun bs v => bs = [] ∧
          Angle.ofUnits x = .ok v.x ∧ Angle.ofUnits y = .ok v.y ∧ Angle.ofUnits z = .ok v.z := by
    intro x y z
    refine ((Read.describes_ofExcept _).bind fun _ a _ =>
      (Read.describes_ofExcept _).bind fun _ b _ =>
      (Read.describes_ofExcept _).map fun c => (⟨a, b, c⟩ : Vec3)).congr fun bs v => ?_
    constructor
    · rintro ⟨_, _, a, rfl, ⟨rfl, ha⟩, _, _, b, rfl, ⟨rfl, hb⟩, c, ⟨rfl, hc⟩, rfl⟩
      exact ⟨rfl, ha, hb, hc⟩
    · rintro ⟨rfl, ha, hb, hc⟩
      exact ⟨[], [], v.x, rfl, ⟨rfl, ha⟩, [], [], v.y, rfl, ⟨rfl, hb⟩, v.z, ⟨rfl, hc⟩, rfl⟩
  unfold readRotation
  refine ((Read.describes_i32Array 3).bind (Q := fun ns bs v => bs = [] ∧ ∃ x y z,
    ns = [x, y, z] ∧ Angle.ofUnits x = .ok v.x ∧ Angle.ofUnits y = .ok v.y ∧
      Angle.ofUnits z = .ok v.z) ?_).congr fun bs v => ?_
  · rintro bs ns ⟨hlen, rfl⟩
    obtain ⟨x, y, z, rfl, hthird⟩ := exists_thirds hlen
    rw [groups_thirds hthird]
    refine (angles _ _ _).congr fun bs v => and_congr_right fun _ => ?_
    constructor
    · exact fun h => ⟨_, _, _, rfl, h⟩
    · rintro ⟨_, _, _, he, h⟩
      cases he
      exact h
  · constructor
    · rintro ⟨front, _, ns, rfl, ⟨hlen, rfl⟩, rfl, a, b, c, he, ha, hb, hc⟩
      obtain ⟨x, y, z, rfl, hthird⟩ := exists_thirds hlen
      rw [groups_thirds hthird] at he
      cases he
      rw [List.append_nil]
      exact ⟨x, y, z, rfl, ⟨hthird.1, ha⟩, ⟨hthird.2.1, hb⟩, hthird.2.2, hc⟩
    · rintro ⟨x, y, z, rfl, ⟨hx, ha⟩, ⟨hy, hb⟩, hz, hc⟩
      have hlen : (x ++ (y ++ z)).length = 4 * 3 := by
        simp only [List.length_append]
        omega
      refine ⟨x ++ (y ++ z), [], _, (List.append_nil _).symm, ⟨hlen, rfl⟩, rfl, _, _, _, ?_, ha,
        hb, hc⟩
      rw [groups_thirds ⟨hx, hy, hz⟩]
      rfl

theorem length_singles {bs : Bytes} {v : Vec3} (h : Singles bs v) : bs.length = 12 :=
  (singles_iff.1 h).1

theorem isSingle_of_singles {bs : Bytes} {v : Vec3} (h : Singles bs v) : v.IsSingle := by
  obtain ⟨x, y, z, -, -, rfl⟩ := h
  exact ⟨Double.isSingle_singleOf x, Double.isSingle_singleOf y, Double.isSingle_singleOf z⟩

theorem exists_singles {v : Vec3} (h : v.IsSingle) :
    ∃ bs, Singles bs v ∧ Field.vec3 v = .ok bs := by
  obtain ⟨x, lx, hx, wx⟩ := Double.exists_single_field h.x
  obtain ⟨y, ly, hy, wy⟩ := Double.exists_single_field h.y
  obtain ⟨z, lz, hz, wz⟩ := Double.exists_single_field h.z
  refine ⟨x ++ (y ++ z), ⟨x, y, z, rfl, ⟨lx, ly, lz⟩, ?_⟩, ?_⟩
  · rw [← hx, ← hy, ← hz]
  · unfold Field.vec3
    rw [wx, wy, wz, ← List.append_assoc]
    rfl

theorem isAngle_of_turn {bs : Bytes} {x : Double} (h : Turn bs x) : Angle.IsAngle x :=
  ⟨_, (Word.signed_bounds h.1).1, (Word.signed_bounds h.1).2, h.2⟩

theorem exists_turn {x : Double} (h : Angle.IsAngle x) :
    ∃ bs n, Turn bs x ∧ Angle.toUnits x = .ok n ∧ Field.i32 n = .ok bs := by
  obtain ⟨n, low, high, hn⟩ := h
  obtain ⟨y, hy, hunits⟩ := Angle.toUnits_ofUnits low high
  rw [hn] at hy
  cases hy
  have hb : Word.bound 4 = 0x100000000 := rfl
  have hw : Field.i32 n = .ok (Word.encode 4 (Word.wrap 4 n)) :=
    if_pos ⟨by rw [hb]; omega, by rw [hb]; omega⟩
  obtain ⟨hlen, hd⟩ := Field.i32_eq_ok_iff.1 hw
  exact ⟨_, n, ⟨hlen, hd ▸ hn⟩, hunits, hw⟩

theorem length_turns {bs : Bytes} {v : Vec3} (h : Turns bs v) : bs.length = 12 := by
  obtain ⟨x, y, z, rfl, hx, hy, hz⟩ := h
  simp only [List.length_append, hx.1, hy.1, hz.1]

theorem isRotation_of_turns {bs : Bytes} {v : Vec3} (h : Turns bs v) : v.IsRotation := by
  obtain ⟨x, y, z, -, hx, hy, hz⟩ := h
  exact ⟨isAngle_of_turn hx, isAngle_of_turn hy, isAngle_of_turn hz⟩

theorem exists_turns {v : Vec3} (h : v.IsRotation) :
    ∃ bs, Turns bs v ∧ writeRotation v = .ok bs := by
  obtain ⟨x, m, hx, ux, wx⟩ := exists_turn h.x
  obtain ⟨y, n, hy, uy, wy⟩ := exists_turn h.y
  obtain ⟨z, k, hz, uz, wz⟩ := exists_turn h.z
  refine ⟨x ++ (y ++ z), ⟨x, y, z, rfl, hx, hy, hz⟩, ?_⟩
  simp only [writeRotation, ux, uy, uz, wx, wy, wz, Bind.bind, Except.bind, List.append_assoc]
  rfl

/-! ## Objects -/

structure ObjectParts where
  typeId : Bytes
  unknown1 : Bytes
  id : Bytes
  groupId : Bytes
  sectionId : Bytes
  unknown2 : Bytes
  position : Bytes
  rotation : Bytes
  property1 : Bytes
  property2 : Bytes
  property3 : Bytes
  integers : Bytes

namespace ObjectParts

def bytes (p : ObjectParts) : Bytes :=
  p.typeId ++ (p.unknown1 ++ (p.id ++ (p.groupId ++ (p.sectionId ++ (p.unknown2 ++
    (p.position ++ (p.rotation ++ (p.property1 ++ (p.property2 ++
      (p.property3 ++ p.integers))))))))))

/-- Each part has its size, save those that more is known of. -/
def Sized (p : ObjectParts) : Prop :=
  p.typeId.length = 2 ∧ p.unknown1.length = 6 ∧ p.id.length = 2 ∧ p.groupId.length = 2 ∧
    p.sectionId.length = 2 ∧ p.unknown2.length = 2 ∧ p.property1.length = 4 ∧
    p.property2.length = 4 ∧ p.property3.length = 4 ∧ p.integers.length = 4 * 4

def record (p : ObjectParts) (area : Int) (position rotation : Vec3) : ObjectRecord where
  typeId := Word.decode p.typeId
  id := Word.decode p.id
  groupId := Word.decode p.groupId
  sectionId := Word.decode p.sectionId
  position := position
  rotation := rotation
  properties := [.float (singleOf p.property1), .float (singleOf p.property2),
      .float (singleOf p.property3)] ++
    ((Read.groups 4 4 p.integers).map Word.decode).map fun (n : Nat) => .int n
  areaId := area
  unknown := [p.unknown1, p.unknown2]

end ObjectParts

namespace ObjectRecord

def Stored (area : Int) (bs : Bytes) (o : ObjectRecord) : Prop :=
  ∃ (p : ObjectParts) (v w : Vec3), p.Sized ∧ Singles p.position v ∧ Turns p.rotation w ∧
    bs = p.bytes ∧ o = p.record area v w

theorem describes_read (area : Int) : Describes (read area) (Stored area) := by
  unfold read
  refine (Read.describes_u16.bind fun _ typeId _ => (Read.describes_bytes 6).bind
    fun _ unknown1 _ => Read.describes_u16.bind fun _ id _ =>
    Read.describes_u16.bind fun _ groupId _ => Read.describes_u16.bind fun _ sectionId _ =>
    (Read.describes_bytes 2).bind fun _ unknown2 _ => describes_singles.bind fun _ position _ =>
    describes_rotation.bind fun _ rotation _ => Read.describes_single.bind fun _ p0 _ =>
    Read.describes_single.bind fun _ p1 _ => Read.describes_single.bind fun _ p2 _ =>
    (Read.describes_u32Array 4).map fun rest => (_ : ObjectRecord)).congr fun bs o => ?_
  constructor
  · intro h
    obtain ⟨typeId, _, _, e1, ⟨l1, m1⟩, h⟩ := h
    obtain ⟨_, _, unknown1, e2, ⟨l2, m2⟩, h⟩ := h
    obtain ⟨id, _, _, e3, ⟨l3, m3⟩, h⟩ := h
    obtain ⟨groupId, _, _, e4, ⟨l4, m4⟩, h⟩ := h
    obtain ⟨sectionId, _, _, e5, ⟨l5, m5⟩, h⟩ := h
    obtain ⟨_, _, unknown2, e6, ⟨l6, m6⟩, h⟩ := h
    obtain ⟨position, _, v, e7, hv, h⟩ := h
    obtain ⟨rotation, _, w, e8, hw, h⟩ := h
    obtain ⟨p0, _, _, e9, ⟨l7, m7⟩, h⟩ := h
    obtain ⟨p1, _, _, e10, ⟨l8, m8⟩, h⟩ := h
    obtain ⟨p2, integers, _, e11, ⟨l9, m9⟩, _, ⟨l10, m10⟩, h⟩ := h
    subst e1 e2 e3 e4 e5 e6 e7 e8 e9 e10 e11 m1 m2 m3 m4 m5 m6 m7 m8 m9 m10 h
    exact ⟨⟨typeId, unknown1, id, groupId, sectionId, unknown2, position, rotation, p0, p1, p2,
      integers⟩, v, w, ⟨l1, l2, l3, l4, l5, l6, l7, l8, l9, l10⟩, hv, hw, rfl, rfl⟩
  · rintro ⟨p, v, w, ⟨l1, l2, l3, l4, l5, l6, l7, l8, l9, l10⟩, hv, hw, rfl, rfl⟩
    exact ⟨p.typeId, _, _, rfl, ⟨l1, rfl⟩, p.unknown1, _, _, rfl, ⟨l2, rfl⟩, p.id, _, _, rfl,
      ⟨l3, rfl⟩, p.groupId, _, _, rfl, ⟨l4, rfl⟩, p.sectionId, _, _, rfl, ⟨l5, rfl⟩, p.unknown2,
      _, _, rfl, ⟨l6, rfl⟩, p.position, _, v, rfl, hv, p.rotation, _, w, rfl, hw, p.property1, _,
      _, rfl, ⟨l7, rfl⟩, p.property2, _, _, rfl, ⟨l8, rfl⟩, p.property3, p.integers, _, rfl,
      ⟨l9, rfl⟩, _, ⟨l10, rfl⟩, rfl⟩

structure Storable (o : ObjectRecord) : Prop where
  typeId : Word.Fits 2 o.typeId
  id : Word.Fits 2 o.id
  groupId : Word.Fits 2 o.groupId
  sectionId : Word.Fits 2 o.sectionId
  position : o.position.IsSingle
  rotation : o.rotation.IsRotation
  properties : ∃ (x y z : Double) (ns : List Int),
    o.properties = [.float x, .float y, .float z] ++ ns.map .int ∧
      (x.IsSingle ∧ y.IsSingle ∧ z.IsSingle) ∧ ns.length = 4 ∧ ∀ n ∈ ns, Word.Fits 4 n
  unknown : o.unknown.map List.length = [6, 2]

theorem length_of_stored {area : Int} {bs : Bytes} {o : ObjectRecord} (h : Stored area bs o) :
    bs.length = objectSize := by
  obtain ⟨p, v, w, ⟨l1, l2, l3, l4, l5, l6, l7, l8, l9, l10⟩, hv, hw, rfl, -⟩ := h
  simp only [ObjectParts.bytes, List.length_append, l1, l2, l3, l4, l5, l6, l7, l8, l9, l10,
    length_singles hv, length_turns hw]
  rfl

theorem storable_of_stored {area : Int} {bs : Bytes} {o : ObjectRecord} (h : Stored area bs o) :
    o.Storable ∧ o.areaId = area := by
  obtain ⟨p, v, w, ⟨l1, l2, l3, l4, l5, l6, l7, l8, l9, l10⟩, hv, hw, rfl, rfl⟩ := h
  refine ⟨⟨Word.fits_decode l1, Word.fits_decode l3, Word.fits_decode l4, Word.fits_decode l5,
    isSingle_of_singles hv, isRotation_of_turns hw,
    ⟨singleOf p.property1, singleOf p.property2, singleOf p.property3,
      ((Read.groups 4 4 p.integers).map Word.decode).map fun (n : Nat) => (n : Int), ?_,
      ⟨Double.isSingle_singleOf _, Double.isSingle_singleOf _, Double.isSingle_singleOf _⟩, ?_, ?_⟩,
    ?_⟩, rfl⟩
  · rw [List.map_map]
    rfl
  · rw [List.length_map, List.length_map, Read.length_groups]
  · intro n hn
    rw [List.map_map] at hn
    obtain ⟨g, hg, rfl⟩ := List.mem_map.1 hn
    exact Word.fits_decode ((Read.flatten_groups (Nat.le_of_eq l10.symm)).1 g hg)
  · show [p.unknown1.length, p.unknown2.length] = _
    rw [l2, l6]

/-- A record that can be stored is written as bytes that are this record. -/
theorem exists_write {o : ObjectRecord} (h : o.Storable) :
    ∃ bs, o.write = .ok bs ∧ Stored o.areaId bs o := by
  obtain ⟨typeId, l1, h1, w1⟩ := Field.exists_unsigned h.typeId
  obtain ⟨id, l3, h3, w3⟩ := Field.exists_unsigned h.id
  obtain ⟨groupId, l4, h4, w4⟩ := Field.exists_unsigned h.groupId
  obtain ⟨sectionId, l5, h5, w5⟩ := Field.exists_unsigned h.sectionId
  obtain ⟨position, hv, wv⟩ := exists_singles h.position
  obtain ⟨rotation, hw, ww⟩ := exists_turns h.rotation
  obtain ⟨x, y, z, ns, hprops, ⟨hx, hy, hz⟩, hcount, hfit⟩ := h.properties
  obtain ⟨p1, l7, h7, w7⟩ := Double.exists_single_field hx
  obtain ⟨p2, l8, h8, w8⟩ := Double.exists_single_field hy
  obtain ⟨p3, l9, h9, w9⟩ := Double.exists_single_field hz
  obtain ⟨pieces, wns, hlen, hns⟩ := Field.forall₂_unsigned hfit
  have hpieces : pieces.length = 4 := by rw [← wns.length_eq, hcount]
  obtain ⟨unknown1, _, hunknown, l2, hrest⟩ := List.map_eq_cons_iff.1 h.unknown
  obtain ⟨unknown2, _, rfl, l6, hnil⟩ := List.map_eq_cons_iff.1 hrest
  rw [List.map_eq_nil_iff.1 hnil] at hunknown
  refine ⟨_, ?_, ⟨⟨typeId, unknown1, id, groupId, sectionId, unknown2, position, rotation, p1, p2,
    p3, pieces.flatten⟩, o.position, o.rotation, ⟨l1, l2, l3, l4, l5, l6, l7, l8, l9, ?_⟩, hv, hw,
    rfl, ?_⟩⟩
  · have wnumbers : (o.properties.take 3).mapM (·.single) = .ok [p1, p2, p3] := by
      rw [hprops]
      exact mapM_eq_ok_iff.2 (.cons w7 (.cons w8 (.cons w9 .nil)))
    have wintegers : (o.properties.drop 3).mapM (·.unsigned 4) = .ok pieces := by
      rw [hprops]
      exact mapM_eq_ok_iff.2 (List.forall₂_map_left_iff.2 wns)
    have wspans : spanAt o.unknown 0 = .ok unknown1 ∧ spanAt o.unknown 1 = .ok unknown2 := by
      rw [hunknown]
      exact ⟨rfl, rfl⟩
    simp only [write, Field.u16, w1, w3, w4, w5, wv, ww, wnumbers, wintegers, wspans.1, wspans.2,
      Bind.bind, Except.bind, List.append_assoc, List.flatten_cons, List.flatten_nil,
      List.append_nil, ObjectParts.bytes]
    rfl
  · rw [length_flatten_of_forall hlen, hpieces]
  · have hgroups := @Read.groups_flatten 4 pieces hlen []
    rw [List.append_nil, hpieces] at hgroups
    have hints : ((pieces.map Word.decode).map fun (n : Nat) => (Value.int n)) = ns.map .int := by
      rw [← hns, List.map_map, List.map_map]
      rfl
    unfold ObjectParts.record
    dsimp only
    rw [hgroups, hints, ← h1, ← h3, ← h4, ← h5, ← h7, ← h8, ← h9, ← hprops, ← hunknown]

end ObjectRecord

/-! ## NPCs -/

structure NpcParts where
  typeId : Bytes
  unknown1 : Bytes
  sectionId : Bytes
  unknown2 : Bytes
  position : Bytes
  rotation : Bytes
  scale : Bytes
  npcId : Bytes
  scriptLabel : Bytes
  roaming : Bytes
  unknown3 : Bytes

namespace NpcParts

def bytes (p : NpcParts) : Bytes :=
  p.typeId ++ (p.unknown1 ++ (p.sectionId ++ (p.unknown2 ++ (p.position ++ (p.rotation ++
    (p.scale ++ (p.npcId ++ (p.scriptLabel ++ (p.roaming ++ p.unknown3)))))))))

def Sized (p : NpcParts) : Prop :=
  p.typeId.length = 2 ∧ p.unknown1.length = 10 ∧ p.sectionId.length = 2 ∧
    p.unknown2.length = 6 ∧ p.npcId.length = 4 ∧ p.scriptLabel.length = 4 ∧
    p.roaming.length = 4 ∧ p.unknown3.length = 4

def record (p : NpcParts) (area : Int) (position rotation scale : Vec3) : NpcRecord where
  typeId := Word.decode p.typeId
  sectionId := Word.decode p.sectionId
  position := position
  rotation := rotation
  scale := scale
  npcId := singleOf p.npcId
  scriptLabel := singleOf p.scriptLabel
  roaming := Word.decode p.roaming
  areaId := area
  unknown := [p.unknown1, p.unknown2, p.unknown3]

end NpcParts

namespace NpcRecord

def Stored (area : Int) (bs : Bytes) (n : NpcRecord) : Prop :=
  ∃ (p : NpcParts) (v w u : Vec3), p.Sized ∧ Singles p.position v ∧ Turns p.rotation w ∧
    Singles p.scale u ∧ bs = p.bytes ∧ n = p.record area v w u

theorem describes_read (area : Int) : Describes (read area) (Stored area) := by
  unfold read
  refine (Read.describes_u16.bind fun _ typeId _ => (Read.describes_bytes 10).bind
    fun _ unknown1 _ => Read.describes_u16.bind fun _ sectionId _ =>
    (Read.describes_bytes 6).bind fun _ unknown2 _ => describes_singles.bind fun _ position _ =>
    describes_rotation.bind fun _ rotation _ => describes_singles.bind fun _ scale _ =>
    Read.describes_single.bind fun _ npcId _ => Read.describes_single.bind fun _ scriptLabel _ =>
    Read.describes_u32.bind fun _ roaming _ => (Read.describes_bytes 4).map fun unknown3 =>
      (_ : NpcRecord)).congr fun bs n => ?_
  constructor
  · intro h
    obtain ⟨typeId, _, _, e1, ⟨l1, m1⟩, h⟩ := h
    obtain ⟨_, _, unknown1, e2, ⟨l2, m2⟩, h⟩ := h
    obtain ⟨sectionId, _, _, e3, ⟨l3, m3⟩, h⟩ := h
    obtain ⟨_, _, unknown2, e4, ⟨l4, m4⟩, h⟩ := h
    obtain ⟨position, _, v, e5, hv, h⟩ := h
    obtain ⟨rotation, _, w, e6, hw, h⟩ := h
    obtain ⟨scale, _, u, e7, hu, h⟩ := h
    obtain ⟨npcId, _, _, e8, ⟨l5, m5⟩, h⟩ := h
    obtain ⟨scriptLabel, _, _, e9, ⟨l6, m6⟩, h⟩ := h
    obtain ⟨roaming, _, _, e10, ⟨l7, m7⟩, unknown3, ⟨l8, m8⟩, h⟩ := h
    subst e1 e2 e3 e4 e5 e6 e7 e8 e9 e10 m1 m2 m3 m4 m5 m6 m7 m8 h
    exact ⟨⟨typeId, unknown1, sectionId, unknown2, position, rotation, scale, npcId, scriptLabel,
      roaming, unknown3⟩, v, w, u, ⟨l1, l2, l3, l4, l5, l6, l7, l8⟩, hv, hw, hu, rfl, rfl⟩
  · rintro ⟨p, v, w, u, ⟨l1, l2, l3, l4, l5, l6, l7, l8⟩, hv, hw, hu, rfl, rfl⟩
    exact ⟨p.typeId, _, _, rfl, ⟨l1, rfl⟩, p.unknown1, _, _, rfl, ⟨l2, rfl⟩, p.sectionId, _, _,
      rfl, ⟨l3, rfl⟩, p.unknown2, _, _, rfl, ⟨l4, rfl⟩, p.position, _, v, rfl, hv, p.rotation, _,
      w, rfl, hw, p.scale, _, u, rfl, hu, p.npcId, _, _, rfl, ⟨l5, rfl⟩, p.scriptLabel, _, _, rfl,
      ⟨l6, rfl⟩, p.roaming, p.unknown3, _, rfl, ⟨l7, rfl⟩, _, ⟨l8, rfl⟩, rfl⟩

structure Storable (n : NpcRecord) : Prop where
  typeId : Word.Fits 2 n.typeId
  sectionId : Word.Fits 2 n.sectionId
  position : n.position.IsSingle
  rotation : n.rotation.IsRotation
  scale : n.scale.IsSingle
  npcId : n.npcId.IsSingle
  scriptLabel : n.scriptLabel.IsSingle
  roaming : Word.Fits 4 n.roaming
  unknown : n.unknown.map List.length = [10, 6, 4]

theorem length_of_stored {area : Int} {bs : Bytes} {n : NpcRecord} (h : Stored area bs n) :
    bs.length = npcSize := by
  obtain ⟨p, v, w, u, ⟨l1, l2, l3, l4, l5, l6, l7, l8⟩, hv, hw, hu, rfl, -⟩ := h
  simp only [NpcParts.bytes, List.length_append, l1, l2, l3, l4, l5, l6, l7, l8,
    length_singles hv, length_turns hw, length_singles hu]
  rfl

theorem storable_of_stored {area : Int} {bs : Bytes} {n : NpcRecord} (h : Stored area bs n) :
    n.Storable ∧ n.areaId = area := by
  obtain ⟨p, v, w, u, ⟨l1, l2, l3, l4, l5, l6, l7, l8⟩, hv, hw, hu, rfl, rfl⟩ := h
  refine ⟨⟨Word.fits_decode l1, Word.fits_decode l3, isSingle_of_singles hv,
    isRotation_of_turns hw, isSingle_of_singles hu, Double.isSingle_singleOf _,
    Double.isSingle_singleOf _, Word.fits_decode l7, ?_⟩, rfl⟩
  show [p.unknown1.length, p.unknown2.length, p.unknown3.length] = _
  rw [l2, l4, l8]

theorem exists_write {n : NpcRecord} (h : n.Storable) :
    ∃ bs, n.write = .ok bs ∧ Stored n.areaId bs n := by
  obtain ⟨typeId, l1, h1, w1⟩ := Field.exists_unsigned h.typeId
  obtain ⟨sectionId, l3, h3, w3⟩ := Field.exists_unsigned h.sectionId
  obtain ⟨position, hv, wv⟩ := exists_singles h.position
  obtain ⟨rotation, hw, ww⟩ := exists_turns h.rotation
  obtain ⟨scale, hu, wu⟩ := exists_singles h.scale
  obtain ⟨npcId, l5, h5, w5⟩ := Double.exists_single_field h.npcId
  obtain ⟨scriptLabel, l6, h6, w6⟩ := Double.exists_single_field h.scriptLabel
  obtain ⟨roaming, l7, h7, w7⟩ := Field.exists_unsigned h.roaming
  obtain ⟨unknown1, _, hunknown, l2, hrest⟩ := List.map_eq_cons_iff.1 h.unknown
  obtain ⟨unknown2, _, rfl, l4, hrest⟩ := List.map_eq_cons_iff.1 hrest
  obtain ⟨unknown3, _, rfl, l8, hnil⟩ := List.map_eq_cons_iff.1 hrest
  rw [List.map_eq_nil_iff.1 hnil] at hunknown
  refine ⟨_, ?_, ⟨⟨typeId, unknown1, sectionId, unknown2, position, rotation, scale, npcId,
    scriptLabel, roaming, unknown3⟩, n.position, n.rotation, n.scale,
    ⟨l1, l2, l3, l4, l5, l6, l7, l8⟩, hv, hw, hu, rfl, ?_⟩⟩
  · have wspans : spanAt n.unknown 0 = .ok unknown1 ∧ spanAt n.unknown 1 = .ok unknown2 ∧
        spanAt n.unknown 2 = .ok unknown3 := by
      rw [hunknown]
      exact ⟨rfl, rfl, rfl⟩
    simp only [write, Field.u16, Field.u32, w1, w3, w5, w6, w7, wv, ww, wu, wspans.1, wspans.2.1,
      wspans.2.2, Bind.bind, Except.bind, List.append_assoc, NpcParts.bytes]
    rfl
  · unfold NpcParts.record
    dsimp only
    rw [← h1, ← h3, ← h5, ← h6, ← h7, ← hunknown]

end NpcRecord

end Entity
end QuestArchive
