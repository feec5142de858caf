import QuestArchive.Proofs.Entity.Record
import QuestArchive.Quest.Inhabitant

/-!
# Objects and NPCs as records

An object with the properties of its type, in any order, is an object again with the
properties in their places.  An NPC whose identity is what its record says is the same NPC
again, and its label survives the number that stands for it.
-/

namespace QuestArchive

/-! ## Properties by name -/

namespace Properties

variable {ps qs : List (String × Value)} {name : String} {v : Value}

def get? (ps : List (String × Value)) (name : String) : Option Value :=
  (ps.find? (·.1 = name)).map (·.2)

theorem get?_eq_some_iff (h : (ps.map (·.1)).Nodup) :
    get? ps name = some v ↔ (name, v) ∈ ps := by
  unfold get?
  constructor
  · intro hg
    obtain ⟨p, hp, rfl⟩ := Option.map_eq_some_iff.1 hg
    have hname : p.1 = name := by simpa using List.find?_some hp
    exact hname ▸ List.mem_of_find?_eq_some hp
  · intro hm
    cases hf : ps.find? (·.1 = name) with
    | none => exact absurd (decide_eq_true rfl) (List.find?_eq_none.1 hf (name, v) hm)
    | some p =>
      have hname : p.1 = name := by simpa using List.find?_some hf
      have heq := List.inj_on_of_nodup_map h (List.mem_of_find?_eq_some hf) hm hname
      rw [heq]
      rfl

theorem get?_congr (h : (ps.map (·.1)).Nodup) (hp : ps.Perm qs) :
    get? ps name = get? qs name := by
  refine Option.ext fun v => ?_
  rw [get?_eq_some_iff h, get?_eq_some_iff ((hp.map (·.1)).nodup_iff.1 h), hp.mem_iff]

def inOrder (names : List String) (ps : List (String × Value)) : List (String × Value) :=
  names.filterMap fun name => (get? ps name).map (name, ·)

theorem inOrder_cons {names : List String} (h : get? ps name = some v) :
    inOrder (name :: names) ps = (name, v) :: inOrder names ps :=
  List.filterMap_cons_some (by rw [h]; rfl)

theorem inOrder_of_subset (h : (ps.map (·.1)).Nodup) (hs : ∀ p ∈ qs, p ∈ ps) :
    inOrder (qs.map (·.1)) ps = qs := by
  induction qs with
  | nil => rfl
  | cons q qs ih =>
    have hq : get? ps q.1 = some q.2 := (get?_eq_some_iff h).2 (hs q List.mem_cons_self)
    rw [List.map_cons, inOrder_cons hq, ih fun p hp => hs p (List.mem_cons_of_mem _ hp)]

theorem zip_filterMap {names : List String} (h : ∀ name ∈ names, (get? ps name).isSome) :
    names.zip (names.filterMap (get? ps)) = inOrder names ps := by
  induction names with
  | nil => rfl
  | cons name names ih =>
    obtain ⟨v, hv⟩ := Option.isSome_iff_exists.1 (h name List.mem_cons_self)
    rw [List.filterMap_cons_some hv, List.zip_cons_cons, inOrder_cons hv,
      ih fun n hn => h n (List.mem_cons_of_mem _ hn)]

theorem map_inOrder {names : List String} (h : ∀ name ∈ names, (get? ps name).isSome) :
    (inOrder names ps).map (·.1) = names := by
  induction names with
  | nil => rfl
  | cons name names ih =>
    obtain ⟨v, hv⟩ := Option.isSome_iff_exists.1 (h name List.mem_cons_self)
    rw [inOrder_cons hv, List.map_cons, ih fun n hn => h n (List.mem_cons_of_mem _ hn)]

section

variable {names : List String} (h : (ps.map (·.1)).Perm names) (hn : names.Nodup)

include h hn

theorem isSome_get? : ∀ name ∈ names, (get? ps name).isSome := by
  intro name hm
  obtain ⟨p, hp, rfl⟩ := List.mem_map.1 (h.mem_iff.2 hm)
  rw [(get?_eq_some_iff (h.nodup_iff.2 hn)).2 hp]
  rfl

/-- Pairs with just the given names are only brought into order. -/
theorem perm_inOrder : (inOrder names ps).Perm ps := by
  have hmap := map_inOrder (isSome_get? h hn)
  have hself : ps.Nodup := List.Nodup.of_map _ (h.nodup_iff.2 hn)
  have hother : (inOrder names ps).Nodup := List.Nodup.of_map (·.1) (hmap.symm ▸ hn)
  refine (List.perm_ext_iff_of_nodup hother hself).2 fun p => ?_
  rw [← get?_eq_some_iff (h.nodup_iff.2 hn)]
  constructor
  · intro hm
    obtain ⟨name, -, hp⟩ := List.mem_filterMap.1 hm
    obtain ⟨v, hv, rfl⟩ := Option.map_eq_some_iff.1 hp
    exact hv
  · intro hv
    have hm : p ∈ ps := (get?_eq_some_iff (h.nodup_iff.2 hn)).1 hv
    exact List.mem_filterMap.2 ⟨p.1, h.mem_iff.1 (List.mem_map_of_mem hm),
      Option.map_eq_some_iff.2 ⟨p.2, hv, rfl⟩⟩

end

end Properties

namespace ObjectType

theorem length_propertyNames (typeId : Int) : (propertyNames typeId).length = propertyCount := by
  rw [propertyNames, List.length_map, List.length_range]

theorem nodup_propertyNames (typeId : Int) : (propertyNames typeId).Nodup := by
  by_cases hslot : typeId ∈ labelSlots.map (·.1)
  · have hall : ∀ t ∈ labelSlots.map (·.1), (propertyNames t).Nodup := by decide +kernel
    exact hall typeId hslot
  · have hname : propertyName typeId =
        fun place : Nat => "property_" ++ Numeral.decimalText place := by
      funext place
      have hnone : labelSlots.find? (fun slot => slot.1 = typeId && slot.2.1 = place) = none := by
        refine List.find?_eq_none.2 fun slot hm he => hslot ?_
        exact List.mem_map.2 ⟨slot, hm, of_decide_eq_true (Bool.and_eq_true_iff.1 he).1⟩
      unfold propertyName
      rw [hnone]
    unfold propertyNames
    rw [hname]
    decide +kernel

end ObjectType

namespace QuestObject

open Properties

variable {o : QuestObject} {r : Entity.ObjectRecord}

/-- An object has the properties of its type, in whatever order. -/
def Named (o : QuestObject) : Prop :=
  (o.properties.map (·.1)).Perm (ObjectType.propertyNames o.typeId)

instance (o : QuestObject) : Decidable o.Named :=
  inferInstanceAs (Decidable (List.Perm _ _))

def ordered (o : QuestObject) : QuestObject :=
  { o with properties := inOrder (ObjectType.propertyNames o.typeId) o.properties }

def record (o : QuestObject) : Entity.ObjectRecord where
  typeId := o.typeId
  id := o.id
  groupId := o.groupId
  sectionId := o.sectionId
  position := o.position
  rotation := o.rotation
  properties := (ObjectType.propertyNames o.typeId).filterMap (get? o.properties)
  areaId := o.areaId
  unknown := o.unknown

theorem toRecord_eq (h : o.Named) : o.toRecord = .ok o.record := by
  have hall : ((ObjectType.propertyNames o.typeId).all (o.properties.map (·.1)).contains &&
      (o.properties.map (·.1)).all (ObjectType.propertyNames o.typeId).contains) = true := by
    rw [Bool.and_eq_true, List.all_eq_true, List.all_eq_true]
    exact ⟨fun name hn => List.contains_iff_mem.2 (h.mem_iff.2 hn),
      fun name hn => List.contains_iff_mem.2 (h.mem_iff.1 hn)⟩
  unfold toRecord
  dsimp only
  rw [if_pos hall]
  rfl

theorem ofRecord_record (h : o.Named) : ofRecord o.record = o.ordered := by
  have hzip := zip_filterMap (isSome_get? h (ObjectType.nodup_propertyNames o.typeId))
  unfold ofRecord record ordered
  rw [← hzip]

theorem perm_ordered (h : o.Named) : o.ordered.properties.Perm o.properties :=
  perm_inOrder h (ObjectType.nodup_propertyNames o.typeId)

theorem get?_ordered (h : o.Named) (name : String) :
    get? o.ordered.properties name = get? o.properties name := by
  have hn := ObjectType.nodup_propertyNames o.typeId
  exact (get?_congr (h.nodup_iff.2 hn) (perm_ordered h).symm).symm

theorem named_ordered (h : o.Named) : o.ordered.Named := ((perm_ordered h).map _).trans h

theorem record_ordered (h : o.Named) : o.ordered.record = o.record := by
  unfold record
  congr 1
  exact List.filterMap_congr fun name _ => get?_ordered h name

theorem scriptLabels_ordered (h : o.Named) : o.ordered.scriptLabels = o.scriptLabels := by
  unfold scriptLabels
  congr 1
  exact List.filterMap_congr fun name _ => get?_ordered h name

/-- An object that was read has its properties in their places. -/
theorem map_ofRecord (h : r.properties.length = ObjectType.propertyCount) :
    (ofRecord r).properties.map (·.1) = ObjectType.propertyNames r.typeId :=
  List.map_fst_zip (by rw [h, ObjectType.length_propertyNames])

theorem named_ofRecord (h : r.properties.length = ObjectType.propertyCount) :
    (ofRecord r).Named := by
  unfold Named
  rw [map_ofRecord h]
  exact List.Perm.refl _

theorem ordered_ofRecord (h : r.properties.length = ObjectType.propertyCount) :
    (ofRecord r).ordered = ofRecord r := by
  have hn := ObjectType.nodup_propertyNames r.typeId
  have hself : inOrder (ObjectType.propertyNames r.typeId) (ofRecord r).properties =
      (ofRecord r).properties := by
    rw [← map_ofRecord h] at hn ⊢
    exact inOrder_of_subset hn fun p hp => hp
  unfold ordered
  exact congrArg (fun ps => { ofRecord r with properties := ps }) hself

theorem record_ofRecord (h : r.properties.length = ObjectType.propertyCount) :
    (ofRecord r).record = r := by
  have hn := ObjectType.nodup_propertyNames r.typeId
  have hzip := zip_filterMap (isSome_get? (named_ofRecord h) hn)
  have hself := congrArg QuestObject.properties (ordered_ofRecord h)
  have hvalues := congrArg (List.map Prod.snd) (hzip.trans hself)
  have hle : r.properties.length ≤ (ObjectType.propertyNames r.typeId).length := by
    rw [h, ObjectType.length_propertyNames]
  have hcut : (ofRecord r).properties.map (·.2) = r.properties := List.map_snd_zip hle
  rw [List.map_snd_zip (List.length_filterMap_le _ _), hcut] at hvalues
  unfold record
  rw [hvalues]
  rfl

end QuestObject

namespace QuestNpc

variable {n : QuestNpc} {r : Entity.NpcRecord} {episode : Episode} {tolerance : Double}

/-- An NPC is what its record says, and its label is one that a record can hold. -/
structure Recorded (episode : Episode) (tolerance : Double) (n : QuestNpc) : Prop where
  type : n.traits.identify episode tolerance = n.type
  label : ∀ l ∈ n.scriptLabel, Double.IsLabel l

/-- The record that holds what an NPC has, with the number that stands for its label. -/
def record (n : QuestNpc) (label : Double) : Entity.NpcRecord where
  typeId := n.typeId
  sectionId := n.sectionId
  position := n.position
  rotation := n.rotation
  scale := n.scale
  npcId := n.npcId
  scriptLabel := label
  roaming := n.roaming
  areaId := n.areaId
  unknown := n.unknown

theorem exists_labelNumber {label : Option Int} (h : ∀ l ∈ label, Double.IsLabel l) :
    ∃ x, labelNumber label = .ok x ∧ x.IsSingle ∧ labelOf? x = label := by
  cases label with
  | none => exact ⟨.nan, rfl, Double.isSingle_nan, by decide +kernel⟩
  | some l =>
    obtain ⟨x, hx, hs, hf, hr⟩ := Double.exists_number (h l rfl)
    refine ⟨x, hx, hs, ?_⟩
    unfold labelOf?
    rw [if_pos hf, hr]

theorem exists_toRecord (h : n.Recorded episode tolerance) :
    ∃ x, n.toRecord episode tolerance = .ok (n.record x) ∧ x.IsSingle ∧
      labelOf? x = n.scriptLabel := by
  obtain ⟨x, hx, hs, hl⟩ := exists_labelNumber h.label
  have htraits : n.storedTraits episode tolerance = .ok n.traits := by
    unfold storedTraits
    rw [if_pos h.type]
    rfl
  refine ⟨x, ?_, hs, hl⟩
  unfold toRecord
  rw [htraits, hx]
  rfl

/-- An NPC that is what its record says is the same NPC again. -/
theorem ofRecord_toRecord (h : n.Recorded episode tolerance)
    (hr : n.toRecord episode tolerance = .ok r) : ofRecord episode tolerance r = n := by
  obtain ⟨x, hx, -, hl⟩ := exists_toRecord h
  cases hr.symm.trans hx
  unfold ofRecord record
  dsimp only
  rw [hl]
  have htype := h.type
  unfold traits at htype
  rw [htype]

theorem recorded_ofRecord (h : r.Storable) :
    (ofRecord episode tolerance r).Recorded episode tolerance := by
  refine ⟨rfl, fun l hl => ?_⟩
  have hl : labelOf? r.scriptLabel = some l := hl
  unfold labelOf? at hl
  split at hl
  · next hf =>
    cases hl
    exact Double.isLabel_roundInt h.scriptLabel hf
  · cases hl

theorem storable_record (h : r.Storable) {x : Double} (hx : x.IsSingle) :
    ((ofRecord episode tolerance r).record x).Storable :=
  { h with scriptLabel := hx }

end QuestNpc
end QuestArchive
