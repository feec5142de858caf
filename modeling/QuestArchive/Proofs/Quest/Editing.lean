import QuestArchive.Proofs.Number.Distance
import QuestArchive.Proofs.Quest.Inhabitant

/-!
# An NPC made into another

An NPC whose identity was changed is stored with the type code and the roaming value of the
new identity, and with one bit of its vertical scale set or cleared.  Reading does not look
at the bit but at the distance of the scale from one, so that the bit decides only for some
scales: `type_of_edited` says for which.
-/

namespace QuestArchive

/-! ## The bit of a special NPC -/

def flagged (regular : Bool) (p : UInt32) : UInt32 :=
  (p &&& ~~~specialBit) ||| (if regular then 0 else specialBit)

theorem withRegular_eq {scale : Vec3} {p : UInt32} (hy : scale.y = .ofSingle p)
    (hn : scale.y.isNaN = false) (regular : Bool) :
    scale.withRegular regular = .ok { scale with y := .ofSingle (flagged regular p) } := by
  rw [hy] at hn
  unfold Vec3.withRegular
  rw [hy, Double.toSingle?_ofSingle hn]
  rfl

theorem toNat_flagged_regular (p : UInt32) :
    (flagged true p).toNat = p.toNat - p.toNat / 2 ^ 23 % 2 * 2 ^ 23 := by
  have hlt := p.toNat_lt
  have hmask : (flagged true p).toNat = p.toNat &&& 0xFF7FFFFF := by
    unfold flagged
    rw [if_pos rfl, UInt32.or_zero, UInt32.toNat_and]
    rfl
  have hlow : (p.toNat &&& 0xFF7FFFFF) % 2 ^ 23 = p.toNat % 2 ^ 23 := by
    rw [Nat.and_mod_two_pow, show 0xFF7FFFFF % 2 ^ 23 = 2 ^ 23 - 1 from rfl,
      Nat.and_two_pow_sub_one_eq_mod, Nat.mod_mod]
  have hhigh : (p.toNat &&& 0xFF7FFFFF) / 2 ^ 24 = p.toNat / 2 ^ 24 := by
    rw [Nat.and_div_two_pow, show 0xFF7FFFFF / 2 ^ 24 = 2 ^ 8 - 1 from rfl,
      Nat.and_two_pow_sub_one_eq_mod, Nat.mod_eq_of_lt (by omega)]
  have hbit : (p.toNat &&& 0xFF7FFFFF) / 2 ^ 23 % 2 = 0 := by
    rw [Nat.and_div_two_pow, show (2 : Nat) = 2 ^ 1 from rfl, Nat.and_mod_two_pow,
      show 0xFF7FFFFF / (2 ^ 1) ^ 23 % 2 ^ 1 = 0 from rfl, Nat.and_zero]
  rw [hmask]
  omega

theorem toNat_flagged_special (p : UInt32) :
    (flagged false p).toNat = p.toNat + (1 - p.toNat / 2 ^ 23 % 2) * 2 ^ 23 := by
  have hcleared := toNat_flagged_regular p
  have hset : (flagged false p).toNat = (flagged true p).toNat ||| 2 ^ 23 := by
    unfold flagged
    rw [if_pos rfl, UInt32.or_zero, if_neg Bool.false_ne_true, UInt32.toNat_or]
    rfl
  have hlow : ((flagged true p).toNat ||| 2 ^ 23) % 2 ^ 23 = (flagged true p).toNat % 2 ^ 23 := by
    rw [Nat.or_mod_two_pow, show 2 ^ 23 % 2 ^ 23 = 0 from rfl, Nat.or_zero]
  have hhigh : ((flagged true p).toNat ||| 2 ^ 23) / 2 ^ 24 = (flagged true p).toNat / 2 ^ 24 := by
    rw [Nat.or_div_two_pow, show 2 ^ 23 / 2 ^ 24 = 0 from rfl, Nat.or_zero]
  have hbit : ((flagged true p).toNat ||| 2 ^ 23) / 2 ^ 23 % 2 = 1 := by
    have hzero : (flagged true p).toNat / (2 ^ 1) ^ 23 % 2 ^ 1 = 0 := by omega
    rw [Nat.or_div_two_pow, show (2 : Nat) = 2 ^ 1 from rfl, Nat.or_mod_two_pow, hzero]
    rfl
  rw [hset]
  omega

/-! ## Scales that keep the bit -/

/-- The patterns of the scales that test as the bit says once it is set or cleared.  A regular
NPC may not come to stand just below one; a special one must come to stand at one or just
above it, or turn into a NaN, which is at no distance. -/
def KeepsFlag (regular : Bool) (p : UInt32) : Prop :=
  if regular then
    ¬(0x3F7FFF59 ≤ p.toNat ∧ p.toNat ≤ 0x3F7FFFFF) ∧
      ¬(0x3FFFFF59 ≤ p.toNat ∧ p.toNat ≤ 0x3FFFFFFF)
  else
    (0x3F000000 ≤ p.toNat ∧ p.toNat ≤ 0x3F000053) ∨
      (0x3F800000 ≤ p.toNat ∧ p.toNat ≤ 0x3F800053) ∨ 0x7F000000 < p.toNat % 0x80000000

instance (regular : Bool) (p : UInt32) : Decidable (KeepsFlag regular p) := by
  unfold KeepsFlag
  infer_instance

theorem lt_distance_infinite {s : UInt32}
    (h : s.toNat % 0x80000000 = BinaryFormat.single.infinity) :
    NpcTraits.defaultTolerance.lt (Double.ofSingle s).distanceFromOne = true := by
  have hinf : BinaryFormat.single.infinity = 0x7F800000 := rfl
  have hlt := s.toNat_lt
  have hs : s = 0x7F800000 ∨ s = 0xFF800000 := by
    rcases Nat.lt_or_ge s.toNat 0x80000000 with h' | h'
    · exact Or.inl (UInt32.toNat_inj.1 (show s.toNat = 0x7F800000 by omega))
    · exact Or.inr (UInt32.toNat_inj.1 (show s.toNat = 0xFF800000 by omega))
  rcases hs with rfl | rfl <;> decide +kernel

theorem lt_distance_nan {s : UInt32} (h : BinaryFormat.single.infinity < s.toNat % 0x80000000) :
    NpcTraits.defaultTolerance.lt (Double.ofSingle s).distanceFromOne = false := by
  have hnan : (Double.ofSingle s).distanceFromOne = .nan := by
    unfold Double.distanceFromOne
    rw [Double.ofSingle_nan h, if_pos rfl]
  rw [hnan]
  decide +kernel

/-- Which scales test as the bit that they were given. -/
theorem isRegular_flagged {p : UInt32} (h : p.toNat % 0x80000000 < BinaryFormat.single.infinity)
    (regular : Bool) :
    NpcTraits.defaultTolerance.lt (Double.ofSingle (flagged regular p)).distanceFromOne =
      regular ↔ KeepsFlag regular p := by
  have hinf : BinaryFormat.single.infinity = 0x7F800000 := rfl
  have hlt := p.toNat_lt
  unfold KeepsFlag
  cases regular with
  | true =>
    have hbits := toNat_flagged_regular p
    rw [Double.lt_distance_ofSingle (by omega), if_pos rfl, Bool.not_eq_true',
      decide_eq_false_iff_not]
    omega
  | false =>
    have hbits := toNat_flagged_special p
    rw [if_neg Bool.false_ne_true]
    rcases Nat.lt_trichotomy ((flagged false p).toNat % 0x80000000)
      BinaryFormat.single.infinity with hfin | heq | hnan
    · rw [Double.lt_distance_ofSingle hfin, Bool.not_eq_false', decide_eq_true_iff]
      omega
    · rw [lt_distance_infinite heq]
      refine iff_of_false (by decide) ?_
      omega
    · rw [lt_distance_nan hnan]
      refine iff_of_true rfl ?_
      omega

/-! ## Identities that can be stored -/

namespace Identity

theorem resolve_congr {regular : Bool} {area area' : Int}
    (h : lastShallowArea < area ↔ lastShallowArea < area') (identity : Identity) :
    identity.resolve regular area = identity.resolve regular area' := by
  induction identity with
  | only type => rfl
  | byScale type special => rfl
  | byArea deep shallow ih =>
    unfold resolve
    rw [ih]
    simp only [h]

/-- What a stored form can mean for some scale it means for the scale that it asks for. -/
theorem resolve_stored {type : NpcType} {s : StoredIdentity} (hs : type.stored? = some s)
    {episode : Episode} {area : Int} {regular : Bool}
    (h : (Identity.of s.typeId s.roaming episode).resolve regular area = type) :
    (Identity.of s.typeId s.roaming episode).resolve s.regular area = type := by
  have hrow : (type, s) ∈ StoredIdentity.table := by
    obtain ⟨row, hf, rfl⟩ := Option.map_eq_some_iff.1 hs
    have htype : row.1 = type := by simpa using List.find?_some hf
    exact htype ▸ List.mem_of_find?_eq_some hf
  have htable : ∀ row ∈ StoredIdentity.table, ∀ episode ∈ [Episode.one, .two, .four],
      ∀ area ∈ [(0 : Int), 16], ∀ regular,
        (Identity.of row.2.typeId row.2.roaming episode).resolve regular area = row.1 →
          (Identity.of row.2.typeId row.2.roaming episode).resolve row.2.regular area =
            row.1 := by decide +kernel
  have hepisode : episode ∈ [Episode.one, .two, .four] := by cases episode <;> decide
  obtain ⟨area', hmem, hdeep⟩ : ∃ area' ∈ [(0 : Int), 16],
      (lastShallowArea < area ↔ lastShallowArea < area') := by
    by_cases hd : lastShallowArea < area
    · exact ⟨16, by decide, iff_of_true hd (by decide)⟩
    · exact ⟨0, by decide, iff_of_false hd (by decide)⟩
  rw [resolve_congr hdeep] at h ⊢
  exact htable _ hrow episode hepisode area' hmem regular h

end Identity

/-! ## Edited NPCs -/

namespace QuestNpc

variable {n : QuestNpc} {r : Entity.NpcRecord} {episode : Episode} {s : StoredIdentity}
  {p : UInt32}

/-- The type that a stored form has in an area when its scale is as given. -/
def typeOf (s : StoredIdentity) (area : Int) (episode : Episode) (scale : Vec3) : NpcType :=
  (NpcTraits.mk s.typeId s.roaming scale area).identify episode NpcTraits.defaultTolerance

theorem typeOf_eq (s : StoredIdentity) (area : Int) (episode : Episode) (scale : Vec3) :
    typeOf s area episode scale = (Identity.of s.typeId s.roaming episode).resolve
      (NpcTraits.defaultTolerance.lt scale.y.distanceFromOne) area := rfl

theorem storedTraits_edited (hs : n.type.stored? = some s)
    (hne : n.traits.identify episode NpcTraits.defaultTolerance ≠ n.type)
    (hy : n.scale.y = .ofSingle p) (hfin : n.scale.y.isFinite = true) :
    n.storedTraits episode NpcTraits.defaultTolerance = .ok {
      typeId := s.typeId, roaming := s.roaming
      scale := { n.scale with y := .ofSingle (flagged s.regular p) }, areaId := n.areaId } := by
  have hunknown : n.type ≠ .unknown := fun he => by
    rw [he] at hs
    cases (show NpcType.unknown.stored? = none by decide +kernel).symm.trans hs
  unfold storedTraits
  rw [if_neg hne, if_neg hunknown, hs]
  show (n.scale.withRegular s.regular >>= fun scale => _) = _
  rw [withRegular_eq hy (Double.finite_bounds hfin).1]
  rfl

/-- An edited NPC keeps its new type if its scale keeps the bit, and otherwise only where the
type does not depend on the scale. -/
theorem typeOf_flagged (hs : n.type.stored? = some s)
    (hrep : ∃ scale, typeOf s n.areaId episode scale = n.type)
    (hfin : (Double.ofSingle p).isFinite = true) :
    typeOf s n.areaId episode { n.scale with y := .ofSingle (flagged s.regular p) } = n.type ↔
      KeepsFlag s.regular p ∨ ∀ scale, typeOf s n.areaId episode scale = n.type := by
  obtain ⟨scale, hscale⟩ := hrep
  have hown := Identity.resolve_stored hs hscale
  have hkeeps := isRegular_flagged (Double.finite_of_ofSingle hfin) s.regular
  simp only [typeOf_eq]
  generalize Identity.of s.typeId s.roaming episode = identity at hown ⊢
  constructor
  · intro htype
    by_cases hk : KeepsFlag s.regular p
    · exact Or.inl hk
    · -- The other regularity gives the type too, so that every scale does.
      have hother : NpcTraits.defaultTolerance.lt
          (Double.ofSingle (flagged s.regular p)).distanceFromOne = !s.regular :=
        Bool.eq_not_of_ne fun he => hk (hkeeps.1 he)
      rw [hother] at htype
      refine Or.inr fun scale' => ?_
      rcases Bool.eq_or_eq_not (NpcTraits.defaultTolerance.lt scale'.y.distanceFromOne) s.regular
        with he | he
      · rw [he, hown]
      · rw [he, htype]
  · rintro (hk | hall)
    · rw [hkeeps.2 hk, hown]
    · exact hall { n.scale with y := .ofSingle (flagged s.regular p) }

/-- An NPC that was made into another one is written, and read as what it was made into
unless its vertical scale does not keep the bit for it. -/
theorem type_of_edited (hs : n.type.stored? = some s)
    (hrep : ∃ scale, typeOf s n.areaId episode scale = n.type)
    (hy : n.scale.y = .ofSingle p) (hfin : n.scale.y.isFinite = true) :
    ((∃ r, n.toRecord episode NpcTraits.defaultTolerance = .ok r) ↔
      ∃ x, labelNumber n.scriptLabel = .ok x) ∧
    ∀ r, n.toRecord episode NpcTraits.defaultTolerance = .ok r →
      ((ofRecord episode NpcTraits.defaultTolerance r).type = n.type ↔
        n.traits.identify episode NpcTraits.defaultTolerance = n.type ∨ KeepsFlag s.regular p ∨
          ∀ scale, typeOf s n.areaId episode scale = n.type) := by
  obtain ⟨traits, ht, harea, htype⟩ : ∃ traits,
      n.storedTraits episode NpcTraits.defaultTolerance = .ok traits ∧
      traits.areaId = n.areaId ∧
      (traits.identify episode NpcTraits.defaultTolerance = n.type ↔
        n.traits.identify episode NpcTraits.defaultTolerance = n.type ∨ KeepsFlag s.regular p ∨
          ∀ scale, typeOf s n.areaId episode scale = n.type) := by
    by_cases hsame : n.traits.identify episode NpcTraits.defaultTolerance = n.type
    · refine ⟨n.traits, ?_, rfl, iff_of_true hsame (Or.inl hsame)⟩
      unfold storedTraits
      rw [if_pos hsame]
      rfl
    · refine ⟨_, storedTraits_edited hs hsame hy hfin, rfl, ?_⟩
      rw [or_iff_right hsame]
      exact typeOf_flagged hs hrep (hy ▸ hfin)
  constructor
  · unfold toRecord
    rw [ht, ok_bind]
    constructor
    · rintro ⟨r, hr⟩
      obtain ⟨x, hx, -⟩ := bind_eq_ok_iff.1 hr
      exact ⟨x, hx⟩
    · rintro ⟨x, hx⟩
      rw [hx]
      exact ⟨_, rfl⟩
  · intro r hr
    unfold toRecord at hr
    rw [ht, ok_bind] at hr
    obtain ⟨x, -, hr⟩ := bind_eq_ok_iff.1 hr
    cases hr
    rw [← htype, ← harea]
    rfl

def madeInto (type : NpcType) (height : Double) : QuestNpc where
  type := type
  typeId := 0x44
  npcId := .zero
  scriptLabel := none
  roaming := 1
  areaId := 1
  sectionId := 3
  position := ⟨.zero, .zero, .zero⟩
  rotation := ⟨.zero, .zero, .zero⟩
  scale := ⟨.zero, height, .zero⟩
  unknown := [List.replicate 10 0, List.replicate 6 0, List.replicate 4 0]

theorem type_of_edited_wolf :
    NpcType.savageWolf.stored? = some (.plain 0x43 0) ∧
    typeOf (.plain 0x43 0) 1 .one ⟨.zero, .zero, .zero⟩ = .savageWolf ∧
    ∃ r, (madeInto .savageWolf (.ofSingle 0x3F800000)).toRecord .one
        NpcTraits.defaultTolerance = .ok r ∧
      (ofRecord .one NpcTraits.defaultTolerance r).type = .savageWolf := by
  have hs : NpcType.savageWolf.stored? = some (.plain 0x43 0) := by decide +kernel
  have hrep : typeOf (.plain 0x43 0) 1 .one ⟨.zero, .zero, .zero⟩ = .savageWolf := by
    decide +kernel
  obtain ⟨hwritten, htype⟩ := type_of_edited (n := madeInto .savageWolf (.ofSingle 0x3F800000))
    (p := 0x3F800000) hs ⟨_, hrep⟩ rfl (by decide +kernel)
  obtain ⟨r, hr⟩ := hwritten.2 ⟨_, rfl⟩
  exact ⟨hs, hrep, r, hr, (htype r hr).2 (Or.inr (Or.inl (by decide)))⟩

/-- A Barbarous Wolf is a special one, but a flat one that is stored as such tests as regular. -/
theorem edited_flat_wolf :
    NpcType.barbarousWolf.stored? = some (.special 0x43 0) ∧
    typeOf (.special 0x43 0) 1 .one ⟨.zero, .ofSingle 0x3F800000, .zero⟩ = .barbarousWolf ∧
    (madeInto .barbarousWolf (.ofSingle 0)).scale.y.isFinite = true ∧
    ∃ r, (madeInto .barbarousWolf (.ofSingle 0)).toRecord .one NpcTraits.defaultTolerance =
        .ok r ∧ (ofRecord .one NpcTraits.defaultTolerance r).type = .savageWolf := by
  refine ⟨by decide +kernel, by decide +kernel, by decide +kernel, {
    typeId := 0x43, sectionId := 3, position := ⟨.zero, .zero, .zero⟩
    rotation := ⟨.zero, .zero, .zero⟩, scale := ⟨.zero, .ofSingle 0x800000, .zero⟩
    npcId := .zero, scriptLabel := .nan, roaming := 0, areaId := 1
    unknown := [List.replicate 10 0, List.replicate 6 0, List.replicate 4 0] }, ?_, ?_⟩
  · decide +kernel
  · decide +kernel

end QuestNpc
end QuestArchive
