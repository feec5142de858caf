import QuestArchive.Proofs.Quest.Fitting

/-!
# A quest comes back from its archive

A quest whose objects and NPCs stand in the order of their areas is written and read as the
same quest.  What may change is the order of an object's properties, which have names.
-/

namespace QuestArchive

/-- Two objects are the same: each name has the same value in both, in whatever order. -/
structure QuestObject.Same (o p : QuestObject) : Prop where
  properties : o.properties.Perm p.properties
  rest : { o with properties := p.properties } = p

theorem QuestObject.same_ordered {o : QuestObject} (h : o.Named) : o.ordered.Same o :=
  ⟨perm_ordered h, rfl⟩

namespace Quest

open Entity (sortedByArea_eq_self)

variable {q : Quest} {fileName : String}

/-- Two quests have the same objects in the same order, and are equal apart from these. -/
structure Same (q p : Quest) : Prop where
  objects : List.Forall₂ QuestObject.Same q.objects p.objects
  rest : { q with objects := p.objects } = p

theorem same_arranged (h : ∀ o ∈ q.objects, o.Named)
    (ho : q.objects.Pairwise (·.areaId ≤ ·.areaId)) (hn : q.npcs.Pairwise (·.areaId ≤ ·.areaId)) :
    q.arranged.Same q := by
  have hobjects : q.arranged.objects = q.objects.map (·.ordered) :=
    sortedByArea_eq_self (List.pairwise_map.2 ho)
  have hnpcs : q.arranged.npcs = q.npcs := sortedByArea_eq_self hn
  constructor
  · rw [hobjects]
    exact List.forall₂_map_left_iff.2
      (List.forall₂_same.2 fun o hm => QuestObject.same_ordered (h o hm))
  · show { q with npcs := q.arranged.npcs } = q
    rw [hnpcs]

/-- A quest that fits its files and an archive can be written under any name, and is read again
in the strict mode, if its objects and NPCs stand in the order of their areas.  The labels of
NPCs that fit are those of `Double.IsLabel`, among them all up to `2 ^ 24` on either side. -/
theorem archive_round_trip (h : q.Storable {}) (hs : q.Sized) (hp : q.Packs {})
    (ho : q.objects.Pairwise (·.areaId ≤ ·.areaId)) (hn : q.npcs.Pairwise (·.areaId ≤ ·.areaId))
    (hname : Field.IsName fileName) :
    ∃ w r, q.write fileName {} = .ok w ∧ read w {} = .ok r ∧ r.quest.Same q ∧
      r.version = .blueBurst := by
  obtain ⟨w, hw⟩ := exists_write h hs hp QuestOptions.nameable_default hname
  obtain ⟨r, hr, hquest, hversion⟩ := read_of_write h rfl hname hw
  refine ⟨w, r, hw, hr, ?_, hversion⟩
  rw [hquest]
  exact same_arranged (fun o hm => (h.objects o hm).1) ho hn

/-- The quest with properties out of their places is one. -/
theorem archive_round_trip_sampler : sampler.Storable {} ∧ sampler.Sized ∧ sampler.Packs {} ∧
    sampler.objects.Pairwise (·.areaId ≤ ·.areaId) ∧
    sampler.npcs.Pairwise (·.areaId ≤ ·.areaId) ∧ Field.IsName "lost heat sword.qst" ∧
    ∃ w r, sampler.write "lost heat sword.qst" {} = .ok w ∧ read w {} = .ok r ∧
      r.quest.Same sampler ∧ r.version = .blueBurst := by
  have ho : sampler.objects.Pairwise (·.areaId ≤ ·.areaId) := List.pairwise_singleton _ _
  have hn : sampler.npcs.Pairwise (·.areaId ≤ ·.areaId) := by decide
  have hname : Field.IsName "lost heat sword.qst" := by decide +kernel
  exact ⟨storable_sampler, sized_sampler, packs_sampler, ho, hn, hname,
    archive_round_trip storable_sampler sized_sampler packs_sampler ho hn hname⟩

end Quest
end QuestArchive
