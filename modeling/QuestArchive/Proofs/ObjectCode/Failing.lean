import QuestArchive.Proofs.ObjectCode.Containment
import QuestArchive.Proofs.ObjectCode.Modes

/-!
# Why a script cannot be read

Code that breaks and sizes that do not add up are told as faults of the format.  There are two
more reasons: a byte of the code that is no operation's number, and a label in front of the
code, where a span may have fewer bytes than its positions say.
-/

namespace QuestArchive

theorem Cursor.mem_of_mem_span {data : Array UInt8} {i j : Int} {b : UInt8}
    (h : b ∈ span data i j) : b ∈ data.toList := by
  unfold span at h
  rw [Array.toList_extract, List.extract_eq_take_drop] at h
  exact List.mem_of_mem_drop (List.mem_of_mem_take h)

namespace ObjectCode

/-- The faults of reading an instruction that are neither that bytes end nor that a size is too
large. -/
theorem of_scanFault {e : Fault} (h : IsScanFault e) (hm : isMalformed e = false) :
    e = .cutField ∨ e = .noByte ∨ ∃ code, e = .unknownOpcode code := by
  rcases h with h | ⟨code, rfl⟩
  · cases e
    case cutField => exact Or.inl rfl
    case noByte => exact Or.inr (Or.inl rfl)
    case pastBound | unterminated => cases hm
    all_goals exact h.elim
  · exact Or.inr (Or.inr ⟨code, rfl⟩)

structure Pending (s : Input) (queue : List Reference) (p : Progress) : Prop where
  queue : ∀ r ∈ queue, r.kind ≠ .text
  todo : ∀ {o : Int} {st : Start}, p.todo[o]? = some st → s.starts[o]? = some st

theorem preserves_pending (s : Input) : Preserves s (Pending s) where
  unknown h _ := ⟨fun r hr => h.queue r (List.mem_cons_of_mem _ hr), h.todo⟩
  known h _ _ := ⟨fun r hr => h.queue r (List.mem_cons_of_mem _ hr), h.todo⟩
  past h _ _ _ := ⟨fun r hr => h.queue r (List.mem_cons_of_mem _ hr), h.todo⟩
  place h _ _ _ hf := by
    refine ⟨List.forall_mem_append.2 ⟨fun r hr => h.queue r (List.mem_cons_of_mem _ hr), ?_⟩, ?_⟩
    · exact Input.references_of_readAt (h.queue _ List.mem_cons_self) hf
    · exact fun h' => h.todo (Progress.todo_of_place h').2

/-- Reading a script fails for a reason that the format tells, at a byte that is no operation's
number, or at a label in front of the code. -/
theorem fault_of_read {mode : Mode} {stored : Stored} {labels : List Int} {e : Fault}
    (h : read mode stored (entries labels) = .error e) :
    e.isFormat = true ∨ (∃ b ∈ stored.code, 0xFA ≤ b.toNat ∧ e = .unknownOpcode b.toNat) ∨
      (∃ o ∈ stored.offsets, o < -1) ∧
        (e = .cutField ∨ e = .noByte ∨ ∃ code, e = .unknownOpcode code) := by
  have charts : Charts (input mode stored).size stored.offsets (input mode stored).starts :=
    charts_starts _ _
  have init : Pending (input mode stored) (entries labels) { todo := (input mode stored).starts } :=
    ⟨(sound_entries mode stored labels).queue, id⟩
  rcases Progress.follow_cases (preserves_pending _) _ _ init with
    ⟨p, hp, -⟩ | ⟨o, st, r, e', ⟨queue, p, hpending, -, ht, hle⟩, he, hf⟩
  · -- all references were followed, so that only the sizes are left to be wrong
    rw [read_of_follow hp] at h
    unfold conclude at h
    split at h
    · cases h
    · split at h
      · cases h
        exact Or.inl rfl
      · cases h
  · cases (read_error hf).symm.trans h
    have hst := hpending.todo ht
    unfold Input.readAt at he
    split at he
    · cases he
    · next hk => exact absurd hk (hpending.queue r List.mem_cons_self)
    · by_cases h0 : 0 ≤ o
      · rcases Input.readCode_cases charts hst h0 hle
            (((input mode stored).starts[st.stop]?).bind (·.labels.head?)) with
          ⟨f, is, hok, -⟩ | ⟨e', herror, hrefused⟩
        · exact absurd (hok.symm.trans he) nofun
        · cases herror.symm.trans he
          cases hrefused with
          | broken _ _ hb =>
            obtain ⟨n, cause, rfl, -⟩ := hb
            exact Or.inl rfl
          | @unknown _ _ _ n b rest _ _ hv hb =>
            have hmem := List.mem_of_mem_drop (hv.symm ▸ List.mem_cons_self : b ∈ _)
            exact Or.inr (Or.inl ⟨b, Cursor.mem_of_mem_span hmem, hb, rfl⟩)
      · obtain ⟨hmem, hne⟩ := mem_offsets_of_start mode hst
        rcases Input.readCode_error he with ⟨_, _, _, rfl⟩ | ⟨hscan, hm⟩
        · exact Or.inl rfl
        · exact Or.inr (Or.inr ⟨⟨o, hmem, by omega⟩, of_scanFault hscan hm⟩)

end ObjectCode
end QuestArchive
