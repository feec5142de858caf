import QuestArchive.Proofs.Script.Assembling

/-!
# Every typed script is shown

A listing asks of an instruction only that its values are what its operation calls for.  The
sizes that its arguments state decide whether pushes become the arguments of a call, but not
whether there are lines for them.
-/

namespace QuestArchive

namespace Value

theorem exists_ofArg {param : ParamKind} {a : Arg} (h : a.value.Suits param) :
    ∃ values, ofArg param a = .ok values := by
  cases param
  case codeLabels | registers =>
    obtain ⟨ns, hv, -⟩ := h
    unfold ofArg
    rw [hv]
    exact ⟨_, rfl⟩
  all_goals exact ⟨_, rfl⟩

end Value

namespace Script

variable {pushed is : List Instruction} {i : Instruction}

theorem exists_spell_of_typed (h : i.Typed) : ∃ line, spell i = .ok line := by
  have hof : ∀ pa ∈ i.opcode.params.zip i.args, ∃ values, Value.ofArg pa.1 pa.2 = .ok values := by
    intro pa hpa
    have hargs := h.args
    split at hargs
    · rw [hargs, List.zip_nil_right] at hpa
      exact absurd hpa List.not_mem_nil
    · exact Value.exists_ofArg (List.forall₂_zip hargs hpa)
  obtain ⟨values, hvalues⟩ := exists_mapM hof
  exact ⟨_, bind_eq_ok_iff.2 ⟨values, hvalues, rfl⟩⟩

theorem exists_spells_of_typed (h : ∀ i ∈ is, i.Typed) : ∃ lines, is.mapM spell = .ok lines :=
  exists_mapM fun i hi => exists_spell_of_typed (h i hi)

theorem exists_callLines_of_typed (hi : i.Typed)
    (hp : ∀ j ∈ pushed, j.Typed ∧ j.opcode.pushesArgument = true) :
    ∃ lines, callLines pushed i = .ok lines := by
  obtain ⟨r, hr, -⟩ := exists_folded? hi hp
  unfold callLines
  rw [hr, ok_bind]
  cases r with
  | none =>
    refine exists_spells_of_typed (List.forall_mem_append.2 ⟨fun j hj => (hp j hj).1, ?_⟩)
    exact List.forall_mem_singleton.2 hi
  | some values =>
    obtain ⟨apart, hapart⟩ := @exists_spells_of_typed (pushed.take (pushed.length - values.length))
      fun j hj => (hp j (List.mem_of_mem_take hj)).1
    exact ⟨_, bind_eq_ok_iff.2 ⟨apart, hapart, rfl⟩⟩

/-- Typed instructions have lines, whatever typed pushes stand in front of them. -/
theorem exists_codeLines_of_typed (h : ∀ i ∈ is, i.Typed)
    (hp : ∀ j ∈ pushed, j.Typed ∧ j.opcode.pushesArgument = true) :
    ∃ lines, codeLines pushed is = .ok lines := by
  induction is generalizing pushed with
  | nil => exact exists_spells_of_typed fun j hj => (hp j hj).1
  | cons i is ih =>
    obtain ⟨hi, hrest⟩ := List.forall_mem_cons.1 h
    rw [codeLines]
    split
    · next hpush =>
      refine ih hrest (List.forall_mem_append.2 ⟨hp, ?_⟩)
      exact List.forall_mem_singleton.2 ⟨hi, hpush⟩
    · obtain ⟨call, hcall⟩ := exists_callLines_of_typed hi hp
      obtain ⟨lines, hlines⟩ := @ih [] hrest fun j hj => absurd hj List.not_mem_nil
      rw [hcall, ok_bind, hlines]
      exact ⟨_, rfl⟩

variable {segments : List Segment}

theorem exists_contentLines_of_typed {s : Segment} (h : s.Typed) :
    ∃ content, contentLines s = .ok content := by
  cases s with
  | code ls is =>
    obtain ⟨lines, hlines⟩ := exists_codeLines_of_typed h fun j hj => absurd hj List.not_mem_nil
    exact ⟨_, bind_eq_ok_iff.2 ⟨lines, hlines, rfl⟩⟩
  | data ls bytes => exact ⟨_, rfl⟩
  | text ls value => exact ⟨_, rfl⟩

/-- A script of typed code has a listing. -/
theorem exists_listingFrom_of_typed (h : ∀ s ∈ segments, s.Typed) (kind : SegmentKind)
    (started : Bool) : ∃ lines, listingFrom kind started segments = .ok lines := by
  induction segments generalizing kind started with
  | nil => exact ⟨[], rfl⟩
  | cons s rest ih =>
    obtain ⟨hs, hrest⟩ := List.forall_mem_cons.1 h
    obtain ⟨content, hcontent⟩ := exists_contentLines_of_typed hs
    obtain ⟨started', hlisting⟩ := @listingFrom_cons s kind started rest content hcontent
    obtain ⟨lines, hlines⟩ := ih hrest s.kind started'
    rw [hlisting, hlines]
    exact ⟨_, rfl⟩

end Script
end QuestArchive
