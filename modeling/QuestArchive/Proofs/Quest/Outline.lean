import QuestArchive.Proofs.Lists
import QuestArchive.Proofs.Script.WellFormed
import QuestArchive.Quest.Outline

/-!
# What typed code says of its quest

A typed call has the arguments that its operation calls for.  So one that sets the episode
states it, and one that designates a variant of a map states the area and the variant.
-/

namespace QuestArchive

namespace Script

variable {segments : List Segment}

theorem mem_of_startCode? {is : List Instruction} (h : startCode? segments = some is) :
    ∃ ls, .code ls is ∈ segments ∧ 0 ∈ ls := by
  obtain ⟨s, hs, hcode⟩ := List.exists_of_findSome?_eq_some h
  cases s with
  | data ls bytes | text ls value => cases hcode
  | code ls is' =>
    dsimp only at hcode
    split at hcode
    · next h0 =>
      cases hcode
      exact ⟨ls, hs, List.contains_iff_mem.1 h0⟩
    · cases hcode

theorem typed_of_startCode? (h : ∀ s ∈ segments, s.Typed) :
    ∀ is, startCode? segments = some is → ∀ i ∈ is, i.Typed := by
  intro is hstart
  obtain ⟨ls, hs, -⟩ := mem_of_startCode? hstart
  exact h _ hs

/-! ## Episodes -/

theorem exists_episode (h : ∀ is, startCode? segments = some is → ∀ i ∈ is, i.Typed) :
    ∃ e, episode segments = .ok e := by
  unfold episode
  cases hc : (startCode? segments).bind episodeCall? with
  | none => exact ⟨.one, rfl⟩
  | some i =>
    obtain ⟨is, hstart, hcall⟩ := Option.bind_eq_some_iff.1 hc
    have hcall : is.find? (·.opcode = Opcode.setEpisode) = some i := hcall
    have hop : i.opcode = .setEpisode := by simpa using List.find?_some hcall
    have hargs := (h is hstart i (List.mem_of_find?_eq_some hcall)).args
    rw [hop, if_neg (by decide)] at hargs
    obtain ⟨a, ha⟩ := List.length_eq_one_iff.1 hargs.length_eq.symm
    have hvalue : argValue i 0 = .ok a.value := by
      unfold argValue
      rw [ha]
      rfl
    refine ⟨episodeOfIndex a.value, ?_⟩
    show (argValue i 0 >>= fun value => _) = _
    rw [hvalue]
    rfl

/-! ## Map designations -/

/-- A call that designates a variant states the area and the variant as integers. -/
theorem exists_designation {i : Instruction} (h : i.Typed) (hop : i.opcode = .mapDesignate) :
    ∃ area variant : Int, designation i = .ok (.int area, .int variant) := by
  have hargs := h.args
  rw [hop, if_neg (by decide)] at hargs
  obtain ⟨area, rest, harea, hrest, he⟩ := List.forall₂_cons_left_iff.1 hargs
  obtain ⟨word, rest', -, hrest', rfl⟩ := List.forall₂_cons_left_iff.1 hrest
  obtain ⟨variant, more, hvariant, -, rfl⟩ := List.forall₂_cons_left_iff.1 hrest'
  obtain ⟨m, -, hm, -⟩ := harea
  obtain ⟨n, -, hn, -⟩ := hvariant
  refine ⟨m, n, ?_⟩
  unfold designation argValue
  rw [he, ← hm, ← hn]
  rfl

theorem isNumber_designate {d : Value × Value} {found : List (Value × Value)}
    (hd : d.1.isNumber = true) (h : ∀ e ∈ found, e.1.isNumber = true) :
    ∀ e ∈ designate d found, e.1.isNumber = true := by
  induction found with
  | nil => exact List.forall_mem_singleton.2 hd
  | cons e found ih =>
    obtain ⟨he, hfound⟩ := List.forall_mem_cons.1 h
    unfold designate
    split
    · exact List.forall_mem_cons.2 ⟨he, hfound⟩
    · exact List.forall_mem_cons.2 ⟨he, ih hfound⟩

theorem isNumber_foldl_designate {ds found : List (Value × Value)}
    (hd : ∀ d ∈ ds, d.1.isNumber = true) (h : ∀ e ∈ found, e.1.isNumber = true) :
    ∀ e ∈ ds.foldl (fun found d => designate d found) found, e.1.isNumber = true := by
  induction ds generalizing found with
  | nil => exact h
  | cons d ds ih =>
    obtain ⟨hone, hds⟩ := List.forall_mem_cons.1 hd
    exact ih hds (isNumber_designate hone h)

theorem exists_designations_of_typed
    (h : ∀ is, startCode? segments = some is → ∀ i ∈ is, i.Typed) :
    ∃ ds, designations segments = .ok ds := by
  have hcalls : ∀ i ∈ ((startCode? segments).getD []).filter (·.opcode = Opcode.mapDesignate),
      ∃ d, designation i = .ok d ∧ d.1.isNumber = true := by
    intro i hi
    obtain ⟨hi, hop⟩ := List.mem_filter.1 hi
    have hi : i.Typed := by
      cases hs : startCode? segments with
      | none =>
        rw [hs] at hi
        cases hi
      | some is =>
        rw [hs] at hi
        exact h is hs i hi
    obtain ⟨area, variant, hd⟩ := exists_designation hi (of_decide_eq_true hop)
    exact ⟨_, hd, rfl⟩
  obtain ⟨ds, hds⟩ := exists_forall₂ hcalls
  have hnumber : ∀ d ∈ ds, d.1.isNumber = true := by
    intro d hd
    obtain ⟨i, -, -, hi⟩ := exists_of_forall₂ hds.flip d hd
    exact hi
  have hall := isNumber_foldl_designate hnumber fun e he => absurd he List.not_mem_nil
  unfold designations
  dsimp only
  rw [mapM_eq_ok_iff.2 (hds.imp fun _ _ hi => hi.1), ok_bind, List.all_eq_true.2 hall,
    if_neg fun hn => absurd hn.2 (by decide)]
  exact ⟨_, rfl⟩

end Script
end QuestArchive
