import QuestArchive.Proofs.Script.Typing

/-!
# The texts of a call

An operation with arguments stands for instructions that hold the same texts as the arguments,
whether they are pushed or stand in the instruction itself.
-/

namespace QuestArchive

def Instruction.HasText (i : Instruction) (t : Text) : Prop := ∃ a ∈ i.args, a.value = .text t

theorem Value.Printable.spelt {value : Value} (h : value.Printable) : Script.Spelt value := by
  cases h with
  | endless h => exact .float _
  | spellable h =>
    cases h with
    | int low high => exact .int _
    | float finite => exact .float _
    | text t => exact .text t
    | register low high => exact .register _

namespace Script

/-! ## Pushes -/

theorem hasText_make {op : Opcode} {param : ParamKind} {value : Value} {i : Instruction}
    (hparams : op.params = [param]) (hpops : op.popsArguments = false)
    (hl : param.isList = false) (h : Instruction.make op [value] = .ok i) (t : Text) :
    i.HasText t ↔ value = .text t := by
  obtain ⟨a, -, hvalue, rfl⟩ := Instruction.exists_of_make_single hparams hpops hl h
  rw [← hvalue]
  exact ⟨fun ⟨b, hb, hv⟩ => List.mem_singleton.1 hb ▸ hv, fun hv => ⟨a, List.mem_cons_self, hv⟩⟩

theorem hasText_push {param : ParamKind} {value : Value} {i : Instruction} (h : Spelt value)
    (hl : param.isList = false) (hi : Value.push param value = .ok i) (t : Text) :
    i.HasText t ↔ value = .text t := by
  cases passedBy_of_push h hl hi with
  | number _ params pops single _ other made =>
    exact (hasText_make params pops single made t).trans (iff_of_false nofun (other t))
  | text same made =>
    subst same
    exact hasText_make rfl rfl rfl made t

theorem hasText_pushes {params : List ParamKind} {values : List Value} {is : List Instruction}
    (hlen : values.length = params.length) (hp : ∀ param ∈ params, param.isList = false)
    (hv : ∀ value ∈ values, Spelt value)
    (h : (params.zip values).mapM (fun pv => Value.push pv.1 pv.2) = .ok is) (t : Text) :
    (∃ i ∈ is, i.HasText t) ↔ .text t ∈ values :=
  exists_mem_mapM_zip_iff hlen.symm h fun param hparam value hvalue _ hi =>
    hasText_push (hv value hvalue) (hp param hparam) hi t

/-! ## Arguments that an instruction holds itself -/

theorem text_inlineArg {param : ParamKind} {value : Value} {a : Arg} (h : Spelt value)
    (hl : param.isList = false) (ha : inlineArg param value = .ok a) (t : Text) :
    a.value = .text t ↔ value = .text t := by
  obtain ⟨held, -, hsame, hmake⟩ := exists_make_of_inlineArg h hl ha
  rw [Arg.value_of_make hl hmake]
  exact hsame t

theorem text_singles {single : List ParamKind} {values : List Value} {args : List Arg}
    (hlen : single.length ≤ values.length) (hs : ∀ param ∈ single, param.isList = false)
    (hv : ∀ value ∈ values, Spelt value)
    (h : (single.zip values).mapM (fun pv => inlineArg pv.1 pv.2) = .ok args) (t : Text) :
    (∃ a ∈ args, a.value = .text t) ↔ .text t ∈ values.take single.length := by
  rw [List.zip_eq_zip_take_min, Nat.min_eq_left hlen, List.take_length] at h
  refine exists_mem_mapM_zip_iff (List.length_take_of_le hlen).symm h ?_
  intro param hparam value hvalue a ha
  exact text_inlineArg (hv value (List.mem_of_mem_take hvalue)) (hs param hparam) ha t

theorem item_ne_text {param : ParamKind} {value : Value} {n : Int}
    (hn : (if param = .registers then listedRegister else listedLabel) value = .ok n) (t : Text) :
    value ≠ .text t := by
  rintro rfl
  by_cases hp : param = .registers
  · rw [if_pos hp] at hn
    cases hn
  · rw [if_neg hp] at hn
    obtain ⟨⟨⟩, hc, -⟩ := bind_eq_ok_iff.1 hn
    cases hc

theorem text_inlineArgs {op : Opcode} {values : List Value} {args : List Arg}
    (hop : op ∈ Opcode.table) (hv : ∀ value ∈ values, Spelt value)
    (h : inlineArgs op.params values = .ok args) (t : Text) :
    (∃ a ∈ args, a.value = .text t) ↔ .text t ∈ values := by
  obtain ⟨single, front, hs, hlen, hfront, hcase⟩ := inlineArgs_cases hop h
  have hsingles := text_singles hlen hs hv hfront t
  rcases hcase with ⟨-, hmost, rfl⟩ | ⟨param, ns, last, hlist, -, hns, hlast, rfl⟩
  · rw [hsingles, List.take_of_length_le hmost]
  · have hlastText : last.value ≠ .text t := by
      cases param
      case codeLabels | registers =>
        obtain ⟨ms, -, hlast⟩ := bind_eq_ok_iff.1 hlast
        cases hlast
        exact nofun
      all_goals cases hlist
    have hrest : .text t ∉ values.drop single.length := by
      intro hm
      obtain ⟨n, -, hn⟩ := exists_of_forall₂ (mapM_eq_ok_iff.1 hns) _ hm
      exact item_ne_text hn t rfl
    rw [← List.take_append_drop single.length values, List.mem_append, or_iff_left hrest,
      ← hsingles]
    simp [or_and_right, exists_or, hlastText]

/-! ## Calls -/

/-- The texts among the arguments of an operation are those of the instructions that it stands
for. -/
theorem hasText_expand {op : Opcode} {values : List Value} {is : List Instruction}
    (hop : op ∈ Opcode.table) (hv : ∀ value ∈ values, Spelt value)
    (h : expand op values = .ok is) (t : Text) :
    (∃ i ∈ is, i.HasText t) ↔ .text t ∈ values := by
  have halone : ¬({ opcode := op } : Instruction).HasText t :=
    fun ⟨a, ha, _⟩ => List.not_mem_nil ha
  rcases expand_cases h with ⟨-, rfl, rfl⟩ | ⟨hp, pushed, hpushed, rfl⟩ | ⟨-, args, hargs, rfl⟩
  · simp [halone]
  · unfold Value.pushes at hpushed
    split at hpushed
    · cases hpushed
    · next hlen =>
      rw [← hasText_pushes (not_not.1 hlen) (single_of_popsArguments hop hp) hv hpushed t]
      simp [or_and_right, exists_or, halone]
  · rw [← text_inlineArgs hop hv hargs t]
    simp [Instruction.HasText]

end Script
end QuestArchive
