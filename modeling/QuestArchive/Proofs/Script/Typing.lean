import QuestArchive.Proofs.Lists
import QuestArchive.Proofs.Script.Containment

/-!
# Calls give well-formed instructions

Whatever a line of code calls for, the instructions that it stands for are well formed: the
checks of the values leave only those that suit the parameters, be they passed on the stack or
held by the instruction itself.
-/

namespace QuestArchive

section

variable {param : ParamKind} {value : Value} {a : Arg}

theorem Value.range_of_check {n : Int} {range : Int × Int}
    (h : Value.check param (.int n) = .ok ()) (hr : param.range? = some range) :
    range.1 ≤ n ∧ n ≤ range.2 := by
  have hc : Value.check param (.int n) = Value.checkInt param n := by
    cases param
    all_goals first | rfl | cases hr
  rw [hc, Value.checkInt, hr] at h
  dsimp only at h
  split at h
  · next hn => exact hn
  · cases h

theorem Value.range_of_checkRegister {n : Int} (h : Value.checkRegister (.int n) = .ok ()) :
    0 ≤ n ∧ n ≤ 0xFF := by
  unfold Value.checkRegister at h
  split at h
  · cases h
  · split at h
    · next hb =>
      rw [Value.isInByteRange_int] at hb
      exact of_decide_eq_true hb
    · cases h

theorem Arg.value_of_make (hl : param.isList = false) (h : Arg.make param value = .ok a) :
    a.value = value := by
  cases param
  case string =>
    obtain ⟨_, -, h⟩ := bind_eq_ok_iff.1 h
    cases h
    rfl
  case codeLabels => cases hl
  case registers => cases hl
  all_goals
    cases h
    rfl

/-- An argument suits a parameter if it is made of a value that does. -/
theorem Arg.suits_of_make (hl : param.isList = false) (hv : value.Suits param)
    (h : Arg.make param value = .ok a) : a.Suits param := by
  have he := Arg.value_of_make hl h
  exact ⟨he ▸ hv, he ▸ h⟩

theorem Text.encodable_of_textBytes {t : Text} {bs : Bytes} (h : Field.textBytes t = .ok bs) :
    Text.Encodable t := by
  unfold Field.textBytes at h
  split at h
  · next he => exact Text.encodable_of_encode16 he
  · cases h

/-- A list of numbers as an argument of a parameter that takes one. -/
theorem Arg.suits_list {ns : List Int} (hl : param.isList = true)
    (hns : ∀ n ∈ ns, 0 ≤ n ∧ n ≤ if param = .registers then 0xFF else 0xFFFF)
    (h : Arg.make param (.list ns) = .ok a) : a.Suits param := by
  cases param
  case codeLabels =>
    obtain ⟨_, hi, h'⟩ := bind_eq_ok_iff.1 h
    cases hi
    cases h'
    exact ⟨⟨ns, rfl, hns⟩, h⟩
  case registers =>
    obtain ⟨_, hi, h'⟩ := bind_eq_ok_iff.1 h
    cases hi
    cases h'
    exact ⟨⟨ns, rfl, hns⟩, h⟩
  all_goals cases hl

end

/-- With one parameter, an instruction holds its one operand as it was given. -/
theorem Instruction.exists_of_make_single {op : Opcode} {param : ParamKind} {value : Value}
    {i : Instruction} (hparams : op.params = [param]) (hpops : op.popsArguments = false)
    (hl : param.isList = false) (h : Instruction.make op [value] = .ok i) :
    ∃ a, Arg.make param value = .ok a ∧ a.value = value ∧ i = { opcode := op, args := [a] } := by
  rw [Instruction.make_single hparams hpops] at h
  obtain ⟨a, ha, h⟩ := bind_eq_ok_iff.1 h
  exact ⟨a, ha, Arg.value_of_make hl ha, (Except.ok.inj h).symm⟩

theorem Instruction.wellFormed_push {op : Opcode} {param : ParamKind} {value : Value}
    {i : Instruction} (hop : op ∈ Opcode.table) (hparams : op.params = [param])
    (hpops : op.popsArguments = false) (hl : param.isList = false)
    (hv : ∀ a, Arg.make param value = .ok a → value.Suits param)
    (h : Instruction.make op [value] = .ok i) : i.WellFormed := by
  obtain ⟨a, ha, -, rfl⟩ := Instruction.exists_of_make_single hparams hpops hl h
  refine ⟨hop, ?_⟩
  rw [if_neg (by rw [hpops]; exact Bool.false_ne_true), hparams]
  exact .cons (Arg.suits_of_make hl (hv a ha) ha) .nil

namespace Script

section

variable {param : ParamKind} {value : Value} {a : Arg} {i : Instruction}

/-- A value that is no register and passes the check of a parameter suits it, unless the
parameter takes a number of single precision. -/
theorem suits_of_check (h : Spelt value) (hr : ∀ number, value ≠ .register number)
    (hf : param ≠ .float) (hl : param.isList = false) (hc : value.check param = .ok ())
    (hmake : Arg.make param value = .ok a) : value.Suits param := by
  cases h with
  | register n => exact absurd rfl (hr _)
  | text t =>
    cases param
    case string =>
      obtain ⟨_, hb, -⟩ := bind_eq_ok_iff.1 hmake
      exact ⟨t, rfl, Text.encodable_of_textBytes hb⟩
    all_goals cases hc
  | float x =>
    cases param
    case float => exact absurd rfl hf
    all_goals cases hc
  | int n =>
    cases param
    case float => exact absurd rfl hf
    case codeLabels => cases hl
    case registers => cases hl
    case register => cases hc
    case registerTuple => cases hc
    case string => cases hc
    all_goals exact ⟨n, _, rfl, rfl, Value.range_of_check hc rfl⟩

/-! ## Arguments that are passed on the stack -/

theorem singleBits_bounds {x : Double} {n : Int} (h : Value.singleBits x = .ok n) :
    -0x80000000 ≤ n ∧ n ≤ 0x7FFFFFFF := by
  unfold Value.singleBits at h
  split at h
  · next s _ =>
    cases h
    have hs := s.toNat_lt
    have he : Word.signed 4 s.toNat =
      if 2 * s.toNat < 0x100000000 then (s.toNat : Int) else (s.toNat : Int) - 0x100000000 := rfl
    rw [he]
    split <;> omega
  · cases h

theorem toSigned_bounds {n : Int} (low : 0 ≤ n) (high : n ≤ 0xFFFFFFFF) :
    -0x80000000 ≤ Value.toSigned n ∧ Value.toSigned n ≤ 0x7FFFFFFF := by
  unfold Value.toSigned
  split <;> omega

theorem push_mem_table : ∀ op ∈ [Opcode.pushRegister, .pushRegisterTuple, .pushByte, .pushWord,
    .pushInt, .pushString], op ∈ Opcode.table := by
  intro op hop
  refine List.mem_append_left _ ?_
  revert op
  decide +kernel

/-- How an instruction comes to pass a value: it holds a number that suits its parameter, or the
text that is passed. -/
inductive PassedBy (value : Value) (i : Instruction) : Prop where
  | number {op : Opcode} {kind : ParamKind} {n : Int} (opcode : op ∈ Opcode.table)
      (params : op.params = [kind]) (pops : op.popsArguments = false)
      (single : kind.isList = false) (suits : (Value.int n).Suits kind)
      (other : ∀ t, value ≠ .text t) (made : Instruction.make op [.int n] = .ok i)
  | text {t : Text} (same : value = .text t)
      (made : Instruction.make .pushString [.text t] = .ok i)

theorem passedBy_of_push (h : Spelt value) (hl : param.isList = false)
    (hi : Value.push param value = .ok i) : PassedBy value i := by
  unfold Value.push at hi
  obtain ⟨⟨⟩, hc, hi⟩ := bind_eq_ok_iff.1 hi
  have int : ∀ {n : Int}, (∀ t, value ≠ .text t) → -0x80000000 ≤ n ∧ n ≤ 0x7FFFFFFF →
      Instruction.make .pushInt [.int n] = .ok i → PassedBy value i := fun other hn =>
    .number (push_mem_table _ (by decide)) rfl rfl rfl ⟨_, _, rfl, rfl, hn⟩ other
  have word : ∀ {n : Int}, (∀ t, value ≠ .text t) → 0 ≤ n ∧ n ≤ 0xFFFF →
      Instruction.make .pushWord [.int n] = .ok i → PassedBy value i := fun other hn =>
    .number (push_mem_table _ (by decide)) rfl rfl rfl ⟨_, _, rfl, rfl, hn⟩ other
  have byte : ∀ {n : Int}, (∀ t, value ≠ .text t) → 0 ≤ n ∧ n ≤ 0xFF →
      Instruction.make .pushByte [.int n] = .ok i → PassedBy value i := fun other hn =>
    .number (push_mem_table _ (by decide)) rfl rfl rfl ⟨_, _, rfl, rfl, hn⟩ other
  have register : ∀ {op : Opcode} {n : Int}, op ∈ Opcode.table → op.params = [.register] →
      op.popsArguments = false → (∀ t, value ≠ .text t) → 0 ≤ n ∧ n ≤ 0xFF →
      Instruction.make op [.int n] = .ok i → PassedBy value i :=
    fun hop hparams hpops other hn => .number hop hparams hpops rfl ⟨_, rfl, hn⟩ other
  cases h with
  | register n =>
    have hn : 0 ≤ n ∧ n ≤ 0xFF := by
      cases param
      all_goals exact Value.range_of_checkRegister hc
    cases param
    case register => exact byte nofun hn hi
    all_goals exact register (push_mem_table _ (by decide)) rfl rfl nofun hn hi
  | text t =>
    cases param
    case string => exact .text rfl hi
    all_goals cases hc
  | float x =>
    cases param
    case float =>
      obtain ⟨_, -, hi⟩ := bind_eq_ok_iff.1 hi
      obtain ⟨n, hn, hi⟩ := bind_eq_ok_iff.1 hi
      exact int nofun (singleBits_bounds hn) hi
    all_goals cases hc
  | int n =>
    cases param
    case float =>
      obtain ⟨_, -, hi⟩ := bind_eq_ok_iff.1 hi
      obtain ⟨n, hn, hi⟩ := bind_eq_ok_iff.1 hi
      exact int nofun (singleBits_bounds hn) hi
    case dword =>
      have hn := Value.range_of_check hc rfl
      exact int nofun (toSigned_bounds hn.1 hn.2) hi
    case int => exact int nofun (Value.range_of_check hc rfl) hi
    case byte => exact byte nofun (Value.range_of_check hc rfl) hi
    case word => exact word nofun (Value.range_of_check hc rfl) hi
    case codeLabel => exact word nofun (Value.range_of_check hc rfl) hi
    case dataLabel => exact word nofun (Value.range_of_check hc rfl) hi
    case textLabel => exact word nofun (Value.range_of_check hc rfl) hi
    case codeLabels => cases hl
    case registers => cases hl
    all_goals cases hc

theorem wellFormed_of_push (h : Spelt value) (hl : param.isList = false)
    (hi : Value.push param value = .ok i) : i.WellFormed := by
  cases passedBy_of_push h hl hi with
  | number opcode params pops single suits _ made =>
    exact Instruction.wellFormed_push opcode params pops single (fun _ _ => suits) made
  | text _ made =>
    refine Instruction.wellFormed_push (push_mem_table _ (by decide)) rfl rfl rfl ?_ made
    intro a ha
    obtain ⟨_, hb, -⟩ := bind_eq_ok_iff.1 ha
    exact ⟨_, rfl, Text.encodable_of_textBytes hb⟩

end

theorem wellFormed_of_pushes {op : Opcode} {values : List Value} {is : List Instruction}
    (hop : op ∈ Opcode.table) (hp : op.popsArguments = true) (hv : ∀ value ∈ values, Spelt value)
    (h : Value.pushes op values = .ok is) : ∀ i ∈ is, i.WellFormed := by
  unfold Value.pushes at h
  split at h
  · cases h
  · intro i hi
    obtain ⟨⟨param, value⟩, hpv, h⟩ := exists_of_forall₂ (mapM_eq_ok_iff.1 h).flip i hi
    obtain ⟨hparam, hvalue⟩ := List.of_mem_zip hpv
    exact wellFormed_of_push (hv _ hvalue) (single_of_popsArguments hop hp _ hparam) h

/-! ## Arguments that an instruction holds itself -/

theorem inlineArg_eq {param : ParamKind} {value : Value} (hr : ∀ number, value ≠ .register number)
    (hf : param ≠ .float) :
    inlineArg param value = (value.check param >>= fun _ => Arg.make param value) := by
  cases value
  case register => exact absurd rfl (hr _)
  all_goals
    cases param
    case float => exact absurd rfl hf
    all_goals rfl

/-- An argument is made of a value that suits the parameter: the text of the call, or a number. -/
theorem exists_make_of_inlineArg {param : ParamKind} {value : Value} {a : Arg} (h : Spelt value)
    (hl : param.isList = false) (ha : inlineArg param value = .ok a) :
    ∃ held : Value, held.Suits param ∧ (∀ t, held = .text t ↔ value = .text t) ∧
      Arg.make param held = .ok a := by
  by_cases hr : ∃ number, value = .register number
  · obtain ⟨number, rfl⟩ := hr
    cases h with
    | register n =>
      cases param
      case register | registerTuple =>
        obtain ⟨⟨⟩, hc, ha⟩ := bind_eq_ok_iff.1 ha
        exact ⟨.int n, ⟨n, rfl, Value.range_of_checkRegister hc⟩,
          fun _ => iff_of_false nofun nofun, ha⟩
      all_goals cases ha
  · have hr : ∀ number, value ≠ .register number := not_exists.1 hr
    by_cases hf : param = .float
    · subst hf
      cases h with
      | register n => exact absurd rfl (hr _)
      | text t => cases ha
      | float x => exact ⟨.float x, ⟨x, rfl⟩, fun _ => iff_of_false nofun nofun, ha⟩
      | int n =>
        obtain ⟨x, -, ha⟩ := bind_eq_ok_iff.1
          (show (Value.number (.int n) >>= fun x => Arg.make .float (.float x)) = _ from ha)
        exact ⟨.float x, ⟨x, rfl⟩, fun _ => iff_of_false nofun nofun, ha⟩
    · rw [inlineArg_eq hr hf] at ha
      obtain ⟨⟨⟩, hc, ha⟩ := bind_eq_ok_iff.1 ha
      exact ⟨value, suits_of_check h hr hf hl hc ha, fun _ => Iff.rfl, ha⟩

theorem suits_of_inlineArg {param : ParamKind} {value : Value} {a : Arg} (h : Spelt value)
    (hl : param.isList = false) (ha : inlineArg param value = .ok a) : a.Suits param := by
  obtain ⟨held, hsuits, -, hmake⟩ := exists_make_of_inlineArg h hl ha
  exact Arg.suits_of_make hl hsuits hmake

theorem bounds_of_listedRegister {value : Value} {n : Int} (h : Spelt value)
    (hn : listedRegister value = .ok n) : 0 ≤ n ∧ n ≤ 0xFF := by
  cases h with
  | register m =>
    obtain ⟨⟨⟩, hc, hn⟩ := bind_eq_ok_iff.1 hn
    cases hn
    exact Value.range_of_checkRegister hc
  | text t => cases hn
  | int m => cases hn
  | float x => cases hn

theorem bounds_of_listedLabel {value : Value} {n : Int} (h : Spelt value)
    (hn : listedLabel value = .ok n) : 0 ≤ n ∧ n ≤ 0xFFFF := by
  cases h with
  | register m => cases hn
  | text t =>
    obtain ⟨⟨⟩, hc, hn⟩ := bind_eq_ok_iff.1 hn
    cases hn
  | float x =>
    obtain ⟨⟨⟩, hc, hn⟩ := bind_eq_ok_iff.1 hn
    cases hn
  | int m =>
    obtain ⟨⟨⟩, hc, hn⟩ := bind_eq_ok_iff.1 hn
    cases hn
    exact Value.range_of_check hc rfl

theorem suits_of_singles {single : List ParamKind} {values : List Value} {args : List Arg}
    (hlen : single.length ≤ values.length) (hs : ∀ param ∈ single, param.isList = false)
    (hv : ∀ value ∈ values, Spelt value)
    (h : (single.zip values).mapM (fun pv => inlineArg pv.1 pv.2) = .ok args) :
    List.Forall₂ Arg.Suits single args := by
  have hpairs : List.Forall₂ (fun pv a => Arg.Suits pv.1 a) (single.zip values) args := by
    refine forall₂_imp_mem (mapM_eq_ok_iff.1 h) fun pv hpv a _ ha => ?_
    obtain ⟨hparam, hvalue⟩ := List.of_mem_zip hpv
    exact suits_of_inlineArg (hv _ hvalue) (hs _ hparam) ha
  have hsuits := List.forall₂_map_left_iff.2 hpairs
  rwa [List.map_fst_zip hlen] at hsuits

/-- What the arguments of an operation are made of: one value for each parameter that takes one,
and the values that are left for a list. -/
theorem inlineArgs_cases {op : Opcode} {values : List Value} {args : List Arg}
    (hop : op ∈ Opcode.table) (h : inlineArgs op.params values = .ok args) :
    ∃ single front, (∀ param ∈ single, param.isList = false) ∧ single.length ≤ values.length ∧
      (single.zip values).mapM (fun pv => inlineArg pv.1 pv.2) = .ok front ∧
      ((op.params = single ∧ values.length ≤ single.length ∧ args = front) ∨
        ∃ param ns last, param.isList = true ∧ op.params = single ++ [param] ∧
          (values.drop single.length).mapM
            (if param = .registers then listedRegister else listedLabel) = .ok ns ∧
          Arg.make param (.list ns) = .ok last ∧ args = front ++ [last]) := by
  have hs := single_of_splitParams hop
  unfold inlineArgs at h
  rcases splitParams_cases op.params with hsplit | ⟨single, param, hlist, hparams, hsplit⟩
  · rw [hsplit] at hs h
    dsimp only at h
    split at h
    · cases h
    · next hlen =>
      simp only [Option.isNone_none, true_and, not_or, Nat.not_lt] at hlen
      obtain ⟨front, hfront, h⟩ := bind_eq_ok_iff.1 h
      cases h
      exact ⟨op.params, args, hs, hlen.1, hfront, .inl ⟨rfl, hlen.2, rfl⟩⟩
  · rw [hsplit] at hs h
    dsimp only at h
    split at h
    · cases h
    · next hlen =>
      have hlen : single.length ≤ values.length := Nat.le_of_not_lt fun hlt => hlen (Or.inl hlt)
      obtain ⟨front, hfront, h⟩ := bind_eq_ok_iff.1 h
      obtain ⟨ns, hns, h⟩ := bind_eq_ok_iff.1 h
      obtain ⟨last, hlast, h⟩ := bind_eq_ok_iff.1 h
      cases h
      exact ⟨single, front, hs, hlen, hfront,
        .inr ⟨param, ns, last, hlist, hparams, hns, hlast, rfl⟩⟩

theorem suits_of_inlineArgs {op : Opcode} {values : List Value} {args : List Arg}
    (hop : op ∈ Opcode.table) (hv : ∀ value ∈ values, Spelt value)
    (h : inlineArgs op.params values = .ok args) : List.Forall₂ Arg.Suits op.params args := by
  obtain ⟨single, front, hs, hlen, hfront, hcase⟩ := inlineArgs_cases hop h
  have hsuits := suits_of_singles hlen hs hv hfront
  rcases hcase with ⟨rfl, -, rfl⟩ | ⟨param, ns, last, hlist, hparams, hns, hlast, rfl⟩
  · exact hsuits
  · rw [hparams]
    refine List.rel_append hsuits (.cons ?_ .nil)
    refine Arg.suits_list hlist (fun n hn => ?_) hlast
    obtain ⟨value, hvalue, hn⟩ := exists_of_forall₂ (mapM_eq_ok_iff.1 hns).flip n hn
    have hspelt := hv value (List.mem_of_mem_drop hvalue)
    by_cases hp : param = .registers
    · simp only [hp, if_true] at hn ⊢
      exact bounds_of_listedRegister hspelt hn
    · simp only [hp, if_false] at hn ⊢
      exact bounds_of_listedLabel hspelt hn

/-! ## Calls -/

/-- What an operation with some arguments stands for: itself alone, itself behind the pushes of
the arguments, or an instruction that holds them. -/
theorem expand_cases {op : Opcode} {values : List Value} {is : List Instruction}
    (h : expand op values = .ok is) :
    (op.popsArguments = true ∧ values = [] ∧ is = [{ opcode := op }]) ∨
      (op.popsArguments = true ∧ ∃ pushed, Value.pushes op values = .ok pushed ∧
        is = pushed ++ [{ opcode := op }]) ∨
      op.popsArguments = false ∧ ∃ args, inlineArgs op.params values = .ok args ∧
        is = [{ opcode := op, args }] := by
  unfold expand at h
  by_cases hp : op.popsArguments = true
  · rw [if_pos hp] at h
    by_cases hempty : values.isEmpty = true
    · rw [if_pos hempty] at h
      cases h
      exact .inl ⟨hp, List.isEmpty_iff.1 hempty, rfl⟩
    · rw [if_neg hempty] at h
      obtain ⟨pushed, hpushed, h⟩ := bind_eq_ok_iff.1 h
      cases h
      exact .inr (.inl ⟨hp, pushed, hpushed, rfl⟩)
  · rw [if_neg hp] at h
    obtain ⟨args, hargs, h⟩ := bind_eq_ok_iff.1 h
    cases h
    exact .inr (.inr ⟨Bool.eq_false_iff.2 hp, args, hargs, rfl⟩)

theorem wellFormed_of_expand {op : Opcode} {values : List Value} {is : List Instruction}
    (hop : op ∈ Opcode.table) (hv : ∀ value ∈ values, Spelt value)
    (h : expand op values = .ok is) : is ≠ [] ∧ ∀ i ∈ is, i.WellFormed := by
  have halone : op.popsArguments = true → ({ opcode := op } : Instruction).WellFormed :=
    fun hp => ⟨hop, if_pos hp ▸ rfl⟩
  rcases expand_cases h with ⟨hp, -, rfl⟩ | ⟨hp, pushed, hpushed, rfl⟩ | ⟨hp, args, hargs, rfl⟩
  · exact ⟨List.cons_ne_nil _ _, List.forall_mem_singleton.2 (halone hp)⟩
  · exact ⟨List.append_ne_nil_of_right_ne_nil _ (List.cons_ne_nil _ _), List.forall_mem_append.2
      ⟨wellFormed_of_pushes hop hp hv hpushed, List.forall_mem_singleton.2 (halone hp)⟩⟩
  · refine ⟨List.cons_ne_nil _ _, List.forall_mem_singleton.2 ⟨hop, ?_⟩⟩
    rw [hp, if_neg Bool.false_ne_true]
    exact suits_of_inlineArgs hop hv hargs

theorem wellFormed_of_readCall {line : Text} {is : List Instruction}
    (h : readCall line = .ok is) : is ≠ [] ∧ ∀ i ∈ is, i.WellFormed := by
  unfold readCall at h
  dsimp only at h
  split at h
  · cases h
  · next op hop =>
    obtain ⟨values, hvalues, h⟩ := bind_eq_ok_iff.1 h
    have hop := List.mem_of_find?_eq_some hop
    exact wellFormed_of_expand hop
      (forall_of_mapM (fun _ _ => spelt_of_parse) hvalues) h

end Script
end QuestArchive
