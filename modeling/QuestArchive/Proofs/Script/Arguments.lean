import QuestArchive.Proofs.Script.Calls
import QuestArchive.Proofs.Script.WellFormed

/-!
# Arguments that an instruction holds itself

An argument is written as one value, and the last argument may be a list that is written as
any number of them.  Assembling these values gives the arguments again.
-/

namespace QuestArchive

def Instruction.Finite (i : Instruction) : Prop :=
  ∀ a ∈ i.args, ∀ x, a.value = .float x → x.isFinite = true

structure Instruction.Writable (i : Instruction) : Prop where
  wellFormed : i.WellFormed
  finite : i.Finite

namespace Value

theorem checkInt_ok {param : ParamKind} {n : Int} {range : Int × Int}
    (hr : param.range? = some range) (low : range.1 ≤ n) (high : n ≤ range.2) :
    checkInt param n = .ok () := by
  rw [checkInt, hr]
  exact if_pos ⟨low, high⟩

theorem checkRegister_ok {n : Int} (low : 0 ≤ n) (high : n ≤ 0xFF) :
    checkRegister (.int n) = .ok () := by
  have hb : (int n).isInByteRange = true := by
    rw [isInByteRange_int]
    exact decide_eq_true ⟨low, high⟩
  rw [checkRegister, hb]
  rfl

/-- The range of a parameter holds no integer that a source cannot spell. -/
theorem spellable_of_range {param : ParamKind} {n : Int} {range : Int × Int}
    (hr : param.range? = some range) (low : range.1 ≤ n) (high : n ≤ range.2) :
    (int n).Spellable := by
  have all : -0x80000000 ≤ range.1 ∧ range.2 ≤ 0xFFFFFFFF := by
    cases param
    all_goals cases hr
    all_goals decide
  exact .int (all.1.trans low) (high.trans all.2)

end Value

namespace Script

theorem inlineArg_register {param : ParamKind} {n : Int} {a : Arg}
    (hr : param.isRegister = true) (low : 0 ≤ n) (high : n ≤ 0xFF)
    (hmake : Arg.make param (.int n) = .ok a) :
    inlineArg param (.register (.int n)) = .ok a := by
  have hc : Value.check param (.register (.int n)) = .ok () := by
    cases param
    all_goals exact Value.checkRegister_ok low high
  unfold inlineArg
  rw [hr, hc]
  exact hmake

theorem inlineArg_int {param : ParamKind} {n : Int} {a : Arg} {range : Int × Int}
    (hr : param.range? = some range) (low : range.1 ≤ n) (high : n ≤ range.2)
    (hmake : Arg.make param (.int n) = .ok a) : inlineArg param (.int n) = .ok a := by
  have heq : inlineArg param (.int n) =
      (Value.checkInt param n >>= fun _ => Arg.make param (.int n)) := by
    cases param
    all_goals first | rfl | cases hr
  rw [heq, Value.checkInt_ok hr low high]
  exact hmake

theorem exists_inlineArg {param : ParamKind} {a : Arg} (h : a.Suits param)
    (hlist : param.isList = false) :
    ∃ value, Value.ofArg param a = .ok [value] ∧ value.Printable ∧
      (∀ x, .float x = value ↔ a.value = .float x) ∧ inlineArg param value = .ok a := by
  obtain ⟨hv, hmake⟩ := h
  obtain ⟨value, size⟩ := a
  have none {v w : Value} (hv : ∀ x, v ≠ .float x) (hw : ∀ x, w ≠ .float x) :
      ∀ x, .float x = v ↔ w = .float x :=
    fun x => iff_of_false (hv x).symm (hw x)
  cases param
  case float =>
    obtain ⟨x, rfl⟩ := hv
    refine ⟨.float x, rfl, ?_, fun y => eq_comm, hmake⟩
    cases hx : x.isFinite with
    | true => exact .spellable (.float hx)
    | false => exact .endless hx
  case string =>
    obtain ⟨t, rfl, -⟩ := hv
    exact ⟨.text t, rfl, .spellable (.text t),
      none (fun _ => Value.noConfusion) (fun _ => Value.noConfusion), hmake⟩
  case register =>
    obtain ⟨n, rfl, low, high⟩ := hv
    exact ⟨_, rfl, .spellable (.register low high),
      none (fun _ => Value.noConfusion) (fun _ => Value.noConfusion),
      inlineArg_register rfl low high hmake⟩
  case registerTuple =>
    obtain ⟨n, rfl, low, high⟩ := hv
    exact ⟨_, rfl, .spellable (.register low high),
      none (fun _ => Value.noConfusion) (fun _ => Value.noConfusion),
      inlineArg_register rfl low high hmake⟩
  case codeLabels => cases hlist
  case registers => cases hlist
  all_goals
    obtain ⟨n, range, rfl, hr, low, high⟩ := hv
    exact ⟨_, rfl, .spellable (Value.spellable_of_range hr low high),
      none (fun _ => Value.noConfusion) (fun _ => Value.noConfusion),
      inlineArg_int hr low high hmake⟩

theorem listedRegister_ok {n : Int} (low : 0 ≤ n) (high : n ≤ 0xFF) :
    listedRegister (.register (.int n)) = .ok n := by
  unfold listedRegister
  simp only [Value.checkRegister_ok low high]
  rfl

theorem listedLabel_ok {n : Int} (low : 0 ≤ n) (high : n ≤ 0xFFFF) :
    listedLabel (.int n) = .ok n := by
  have hc : Value.check .codeLabel (.int n) = .ok () :=
    @Value.checkInt_ok .codeLabel n _ rfl low high
  unfold listedLabel
  simp only [hc]
  rfl

theorem exists_listArg {param : ParamKind} {a : Arg} (h : a.Suits param)
    (hlist : param.isList = true) :
    ∃ values ns, Value.ofArg param a = .ok values ∧ (∀ value ∈ values, value.Printable) ∧
      (∀ x, .float x ∈ values ↔ a.value = .float x) ∧
      values.mapM (if param = .registers then listedRegister else listedLabel) = .ok ns ∧
      Arg.make param (.list ns) = .ok a := by
  obtain ⟨hv, hmake⟩ := h
  obtain ⟨value, size⟩ := a
  cases param
  case codeLabels =>
    obtain ⟨ns, rfl, hns⟩ := hv
    refine ⟨ns.map .int, ns, rfl, ?_, ?_, ?_, hmake⟩
    · intro value hvalue
      obtain ⟨n, hn, rfl⟩ := List.mem_map.1 hvalue
      obtain ⟨low, high⟩ := hns n hn
      exact .spellable (.int (by omega) (by omega))
    · intro x
      simp
    · exact mapM_map_ok fun n hn => listedLabel_ok (hns n hn).1 (hns n hn).2
  case registers =>
    obtain ⟨ns, rfl, hns⟩ := hv
    refine ⟨(ns.map .int).map .register, ns, rfl, ?_, ?_, ?_, hmake⟩
    · intro value hvalue
      rw [List.map_map] at hvalue
      obtain ⟨n, hn, rfl⟩ := List.mem_map.1 hvalue
      obtain ⟨low, high⟩ := hns n hn
      exact .spellable (.register low high)
    · intro x
      simp
    · rw [List.map_map]
      exact mapM_map_ok fun n hn => listedRegister_ok (hns n hn).1 (hns n hn).2
  all_goals cases hlist

theorem exists_singles {single tail : List ParamKind} {args : List Arg}
    (h : List.Forall₂ Arg.Suits (single ++ tail) args)
    (hs : ∀ param ∈ single, param.isList = false) :
    ∃ (values : List Value) (front back : List Arg), args = front ++ back ∧
      List.Forall₂ Arg.Suits tail back ∧ values.length = single.length ∧
      front.length = single.length ∧ (∀ value ∈ values, value.Printable) ∧
      (∀ x, .float x ∈ values ↔ ∃ a ∈ front, a.value = .float x) ∧
      (single.zip front).mapM (fun pa => Value.ofArg pa.1 pa.2) = .ok (values.map ([·])) ∧
      (single.zip values).mapM (fun pv => inlineArg pv.1 pv.2) = .ok front := by
  induction single generalizing args with
  | nil =>
    refine ⟨[], [], args, rfl, h, rfl, rfl, fun _ hv => absurd hv List.not_mem_nil, ?_, rfl, rfl⟩
    intro x
    simp
  | cons param single ih =>
    cases h with
    | cons ha h =>
      rename_i a args
      obtain ⟨value, hof, hprint, hnumber, hin⟩ := exists_inlineArg ha (hs param List.mem_cons_self)
      obtain ⟨values, front, back, rfl, hback, hlv, hlf, hall, hnumbers, hofs, hins⟩ :=
        ih h fun p hp => hs p (List.mem_cons_of_mem param hp)
      refine ⟨value :: values, a :: front, back, rfl, hback, congrArg (· + 1) hlv,
        congrArg (· + 1) hlf, ?_, ?_, ?_, ?_⟩
      · intro v hv
        rcases List.mem_cons.1 hv with rfl | hv
        · exact hprint
        · exact hall v hv
      · intro x
        rw [List.mem_cons, hnumber, hnumbers, List.exists_mem_cons_iff]
      · rw [List.zip_cons_cons, List.mapM_cons, hof, hofs]
        rfl
      · rw [List.zip_cons_cons, List.mapM_cons, hin, hins]
        rfl

theorem splitParams_cases (params : List ParamKind) :
    splitParams params = (params, none) ∨
      ∃ single param, param.isList = true ∧ params = single ++ [param] ∧
        splitParams params = (single, some param) := by
  unfold splitParams
  cases hl : params.getLast? with
  | none => exact Or.inl rfl
  | some param =>
    obtain ⟨single, rfl⟩ := List.getLast?_eq_some_iff.1 hl
    by_cases hp : param.isList = true
    · right
      refine ⟨single, param, hp, rfl, ?_⟩
      simp only [hp, if_true, List.dropLast_concat]
    · left
      simp only [hp]
      rfl

theorem inlineArgs_singles {params : List ParamKind} {values : List Value}
    (hsplit : splitParams params = (params, none)) (hlen : values.length = params.length) :
    inlineArgs params values = (params.zip values).mapM fun pv => inlineArg pv.1 pv.2 := by
  unfold inlineArgs
  rw [hsplit]
  dsimp only
  rw [if_neg (by simp [hlen])]
  exact bind_pure _

/-- A list in the last place takes the values behind those of the other parameters. -/
theorem inlineArgs_list {single : List ParamKind} {param : ParamKind} {values items : List Value}
    (hsplit : splitParams (single ++ [param]) = (single, some param))
    (hlen : values.length = single.length) :
    inlineArgs (single ++ [param]) (values ++ items) =
      (single.zip values).mapM (fun pv => inlineArg pv.1 pv.2) >>= fun front =>
        items.mapM (if param = .registers then listedRegister else listedLabel) >>= fun ns =>
          Arg.make param (.list ns) >>= fun last => .ok (front ++ [last]) := by
  have hzip : single.zip (values ++ items) = single.zip values := by
    have hz := @List.zip_append _ _ single [] values items hlen.symm
    rwa [List.append_nil, List.zip_nil_left, List.append_nil] at hz
  unfold inlineArgs
  rw [hsplit]
  dsimp only
  rw [if_neg (by simp [hlen]), hzip, List.drop_left' hlen]
  rfl

/-- The values that some arguments are written with are assembled into these arguments. -/
theorem exists_inlineArgs {params : List ParamKind} {args : List Arg}
    (h : List.Forall₂ Arg.Suits params args)
    (hs : ∀ param ∈ (splitParams params).1, param.isList = false) :
    ∃ values, (params.zip args).mapM (fun pa => Value.ofArg pa.1 pa.2) = .ok values ∧
      (∀ value ∈ values.flatten, value.Printable) ∧
      (∀ x, .float x ∈ values.flatten ↔ ∃ a ∈ args, a.value = .float x) ∧
      inlineArgs params values.flatten = .ok args := by
  rcases splitParams_cases params with hsplit | ⟨single, param, hlist, rfl, hsplit⟩
  · rw [hsplit] at hs
    rw [← List.append_nil params] at h
    obtain ⟨values, front, back, rfl, hback, hlv, hlf, hall, hnumbers, hofs, hins⟩ :=
      exists_singles h hs
    cases hback
    rw [List.append_nil]
    have hflat : (values.map ([·])).flatten = values := List.flatMap_singleton' values
    refine ⟨_, hofs, by rw [hflat]; exact hall, by rw [hflat]; exact hnumbers, ?_⟩
    rw [hflat, inlineArgs_singles hsplit hlv, hins]
  · rw [hsplit] at hs
    obtain ⟨values, front, back, rfl, hback, hlv, hlf, hall, hnumbers, hofs, hins⟩ :=
      exists_singles h hs
    cases hback with
    | cons ha hback =>
      rename_i a back
      cases hback
      obtain ⟨items, ns, hof, hitems, hlisted, hmap, hmake⟩ := exists_listArg ha hlist
      have hflat : (values.map ([·]) ++ [items]).flatten = values ++ items := by
        rw [List.flatten_append, List.flatten_singleton]
        exact congrArg (· ++ items) (List.flatMap_singleton' values)
      refine ⟨values.map ([·]) ++ [items], ?_, ?_, ?_, ?_⟩
      · rw [List.zip_append hlf.symm, List.mapM_append, hofs]
        simp only [List.zip_cons_cons, List.zip_nil_left, List.mapM_cons, List.mapM_nil, hof]
        rfl
      · rw [hflat]
        exact List.forall_mem_append.2 ⟨hall, hitems⟩
      · intro x
        rw [hflat, List.mem_append, hnumbers, hlisted]
        simp only [List.mem_append, List.mem_singleton]
        constructor
        · intro hx
          rcases hx with ⟨b, hb, hx⟩ | hx
          · exact ⟨b, Or.inl hb, hx⟩
          · exact ⟨a, Or.inr rfl, hx⟩
        · intro hx
          obtain ⟨b, hb | rfl, hx⟩ := hx
          · exact Or.inl ⟨b, hb, hx⟩
          · exact Or.inr hx
      · rw [hflat, inlineArgs_list hsplit hlv, hins, ok_bind, hmap, ok_bind, hmake, ok_bind]

theorem single_of_splitParams {op : Opcode} (h : op ∈ Opcode.table) :
    ∀ param ∈ (splitParams op.params).1, param.isList = false := by
  refine Opcode.forall_table
    (p := fun op => ∀ param ∈ (splitParams op.params).1, param.isList = false) ?_ ?_ op h
  · decide +kernel
  · intro _ _ hp
    cases hp

/-- An instruction is written as a call that stands for just this instruction. -/
theorem exists_spell {i : Instruction} (h : i.WellFormed) :
    ∃ values, spell i = .ok (spellCall i.opcode.mnemonic values) ∧
      (∀ value ∈ values, value.Printable) ∧
      (∀ x, .float x ∈ values ↔ ∃ a ∈ i.args, a.value = .float x) ∧
      expand i.opcode values = .ok [i] := by
  have hargs := h.args
  by_cases hp : i.opcode.popsArguments = true
  · rw [if_pos hp] at hargs
    refine ⟨[], ?_, fun _ hv => absurd hv List.not_mem_nil, ?_, ?_⟩
    · unfold spell
      rw [hargs, List.zip_nil_right]
      rfl
    · intro x
      rw [hargs]
      simp
    · unfold expand
      rw [if_pos hp]
      show Except.ok [(⟨i.opcode, []⟩ : Instruction)] = _
      rw [← hargs]
  · rw [if_neg hp] at hargs
    obtain ⟨values, hof, hall, hnumbers, hin⟩ :=
      exists_inlineArgs hargs (single_of_splitParams h.opcode)
    refine ⟨values.flatten, ?_, hall, hnumbers, ?_⟩
    · unfold spell
      rw [hof]
      rfl
    · unfold expand
      rw [if_neg hp, hin]
      rfl

end Script
end QuestArchive
