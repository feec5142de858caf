import QuestArchive.Proofs.Bytes.Field
import QuestArchive.Proofs.Script.Typing

/-!
# The pushes of a call are printed as this call

What a push passes for a parameter is the value that was pushed, but for a number, which comes
back as it was rounded to single precision.  So the pushes of a call are always folded, and the
pushes in front of them stay apart.
-/

namespace QuestArchive

inductive Value.Single : Value → Prop where
  | register (number : Value) : Single (.register number)
  | number {value : Value} {x : Double} {s : UInt32} (number : value.number = .ok x)
      (rounded : x.toSingle? = some s) (finite : (Double.ofSingle s).isFinite = true) :
      Single value

namespace Script

/-! ## One push -/

/-- A push passes a value for a parameter, and is how this value is pushed. -/
structure Refolds (param : ParamKind) (i : Instruction) (value : Value) : Prop where
  pushes : i.opcode.pushesArgument = true
  passed : Value.ofPush param i = .ok (some value)
  spellable : value.Spellable
  pushed : Value.push param value = .ok i

section

variable {param : ParamKind} {value : Value} {i : Instruction}

theorem Refolds.of_make {op : Opcode} {kind : ParamKind} {held : Value}
    (hpush : op.pushesArgument = true) (hpops : op.popsArguments = false)
    (hparams : op.params = [kind]) (hkind : kind.isList = false)
    (hmake : Instruction.make op [held] = .ok i)
    (hof : Value.ofPushedOperand param op.code held = .ok (some value)) (hs : value.Spellable)
    (hi : Value.push param value = .ok i) : Refolds param i value := by
  obtain ⟨a, -, hvalue, rfl⟩ := Instruction.exists_of_make_single hparams hpops hkind hmake
  refine ⟨hpush, ?_, hs, hi⟩
  show Value.ofPushedOperand param op.code a.value = _
  rw [hvalue, hof]

/-- A register is passed by its number, whatever the parameter. -/
theorem refolds_register {n : Int} (hl : param.isList = false)
    (h : Value.push param (.register (.int n)) = .ok i) :
    Refolds param i (.register (.int n)) := by
  have heq : Value.push param (.register (.int n)) = (Value.checkRegister (.int n) >>=
      fun _ => Instruction.make (Value.pushOfRegister param) [.int n]) := by
    cases param
    all_goals rfl
  obtain ⟨⟨⟩, hc, hmake⟩ := bind_eq_ok_iff.1 (heq.symm.trans h)
  have hs : (Value.register (.int n)).Spellable :=
    .register (Value.range_of_checkRegister hc).1 (Value.range_of_checkRegister hc).2
  cases param
  case register => exact .of_make rfl rfl rfl rfl hmake rfl hs h
  case codeLabels => cases hl
  case registers => cases hl
  all_goals exact .of_make rfl rfl rfl rfl hmake rfl hs h

theorem refolds_text {t : Text} (h : Value.push param (.text t) = .ok i) :
    Refolds param i (.text t) := by
  obtain ⟨⟨⟩, hc, hmake⟩ := bind_eq_ok_iff.1 h
  cases param
  case string => exact .of_make rfl rfl rfl rfl hmake rfl (.text t) h
  all_goals cases hc

theorem low32_toSigned {n : Int} (low : 0 ≤ n) (high : n ≤ 0xFFFFFFFF) :
    Value.ofPushedOperand .dword Opcode.pushInt.code (.int (Value.toSigned n)) =
      .ok (some (.int n)) := by
  show Except.ok (some (Value.int (Word.wrap 4 (Value.toSigned n)))) = _
  have hwrap : (Word.wrap 4 (Value.toSigned n) : Int) = n := by
    unfold Word.wrap Value.toSigned
    rw [show (Word.bound 4 : Int) = 0x100000000 from rfl]
    split <;> omega
  rw [hwrap]

/-- An integer is passed as it is, for a parameter that takes integers. -/
theorem refolds_int {n : Int} (hf : param ≠ .float) (hl : param.isList = false)
    (h : Value.push param (.int n) = .ok i) : Refolds param i (.int n) := by
  obtain ⟨⟨⟩, hc, hmake⟩ := bind_eq_ok_iff.1 h
  have spellable : ∀ {range}, param.range? = some range → (Value.int n).Spellable :=
    fun hr => Value.spellable_of_range hr (Value.range_of_check hc hr).1
      (Value.range_of_check hc hr).2
  cases param
  case float => exact absurd rfl hf
  case codeLabels => cases hl
  case registers => cases hl
  case register => cases hc
  case registerTuple => cases hc
  case string => cases hc
  case dword =>
    have hn := Value.range_of_check hc rfl
    exact .of_make rfl rfl rfl rfl hmake (low32_toSigned hn.1 hn.2) (spellable rfl) h
  all_goals exact .of_make rfl rfl rfl rfl hmake rfl (spellable rfl) h

/-- The bits of a number in single precision are read as the number that they stand for. -/
theorem ofSingleBits_signed {s : UInt32} (hf : (Double.ofSingle s).isFinite = true) :
    Value.ofSingleBits (.int (Word.signed 4 s.toNat)) =
      .ok (some (.float (.ofSingle s))) := by
  have hs : s.toNat < Word.bound 4 := s.toNat_lt
  have hbits : Field.i32 (Word.signed 4 s.toNat) = .ok (Word.encode 4 s.toNat) := by
    rw [Field.i32, Field.signed, if_pos, Word.wrap_signed hs]
    unfold Word.signed
    split <;> omega
  have hx : Read.singleOf (Word.encode 4 s.toNat) = .ofSingle s := by
    unfold Read.singleOf
    rw [Word.decode_encode hs, UInt32.ofNat_toNat]
  show (Field.i32 (Word.signed 4 s.toNat) >>= _) = _
  rw [hbits]
  simp only [ok_bind, hx, hf, if_true]
  rfl

theorem refolds_number {x : Double} {s : UInt32} (hx : value.number = .ok x)
    (hs : x.toSingle? = some s) (hf : (Double.ofSingle s).isFinite = true)
    (hr : ∀ number, value ≠ .register number) (h : Value.push .float value = .ok i) :
    Refolds .float i (.float (.ofSingle s)) := by
  have hnan : (Double.ofSingle s).isNaN = false :=
    decide_eq_false (Nat.lt_asymm (of_decide_eq_true hf))
  have bits {y : Double} (hy : y.toSingle? = some s) :
      Value.singleBits y = .ok (Word.signed 4 s.toNat) := by
    rw [Value.singleBits, hy]
  obtain ⟨⟨⟩, -, hbits⟩ := bind_eq_ok_iff.1 h
  have hmake : Instruction.make .pushInt [.int (Word.signed 4 s.toNat)] = .ok i := by
    cases value
    case register => exact absurd rfl (hr _)
    all_goals
      obtain ⟨y, hy, hbits⟩ := bind_eq_ok_iff.1 hbits
      cases hx.symm.trans hy
      obtain ⟨n, hn, hbits⟩ := bind_eq_ok_iff.1 hbits
      cases (bits hs).symm.trans hn
      exact hbits
  refine .of_make rfl rfl rfl rfl hmake (ofSingleBits_signed hf) (.float hf) ?_
  show (Value.singleBits (.ofSingle s) >>= _) = _
  rw [bits (Double.toSingle?_ofSingle hnan)]
  exact hmake

/-- Every push of a value is the push of a value that it passes. -/
theorem exists_refolds (h : Spelt value) (hl : param.isList = false)
    (hf : param = .float → value.Single) (hi : Value.push param value = .ok i) :
    ∃ shown, Refolds param i shown := by
  by_cases hr : ∃ number, value = .register number
  · obtain ⟨number, rfl⟩ := hr
    cases h
    exact ⟨_, refolds_register hl hi⟩
  by_cases hfloat : param = .float
  · subst hfloat
    cases hf rfl with
    | register number => exact absurd ⟨number, rfl⟩ hr
    | number hx hs hfinite => exact ⟨_, refolds_number hx hs hfinite (not_exists.1 hr) hi⟩
  cases h with
  | text t => exact ⟨_, refolds_text hi⟩
  | register n => exact absurd ⟨_, rfl⟩ hr
  | int n => exact ⟨_, refolds_int hfloat hl hi⟩
  | float x =>
    obtain ⟨⟨⟩, hc, -⟩ := bind_eq_ok_iff.1 hi
    cases param
    case float => exact absurd rfl hfloat
    all_goals cases hc

end

/-! ## The pushes of a call -/

/-- The values that some pushes pass are pushed by just these pushes. -/
theorem exists_shown {params : List ParamKind} {pushed : List Instruction}
    (h : List.Forall₂ (fun param i => ∃ value, Refolds param i value) params pushed) :
    ∃ shown, shown.length = params.length ∧ (∀ value ∈ shown, value.Spellable) ∧
      Value.ofPushes (params.zip pushed) = .ok (some shown) ∧
      (params.zip shown).mapM (fun pv => Value.push pv.1 pv.2) = .ok pushed := by
  induction h with
  | nil => exact ⟨[], rfl, by simp, rfl, rfl⟩
  | @cons param i params pushed hi _ ih =>
    obtain ⟨value, hi⟩ := hi
    obtain ⟨shown, hlen, hspell, hof, hpushed⟩ := ih
    refine ⟨value :: shown, congrArg (· + 1) hlen, List.forall_mem_cons.2 ⟨hi.spellable, hspell⟩,
      ?_, ?_⟩
    · rw [List.zip_cons_cons, Value.ofPushes, hi.passed]
      simp only [ok_bind, hof]
      rfl
    · rw [List.zip_cons_cons, List.mapM_cons, hi.pushed, hpushed]
      rfl

section

variable {op : Opcode} {values shown : List Value} {pushed : List Instruction}

theorem refolds_of_pushes (hop : op ∈ Opcode.table) (hpop : op.popsArguments = true)
    (hv : ∀ value ∈ values, Spelt value)
    (hf : ∀ pv ∈ op.params.zip values, pv.1 = .float → pv.2.Single)
    (h : Value.pushes op values = .ok pushed) :
    List.Forall₂ (fun param i => ∃ value, Refolds param i value) op.params pushed := by
  unfold Value.pushes at h
  split at h
  · cases h
  · next hlen =>
    have hparams : (op.params.zip values).map Prod.fst = op.params :=
      List.map_fst_zip (not_not.1 hlen).ge
    rw [← hparams, List.forall₂_map_left_iff]
    refine forall₂_imp_mem (mapM_eq_ok_iff.1 h) fun pv hpv i _ hi => ?_
    obtain ⟨hparam, hvalue⟩ := List.of_mem_zip hpv
    exact exists_refolds (hv _ hvalue) (single_of_popsArguments hop hpop _ hparam) (hf pv hpv) hi

theorem exists_fold?_of_pushes (hop : op ∈ Opcode.table) (hpop : op.popsArguments = true)
    (hv : ∀ value ∈ values, Spelt value)
    (hf : ∀ pv ∈ op.params.zip values, pv.1 = .float → pv.2.Single)
    (h : Value.pushes op values = .ok pushed) :
    ∃ shown, shown.length = op.params.length ∧ (∀ value ∈ shown, value.Spellable) ∧
      Value.pushes op shown = .ok pushed ∧ fold? op pushed = .ok (some shown) := by
  obtain ⟨shown, hlen, hspell, hof, hpushed⟩ := exists_shown (refolds_of_pushes hop hpop hv hf h)
  have hpushes : Value.pushes op shown = .ok pushed := by
    rw [Value.pushes, if_neg (not_not.2 hlen), hpushed]
  refine ⟨shown, hlen, hspell, hpushes, ?_⟩
  unfold fold?
  rw [hof]
  simp only [ok_bind, hpushes, if_true]
  rfl

/-- A call is written with the last of the pushes in front of it. -/
theorem callLines_of_fold? (hpop : op.popsArguments = true) (hlen : shown.length = op.params.length)
    (hpushed : pushed.length = op.params.length) (hfold : fold? op pushed = .ok (some shown))
    (loose : List Instruction) :
    callLines (loose ++ pushed) ⟨op, []⟩ = (do
      let apart ← loose.mapM spell
      return apart ++ [spellCall op.mnemonic shown]) := by
  by_cases hnone : op.params.length = 0
  · cases List.length_eq_zero_iff.1 (hpushed.trans hnone)
    cases List.length_eq_zero_iff.1 (hlen.trans hnone)
    have hcall : spell ⟨op, []⟩ = .ok (spellCall op.mnemonic []) := by
      unfold spell
      rw [List.zip_nil_right]
      rfl
    unfold callLines folded?
    simp only [hnone, true_or, or_true, if_true, ok_bind]
    rw [List.append_nil, List.mapM_append, List.mapM_cons, hcall]
    rfl
  · have hdrop : (loose ++ pushed).length - op.params.length = loose.length := by
      rw [List.length_append, hpushed, Nat.add_sub_cancel]
    have hfolded : folded? (loose ++ pushed) ⟨op, []⟩ = .ok (some shown) := by
      unfold folded?
      simp only
      rw [if_neg, hdrop, List.drop_left, hfold]
      simp only [hpop, hnone, List.length_append, hpushed]
      simp
    unfold callLines
    simp only [hfolded, ok_bind]
    rw [hlen, hdrop, List.take_left]

end

/-! ## The lines of some instructions -/

/-- Pushes are kept until it is clear what takes them. -/
theorem codeLines_append_pushes {loose : List Instruction}
    (h : ∀ i ∈ loose, i.opcode.pushesArgument = true) (pushes rest : List Instruction) :
    codeLines pushes (loose ++ rest) = codeLines (pushes ++ loose) rest := by
  induction loose generalizing pushes with
  | nil => rw [List.nil_append, List.append_nil]
  | cons i loose ih =>
    obtain ⟨hi, hloose⟩ := List.forall_mem_cons.1 h
    rw [List.cons_append, codeLines, if_pos hi, ih hloose, List.append_assoc, List.singleton_append]

/-- Instructions that never take pushes in front of them are written behind the lines of the
instructions before. -/
theorem codeLines_append {tail : List Instruction} {back : Except Fault (List Text)}
    (h : ∀ pushes, codeLines pushes tail = (do
      let apart ← pushes.mapM spell
      return apart ++ (← back)))
    (pushes before : List Instruction) :
    codeLines pushes (before ++ tail) = (do
      let front ← codeLines pushes before
      return front ++ (← back)) := by
  induction before generalizing pushes with
  | nil => exact h pushes
  | cons i before ih =>
    rw [List.cons_append, codeLines, codeLines]
    split
    · exact ih _
    · rw [ih]
      cases callLines pushes i with
      | error fault => rfl
      | ok call =>
        cases codeLines [] before with
        | error fault => rfl
        | ok front =>
          cases back with
          | error fault => rfl
          | ok lines => exact congrArg Except.ok (List.append_assoc call front lines).symm

theorem not_pushes_of_pops {op : Opcode} (h : op.popsArguments = true) :
    op.pushesArgument = false := by
  unfold Opcode.popsArguments at h
  unfold Opcode.pushesArgument
  rw [of_decide_eq_true h]
  rfl

/-- The pushes of a call and the operation that takes them are written as one line, wherever they
stand, and pushes in front of them that belong to nothing on lines of their own.  The arguments on
this line are read as values that give the same pushes. -/
theorem codeLines_of_pushes {op : Opcode} {values : List Value} {pushed : List Instruction}
    (hop : op ∈ Opcode.table) (hpop : op.popsArguments = true) (hv : ∀ value ∈ values, Spelt value)
    (h : Value.pushes op values = .ok pushed)
    (hf : ∀ pv ∈ op.params.zip values, pv.1 = .float → pv.2.Single) :
    ∃ shown : List Value, shown.length = op.params.length ∧
      (shown.map (·.spell)).mapM Literal.parse = .ok shown ∧
      Value.pushes op shown = .ok pushed ∧
      ∀ before loose after : List Instruction, (∀ i ∈ loose, i.opcode.pushesArgument = true) →
        (codeLines [] (before ++ (loose ++ (pushed ++ ⟨op, []⟩ :: after))) = do
          let front ← codeLines [] before
          let apart ← loose.mapM spell
          let back ← codeLines [] after
          return front ++ (apart ++ spellCall op.mnemonic shown :: back)) ∧
        ((∀ i ∈ before ++ (loose ++ after), i.WellFormed) →
          ∃ lines, codeLines [] (before ++ (loose ++ (pushed ++ ⟨op, []⟩ :: after))) =
            .ok lines) := by
  have hpush := refolds_of_pushes hop hpop hv hf h
  obtain ⟨shown, hlen, hspell, hpushes, hfold⟩ := exists_fold?_of_pushes hop hpop hv hf h
  refine ⟨shown, hlen, Value.mapM_parse_spell hspell, hpushes,
    fun before loose after hloose => ⟨?_, fun hwf => ?_⟩⟩
  · have hpushed : ∀ i ∈ pushed, i.opcode.pushesArgument = true := by
      intro i hi
      obtain ⟨_, -, value, hvalue⟩ := exists_of_forall₂ hpush.flip i hi
      exact hvalue.pushes
    have hcall := callLines_of_fold? hpop hlen hpush.length_eq.symm hfold
    have htail (pushes : List Instruction) :
        codeLines pushes (loose ++ (pushed ++ ⟨op, []⟩ :: after)) = (do
          let apart ← pushes.mapM spell
          return apart ++ (← (do
            let apart ← loose.mapM spell
            let back ← codeLines [] after
            return apart ++ spellCall op.mnemonic shown :: back))) := by
      rw [codeLines_append_pushes hloose, codeLines_append_pushes hpushed, codeLines,
        if_neg (by rw [not_pushes_of_pops hpop]; exact Bool.false_ne_true), hcall, List.mapM_append]
      simp only [bind_assoc, pure_bind, List.append_assoc, List.singleton_append]
    rw [codeLines_append htail]
    simp only [bind_assoc, pure_bind]
  · have hown := wellFormed_of_pushes hop hpop hv h
    have hcall : (⟨op, []⟩ : Instruction).WellFormed := ⟨hop, if_pos hpop ▸ rfl⟩
    simp only [List.forall_mem_append] at hwf
    have hall : ∀ i ∈ before ++ (loose ++ (pushed ++ ⟨op, []⟩ :: after)), i.WellFormed := by
      simp only [List.forall_mem_append, List.forall_mem_cons]
      exact ⟨hwf.1, hwf.2.1, hown, hcall, hwf.2.2⟩
    obtain ⟨lines, hlines, -⟩ := exists_codeLines hall (List.forall_mem_nil _)
    exact ⟨lines, hlines⟩

/-- A number comes back as it was rounded, and the push of a byte in front stays apart. -/
theorem codeLines_of_pushes_box :
    let op : Opcode := .pops 0xF95E "bb_box_create_bp" [.int, .float, .float]
    let values : List Value := [.int (-3), .float ⟨0x3FB999999999999A⟩, .register (.int 7)]
    let pushed : List Instruction := [⟨.pushInt, [⟨.int (-3), 4⟩]⟩,
      ⟨.pushInt, [⟨.int 0x3DCCCCCD, 4⟩]⟩, ⟨.pushRegister, [⟨.int 7, 1⟩]⟩]
    let loose : List Instruction := [⟨.pushByte, [⟨.int 5, 1⟩]⟩]
    let ret : Instruction := ⟨.plain 0x01 "ret" [], []⟩
    Value.pushes op values = .ok pushed ∧
      codeLines [] ([ret] ++ (loose ++ (pushed ++ ⟨op, []⟩ :: [ret]))) = .ok (["ret",
        "arg_pushb 5", "bb_box_create_bp -3, 0.10000000149011612, r7", "ret"].map Text.ofString) ∧
      ∃ shown : List Value, shown.length = op.params.length ∧
        (shown.map (·.spell)).mapM Literal.parse = .ok shown ∧
        Value.pushes op shown = .ok pushed ∧
        ∀ before loose after : List Instruction, (∀ i ∈ loose, i.opcode.pushesArgument = true) →
          (codeLines [] (before ++ (loose ++ (pushed ++ ⟨op, []⟩ :: after))) = do
            let front ← codeLines [] before
            let apart ← loose.mapM spell
            let back ← codeLines [] after
            return front ++ (apart ++ spellCall op.mnemonic shown :: back)) ∧
          ((∀ i ∈ before ++ (loose ++ after), i.WellFormed) →
            ∃ lines, codeLines [] (before ++ (loose ++ (pushed ++ ⟨op, []⟩ :: after))) =
              .ok lines) := by
  intro op values pushed loose ret
  have h : Value.pushes op values = .ok pushed := by decide +kernel
  refine ⟨h, by decide +kernel, codeLines_of_pushes ?_ rfl ?_ h ?_⟩
  · exact List.mem_append_left _ (by decide +kernel)
  · simp only [values, List.forall_mem_cons, List.not_mem_nil, false_implies, implies_true,
      and_true]
    exact ⟨.int _, .float _, .register _⟩
  · simp only [op, values, Opcode.pops, List.zip_cons_cons, List.zip_nil_left,
      List.forall_mem_cons, List.not_mem_nil, false_implies, implies_true, and_true]
    exact ⟨nofun, fun _ => .number rfl (s := 0x3DCCCCCD) (by decide +kernel) (by decide +kernel),
      fun _ => .register _⟩

end Script
end QuestArchive
