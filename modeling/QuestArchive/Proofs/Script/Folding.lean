import QuestArchive.Proofs.Script.Arguments

/-!
# Pushes as arguments

The values that some pushes pass are written as arguments only if assembling them gives just
these pushes.  Looking for such values never fails, whatever the pushes are, so that the
instructions of a segment are always written, and assembled into what they were.
-/

namespace QuestArchive

def Sourced {α : Type} (r : Except Fault α) : Prop :=
  ∀ fault, r = .error fault → ∃ error, fault = .source error

section

variable {α β : Type}

theorem sourced_ok (a : α) : Sourced (.ok a : Except Fault α) :=
  fun _ h => by cases h

theorem sourced_source (error : SourceError) : Sourced (.error (.source error) : Except Fault α) :=
  fun _ h => ⟨error, (Except.error.inj h).symm⟩

theorem Sourced.bind {x : Except Fault α} {f : α → Except Fault β} (hx : Sourced x)
    (hf : ∀ a, x = .ok a → Sourced (f a)) : Sourced (x >>= f) := by
  intro fault h
  rcases bind_eq_error_iff.1 h with h | ⟨a, ha, h⟩
  · exact hx fault h
  · exact hf a ha fault h

theorem sourced_mapM {f : α → Except Fault β} {l : List α} (h : ∀ a ∈ l, Sourced (f a)) :
    Sourced (l.mapM f) := by
  intro fault he
  obtain ⟨a, ha, he⟩ := exists_of_mapM_eq_error he
  exact h a ha fault he

end

namespace Value

inductive Passable (param : ParamKind) : Value → Prop where
  | register {n : Int} (low : 0 ≤ n) (high : n ≤ 0xFF) : Passable param (.register (.int n))
  | int {n : Int} (low : -0x80000000 ≤ n) (high : n ≤ 0xFFFFFFFF)
      (small : param = .float → n.natAbs < 2 ^ 24) : Passable param (.int n)
  | float {s : UInt32} (finite : (Double.ofSingle s).isFinite = true) :
      Passable param (.float (.ofSingle s))
  | text {t : Text} (encodable : Text.Encodable t) : Passable param (.text t)

variable {param : ParamKind} {value : Value}

theorem Passable.spellable (h : Passable param value) : value.Spellable := by
  cases h with
  | register low high => exact .register low high
  | int low high _ => exact .int low high
  | float finite => exact .float finite
  | text _ => exact .text _

theorem rangeFault_source {n : Int} (low : -0x80000000 ≤ n) (high : n ≤ 0xFFFFFFFF)
    (param : ParamKind) : rangeFault n param = .source (.valueRange n param) := by
  have hp {k : Nat} (hk : 10 ≤ k) : 10 ^ 10 ≤ pow10 k := Nat.pow_le_pow_right (by decide) hk
  have hmax : 10 ^ 10 ≤ pow10 maxDigits := hp (by decide)
  exact if_neg (by omega)

theorem sourced_check_int {n : Int} (low : -0x80000000 ≤ n) (high : n ≤ 0xFFFFFFFF)
    (hr : param.range?.isSome = true) : Sourced (check param (.int n)) := by
  obtain ⟨range, hrange⟩ := Option.isSome_iff_exists.1 hr
  have hc : check param (.int n) = checkInt param n := by
    cases param
    all_goals first | rfl | cases hr
  rw [hc]
  unfold checkInt
  rw [hrange, rangeFault_source low high]
  by_cases hn : range.1 ≤ n ∧ n ≤ range.2
  · simp only [hn, and_self, if_true]
    exact sourced_ok _
  · simp only [hn, if_false]
    exact sourced_source _

theorem sourced_check (h : Passable param value) (hl : param.isList = false) :
    Sourced (check param value) := by
  cases h with
  | register low high =>
    have hc := checkRegister_ok low high
    cases param
    all_goals
      show Sourced (checkRegister _)
      rw [hc]
      exact sourced_ok _
  | int low high _ =>
    cases param
    case float => exact sourced_ok _
    case register => exact sourced_source _
    case registerTuple => exact sourced_source _
    case string => exact sourced_source _
    case codeLabels => cases hl
    case registers => cases hl
    all_goals exact sourced_check_int low high rfl
  | float _ =>
    cases param
    case codeLabels => cases hl
    case registers => cases hl
    all_goals first | exact sourced_ok _ | exact sourced_source _
  | text _ =>
    cases param
    case codeLabels => cases hl
    case registers => cases hl
    all_goals first | exact sourced_ok _ | exact sourced_source _

/-- A number that has a form in single precision is pushed by the bits of this form. -/
theorem sourced_push_float {x : Double} {s : UInt32} (hc : check .float value = .ok ())
    (hr : ∀ number, value ≠ .register number) (hx : value.number = .ok x)
    (hs : x.toSingle? = some s) : Sourced (push .float value) := by
  have hbits : singleBits x = .ok (Word.signed 4 s.toNat) := by
    unfold singleBits
    rw [hs]
  have hpush : push .float value = (value.number >>= fun x => singleBits x >>= fun bits =>
      Instruction.make .pushInt [int bits]) := by
    unfold push
    rw [hc]
    cases value with
    | register number => exact absurd rfl (hr number)
    | int _ => rfl
    | float _ => rfl
    | text _ => rfl
    | list _ => rfl
  rw [hpush, hx]
  show Sourced (singleBits x >>= _)
  rw [hbits]
  exact sourced_ok _

/-- The push of a value is made, or the value does not suit the parameter. -/
theorem sourced_push (h : Passable param value) (hl : param.isList = false) :
    Sourced (push param value) := by
  have hcheck := sourced_check h hl
  cases h with
  | register low high =>
    refine Sourced.bind hcheck fun _ _ => ?_
    cases param
    all_goals exact sourced_ok _
  | @int n low high small =>
    cases param
    case float =>
      obtain ⟨x, hx, hs⟩ := Double.exists_ofInt? (small rfl)
      obtain ⟨s, hs⟩ := Option.ne_none_iff_exists'.1 hs
      have hnumber : (Value.int n).number = .ok x := by
        show Field.number n = _
        rw [Field.number, hx]
      exact sourced_push_float rfl (fun _ hr => Value.noConfusion hr) hnumber hs
    case string => exact sourced_source _
    case codeLabels => cases hl
    case registers => cases hl
    all_goals exact Sourced.bind hcheck fun _ _ => sourced_ok _
  | @float s finite =>
    cases param
    case float =>
      have hnan : (Double.ofSingle s).isNaN = false := by
        have hf := of_decide_eq_true finite
        exact decide_eq_false (Nat.lt_asymm hf)
      exact sourced_push_float rfl (fun _ hr => Value.noConfusion hr) rfl
        (Double.toSingle?_ofSingle hnan)
    case codeLabels => cases hl
    case registers => cases hl
    all_goals exact sourced_source _
  | @text t encodable =>
    cases param
    case string =>
      have hbytes : Field.textBytes t = .ok (Text.unitBytes t) := by
        rw [Field.textBytes, Text.encode16_of_encodable encodable]
      show Sourced (((Field.textBytes t >>= _) >>= _) >>= _)
      rw [hbytes]
      exact sourced_ok _
    case codeLabels => cases hl
    case registers => cases hl
    all_goals exact sourced_source _

/-! ## Values that pushes pass -/

theorem push_cases {op : Opcode} (h : op ∈ Opcode.table) (hp : op.pushesArgument = true) :
    op ∈ [Opcode.pushRegister, .pushInt, .pushByte, .pushWord, .pushRegisterTuple, .pushString] ∨
      op.code = 0x4D ∧ op.popsArguments = false ∧ op.params = [.dataLabel] := by
  refine Opcode.forall_table (p := fun op => op.pushesArgument = true →
    op ∈ [Opcode.pushRegister, .pushInt, .pushByte, .pushWord, .pushRegisterTuple, .pushString] ∨
      op.code = 0x4D ∧ op.popsArguments = false ∧ op.params = [.dataLabel]) ?_ ?_ op h hp
  · decide +kernel
  · intro _ hp
    cases hp

theorem exists_operand {i : Instruction} {param : ParamKind} (h : i.Typed)
    (hpop : i.opcode.popsArguments = false) (hparams : i.opcode.params = [param]) :
    ∃ a, i.args = [a] ∧ a.value.Suits param := by
  have hargs := h.args
  rw [hpop, if_neg Bool.false_ne_true, hparams] at hargs
  obtain ⟨a, rest, ha, hrest, heq⟩ := List.forall₂_cons_left_iff.1 hargs
  rw [List.forall₂_nil_left_iff.1 hrest] at heq
  exact ⟨a, heq, ha⟩

theorem param_of_float {param : ParamKind} {x : Double} (h : (float x).Suits param) :
    param = .float := by
  cases param
  case float => rfl
  case string =>
    obtain ⟨_, h, -⟩ := h
    cases h
  case register | registerTuple | codeLabels | registers =>
    obtain ⟨_, h, -⟩ := h
    cases h
  all_goals
    obtain ⟨_, _, h, -⟩ := h
    cases h

/-- No push carries a number as such. -/
theorem finite_of_push {i : Instruction} (h : i.WellFormed)
    (hp : i.opcode.pushesArgument = true) : i.Finite := by
  have hparams : .float ∉ i.opcode.params := by
    refine Opcode.forall_table (p := fun op => op.pushesArgument = true → .float ∉ op.params)
      ?_ ?_ i.opcode h.opcode hp
    · decide +kernel
    · intro _ hp
      cases hp
  have hargs := h.args
  intro a ha x hx
  split at hargs
  · rw [hargs] at ha
    exact absurd ha List.not_mem_nil
  · obtain ⟨param, hparam, hsuits⟩ := exists_of_forall₂ hargs.flip a ha
    have hv := hsuits.1
    rw [hx] at hv
    exact absurd (param_of_float hv ▸ hparam) hparams

theorem exists_ofSingleBits {n : Int} (low : -0x80000000 ≤ n) (high : n ≤ 0x7FFFFFFF) :
    ∃ r, ofSingleBits (.int n) = .ok r ∧ ∀ value, r = some value → Passable param value := by
  have hbits : Field.i32 n = .ok (Word.encode 4 (Word.wrap 4 n)) := by
    rw [Field.i32, Field.signed, if_pos]
    rw [show Word.bound 4 = 0x100000000 from rfl]
    omega
  have hof : ofSingleBits (.int n) = (Field.i32 n >>= fun bs =>
      .ok (if (Read.singleOf bs).isFinite then some (float (Read.singleOf bs)) else none)) := rfl
  rw [hof, hbits]
  refine ⟨_, rfl, ?_⟩
  intro value hv
  by_cases hx : (Read.singleOf (Word.encode 4 (Word.wrap 4 n))).isFinite = true
  · rw [if_pos hx] at hv
    cases hv
    exact .float hx
  · rw [if_neg hx] at hv
    cases hv

theorem exists_ofPushedInt {n : Int} (low : -0x80000000 ≤ n) (high : n ≤ 0x7FFFFFFF)
    (param : ParamKind) : ∃ r, ofPushedOperand param Opcode.pushInt.code (.int n) = .ok r ∧
      ∀ value, r = some value → Passable param value := by
  by_cases hfloat : param = .float
  · rw [hfloat]
    exact exists_ofSingleBits low high
  by_cases hdword : param = .dword
  · rw [hdword]
    refine ⟨_, rfl, ?_⟩
    intro value hv
    cases hv
    have hwrap : Word.wrap 4 n = (n % 0x100000000).toNat := rfl
    rw [hwrap]
    exact .int (by omega) (by omega) (fun hf => by cases hf)
  · have hof : ofPushedOperand param Opcode.pushInt.code (.int n) = .ok (some (.int n)) := by
      cases param
      case float => exact absurd rfl hfloat
      case dword => exact absurd rfl hdword
      all_goals rfl
    refine ⟨_, hof, ?_⟩
    intro value hv
    cases hv
    exact .int (by omega) (by omega) fun hf => absurd hf hfloat

theorem exists_ofPushedByte {n : Int} (low : 0 ≤ n) (high : n ≤ 0xFF) (param : ParamKind) :
    ∃ r, ofPushedOperand param Opcode.pushByte.code (.int n) = .ok r ∧
      ∀ value, r = some value → Passable param value := by
  refine ⟨_, rfl, ?_⟩
  intro value hv
  by_cases hregister : param = .register
  · rw [if_pos hregister] at hv
    cases hv
    exact .register low high
  · rw [if_neg hregister] at hv
    cases hv
    exact .int (by omega) (by omega) fun _ => by omega

theorem exists_ofPush {i : Instruction} (h : i.Typed)
    (hp : i.opcode.pushesArgument = true) (param : ParamKind) :
    ∃ r, ofPush param i = .ok r ∧ ∀ value, r = some value → Passable param value := by
  have hsingle {p : ParamKind} (hpop : i.opcode.popsArguments = false)
      (hparams : i.opcode.params = [p]) : ∃ value, value.Suits p ∧
        ofPush param i = ofPushedOperand param i.opcode.code value := by
    obtain ⟨a, hargs, ha⟩ := exists_operand h hpop hparams
    refine ⟨a.value, ha, ?_⟩
    rw [ofPush, hargs]
  have hregister {n : Int} (low : 0 ≤ n) (high : n ≤ 0xFF) (value : Value)
      (hv : some (register (.int n)) = some value) : Passable param value := by
    cases hv
    exact .register low high
  rcases push_cases h.opcode hp with hop | ⟨hcode, hpop, hparams⟩
  · simp only [List.mem_cons, List.not_mem_nil, or_false] at hop
    rcases hop with hop | hop | hop | hop | hop | hop
    all_goals rw [hop] at hsingle
    · obtain ⟨value, ⟨n, rfl, low, high⟩, hof⟩ := hsingle rfl rfl
      exact ⟨_, hof, hregister low high⟩
    · obtain ⟨value, ⟨n, range, rfl, hr, low, high⟩, hof⟩ := hsingle rfl rfl
      cases hr
      rw [hof]
      exact exists_ofPushedInt low high param
    · obtain ⟨value, ⟨n, range, rfl, hr, low, high⟩, hof⟩ := hsingle rfl rfl
      cases hr
      rw [hof]
      exact exists_ofPushedByte low high param
    · obtain ⟨value, ⟨n, range, rfl, hr, low, high⟩, hof⟩ := hsingle rfl rfl
      cases hr
      refine ⟨_, hof, ?_⟩
      intro value hv
      cases hv
      exact .int (by omega) (by omega) fun _ => by omega
    · obtain ⟨value, ⟨n, rfl, low, high⟩, hof⟩ := hsingle rfl rfl
      exact ⟨_, hof, hregister low high⟩
    · obtain ⟨value, ⟨t, rfl, ht⟩, hof⟩ := hsingle rfl rfl
      refine ⟨_, hof, ?_⟩
      intro value hv
      cases hv
      exact .text ht
  · obtain ⟨value, -, hof⟩ := hsingle hpop hparams
    rw [hcode] at hof
    exact ⟨none, hof, fun value hv => by cases hv⟩

/-- What a push of each kind and a parameter come to is a value, or none, for each. -/
theorem exists_ofPushes {params : List ParamKind} {pushed : List Instruction}
    (hlen : pushed.length = params.length)
    (h : ∀ i ∈ pushed, i.Typed ∧ i.opcode.pushesArgument = true) :
    ∃ r, ofPushes (params.zip pushed) = .ok r ∧
      ∀ values, r = some values → List.Forall₂ Passable params values := by
  induction params generalizing pushed with
  | nil =>
    refine ⟨some [], rfl, ?_⟩
    intro values hv
    cases hv
    exact .nil
  | cons param params ih =>
    cases pushed with
    | nil => cases hlen
    | cons i pushed =>
      obtain ⟨hi, hp⟩ := h i List.mem_cons_self
      obtain ⟨r, hr, hvalue⟩ := exists_ofPush hi hp param
      obtain ⟨rs, hrs, hvalues⟩ :=
        ih (Nat.succ.inj hlen) fun j hj => h j (List.mem_cons_of_mem i hj)
      rw [List.zip_cons_cons, ofPushes, hr]
      cases r with
      | none => exact ⟨none, rfl, fun values hv => by cases hv⟩
      | some value =>
        refine ⟨rs.map (value :: ·), ?_, ?_⟩
        · show (ofPushes (params.zip pushed) >>= _) = _
          rw [hrs]
          rfl
        · intro values hv
          obtain ⟨tail, rfl, rfl⟩ := Option.map_eq_some_iff.1 hv
          exact .cons (hvalue value rfl) (hvalues tail rfl)

theorem sourced_pushes {op : Opcode} {values : List Value}
    (h : List.Forall₂ Passable op.params values) (hl : ∀ param ∈ op.params, param.isList = false) :
    Sourced (pushes op values) := by
  rw [pushes, if_neg (not_not_intro h.length_eq.symm)]
  apply sourced_mapM
  intro pv hpv
  exact sourced_push (List.forall₂_zip h hpv) (hl _ (List.of_mem_zip hpv).1)

end Value

namespace Script

/-! ## Calls with their pushes -/

theorem single_of_popsArguments {op : Opcode} (h : op ∈ Opcode.table)
    (hp : op.popsArguments = true) : ∀ param ∈ op.params, param.isList = false := by
  refine Opcode.forall_table (p := fun op => op.popsArguments = true →
    ∀ param ∈ op.params, param.isList = false) ?_ ?_ op h hp
  · decide +kernel
  · intro _ hp
    cases hp

/-- Pushes are folded into values only if these are assembled into the pushes. -/
theorem exists_fold? {op : Opcode} {pushed : List Instruction} (hop : op ∈ Opcode.table)
    (hpop : op.popsArguments = true) (hlen : pushed.length = op.params.length)
    (h : ∀ i ∈ pushed, i.Typed ∧ i.opcode.pushesArgument = true) :
    ∃ r, fold? op pushed = .ok r ∧ ∀ values, r = some values →
      Value.pushes op values = .ok pushed ∧ (∀ value ∈ values, value.Spellable) ∧
      values.length = pushed.length := by
  obtain ⟨r, hr, hvalues⟩ := Value.exists_ofPushes hlen h
  unfold fold?
  rw [hr]
  simp only [bind, Except.bind]
  cases r with
  | none => exact ⟨none, rfl, fun values hv => by cases hv⟩
  | some values =>
    have hpass := hvalues values rfl
    have hsourced := Value.sourced_pushes hpass (single_of_popsArguments hop hpop)
    cases hpushes : Value.pushes op values with
    | error fault =>
      obtain ⟨error, rfl⟩ := hsourced fault hpushes
      refine ⟨none, ?_, fun values hv => by cases hv⟩
      simp only [hpushes]
      rfl
    | ok expected =>
      refine ⟨if expected = pushed then some values else none, ?_, ?_⟩
      · simp only [hpushes]
        rfl
      · intro values' hv
        by_cases heq : expected = pushed
        · rw [if_pos heq] at hv
          cases hv
          rw [← heq]
          refine ⟨hpushes, ?_, ?_⟩
          · exact ((List.forall₂_and_left _ _).1
              (hpass.flip.imp fun _ _ hv => ⟨hv.spellable, hv⟩)).1
          · rw [heq, hlen, hpass.length_eq]
        · rw [if_neg heq] at hv
          cases hv

/-- An instruction is written as a call with the last pushes in front of it, or not. -/
theorem exists_folded? {pushed : List Instruction} {i : Instruction} (hi : i.Typed)
    (h : ∀ j ∈ pushed, j.Typed ∧ j.opcode.pushesArgument = true) :
    ∃ r, folded? pushed i = .ok r ∧ ∀ values, r = some values →
      (∀ value ∈ values, value.Spellable) ∧ i.opcode.popsArguments = true ∧
      expand i.opcode values = .ok (pushed.drop (pushed.length - values.length) ++ [i]) := by
  unfold folded?
  simp only
  by_cases hc : (!i.opcode.popsArguments) = true ∨ i.opcode.params.length = 0 ∨
      pushed.length < i.opcode.params.length
  · rw [if_pos hc]
    exact ⟨none, rfl, fun values hv => by cases hv⟩
  · rw [if_neg hc]
    simp only [not_or, Bool.not_eq_true', Bool.not_eq_false] at hc
    obtain ⟨hpop, hparams, hlen⟩ := hc
    have hcount : (pushed.drop (pushed.length - i.opcode.params.length)).length =
        i.opcode.params.length := by
      rw [List.length_drop]
      omega
    obtain ⟨r, hr, hvalues⟩ := exists_fold? hi.opcode hpop hcount
      fun j hj => h j (List.mem_of_mem_drop hj)
    refine ⟨r, hr, ?_⟩
    intro values hv
    obtain ⟨hpushes, hspell, heq⟩ := hvalues values hv
    rw [hcount] at heq
    have hbare : (⟨i.opcode, []⟩ : Instruction) = i := by
      have hargs := hi.args
      rw [if_pos hpop] at hargs
      rw [← hargs]
    have hne : values.isEmpty = false := by
      rw [List.isEmpty_eq_false_iff, ← List.length_pos_iff]
      omega
    refine ⟨hspell, hpop, ?_⟩
    rw [expand, if_pos hpop, hne, if_neg Bool.false_ne_true, hpushes, heq]
    show Except.ok (_ ++ [(⟨i.opcode, []⟩ : Instruction)]) = _
    rw [hbare]

/-- Lines of calls that stand for some instructions.  The numbers in a call are finite just if
those in its instructions are. -/
inductive Spells : List Text → List Instruction → Prop where
  | nil : Spells [] []
  | cons {op : Opcode} {values : List Value} {lines : List Text} {is js : List Instruction}
      (opcode : op ∈ Opcode.table) (printable : ∀ value ∈ values, value.Printable)
      (finite : (∀ i ∈ is, i.Finite) ↔ ∀ x, .float x ∈ values → x.isFinite = true)
      (expand : expand op values = .ok is) (rest : Spells lines js) :
      Spells (spellCall op.mnemonic values :: lines) (is ++ js)

theorem Spells.append {lines lines' : List Text} {is js : List Instruction}
    (h : Spells lines is) (h' : Spells lines' js) : Spells (lines ++ lines') (is ++ js) := by
  induction h with
  | nil => exact h'
  | cons opcode printable finite expand _ ih =>
    rw [List.append_assoc]
    exact .cons opcode printable finite expand ih

theorem exists_spells {is : List Instruction} (h : ∀ i ∈ is, i.WellFormed) :
    ∃ lines, is.mapM spell = .ok lines ∧ Spells lines is := by
  induction is with
  | nil => exact ⟨[], rfl, .nil⟩
  | cons i is ih =>
    have hi := h i List.mem_cons_self
    obtain ⟨values, hspell, hall, hnumbers, hexpand⟩ := exists_spell hi
    obtain ⟨lines, hlines, hspells⟩ := ih fun j hj => h j (List.mem_cons_of_mem i hj)
    have hfinite : (∀ j ∈ [i], j.Finite) ↔ ∀ x, .float x ∈ values → x.isFinite = true := by
      simp only [List.forall_mem_singleton, hnumbers]
      exact ⟨fun hf x hx => hx.elim fun a ha => hf a ha.1 x ha.2, fun hf a ha x hx =>
        hf x ⟨a, ha, hx⟩⟩
    refine ⟨_, ?_, .cons hi.opcode hall hfinite hexpand hspells⟩
    rw [List.mapM_cons, hspell, hlines]
    rfl

theorem exists_callLines {pushed : List Instruction} {i : Instruction} (hi : i.WellFormed)
    (h : ∀ j ∈ pushed, j.WellFormed ∧ j.opcode.pushesArgument = true) :
    ∃ lines, callLines pushed i = .ok lines ∧ Spells lines (pushed ++ [i]) := by
  obtain ⟨r, hr, hvalues⟩ := exists_folded? hi.typed fun j hj => ⟨(h j hj).1.typed, (h j hj).2⟩
  unfold callLines
  rw [hr]
  simp only [bind, Except.bind]
  cases r with
  | none =>
    apply exists_spells
    intro j hj
    rcases List.mem_append.1 hj with hj | hj
    · exact (h j hj).1
    · rw [List.mem_singleton.1 hj]
      exact hi
  | some values =>
    obtain ⟨hspell, hpop, hexpand⟩ := hvalues values rfl
    obtain ⟨lines, hlines, hspells⟩ := @exists_spells
      (pushed.take (pushed.length - values.length)) fun j hj => (h j (List.mem_of_mem_take hj)).1
    -- neither the pushes nor the operation that takes them have a number of their own
    have hfinite : ∀ j ∈ pushed.drop (pushed.length - values.length) ++ [i], j.Finite := by
      refine List.forall_mem_append.2 ⟨fun j hj => ?_, List.forall_mem_singleton.2 ?_⟩
      · obtain ⟨hj, hjp⟩ := h j (List.mem_of_mem_drop hj)
        exact Value.finite_of_push hj hjp
      · have hargs := hi.args
        rw [if_pos hpop] at hargs
        intro a ha
        rw [hargs] at ha
        exact absurd ha List.not_mem_nil
    have hcall := Spells.cons hi.opcode (fun value hv => .spellable (hspell value hv))
      (iff_of_true hfinite fun x hx => (hspell _ hx).finite x rfl) hexpand .nil
    refine ⟨lines ++ [spellCall i.opcode.mnemonic values], ?_, ?_⟩
    · simp only [hlines]
      rfl
    · have happ := hspells.append hcall
      rwa [List.append_nil, ← List.append_assoc, List.take_append_drop] at happ

/-- The instructions of a segment are always written, as calls that stand for them. -/
theorem exists_codeLines {pushed is : List Instruction} (h : ∀ i ∈ is, i.WellFormed)
    (hp : ∀ j ∈ pushed, j.WellFormed ∧ j.opcode.pushesArgument = true) :
    ∃ lines, codeLines pushed is = .ok lines ∧ Spells lines (pushed ++ is) := by
  induction is generalizing pushed with
  | nil =>
    rw [List.append_nil]
    exact exists_spells fun j hj => (hp j hj).1
  | cons i is ih =>
    have hi := h i List.mem_cons_self
    have hrest := fun j hj => h j (List.mem_cons_of_mem i hj)
    rw [codeLines, List.append_cons pushed i is]
    by_cases hpush : i.opcode.pushesArgument = true
    · rw [if_pos hpush]
      apply ih hrest
      intro j hj
      rcases List.mem_append.1 hj with hj | hj
      · exact hp j hj
      · rw [List.mem_singleton.1 hj]
        exact ⟨hi, hpush⟩
    · rw [if_neg hpush]
      obtain ⟨call, hcall, hspells⟩ := exists_callLines hi hp
      obtain ⟨lines, hlines, hspells'⟩ := @ih [] hrest fun j hj => by cases hj
      refine ⟨call ++ lines, ?_, hspells.append hspells'⟩
      rw [hcall]
      show (codeLines [] is >>= _) = _
      rw [hlines]
      rfl

end Script
end QuestArchive
