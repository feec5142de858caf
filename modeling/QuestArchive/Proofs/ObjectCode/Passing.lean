import Mathlib.Data.List.Forall2
import QuestArchive.Proofs.ObjectCode.Following
import QuestArchive.Proofs.ObjectCode.Narrowing
import QuestArchive.Proofs.ObjectCode.Tracing
import QuestArchive.Proofs.Script.Typing

/-!
# Labels passed on the stack

A call is written as one push for each parameter and the operation behind them.  Reading pairs
the pushes that it finds on the stack with the parameters again, from the last one on, so what
other instructions left there does not matter: the labels that the call refers to are the
integers that it was given for label parameters.
-/

namespace QuestArchive
namespace ObjectCode

/-- The reference that a value makes for a parameter: a label parameter takes the number of a
label, and a register in its place names none. -/
def passedReference (param : ParamKind) : Value → Option Reference
  | .int n => param.refersTo?.map (⟨n, ·⟩)
  | _ => none

/-- The labels that the values for an operation name, in the order of its parameters, each with
the kind of segment that its parameter refers to. -/
def passed (op : Opcode) (values : List Value) : List Reference :=
  (op.params.zip values).filterMap fun pv => passedReference pv.1 pv.2

/-! ## The stack -/

/-- The references of instructions behind others are found with the stack that these leave. -/
theorem references_append {before : List Instruction} (is js : List Instruction) :
    references (pushesBehind before).reverse (is ++ js) =
      references (pushesBehind before).reverse is ++
        references (pushesBehind (before ++ is)).reverse js := by
  induction is generalizing before with
  | nil => simp [references]
  | cons i is ih =>
    have hstep := @ih (before ++ [i])
    rw [List.append_assoc, List.singleton_append] at hstep
    rw [List.cons_append]
    cases hi : i.opcode.stack with
    | none =>
      rw [pushesBehind_other hi] at hstep
      rw [references_other hi, references_other hi, hstep, List.append_assoc]
    | some use =>
      cases use with
      | push =>
        rw [pushesBehind_push hi, List.reverse_cons] at hstep
        rw [references_push hi, references_push hi, hstep]
      | pop =>
        rw [pushesBehind_pop hi, List.reverse_nil] at hstep
        rw [references_pop hi, references_pop hi, hstep, List.append_assoc]

theorem references_pushes {ps : List Instruction}
    (h : ∀ i ∈ ps, i.opcode.pushesArgument = true) (stack js : List Instruction) :
    references stack (ps ++ js) = references (stack ++ ps) js := by
  induction ps generalizing stack with
  | nil => rw [List.nil_append, List.append_nil]
  | cons i ps ih =>
    obtain ⟨hi, hps⟩ := List.forall_mem_cons.1 h
    have hpush : i.opcode.stack = some .push := of_decide_eq_true hi
    rw [List.cons_append, references_push hpush, ih hps, List.append_assoc, List.singleton_append]

/-- An operation takes as many pushes as it has parameters and empties the stack. -/
theorem references_pops {op : Opcode} (hp : op.popsArguments = true) (stack js : List Instruction) :
    references stack ({ opcode := op } :: js) = pushedReferences op stack ++ references [] js := by
  have hpop : op.stack = some .pop := of_decide_eq_true hp
  exact references_pop hpop stack js

/-- What lies deeper in the stack is not looked at. -/
theorem pushedReferences_append {op : Opcode} {ps : List Instruction}
    (h : ps.length = op.params.length) (stack : List Instruction) :
    pushedReferences op (stack ++ ps) = pushedReferences op ps := by
  have hcount : min (stack ++ ps).length op.params.length = op.params.length := by
    rw [List.length_append]
    omega
  have hdrop : (stack ++ ps).length - op.params.length = stack.length := by
    rw [List.length_append]
    omega
  unfold pushedReferences
  dsimp only
  rw [hcount, hdrop, List.drop_left, ← h, Nat.min_self, Nat.sub_self, List.drop_zero,
    List.drop_zero]

/-! ## Pushes of values -/

theorem opcode_of_make {op : Opcode} {values : List Value} {i : Instruction}
    (h : Instruction.make op values = .ok i) : i.opcode = op := by
  unfold Instruction.make at h
  split at h
  · split at h
    · cases h
      rfl
    · cases h
  · split at h
    · cases h
    · obtain ⟨args, -, h⟩ := bind_eq_ok_iff.1 h
      cases h
      rfl

theorem pushesArgument_of_push {param : ParamKind} {value : Value} {i : Instruction}
    (h : Value.push param value = .ok i) : i.opcode.pushesArgument = true := by
  have hmake : ∀ {op : Opcode} {values : List Value}, op.pushesArgument = true →
      Instruction.make op values = .ok i → i.opcode.pushesArgument = true := by
    intro op values hop h
    rw [opcode_of_make h]
    exact hop
  unfold Value.push at h
  obtain ⟨-, -, h⟩ := bind_eq_ok_iff.1 h
  split at h
  · refine hmake ?_ h
    cases param <;> rfl
  · obtain ⟨x, -, h⟩ := bind_eq_ok_iff.1 h
    obtain ⟨n, -, h⟩ := bind_eq_ok_iff.1 h
    exact hmake rfl h
  · exact hmake rfl h
  · exact hmake rfl h
  · refine hmake ?_ h
    cases param <;> rfl

def pushedReference (param : ParamKind) (i : Instruction) : Option Reference := do
  if pushesRegister i then none
  else some ⟨← (← i.args.head?).int?, ← param.refersTo?⟩

/-- For a label parameter an integer is pushed as it is; anything else that can be given is a
register, and its push says nothing about labels. -/
theorem pushedReference_of_push {param : ParamKind} {value : Value} {i : Instruction}
    (hs : Script.Spelt value) (h : Value.push param value = .ok i) :
    pushedReference param i = passedReference param value := by
  cases hk : param.refersTo? with
  | none =>
    have hpushed : pushedReference param i = none := by simp [pushedReference, hk]
    have hpassed : passedReference param value = none := by
      cases value <;> simp [passedReference, hk]
    rw [hpushed, hpassed]
  | some kind =>
    unfold Value.push at h
    obtain ⟨⟨⟩, hc, h⟩ := bind_eq_ok_iff.1 h
    cases hs with
    | register n =>
      have hop : i.opcode = Opcode.pushRegister := by
        cases param with
        | codeLabel | dataLabel | textLabel => exact opcode_of_make h
        | _ => cases hk
      unfold pushedReference
      rw [if_pos (by simp [pushesRegister, hop])]
      rfl
    | int n =>
      have hi : i = { opcode := .pushWord, args := [⟨.int n, 2⟩] } := by
        cases param with
        | codeLabel | dataLabel | textLabel => exact (Except.ok.inj h).symm
        | _ => cases hk
      rw [hi]
      unfold pushedReference passedReference
      rw [hk]
      rfl
    | text t | float x =>
      cases param with
      | codeLabel | dataLabel | textLabel => cases hc
      | _ => cases hk

theorem pushedReferences_pushes {op : Opcode} {values : List Value} {ps : List Instruction}
    (hs : ∀ value ∈ values, Script.Spelt value) (h : Value.pushes op values = .ok ps) :
    ps.length = op.params.length ∧ pushedReferences op ps = passed op values := by
  unfold Value.pushes at h
  split at h
  · cases h
  · next hlen =>
    have hall := mapM_eq_ok_iff.1 h
    have hpushed : ps.length = op.params.length := by
      have hl := hall.length_eq
      rw [List.length_zip] at hl
      omega
    refine ⟨hpushed, ?_⟩
    have hdef : pushedReferences op ps =
        (op.params.zip ps).filterMap fun pp => pushedReference pp.1 pp.2 := by
      unfold pushedReferences
      dsimp only
      rw [hpushed, Nat.min_self, Nat.sub_self, List.drop_zero, List.drop_zero]
      rfl
    rw [hdef]
    unfold passed
    -- Both sides go through the parameters one by one.
    generalize op.params = params at hall
    clear hlen hdef hpushed h
    induction params generalizing values ps with
    | nil => rfl
    | cons param params ih =>
      cases values with
      | nil =>
        rw [List.zip_nil_right, List.forall₂_nil_left_iff] at hall
        rw [hall]
        rfl
      | cons value values =>
        rw [List.zip_cons_cons, List.forall₂_cons_left_iff] at hall
        obtain ⟨i, rest, hi, hrest, rfl⟩ := hall
        obtain ⟨hvalue, hvalues⟩ := List.forall_mem_cons.1 hs
        rw [List.zip_cons_cons, List.zip_cons_cons, List.filterMap_cons, List.filterMap_cons,
          ih hvalues hrest, pushedReference_of_push hvalue hi]

/-- A call refers to what its values name, whatever stands in front of it. -/
theorem references_call {op : Opcode} {values : List Value} {ps : List Instruction}
    (hp : op.popsArguments = true) (hs : ∀ value ∈ values, Script.Spelt value)
    (h : Value.pushes op values = .ok ps) (before after : List Instruction) :
    references [] (before ++ (ps ++ { opcode := op } :: after)) =
      references [] before ++ (passed op values ++ references [] after) := by
  have hpush : ∀ i ∈ ps, i.opcode.pushesArgument = true := by
    unfold Value.pushes at h
    split at h
    · cases h
    · intro i hi
      obtain ⟨pv, -, hpv⟩ := exists_of_forall₂ (mapM_eq_ok_iff.1 h).flip i hi
      exact pushesArgument_of_push hpv
  obtain ⟨hlen, hrefs⟩ := pushedReferences_pushes hs h
  have happend := @references_append [] before (ps ++ { opcode := op } :: after)
  rw [List.nil_append] at happend
  rw [show references [] _ = references (pushesBehind []).reverse _ from rfl, happend,
    references_pushes hpush, references_pops hp, pushedReferences_append hlen, hrefs]
  rfl

/-! ## Reading a call -/

/-- Instructions that stand in front of other bytes are read first. -/
theorem exists_rest_of_storesAll {bs more : Bytes} {is : List Instruction} (h : StoresAll bs is)
    {c : Cursor} (hc : c.Inside) (hv : c.view = bs ++ more) :
    ∃ c' : Cursor, c'.Inside ∧ c'.view = more ∧
      readInstructions c = (is ++ (readInstructions c').1, (readInstructions c').2) := by
  induction h generalizing c with
  | nil => exact ⟨c, hc, hv, rfl⟩
  | @cons front back i is h _ ih =>
    rw [List.append_assoc] at hv
    have hlen := Cursor.length_view hc
    have hpos := length_pos_of_stores h
    rw [hv, List.length_append] at hlen
    obtain ⟨c', hin, hview, hread⟩ := ih (Cursor.inside_advance hc hv) (Cursor.view_advance hc hv)
    refine ⟨c', hin, hview, ?_⟩
    rw [readInstructions_ok (by omega) (describes_readInstruction.accepts hc hv h), hread]
    rfl

theorem storesAll_append {bs bs' : Bytes} {is js : List Instruction} (h : StoresAll bs is)
    (h' : StoresAll bs' js) : StoresAll (bs ++ bs') (is ++ js) := by
  induction h with
  | nil => exact h'
  | cons hi _ ih =>
    rw [List.append_assoc, List.cons_append]
    exact .cons hi ih

/-- The pushes of values can be stored, if their texts have no null characters. -/
theorem storable_of_push {param : ParamKind} {value : Value} {i : Instruction}
    (hs : Script.Spelt value) (hl : param.isList = false) (hn : value.NullFree)
    (h : Value.push param value = .ok i) : i.Storable := by
  have single : ∀ {op : Opcode} {kind : ParamKind} {v : Value}, op.params = [kind] →
      op.popsArguments = false → kind.isList = false → Instruction.make op [v] = .ok i →
      v.Storable → i.Storable := by
    intro op kind v hparams hpops hkind hmake hv a ha
    obtain ⟨b, -, hb, rfl⟩ := Instruction.exists_of_make_single hparams hpops hkind hmake
    rwa [List.mem_singleton.1 ha, hb]
  cases Script.passedBy_of_push hs hl h with
  | number _ params pops hsingle _ _ made => exact single params pops hsingle made trivial
  | text same made =>
    rw [same] at hn
    exact single rfl rfl rfl made hn

/-! ### Numbers are rounded, labels are not -/

theorem pushedReference_narrowed (param : ParamKind) (i : Instruction) :
    pushedReference param i.narrowed = pushedReference param i := by
  have hint : ∀ a : Arg, a.narrowed.int? = a.int? := by
    intro a
    obtain ⟨value, size⟩ := a
    cases value <;> rfl
  have hregister : pushesRegister i.narrowed = pushesRegister i := rfl
  unfold pushedReference
  rw [hregister]
  cases hargs : i.args with
  | nil => simp [Instruction.narrowed, hargs]
  | cons a rest => simp [Instruction.narrowed, hargs, hint]

theorem pushedReferences_eq (op : Opcode) (pushes : List Instruction) :
    pushedReferences op pushes =
      ((op.params.drop (op.params.length - min pushes.length op.params.length)).zip
        (pushes.drop (pushes.length - min pushes.length op.params.length))).filterMap
          fun pp => pushedReference pp.1 pp.2 := rfl

theorem pushedReferences_narrowed (op : Opcode) (pushes : List Instruction) :
    pushedReferences op (pushes.map Instruction.narrowed) = pushedReferences op pushes := by
  simp only [pushedReferences_eq, List.length_map, ← List.map_drop, List.zip_map_right,
    List.filterMap_map]
  refine congrArg (List.filterMap · _) (funext fun pp => ?_)
  exact pushedReference_narrowed pp.1 pp.2

theorem inlineReferences_narrowed (i : Instruction) :
    inlineReferences i.narrowed = inlineReferences i := by
  unfold inlineReferences
  rw [Instruction.opcode_narrowed]
  unfold Instruction.narrowed
  rw [List.zip_map_right, List.flatMap_map]
  refine List.flatMap_congr fun pa _ => ?_
  obtain ⟨param, value, size⟩ := pa
  cases value with
  | float x => cases param <;> rfl
  | int n | text t | list ns | register number => rfl

theorem references_narrowed (stack is : List Instruction) :
    references (stack.map Instruction.narrowed) (is.map Instruction.narrowed) =
      references stack is := by
  induction is generalizing stack with
  | nil => rfl
  | cons i is ih =>
    have hpush := ih (stack ++ [i])
    rw [List.map_append] at hpush
    rw [List.map_cons, references, references, Instruction.opcode_narrowed,
      pushedReferences_narrowed, inlineReferences_narrowed, ih stack]
    have hpop := ih []
    rw [List.map_nil] at hpop
    rw [hpop, ← hpush]
    rfl

/-! ### The call and what stands around it -/

theorem fallThrough_append (is js : List Instruction) (i : Instruction) (next : Option Nat) :
    Input.fallThrough (is ++ i :: js) next = Input.fallThrough (i :: js) next := by
  have hruns : runsOn (is ++ i :: js) = runsOn (i :: js) := by
    unfold runsOn
    rw [List.getLast?_append_cons]
  unfold Input.fallThrough
  rw [hruns]

/-- Code that is read to its end gives no notice, in either mode. -/
theorem readCode_of_readInstructions {code : Array UInt8} {o : Int} {st : Start}
    {is : List Instruction} (h : readInstructions (.window code o st.stop) = (is, none))
    (mode : Mode) (next : Option Nat) :
    readCode mode code o st next =
      .ok { segment := .code st.names is
            references := references [] is ++ Input.fallThrough is next } := by
  unfold readCode
  rw [h]
  rfl

section Call

variable {op : Opcode} {values : List Value} {ps before : List Instruction}

theorem exists_stored_call (hop : op ∈ Opcode.table) (hp : op.popsArguments = true)
    (hs : ∀ value ∈ values, Script.Spelt value) (hn : ∀ value ∈ values, value.NullFree)
    (h : Value.pushes op values = .ok ps) :
    ∃ call, List.mapM writeInstruction (ps ++ [{ opcode := op }]) = .ok call ∧
      StoresAll call.flatten (ps ++ [{ opcode := op }]) := by
  have hall : ∀ i ∈ ps ++ [{ opcode := op }], i.WellFormed ∧ i.Storable := by
    intro i hi
    rcases List.mem_append.1 hi with hi | hi
    · refine ⟨Script.wellFormed_of_pushes hop hp hs h i hi, ?_⟩
      unfold Value.pushes at h
      split at h
      · cases h
      · obtain ⟨⟨param, value⟩, hpv, hpush⟩ := exists_of_forall₂ (mapM_eq_ok_iff.1 h).flip i hi
        obtain ⟨hparam, hvalue⟩ := List.of_mem_zip hpv
        exact storable_of_push (hs value hvalue)
          (Script.single_of_popsArguments hop hp param hparam) (hn value hvalue) hpush
    · rw [List.mem_singleton.1 hi]
      refine ⟨⟨hop, ?_⟩, fun a ha => absurd ha List.not_mem_nil⟩
      rw [if_pos hp]
  obtain ⟨_, call, hstores, hw, rfl⟩ := exists_storesAll hall
  exact ⟨call, hw, hstores⟩

/-- What is written for a call is read as its pushes and its operation, whatever stands in front
of it and behind it.  What the call refers to are the labels that its values name, in order,
between what the instructions in front of it refer to and what those behind it do. -/
theorem read_passed {front : List Bytes} (hop : op ∈ Opcode.table) (hp : op.popsArguments = true)
    (hs : ∀ value ∈ values, Script.Spelt value) (hn : ∀ value ∈ values, value.NullFree)
    (h : Value.pushes op values = .ok ps) (hb : ∀ i ∈ before, i.WellFormed ∧ i.NullFree)
    (hw : before.mapM writeInstruction = .ok front) :
    ∃ call, List.mapM writeInstruction (ps ++ [{ opcode := op }]) = .ok call ∧
      ∀ (mode : Mode) (code : Array UInt8) (o : Int) (st : Start) (next : Option Nat)
        (more : Bytes), (Cursor.window code o st.stop).Inside →
        (Cursor.window code o st.stop).view = front.flatten ++ call.flatten ++ more →
        (∀ f, readCode mode code o st next = .ok f → ∃ after,
          f.segment = .code st.names
            (before.map Instruction.narrowed ++ (ps ++ { opcode := op } :: after)) ∧
          f.references = references [] before ++ (passed op values ++
            (references [] after ++ Input.fallThrough ({ opcode := op } :: after) next))) ∧
        (more = [] → readCode mode code o st next = .ok
          { segment := .code st.names
              (before.map Instruction.narrowed ++ (ps ++ [{ opcode := op }]))
            references := references [] before ++
              (passed op values ++ Input.fallThrough [{ opcode := op }] next) }) := by
  obtain ⟨call, hcall, hstores⟩ := exists_stored_call hop hp hs hn h
  have hfront : StoresAll front.flatten (before.map Instruction.narrowed) := by
    refine @storesAll_narrowed [] before _ (fun i hi => (hb i hi).1) (fun i hi => (hb i hi).2) ?_
    show (before.mapM writeInstruction >>= fun parts => _) = _
    rw [hw]
    rfl
  have hbefore : references [] (before.map Instruction.narrowed) = references [] before :=
    references_narrowed [] before
  refine ⟨call, hcall, fun mode code o st next more hin hview => ?_⟩
  obtain ⟨c', hin', hview', hread⟩ :=
    exists_rest_of_storesAll (storesAll_append hfront hstores) hin hview
  constructor
  · intro f hf
    obtain ⟨hsegment, hrefs, -⟩ := Input.readCode_ok hread hf
    refine ⟨(readInstructions c').1, ?_, ?_⟩
    · rw [hsegment, List.append_assoc, List.append_assoc, List.singleton_append]
    · rw [hrefs, List.append_assoc, List.append_assoc, List.singleton_append,
        references_call hp hs h, hbefore, ← List.append_assoc _ ps, fallThrough_append]
      simp only [List.append_assoc]
  · intro hmore
    have hend := Cursor.length_view hin'
    rw [hview', hmore] at hend
    rw [readInstructions_nil hend.symm, List.append_nil] at hread
    rw [readCode_of_readInstructions hread, references_call hp hs h, hbefore,
      ← List.append_assoc _ ps, fallThrough_append]
    simp only [references, List.append_nil, List.append_assoc]

end Call

/-- The operation that sets what a quest board does: a number, the label of code and a text. -/
def setQuestBoardHandler : Opcode :=
  .pops 0xCB "set_quest_board_handler" [.int, .codeLabel, .string]

/-- A call behind a push that is left on the stack: the code label of the call is referred to,
the other push is not. -/
theorem read_passed_leftover :
    readCode .strict
        #[0x4B, 9, 0, 0x49, 1, 0, 0, 0, 0x4B, 5, 0, 0x4E, 0x41, 0, 0, 0, 0xCB] 0 ⟨[0], 17⟩
        (some 3) =
      .ok { segment := .code [0] [⟨.pushWord, [⟨.int 9, 2⟩]⟩, ⟨.pushInt, [⟨.int 1, 4⟩]⟩,
              ⟨.pushWord, [⟨.int 5, 2⟩]⟩, ⟨.pushString, [⟨.text [.char 'A'], 4⟩]⟩,
              ⟨setQuestBoardHandler, []⟩]
            references := [⟨5, .code⟩, ⟨3, .code⟩] } := by
  have hpushes : Value.pushes setQuestBoardHandler [.int 1, .int 5, .text [.char 'A']] =
      .ok [⟨.pushInt, [⟨.int 1, 4⟩]⟩, ⟨.pushWord, [⟨.int 5, 2⟩]⟩,
        ⟨.pushString, [⟨.text [.char 'A'], 4⟩]⟩] := by decide +kernel
  have hbefore : ∀ i ∈ [(⟨.pushWord, [⟨.int 9, 2⟩]⟩ : Instruction)],
      i.WellFormed ∧ i.NullFree := by
    intro i hi
    rw [List.mem_singleton.1 hi]
    refine ⟨⟨Script.push_mem_table _ (by decide), ?_⟩, by decide⟩
    exact .cons ⟨⟨9, _, rfl, rfl, by decide, by decide⟩, rfl⟩ .nil
  have hspelt : ∀ value ∈ [Value.int 1, .int 5, .text [.char 'A']], Script.Spelt value := by
    intro value hvalue
    simp only [List.mem_cons, List.not_mem_nil, or_false] at hvalue
    rcases hvalue with rfl | rfl | rfl
    · exact .int 1
    · exact .int 5
    · exact .text _
  have hfront : List.mapM writeInstruction [(⟨.pushWord, [⟨.int 9, 2⟩]⟩ : Instruction)] =
      .ok [[0x4B, 9, 0]] := by decide +kernel
  obtain ⟨call, hcall, hread⟩ := read_passed (by decide +kernel) rfl hspelt (by decide) hpushes
    hbefore hfront
  have hwritten : List.mapM writeInstruction ([⟨.pushInt, [⟨.int 1, 4⟩]⟩,
      ⟨.pushWord, [⟨.int 5, 2⟩]⟩, ⟨.pushString, [⟨.text [.char 'A'], 4⟩]⟩] ++
        [{ opcode := setQuestBoardHandler }]) =
      .ok [[0x49, 1, 0, 0, 0], [0x4B, 5, 0], [0x4E, 0x41, 0, 0, 0], [0xCB]] := by decide +kernel
  cases hcall.symm.trans hwritten
  exact (hread .strict _ 0 ⟨[0], 17⟩ (some 3) [] ⟨by decide, by decide, by decide⟩
    (by decide +kernel)).2 rfl

/-- A text with a null character can be passed, but not be read: what stands behind that
character is read as instructions, and the first of these empties the stack. -/
theorem read_passed_null :
    ∃ ps call f, Value.pushes setQuestBoardHandler
        [.int 1, .int 5, .text [.char '\x00', .char '\x03']] = .ok ps ∧
      List.mapM writeInstruction (ps ++ [{ opcode := setQuestBoardHandler }]) = .ok call ∧
      readCode .strict call.flatten.toArray 0 ⟨[0], call.flatten.length⟩ none = .ok f ∧
      f.references = [] ∧
      passed setQuestBoardHandler [.int 1, .int 5, .text [.char '\x00', .char '\x03']] =
        [⟨5, .code⟩] := by
  refine ⟨[⟨.pushInt, [⟨.int 1, 4⟩]⟩, ⟨.pushWord, [⟨.int 5, 2⟩]⟩,
      ⟨.pushString, [⟨.text [.char '\x00', .char '\x03'], 6⟩]⟩],
    [[0x49, 1, 0, 0, 0], [0x4B, 5, 0], [0x4E, 0, 0, 3, 0, 0, 0], [0xCB]],
    { segment := .code [0] [⟨.pushInt, [⟨.int 1, 4⟩]⟩, ⟨.pushWord, [⟨.int 5, 2⟩]⟩,
        ⟨.pushString, [⟨.text [], 2⟩]⟩, ⟨.pops 0x03 "exit" [.int], []⟩,
        ⟨.plain 0x00 "nop" [], []⟩, ⟨.plain 0x00 "nop" [], []⟩, ⟨.plain 0x00 "nop" [], []⟩,
        ⟨setQuestBoardHandler, []⟩] },
    by decide +kernel, by decide +kernel, ?_, rfl, rfl⟩
  have hread : readInstructions (.window [0x49, 1, 0, 0, 0, 0x4B, 5, 0, 0x4E, 0, 0, 3, 0, 0, 0,
      0xCB].toArray 0 16) = ([⟨.pushInt, [⟨.int 1, 4⟩]⟩, ⟨.pushWord, [⟨.int 5, 2⟩]⟩,
        ⟨.pushString, [⟨.text [], 2⟩]⟩, ⟨.pops 0x03 "exit" [.int], []⟩,
        ⟨.plain 0x00 "nop" [], []⟩, ⟨.plain 0x00 "nop" [], []⟩, ⟨.plain 0x00 "nop" [], []⟩,
        ⟨setQuestBoardHandler, []⟩], none) := by decide +kernel
  exact @readCode_of_readInstructions _ 0 ⟨[0], 16⟩ _ hread .strict none

end ObjectCode
end QuestArchive
