import QuestArchive.Proofs.Script.Folding
import QuestArchive.Script.Assemble

/-!
# What the assembler does with faulty lines

A line with an error in the source is reported by its number and the lines behind it are
still worked on, so the diagnostics of a source name all its faulty lines.  Three kinds of
fault are no errors in the source and end the work: a numeral of too many digits, a number
too large for its place and a text that has no encoding.
-/

namespace QuestArchive

/-- With one parameter, an instruction holds the argument of its one operand. -/
theorem Instruction.make_single {op : Opcode} {param : ParamKind}
    (hparams : op.params = [param]) (hpops : op.popsArguments = false) (value : Value) :
    Instruction.make op [value] =
      (Arg.make param value >>= fun a => .ok { opcode := op, args := [a] }) := by
  have hcount : ¬ [value].length ≠ [param].length := not_not.2 rfl
  unfold Instruction.make
  rw [hpops, hparams, if_neg Bool.false_ne_true, if_neg hcount, List.zip_cons_cons,
    List.zip_nil_left, List.mapM_cons, List.mapM_nil, bind_assoc]
  rfl

namespace Script

inductive Escapes : Fault → Prop where
  | numeralLength (digits : Option Nat) : Escapes (.numeralLength digits)
  | tooLarge : Escapes .tooLarge
  | loneSurrogate (unit position : Nat) : Escapes (.loneSurrogate unit position)

/-- A fault is an error in the source, or one of those that leave the assembler. -/
def IsLineFault (fault : Fault) : Prop := (∃ error, fault = .source error) ∨ Escapes fault

def Contained {α : Type} (r : Except Fault α) : Prop :=
  ∀ fault, r = .error fault → IsLineFault fault

section

variable {α β : Type}

theorem Contained.ok (a : α) : Contained (.ok a : Except Fault α) :=
  fun _ h => by cases h

theorem Contained.source (error : SourceError) :
    Contained (.error (.source error) : Except Fault α) :=
  fun _ h => Or.inl ⟨error, (Except.error.inj h).symm⟩

theorem Contained.escape {fault : Fault} (h : Escapes fault) :
    Contained (.error fault : Except Fault α) :=
  fun _ he => Or.inr (Except.error.inj he ▸ h)

theorem Contained.bind {x : Except Fault α} {f : α → Except Fault β} (hx : Contained x)
    (hf : ∀ a, x = .ok a → Contained (f a)) : Contained (x >>= f) := by
  intro fault h
  rcases bind_eq_error_iff.1 h with h | ⟨a, ha, h⟩
  · exact hx fault h
  · exact hf a ha fault h

theorem Contained.guard {p : Prop} [Decidable p] {error : SourceError} {x : Except Fault α}
    (hx : Contained x) :
    Contained (if p then (throw (.source error) : Except Fault PUnit) >>= fun _ => x else x) := by
  split
  · exact Contained.source error
  · exact hx

theorem Contained.mapM {f : α → Except Fault β} {l : List α} (h : ∀ a ∈ l, Contained (f a)) :
    Contained (l.mapM f) := by
  intro fault he
  obtain ⟨a, ha, he⟩ := exists_of_mapM_eq_error he
  exact h a ha fault he

/-- What is made of each element has a property if `f` can give nothing else. -/
theorem forall_of_mapM {f : α → Except Fault β} {p : β → Prop} (hf : ∀ a b, f a = .ok b → p b)
    {l : List α} {r : List β} (h : l.mapM f = .ok r) : ∀ b ∈ r, p b := by
  intro b hb
  obtain ⟨a, -, ha⟩ := exists_of_forall₂ (mapM_eq_ok_iff.1 h).flip b hb
  exact hf a b ha

end

/-! ## Values -/

inductive Spelt : Value → Prop where
  | text (t : Text) : Spelt (.text t)
  | register (n : Int) : Spelt (.register (.int n))
  | int (n : Int) : Spelt (.int n)
  | float (x : Double) : Spelt (.float x)

theorem contained_natural (digits : List Nat) : Contained (Literal.natural digits) := by
  unfold Literal.natural
  split
  · exact Contained.escape (.numeralLength _)
  · exact Contained.ok _

theorem contained_bare (token : Text) : Contained (Literal.bare token) := by
  unfold Literal.bare
  dsimp only
  split
  · exact (contained_natural _).bind fun _ _ => Contained.ok _
  · split
    · exact Contained.ok _
    · split
      · exact (contained_natural _).bind fun _ _ => Contained.ok _
      · split
        · exact Contained.ok _
        · exact Contained.source _

theorem contained_parse (token : Text) : Contained (Literal.parse token) := by
  unfold Literal.parse
  split
  · exact Contained.source _
  · split
    · exact Contained.ok _
    · exact Contained.source _
  · exact contained_bare token

theorem spelt_of_bare {token : Text} {value : Value} (h : Literal.bare token = .ok value) :
    Spelt value := by
  unfold Literal.bare at h
  dsimp only at h
  split at h
  · next ds _ =>
    cases hn : Literal.natural ds with
    | error fault =>
      rw [hn] at h
      cases h
    | ok n =>
      rw [hn] at h
      cases h
      exact .register _
  · split at h
    · cases h
      exact .int _
    · split at h
      · next ds _ =>
        cases hn : Literal.natural ds with
        | error fault =>
          rw [hn] at h
          cases h
        | ok n =>
          rw [hn] at h
          cases h
          exact .int _
      · split at h
        · cases h
          exact .float _
        · cases h

theorem spelt_of_parse {token : Text} {value : Value} (h : Literal.parse token = .ok value) :
    Spelt value := by
  unfold Literal.parse at h
  split at h
  · cases h
  · split at h
    · cases h
      exact .text _
    · cases h
  · exact spelt_of_bare h

variable {param : ParamKind} {value : Value}

theorem contained_check_int (n : Int) (hr : param.range?.isSome = true) :
    Contained (Value.check param (.int n)) := by
  obtain ⟨range, hrange⟩ := Option.isSome_iff_exists.1 hr
  have hc : Value.check param (.int n) = Value.checkInt param n := by
    cases param
    all_goals first | rfl | cases hr
  rw [hc]
  unfold Value.checkInt
  rw [hrange]
  dsimp only
  split
  · exact Contained.ok _
  · unfold Value.rangeFault
    split
    · exact Contained.escape (.numeralLength _)
    · exact Contained.source _

theorem contained_checkRegister (n : Int) : Contained (Value.checkRegister (.int n)) := by
  unfold Value.checkRegister
  split
  · next h => cases h
  · split
    · exact Contained.ok _
    · exact Contained.source _

theorem contained_check (h : Spelt value) (hl : param.isList = false) :
    Contained (Value.check param value) := by
  cases h with
  | register n =>
    cases param
    all_goals exact contained_checkRegister n
  | text t =>
    cases param
    all_goals first | exact Contained.ok _ | exact Contained.source _
  | float x =>
    cases param
    case codeLabels => cases hl
    case registers => cases hl
    all_goals first | exact Contained.ok _ | exact Contained.source _
  | int n =>
    cases param
    case float => exact Contained.ok _
    case register => exact Contained.source _
    case registerTuple => exact Contained.source _
    case string => exact Contained.source _
    case codeLabels => cases hl
    case registers => cases hl
    all_goals exact contained_check_int n rfl

theorem contained_textBytes (t : Text) : Contained (Field.textBytes t) := by
  unfold Field.textBytes
  split
  · exact Contained.ok _
  · exact Contained.escape (.loneSurrogate _ _)

/-- An argument is made of every value for a parameter that takes one, if a text has bytes. -/
theorem contained_make (hl : param.isList = false) (value : Value) :
    Contained (Arg.make param value) := by
  cases param
  case string => exact (contained_textBytes _).bind fun _ _ => Contained.ok _
  case codeLabels => cases hl
  case registers => cases hl
  all_goals exact Contained.ok _

/-- A number for a parameter of single precision is there or too large. -/
theorem contained_number (h : Spelt value) (hr : ∀ number, value ≠ .register number)
    (hc : Value.check .float value = .ok ()) : Contained value.number := by
  cases h with
  | text t => cases hc
  | register n => exact absurd rfl (hr _)
  | float x => exact Contained.ok x
  | int n =>
    show Contained (Field.number n)
    unfold Field.number
    split
    · exact Contained.ok _
    · exact Contained.escape .tooLarge

/-! ## Operations with arguments -/

theorem contained_push (h : Spelt value) (hl : param.isList = false) :
    Contained (Value.push param value) := by
  unfold Value.push
  refine (contained_check h hl).bind fun _ hc => ?_
  -- The pushes take one operand, of a kind that takes single values.
  have make : ∀ {op : Opcode} (kind : ParamKind) (v : Value), op.popsArguments = false →
      op.params = [kind] → kind.isList = false → Contained (Instruction.make op [v]) := by
    intro op kind v hp hparams hkind
    rw [Instruction.make_single hparams hp]
    exact (contained_make hkind v).bind fun _ _ => Contained.ok _
  have single : ∀ x, Contained (Value.singleBits x) := by
    intro x
    unfold Value.singleBits
    split
    · exact Contained.ok _
    · exact Contained.escape .tooLarge
  cases h with
  | register n =>
    cases param
    case register => exact make .byte _ rfl rfl rfl
    case registerTuple => exact make .register _ rfl rfl rfl
    all_goals exact make .register _ rfl rfl rfl
  | text t =>
    cases param
    all_goals first | exact make .string _ rfl rfl rfl | cases hc
  | float x =>
    cases param
    case float =>
      exact (single x).bind fun _ _ => make .int _ rfl rfl rfl
    all_goals cases hc
  | int n =>
    cases param
    case float =>
      refine (contained_number (.int n) (fun _ => Value.noConfusion) hc).bind fun x _ => ?_
      exact (single x).bind fun _ _ => make .int _ rfl rfl rfl
    case dword => exact make .int _ rfl rfl rfl
    case int => exact make .int _ rfl rfl rfl
    case byte => exact make .byte _ rfl rfl rfl
    case codeLabels => cases hl
    case registers => cases hl
    all_goals first | exact make .word _ rfl rfl rfl | cases hc

theorem contained_pushes {op : Opcode} (hop : op ∈ Opcode.table) (hp : op.popsArguments = true)
    {values : List Value} (h : ∀ value ∈ values, Spelt value) :
    Contained (Value.pushes op values) := by
  unfold Value.pushes
  split
  · exact Contained.source _
  · refine Contained.mapM fun pv hpv => ?_
    obtain ⟨hparam, hvalue⟩ := List.of_mem_zip hpv
    exact contained_push (h _ hvalue) (single_of_popsArguments hop hp _ hparam)

theorem contained_inlineArg (h : Spelt value) (hl : param.isList = false) :
    Contained (inlineArg param value) := by
  unfold inlineArg
  refine Contained.guard ((contained_check h hl).bind fun _ hc => ?_)
  split
  · exact contained_make hl _
  · next hr =>
    exact (contained_number h (fun number he => hr number he) hc).bind fun x _ =>
      contained_make hl _
  · exact contained_make hl value

theorem contained_listedRegister (h : Spelt value) : Contained (listedRegister value) := by
  cases h with
  | register n => exact (contained_checkRegister n).bind fun _ _ => Contained.ok n
  | text t => exact Contained.source _
  | int n => exact Contained.source _
  | float x => exact Contained.source _

theorem contained_listedLabel (h : Spelt value) : Contained (listedLabel value) := by
  unfold listedLabel
  have hc : Contained (value.check .codeLabel) := contained_check h rfl
  refine Contained.guard (hc.bind fun _ _ => ?_)
  split
  · exact Contained.ok _
  · exact Contained.source _

theorem contained_inlineArgs {op : Opcode} (hop : op ∈ Opcode.table) {values : List Value}
    (h : ∀ value ∈ values, Spelt value) : Contained (inlineArgs op.params values) := by
  have hsingle := single_of_splitParams hop
  have singles : Contained
      (((splitParams op.params).1.zip values).mapM fun pv => inlineArg pv.1 pv.2) := by
    refine Contained.mapM fun pv hpv => ?_
    obtain ⟨hparam, hvalue⟩ := List.of_mem_zip hpv
    exact contained_inlineArg (h _ hvalue) (hsingle _ hparam)
  unfold inlineArgs
  split
  next single list? hsplit =>
  rw [hsplit] at singles
  refine Contained.guard (singles.bind fun args _ => ?_)
  cases list? with
  | none => exact Contained.ok _
  | some param =>
    have hlist : param.isList = true := by
      rcases splitParams_cases op.params with he | ⟨_, param', hp, -, he⟩
      · rw [he] at hsplit
        cases hsplit
      · rw [he] at hsplit
        cases hsplit
        exact hp
    refine Contained.bind ?_ fun ns _ => ?_
    · refine Contained.mapM fun value hvalue => ?_
      have hspelt := h value (List.mem_of_mem_drop hvalue)
      split
      · exact contained_listedRegister hspelt
      · exact contained_listedLabel hspelt
    · cases param
      case codeLabels => exact Contained.ok _
      case registers => exact Contained.ok _
      all_goals cases hlist

theorem contained_readCall (line : Text) : Contained (readCall line) := by
  unfold readCall
  dsimp only
  split
  · exact Contained.source _
  · next op hop =>
    have hop := List.mem_of_find?_eq_some hop
    refine Contained.bind (Contained.mapM fun token _ => contained_parse token) fun values hv => ?_
    have hspelt := forall_of_mapM (fun _ _ => spelt_of_parse) hv
    unfold expand
    split
    · next hp =>
      split
      · exact Contained.ok _
      · exact (contained_pushes hop hp hspelt).bind fun _ _ => Contained.ok _
    · exact (contained_inlineArgs hop hspelt).bind fun _ _ => Contained.ok _

/-! ## Lines -/

theorem readBytes_fault {tokens : List Text} {fault : Fault}
    (h : (readBytes tokens).2 = some fault) : ∃ error, fault = .source error := by
  induction tokens with
  | nil => cases h
  | cons token rest ih =>
    unfold readBytes at h
    split at h
    · cases h
      exact ⟨_, rfl⟩
    · exact ih h

theorem content_fault {kind : SegmentKind} {line : Text} {fault : Fault}
    (h : (Content.read kind line).2 = some fault) : IsLineFault fault := by
  cases kind with
  | code =>
    unfold Content.read at h
    dsimp only at h
    split at h
    · cases h
    · next hc =>
      cases h
      exact contained_readCall line _ hc
  | data => exact Or.inl (readBytes_fault h)
  | text =>
    have hl : Contained (readLiteral line) := by
      unfold readLiteral
      refine (contained_parse line).bind fun value _ => ?_
      split
      · exact Contained.ok _
      · exact Contained.source _
    unfold Content.read at h
    dsimp only at h
    split at h
    · cases h
    · next hc =>
      cases h
      exact hl _ hc

namespace Context

inductive Does (c : Context) : Line → Effect → Prop where
  | blank : Does c .blank { context := c }
  | redundant {marker : Text} (same : SegmentKind.ofMarker? marker = some c.kind) :
      Does c (.directive marker) { context := c, notice := some (.redundantSection marker) }
  | enter {marker : Text} {kind : SegmentKind} (known : SegmentKind.ofMarker? marker = some kind)
      (other : kind ≠ c.kind) :
      Does c (.directive marker) { events := [.enter kind], context := { c with kind } }
  /-- The line comes to nothing. -/
  | fail {line : Line} {fault : Fault} (h : IsLineFault fault) :
      Does c line { context := c, fault := some fault }
  | label {digits : List Nat} {n : Nat} (number : n = Literal.ofDigits 10 digits)
      (high : n ≤ 0xFFFF) (new : n ∉ c.labels) :
      Does c (.label digits [])
        { events := [.label n], context := { c with labels := n :: c.labels } }
  /-- Content behind a label is added as far as it can be read. -/
  | labelled {digits : List Nat} {n : Nat} {rest : Text}
      (number : n = Literal.ofDigits 10 digits) (high : n ≤ 0xFFFF) (new : n ∉ c.labels)
      (more : rest ≠ []) :
      Does c (.label digits rest)
        { events := [.label n, .content (Content.read c.kind rest).1],
          context := { c with labels := n :: c.labels }, fault := (Content.read c.kind rest).2 }
  | content {t : Text} (started : c.labels ≠ []) :
      Does c (.content t)
        { events := [.content (Content.read c.kind t).1], context := c,
          fault := (Content.read c.kind t).2 }

theorem addContent_eq {c : Context} (h : c.labels ≠ []) (t : Text) :
    c.addContent t =
      { events := [.content (Content.read c.kind t).1], context := c,
        fault := (Content.read c.kind t).2 } :=
  if_neg (mt List.isEmpty_iff.1 h)

theorem does_enter (c : Context) (marker : Text) : c.Does (.directive marker) (c.enter marker) := by
  unfold enter
  split
  · exact .fail (Or.inl ⟨_, rfl⟩)
  · next kind hm =>
    by_cases hk : kind = c.kind
    · rw [if_pos hk]
      exact .redundant (hk ▸ hm)
    · rw [if_neg hk]
      exact .enter hm hk

theorem does_addLabel (c : Context) (digits : List Nat) (rest : Text) :
    c.Does (.label digits rest) (c.addLabel digits rest) := by
  have hcontained := contained_natural digits
  unfold addLabel
  unfold Literal.natural at hcontained ⊢
  by_cases hlong : Value.maxDigits < digits.length
  · rw [if_pos hlong] at hcontained ⊢
    exact .fail (hcontained _ rfl)
  · rw [if_neg hlong]
    dsimp only
    by_cases high : 0xFFFF < Literal.ofDigits 10 digits
    · rw [if_pos high]
      exact .fail (Or.inl ⟨_, rfl⟩)
    · rw [if_neg high]
      by_cases new : c.labels.contains (Literal.ofDigits 10 digits) = true
      · rw [if_pos new]
        exact .fail (Or.inl ⟨_, rfl⟩)
      · rw [if_neg new]
        have high := Nat.le_of_not_lt high
        have new := mt List.contains_iff_mem.2 new
        by_cases hempty : rest = []
        · subst hempty
          exact .label rfl high new
        · rw [if_neg (mt List.isEmpty_iff.1 hempty), addContent_eq (List.cons_ne_nil _ _)]
          exact .labelled rfl high new hempty

theorem does_read (c : Context) (line : Text) : c.Does (Line.ofText line) (c.read line) := by
  unfold read
  cases Line.ofText line with
  | blank => exact .blank
  | directive marker => exact does_enter c marker
  | label digits rest => exact does_addLabel c digits rest
  | content t =>
    dsimp only
    by_cases hl : c.labels = []
    · rw [addContent, if_pos (List.isEmpty_iff.2 hl)]
      exact .fail (Or.inl ⟨_, rfl⟩)
    · rw [addContent_eq hl]
      exact .content hl

/-- Whatever is wrong with a line is an error in the source, or leaves the assembler. -/
theorem Does.isLineFault {c : Context} {line : Line} {e : Effect} (h : c.Does line e)
    {fault : Fault} (hf : e.fault = some fault) : IsLineFault fault := by
  cases h with
  | fail h =>
    cases hf
    exact h
  | labelled _ _ _ _ => exact content_fault hf
  | content _ => exact content_fault hf
  | _ => cases hf

theorem Does.severity_notice {c : Context} {line : Line} {e : Effect} (h : c.Does line e)
    {n : Notice} (hn : e.notice = some n) : n.severity = .warning := by
  cases h with
  | redundant _ =>
    cases hn
    rfl
  | _ => cases hn

end Context

/-! ## Sources -/

def effects (c : Context) : List Text → List Effect
  | [] => []
  | line :: rest => c.read line :: effects (c.read line).context rest

/-- If anything is wrong with a line, it is an error in the source. -/
def Effect.Reported (e : Effect) : Prop :=
  ∀ fault, e.fault = some fault → ∃ error, fault = .source error

def lineErrors (n : Nat) : List Effect → List Diagnostic
  | [] => []
  | e :: rest =>
    match e.fault with
    | some (.source error) =>
      { notice := .badLine error, line := some n } :: lineErrors (n + 1) rest
    | _ => lineErrors (n + 1) rest

/-- A line ends the work, or what is said about it has its error and no other. -/
theorem notices_cases (c : Context) (line : Text) :
    (∃ notices, (c.read line).notices = .ok notices ∧ (c.read line).Reported ∧
      ∀ n rest, (notices.map fun notice => ({ notice, line := some n } : Diagnostic)).filter
        (·.severity = .error) ++ lineErrors (n + 1) rest = lineErrors n (c.read line :: rest)) ∨
    ∃ fault, (c.read line).notices = .error fault ∧ (c.read line).fault = some fault ∧
      Escapes fault := by
  have quiet : ∀ n : Nat, ((c.read line).notice.toList.map fun notice =>
      ({ notice, line := some n } : Diagnostic)).filter (·.severity = .error) = [] := by
    intro n
    cases hn : (c.read line).notice with
    | none => rfl
    | some notice =>
      have hs := (c.does_read line).severity_notice hn
      have hd : (({ notice, line := some n } : Diagnostic).severity = .error) = False := by
        simp [Diagnostic.severity, hs]
      simp [hd]
  unfold Effect.notices
  cases hf : (c.read line).fault with
  | none =>
    refine Or.inl ⟨_, rfl, fun fault h => ?_, fun n rest => ?_⟩
    · rw [hf] at h
      cases h
    · rw [quiet, lineErrors, hf]
      rfl
  | some fault =>
    rcases (c.does_read line).isLineFault hf with ⟨error, rfl⟩ | he
    · refine Or.inl ⟨_, rfl, fun fault h => ?_, fun n rest => ?_⟩
      · rw [hf] at h
        exact ⟨error, (Option.some.inj h).symm⟩
      · rw [List.map_append, List.filter_append, quiet, lineErrors, hf]
        rfl
    · refine Or.inr ⟨fault, ?_, rfl, he⟩
      cases he with
      | numeralLength => rfl
      | tooLarge => rfl
      | loneSurrogate => rfl

/-- The lines are worked off one after the other, up to the first with a fault that leaves the
assembler. -/
theorem run_cases (c : Context) (n : Nat) (lines : List Text) :
    (∃ r, run c n lines = .ok r ∧ (∀ e ∈ effects c lines, e.Reported) ∧
      r.1 = (effects c lines).flatMap (·.events) ∧
      r.2.filter (·.severity = .error) = lineErrors n (effects c lines)) ∨
    ∃ before e after fault, effects c lines = before ++ e :: after ∧
      (∀ e ∈ before, e.Reported) ∧ e.fault = some fault ∧ Escapes fault ∧
      run c n lines = .error fault := by
  induction lines generalizing c n with
  | nil => exact Or.inl ⟨_, rfl, fun e he => absurd he List.not_mem_nil, rfl, rfl⟩
  | cons line rest ih =>
    unfold run
    dsimp only
    rcases notices_cases c line with ⟨notices, hn, hrep, herr⟩ | ⟨fault, hn, hf, he⟩
    · rw [hn]
      rcases ih (c.read line).context (n + 1) with
        ⟨r, hr, hall, hevents, herrors⟩ | ⟨before, e, after, fault, hsplit, hall, hf, he, hr⟩
      · refine Or.inl ⟨((c.read line).events ++ r.1,
          notices.map ({ notice := ·, line := some n }) ++ r.2), ?_,
          List.forall_mem_cons.2 ⟨hrep, hall⟩, ?_, ?_⟩
        · show (run (c.read line).context (n + 1) rest >>= fun r => _) = _
          rw [hr]
          rfl
        · rw [effects, List.flatMap_cons, ← hevents]
        · rw [effects, List.filter_append, herrors]
          exact herr n _
      · refine Or.inr ⟨c.read line :: before, e, after, fault, ?_,
          List.forall_mem_cons.2 ⟨hrep, hall⟩, hf, he, ?_⟩
        · rw [effects, hsplit, List.cons_append]
        · show (run (c.read line).context (n + 1) rest >>= fun r => _) = _
          rw [hr]
          rfl
    · refine Or.inr ⟨[], c.read line, _, fault, rfl, fun e he => absurd he List.not_mem_nil, hf,
        he, ?_⟩
      rw [hn]
      rfl

theorem effects_of_assemble {lines : List Text} {a : Assembly} (h : assemble lines = .ok a) :
    (∀ e ∈ effects {} lines, e.Reported) ∧
      a.segments = segments .code none ((effects {} lines).flatMap (·.events)) ∧
      a.errors = lineErrors 1 (effects {} lines) := by
  unfold assemble at h
  rcases run_cases {} 1 lines with
    ⟨r, hr, hall, hevents, herrors⟩ | ⟨_, _, _, _, _, _, _, _, hr⟩
  · rw [hr] at h
    cases h
    exact ⟨hall, by rw [← hevents], herrors⟩
  · rw [hr] at h
    cases h

/-- A source is assembled in full, with one error for each of its faulty lines, unless one of
three kinds of fault leaves the assembler.  No line with an error in it keeps the lines
behind it from being worked on. -/
theorem assemble_contained (lines : List Text) :
    (∃ a, assemble lines = .ok a ∧ (∀ e ∈ effects {} lines, e.Reported) ∧
      a.segments = segments .code none ((effects {} lines).flatMap (·.events)) ∧
      a.errors = lineErrors 1 (effects {} lines)) ∨
    ∃ before e after fault, effects {} lines = before ++ e :: after ∧
      (∀ e ∈ before, e.Reported) ∧ e.fault = some fault ∧ Escapes fault ∧
      assemble lines = .error fault := by
  unfold assemble
  rcases run_cases {} 1 lines with
    ⟨r, hr, hall, hevents, herrors⟩ | ⟨before, e, after, fault, hsplit, hall, hf, he, hr⟩
  · rw [hr]
    refine Or.inl ⟨_, rfl, hall, ?_, herrors⟩
    rw [← hevents]
  · rw [hr]
    exact Or.inr ⟨before, e, after, fault, hsplit, hall, hf, he, rfl⟩

/-- A number that has no form in single precision leaves the assembler as a fault, with the
line behind it unread. -/
theorem assemble_large_number :
    assemble [.ofString "0: bb_box_create_bp 0, 1e39, 0", .ofString "ret"] = .error .tooLarge := by
  decide +kernel

end Script
end QuestArchive
