import QuestArchive.Proofs.Script.Segmenting

/-!
# Errors keep to their lines

A line with an error that names no label leaves the section and the labels in use as they were,
and nothing is said about it but its error.  So the lines behind it do what they would do behind
an empty line.  It may leave an empty piece of code, which can start a segment and move labels
and instructions into it, but it changes neither these nor their order.
-/

namespace QuestArchive
namespace Script

/-! ## What is said about lines -/

def Context.behind (c : Context) : List Text → Context
  | [] => c
  | line :: rest => (c.read line).context.behind rest

theorem effects_append (c : Context) (front back : List Text) :
    effects c (front ++ back) = effects c front ++ effects (c.behind front) back := by
  induction front generalizing c with
  | nil => rfl
  | cons line front ih => exact congrArg (_ :: ·) (ih _)

theorem length_effects (c : Context) (lines : List Text) :
    (effects c lines).length = lines.length := by
  induction lines generalizing c with
  | nil => rfl
  | cons line rest ih => exact congrArg (· + 1) (ih _)

def Effect.remarks (e : Effect) : List Notice :=
  e.notice.toList ++
    match e.fault with
    | some (.source error) => [.badLine error]
    | _ => []

def reports (n : Nat) : List Effect → List Diagnostic
  | [] => []
  | e :: rest => e.remarks.map ({ notice := ·, line := some n }) ++ reports (n + 1) rest

theorem reports_append (n : Nat) (front back : List Effect) :
    reports n (front ++ back) = reports n front ++ reports (n + front.length) back := by
  induction front generalizing n with
  | nil => rfl
  | cons e front ih =>
    rw [List.cons_append, reports, ih, reports, List.append_assoc, List.length_cons,
      Nat.add_right_comm]
    rfl

theorem line_of_mem_reports {n : Nat} {es : List Effect} {d : Diagnostic} (h : d ∈ reports n es) :
    ∃ k, d.line = some k ∧ n ≤ k ∧ k < n + es.length := by
  induction es generalizing n with
  | nil => cases h
  | cons e es ih =>
    rw [List.length_cons]
    rcases List.mem_append.1 h with h | h
    · obtain ⟨notice, -, rfl⟩ := List.mem_map.1 h
      exact ⟨n, rfl, Nat.le_refl n, by omega⟩
    · obtain ⟨k, hk, hlow, hhigh⟩ := ih h
      exact ⟨k, hk, by omega, by omega⟩

theorem reports_middle (n : Nat) (front back : List Effect) (e : Effect) :
    reports n (front ++ e :: back) =
      reports n front ++ (e.remarks.map ({ notice := ·, line := some (n + front.length) }) ++
        reports (n + front.length + 1) back) :=
  reports_append n front (e :: back)

/-- A line that nothing is said about, in place of one with a single remark. -/
theorem reports_replace (n : Nat) (front back : List Effect) {e e' : Effect} {notice : Notice}
    (h : e.remarks = [notice]) (h' : e'.remarks = []) :
    ∃ before behind, reports n (front ++ e :: back) =
        before ++ { notice, line := some (n + front.length) } :: behind ∧
      reports n (front ++ e' :: back) = before ++ behind := by
  refine ⟨reports n front, reports (n + front.length + 1) back, ?_, ?_⟩
  · rw [reports_middle, h]
    rfl
  · rw [reports_middle, h']
    rfl

/-- What is said about one of some lines is said with its number. -/
theorem remark_of_mem_reports {n : Nat} {front back : List Effect} {e : Effect} {d : Diagnostic}
    (h : d ∈ reports n (front ++ e :: back)) (hline : d.line = some (n + front.length)) :
    ∃ notice ∈ e.remarks, d = { notice, line := some (n + front.length) } := by
  rw [reports_middle, List.mem_append, List.mem_append] at h
  rcases h with h | h | h
  · obtain ⟨k, hk, -, hhigh⟩ := line_of_mem_reports h
    cases hline.symm.trans hk
    exact absurd hhigh (Nat.lt_irrefl _)
  · obtain ⟨notice, hnotice, rfl⟩ := List.mem_map.1 h
    exact ⟨notice, hnotice, rfl⟩
  · obtain ⟨k, hk, hlow, -⟩ := line_of_mem_reports h
    cases hline.symm.trans hk
    exact absurd hlow (Nat.not_succ_le_self _)

theorem notices_of_reported {e : Effect} (h : e.Reported) : e.notices = .ok e.remarks := by
  unfold Effect.notices Effect.remarks
  cases hf : e.fault with
  | none => simp
  | some fault =>
    obtain ⟨error, rfl⟩ := h fault hf
    rfl

theorem run_eq {c : Context} {n : Nat} {lines : List Text}
    (h : ∀ e ∈ effects c lines, e.Reported) :
    run c n lines =
      .ok ((effects c lines).flatMap (·.events), reports n (effects c lines)) := by
  induction lines generalizing c n with
  | nil => rfl
  | cons line rest ih =>
    obtain ⟨hline, hrest⟩ := List.forall_mem_cons.1 h
    unfold run
    dsimp only
    rw [notices_of_reported hline, ih hrest]
    rfl

/-- What is assembled, where every fault is an error in the source. -/
theorem assemble_eq {lines : List Text} (h : ∀ e ∈ effects {} lines, e.Reported) :
    assemble lines = .ok
      { segments := segments .code none ((effects {} lines).flatMap (·.events)),
        diagnostics := reports 1 (effects {} lines) } := by
  unfold assemble
  rw [run_eq h]
  rfl

/-! ## A line with an error -/

theorem marks_of_fault {line : Text} (h : (Content.read .code line).2 ≠ none) :
    (Content.read .code line).1.marks = [] := by
  unfold Content.read at h ⊢
  dsimp only at h ⊢
  split at h
  · exact absurd rfl h
  · rfl

/-- A faulty line that names no label changes nothing that later lines depend on, and what it
adds to a section of code is empty. -/
theorem Context.Does.of_fault {c : Context} {line : Line} {e : Effect} (h : c.Does line e)
    (hf : e.fault ≠ none) (hl : e.context.labels = c.labels) :
    e.context = c ∧ e.notice = none ∧
      ∃ pieces : List Content, e.events = pieces.map .content ∧
        (c.kind = .code → ∀ p ∈ pieces, p.marks = []) := by
  cases h with
  | blank => exact absurd rfl hf
  | redundant _ => exact absurd rfl hf
  | enter _ _ => exact absurd rfl hf
  | fail _ => exact ⟨rfl, rfl, [], rfl, fun _ p hp => absurd hp List.not_mem_nil⟩
  | label _ _ _ => exact absurd rfl hf
  -- The label stays named, whatever is wrong behind it.
  | labelled _ _ _ _ => exact absurd hl (List.cons_ne_self _ _)
  | content _ =>
    refine ⟨rfl, rfl, [_], rfl, fun hk => List.forall_mem_singleton.2 ?_⟩
    rw [hk] at hf ⊢
    exact marks_of_fault hf

/-! ## Segments and what is in them -/

def Kinded : SegmentKind → List Event → Prop
  | _, [] => True
  | _, .enter kind :: rest => Kinded kind rest
  | kind, .label _ :: rest => Kinded kind rest
  | kind, .content p :: rest => p.kind = kind ∧ Kinded kind rest

theorem kind_read (kind : SegmentKind) (line : Text) : (Content.read kind line).1.kind = kind := by
  unfold Content.read
  cases kind with
  | code =>
    dsimp only
    split
    · rfl
    · rfl
  | data => rfl
  | text =>
    dsimp only
    split
    · rfl
    · rfl

theorem Context.Does.kinded {c : Context} {line : Line} {e : Effect} (h : c.Does line e)
    {events : List Event} (hk : Kinded e.context.kind events) :
    Kinded c.kind (e.events ++ events) := by
  cases h with
  | labelled _ _ _ _ => exact ⟨kind_read c.kind _, hk⟩
  | content _ => exact ⟨kind_read c.kind _, hk⟩
  | _ => exact hk

theorem kinded_effects (c : Context) (lines : List Text) :
    Kinded c.kind ((effects c lines).flatMap (·.events)) := by
  induction lines generalizing c with
  | nil => trivial
  | cons line rest ih =>
    rw [effects, List.flatMap_cons]
    exact (c.does_read line).kinded (ih _)

theorem marks_toList (draft : Option Draft) :
    (draft.toList.map (·.segment)).flatMap Segment.marks = draft.toList.flatMap Draft.marks := by
  rw [List.flatMap_map]
  exact List.flatMap_congr fun d _ => d.marks_segment

/-- Segments hold what a draft and the events behind it say, wherever they are cut. -/
theorem marks_segments {p : Place} {events : List Event} (h : Kinded p.kind events)
    {draft : Option Draft} (hd : ∀ d ∈ draft, d.content.kind = p.kind) :
    (segments p.kind draft events).flatMap Segment.marks =
      draft.toList.flatMap Draft.marks ++ (p.entries events).flatMap (·.marks) := by
  induction events generalizing p draft with
  | nil => simpa [segments, Place.entries] using marks_toList draft
  | cons event rest ih =>
    cases event with
    | enter kind =>
      have hnone : ∀ d ∈ (none : Option Draft), d.content.kind = kind := by simp
      have hrest := ih (p := ⟨kind, p.turn + 1⟩) h hnone
      rw [segments, List.flatMap_append, marks_toList, hrest]
      rfl
    | label n =>
      have fresh : (segments p.kind (some ⟨[n], .empty p.kind⟩) rest).flatMap Segment.marks =
          (p.entries (.label n :: rest)).flatMap (·.marks) := by
        rw [ih h (by simpa using Content.kind_empty p.kind)]
        exact congrArg (· ++ _) ((List.append_nil _).trans (Draft.marks_label p.kind n))
      cases draft with
      | none => exact fresh
      | some d =>
        have hkind : d.content.kind = p.kind := hd d rfl
        rw [segments]
        by_cases hempty : d.content.isEmpty = true
        · rw [if_pos hempty, ih h (by simpa using hkind)]
          simp [Place.entries, Place.label, Draft.marks_name hempty, hkind]
        · rw [if_neg hempty, List.flatMap_cons, Draft.marks_segment, fresh]
          simp
    | content c =>
      obtain ⟨hc, hrest⟩ := h
      cases draft with
      | none =>
        rw [segments, ih hrest (by simpa using hc)]
        simp [Place.entries, Place.content, Draft.marks]
      | some d =>
        have hkind : d.content.kind = p.kind := hd d rfl
        rw [segments, ih hrest (by simpa [Content.kind_append] using hkind)]
        simp [Place.entries, Place.content, Draft.marks_fill (hc.trans hkind.symm)]

theorem entries_without {pieces : List Content} (h : ∀ q ∈ pieces, q.marks = []) (p : Place)
    (front back : List Event) :
    (p.entries (front ++ (pieces.map .content ++ back))).flatMap (·.marks) =
      (p.entries (front ++ back)).flatMap (·.marks) := by
  induction front generalizing p with
  | nil =>
    induction pieces with
    | nil => rfl
    | cons q pieces ih =>
      obtain ⟨hq, hpieces⟩ := List.forall_mem_cons.1 h
      have hrest := ih hpieces
      simpa [Place.entries, Place.content, hq] using hrest
  | cons event front ih =>
    cases event with
    | enter kind => exact ih ⟨kind, p.turn + 1⟩
    | label n => exact congrArg (_ ++ ·) (ih p)
    | content c => exact congrArg (_ ++ ·) (ih p)

/-! ## Sources -/

/-- The effects of a source, with the line behind some lines put apart. -/
theorem effects_middle (before after : List Text) (line : Text) :
    effects {} (before ++ line :: after) = effects {} before ++
      (Context.behind {} before).read line ::
        effects ((Context.behind {} before).read line).context after :=
  effects_append {} before (line :: after)

theorem diagnostics_of_assemble {lines : List Text} {a : Assembly} (h : assemble lines = .ok a) :
    a.diagnostics = reports 1 (effects {} lines) := by
  rw [assemble_eq (effects_of_assemble h).1] at h
  cases h
  rfl

theorem fault_of_mem_errors {before after : List Text} {line : Text} {a : Assembly}
    {d : Diagnostic} (h : assemble (before ++ line :: after) = .ok a) (hd : d ∈ a.errors)
    (hline : d.line = some (before.length + 1)) :
    ∃ error, ((Context.behind {} before).read line).fault = some (.source error) ∧
      d = { notice := .badLine error, line := some (1 + before.length) } := by
  obtain ⟨hd, hs⟩ := List.mem_filter.1 hd
  rw [diagnostics_of_assemble h, effects_middle] at hd
  have hlength := length_effects {} before
  obtain ⟨notice, hnotice, rfl⟩ := remark_of_mem_reports hd (by rw [hline, hlength, Nat.add_comm])
  have hs : notice.severity = .error := of_decide_eq_true hs
  rw [hlength]
  rcases List.mem_append.1 hnotice with hnotice | hnotice
  · rw [(Context.does_read _ line).severity_notice (Option.mem_toList.1 hnotice)] at hs
    cases hs
  · split at hnotice
    · next error hfault => exact ⟨error, hfault, by rw [List.mem_singleton.1 hnotice]⟩
    · cases hnotice

theorem marks_of_assemble {lines : List Text} {a : Assembly} (h : assemble lines = .ok a) :
    a.segments.flatMap Segment.marks =
      (Place.entries {} ((effects {} lines).flatMap (·.events))).flatMap (·.marks) := by
  rw [(effects_of_assemble h).2.1]
  have hnone : ∀ d ∈ (none : Option Draft), d.content.kind = .code := by simp
  exact marks_segments (p := {}) (kinded_effects {} lines) hnone

/-- An empty line in place of one with an error that names no label takes this error away, and
nothing else that is said about the source.  If the line stands in a section of code, the
segments hold the same labels, instructions and other things in the same order. -/
theorem assemble_without_line {before after : List Text} {line : Text} {a : Assembly}
    {d : Diagnostic} (h : assemble (before ++ line :: after) = .ok a) (hd : d ∈ a.errors)
    (hline : d.line = some (before.length + 1))
    (hlabel : ((Context.behind {} before).read line).context.labels =
      (Context.behind {} before).labels) :
    ∃ b front back, assemble (before ++ [] :: after) = .ok b ∧
      a.errors = front ++ d :: back ∧ b.errors = front ++ back ∧ b.warnings = a.warnings ∧
      ((Context.behind {} before).kind = .code →
        b.segments.flatMap Segment.marks = a.segments.flatMap Segment.marks) := by
  obtain ⟨error, hfault, rfl⟩ := fault_of_mem_errors h hd hline
  obtain ⟨hcontext, hquiet, pieces, hevents, hempty⟩ :=
    (Context.does_read _ line).of_fault (by simp [hfault]) hlabel
  -- Both sources have the same effects, but for those of the line itself.
  have hold := effects_middle before after line
  have hnew := effects_middle before after []
  rw [hcontext] at hold
  rw [read_blank] at hnew
  have hall := (effects_of_assemble h).1
  have hreported : ∀ e ∈ effects {} (before ++ [] :: after), e.Reported := by
    rw [hold] at hall
    obtain ⟨hbefore, hrest⟩ := List.forall_mem_append.1 hall
    obtain ⟨-, hafter⟩ := List.forall_mem_cons.1 hrest
    rw [hnew]
    refine List.forall_mem_append.2 ⟨hbefore, List.forall_mem_cons.2 ⟨fun fault h => ?_, hafter⟩⟩
    cases h
  obtain ⟨b, hb⟩ : ∃ b, assemble (before ++ [] :: after) = .ok b := ⟨_, assemble_eq hreported⟩
  have hremarks : ((Context.behind {} before).read line).remarks = [.badLine error] := by
    simp [Effect.remarks, hfault, hquiet]
  have hsilent : Effect.remarks { context := Context.behind {} before } = [] := rfl
  obtain ⟨front, back, ha, hb'⟩ := reports_replace 1 (effects {} before)
    (effects (Context.behind {} before) after) hremarks hsilent
  rw [← hold, ← diagnostics_of_assemble h, length_effects] at ha
  rw [← hnew, ← diagnostics_of_assemble hb] at hb'
  refine ⟨b, front.filter (·.severity = .error), back.filter (·.severity = .error), hb,
    ?_, ?_, ?_, fun hk => ?_⟩
  · rw [Assembly.errors, ha, List.filter_append]
    rfl
  · rw [Assembly.errors, hb', List.filter_append]
  · rw [Assembly.warnings, Assembly.warnings, ha, hb', List.filter_append, List.filter_append]
    rfl
  · rw [marks_of_assemble h, marks_of_assemble hb, hold, hnew]
    simp only [List.flatMap_append, List.flatMap_cons, hevents, List.nil_append]
    exact (entries_without (hempty hk) _ _ _).symm

/-- Without the line, the second section of code holds no segment.  The section entered twice and
the label named twice behind it are still reported. -/
theorem assemble_without_line_sampler :
    let before : List Text := [.ofString "0: nop", .ofString ".data", .ofString "01",
      .ofString ".code"]
    let after : List Text := [.ofString ".data", .ofString ".data", .ofString "7: 02",
      .ofString "7: 03"]
    let line : Text := .ofString "nop 1"
    let d : Diagnostic := { notice := .badLine (.argumentCount false 0 1), line := some 5 }
    let a : Assembly :=
      { segments := [.code [0] [⟨.plain 0 "nop" [], []⟩], .data [] [0x01], .code [] [],
          .data [7] [0x02]]
        diagnostics := [d, { notice := .redundantSection (.ofString ".data"), line := some 7 },
          { notice := .badLine (.duplicateLabel 7), line := some 9 }] }
    assemble (before ++ line :: after) = .ok a ∧ d ∈ a.errors ∧
      ∃ b front back, assemble (before ++ [] :: after) = .ok b ∧
        a.errors = front ++ d :: back ∧ b.errors = front ++ back ∧ b.warnings = a.warnings ∧
        b.segments.flatMap Segment.marks = a.segments.flatMap Segment.marks := by
  intro before after line d a
  have h : assemble (before ++ line :: after) = .ok a := by decide +kernel
  have hd : d ∈ a.errors := by decide +kernel
  obtain ⟨b, front, back, hb, ha, herrors, hwarnings, hmarks⟩ :=
    assemble_without_line h hd rfl (by decide +kernel)
  exact ⟨h, hd, b, front, back, hb, ha, herrors, hwarnings, hmarks (by decide +kernel)⟩

end Script
end QuestArchive
