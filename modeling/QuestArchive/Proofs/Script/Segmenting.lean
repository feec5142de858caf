import Mathlib.Data.List.SplitBy
import QuestArchive.Proofs.Script.Joining

/-!
# Where segments start

The segments of a source without errors hold what its lines say, in the order of the lines and
each thing in a segment of the section it stands in.  A segment starts with the first label or
content of the source, with the first behind a directive that changes the section, and with a
label behind content; nothing else starts one.
-/

namespace QuestArchive

open Script

/-! ## What segments hold -/

/-- A label of a segment, with the kind of the segment, or one of the things that it holds. -/
inductive Mark where
  | label (kind : SegmentKind) (n : Int)
  | instruction (i : Instruction)
  | byte (b : UInt8)
  | rune (r : Rune)
  deriving DecidableEq, Repr

def Segment.marks (s : Segment) : List Mark :=
  s.labels.map (.label s.kind) ++
    match s with
    | .code _ instructions => instructions.map .instruction
    | .data _ bytes => bytes.map .byte
    | .text _ value => value.map .rune

namespace Script

namespace Content

def marks : Content → List Mark
  | code instructions => instructions.map .instruction
  | data bytes => bytes.map .byte
  | text pieces => pieces.flatten.map .rune

theorem marks_append {p q : Content} (h : q.kind = p.kind) :
    (p.append q).marks = p.marks ++ q.marks := by
  cases p with
  | code is =>
    cases q with
    | code js => exact List.map_append
    | data bs => cases h
    | text us => cases h
  | data bs =>
    cases q with
    | code js => cases h
    | data cs => exact List.map_append
    | text us => cases h
  | text ts =>
    cases q with
    | code js => cases h
    | data bs => cases h
    | text us => simp [append, marks]

theorem isEmpty_empty (kind : SegmentKind) : (empty kind).isEmpty = true := by
  cases kind
  all_goals rfl

theorem marks_of_isEmpty {p : Content} (h : p.isEmpty = true) : p.marks = [] := by
  cases p with
  | code is => simp [marks, List.isEmpty_iff.1 h]
  | data bs => simp [marks, List.isEmpty_iff.1 h]
  | text ts => simp [marks, List.isEmpty_iff.1 h]

theorem isEmpty_append {p q : Content} (h : q.kind = p.kind) :
    (p.append q).isEmpty = (p.isEmpty && q.isEmpty) := by
  rw [Bool.eq_iff_iff, Bool.and_eq_true]
  cases p with
  | code is =>
    cases q with
    | code js => simp [append, isEmpty]
    | data bs => cases h
    | text us => cases h
  | data bs =>
    cases q with
    | code js => cases h
    | data cs => simp [append, isEmpty]
    | text us => cases h
  | text ts =>
    cases q with
    | code js => cases h
    | data bs => cases h
    | text us => simp [append, isEmpty]

theorem WellFormed.kind_eq {p : Content} {k : SegmentKind} (h : p.WellFormed k) : p.kind = k := by
  cases p with
  | code is => exact h.1.symm
  | data bs => exact Eq.symm h
  | text ts => exact Eq.symm h

end Content

namespace Draft

def marks (d : Draft) : List Mark :=
  d.labels.map (fun n : Nat => .label d.content.kind n) ++ d.content.marks

theorem marks_segment (d : Draft) : d.segment.marks = d.marks := by
  obtain ⟨labels, content⟩ := d
  cases content
  all_goals simp [segment, Content.segment, Segment.marks, Segment.labels, Segment.kind, marks,
    Content.marks, Content.kind]

theorem kind_segment (d : Draft) : d.segment.kind = d.content.kind := by
  obtain ⟨labels, content⟩ := d
  cases content
  all_goals rfl

theorem marks_label (kind : SegmentKind) (n : Nat) :
    Draft.marks ⟨[n], .empty kind⟩ = [.label kind n] := by
  simp [marks, Content.kind_empty, Content.marks_of_isEmpty (Content.isEmpty_empty kind)]

/-- A label goes behind the labels of a draft that has no content yet. -/
theorem marks_name {d : Draft} (h : d.content.isEmpty = true) (n : Nat) :
    ({ d with labels := d.labels ++ [n] } : Draft).marks =
      d.marks ++ [.label d.content.kind n] := by
  simp [marks, Content.marks_of_isEmpty h]

theorem marks_fill {d : Draft} {p : Content} (h : p.kind = d.content.kind) :
    ({ d with content := d.content.append p } : Draft).marks = d.marks ++ p.marks := by
  simp [marks, Content.kind_append, Content.marks_append h]

end Draft

/-! ## What a source says -/

/-- A place in a source: the kind of the section there, and how many directives before it have
changed the section. -/
structure Place where
  kind : SegmentKind := .code
  turn : Nat := 0

/-- What a line says: a label, or the things that it adds to a section. -/
structure Entry where
  place : Place
  isLabel : Bool
  marks : List Mark

namespace Place

def label (p : Place) (n : Nat) : Entry := ⟨p, true, [.label p.kind n]⟩

def content (p : Place) (marks : List Mark) : Entry := ⟨p, false, marks⟩

/-- What content adds to a section of some kind, if all of it can be read: an instruction with
the pushes in front of it, bytes, or the characters of a literal. -/
def contentMarks? (kind : SegmentKind) (t : Text) : Option (List Mark) :=
  match kind with
  | .code => (readCall t).toOption.map (·.map .instruction)
  | .data => (t.words.mapM byte?).map (·.map .byte)
  | .text => (readLiteral t).toOption.map (·.map .rune)

def line? (p : Place) (line : Text) : Option (List Entry × Place) :=
  match Line.ofText line with
  | .blank => some ([], p)
  | .directive marker =>
    (SegmentKind.ofMarker? marker).map fun kind =>
      ([], if kind = p.kind then p else ⟨kind, p.turn + 1⟩)
  | .label digits rest =>
    let label := p.label (Literal.ofDigits 10 digits)
    if rest.isEmpty then some ([label], p)
    else (contentMarks? p.kind rest).map fun marks => ([label, p.content marks], p)
  | .content t => (contentMarks? p.kind t).map fun marks => ([p.content marks], p)

def lines? (p : Place) : List Text → Option (List Entry)
  | [] => some []
  | line :: rest => do
    let (front, q) ← p.line? line
    return front ++ (← q.lines? rest)

end Place

/-- What is said goes into the segment of what is said before it: both stand in one section, and
it is no label behind content. -/
def Entry.continues (before entry : Entry) : Bool :=
  before.place.turn = entry.place.turn && (before.isLabel || !entry.isLabel)

/-- A segment holds what some entries say, all of them from sections of its kind. -/
structure Entry.Fill (entries : List Entry) (s : Segment) : Prop where
  marks : s.marks = entries.flatMap (·.marks)
  kind : ∀ e ∈ entries, e.place.kind = s.kind

/-! ## Events and what they say -/

def Place.entries (p : Place) : List Event → List Entry
  | [] => []
  | .enter kind :: rest => entries ⟨kind, p.turn + 1⟩ rest
  | .label n :: rest => p.label n :: entries p rest
  | .content c :: rest => p.content c.marks :: entries p rest

theorem mapM_byte?_of_readBytes {tokens : List Text} (h : (readBytes tokens).2 = none) :
    tokens.mapM byte? = some (readBytes tokens).1 := by
  induction tokens with
  | nil => rfl
  | cons token rest ih =>
    unfold readBytes at h ⊢
    split at h
    · cases h
    · next b hb => simp [List.mapM_cons, hb, ih h]

theorem contentMarks?_of_read {kind : SegmentKind} {t : Text}
    (h : (Content.read kind t).2 = none) :
    Place.contentMarks? kind t = some (Content.read kind t).1.marks := by
  cases kind with
  | code =>
    unfold Content.read at h ⊢
    dsimp only at h ⊢
    split at h
    · next hc =>
      simp only [Place.contentMarks?, hc]
      rfl
    · cases h
  | data =>
    simp only [Place.contentMarks?, mapM_byte?_of_readBytes h]
    rfl
  | text =>
    unfold Content.read at h ⊢
    dsimp only at h ⊢
    split at h
    · next u hu =>
      simp only [Place.contentMarks?, hu, Content.marks, List.flatten_singleton]
      rfl
    · cases h

theorem line?_of_read {c : Context} {line : Text} {p : Place} (hk : p.kind = c.kind)
    (h : (c.read line).fault = none) :
    ∃ front q, p.line? line = some (front, q) ∧ q.kind = (c.read line).context.kind ∧
      ∀ events, p.entries ((c.read line).events ++ events) = front ++ q.entries events := by
  have hdoes := c.does_read line
  unfold Place.line?
  generalize Line.ofText line = l at hdoes ⊢
  generalize c.read line = e at h hdoes ⊢
  cases hdoes with
  | blank => exact ⟨[], p, rfl, hk, fun _ => rfl⟩
  | redundant same =>
    refine ⟨[], p, ?_, hk, fun _ => rfl⟩
    dsimp only
    rw [same, ← hk, Option.map_some, if_pos rfl]
  | @enter _ kind known other =>
    refine ⟨[], ⟨kind, p.turn + 1⟩, ?_, rfl, fun _ => rfl⟩
    dsimp only
    rw [known, Option.map_some, hk, if_neg other]
  | fail _ => cases h
  | @label _ n number _ _ =>
    subst number
    exact ⟨_, p, rfl, hk, fun _ => rfl⟩
  | @labelled _ n rest number _ _ more =>
    refine ⟨[p.label n, p.content (Content.read c.kind rest).1.marks], p, ?_, hk, fun _ => rfl⟩
    dsimp only
    rw [if_neg (mt List.isEmpty_iff.1 more), hk, contentMarks?_of_read h, number]
    rfl
  | @content t _ =>
    refine ⟨[p.content (Content.read c.kind t).1.marks], p, ?_, hk, fun _ => rfl⟩
    dsimp only
    rw [hk, contentMarks?_of_read h]
    rfl

theorem lines?_of_effects {c : Context} {lines : List Text} {p : Place} (hk : p.kind = c.kind)
    (h : ∀ e ∈ effects c lines, e.fault = none) :
    p.lines? lines = some (p.entries ((effects c lines).flatMap (·.events))) := by
  induction lines generalizing c p with
  | nil => rfl
  | cons line rest ih =>
    obtain ⟨hline, hrest⟩ := List.forall_mem_cons.1 h
    obtain ⟨front, q, hfront, hq, hevents⟩ := line?_of_read hk hline
    simp only [Place.lines?, hfront, Option.bind_eq_bind, Option.bind_some, ih hq hrest]
    rw [effects, List.flatMap_cons, hevents]
    rfl

/-! ## Events and segments -/

/-- A draft holds what the entries since its start say, and goes on from the last one: with a
label while it has no content, and with content. -/
structure Draft.Holds (d : Draft) (p : Place) (entries : List Entry) : Prop where
  fill : Entry.Fill entries d.segment
  kind : d.content.kind = p.kind
  nonempty : entries ≠ []
  chain : entries.IsChain fun a b => a.continues b
  last : ∀ e ∈ entries.getLast?, e.place.turn = p.turn ∧ e.isLabel = d.content.isEmpty

theorem Draft.Holds.single {d : Draft} {p : Place} {e : Entry} (hp : e.place = p)
    (hk : d.content.kind = p.kind) (hm : d.marks = e.marks)
    (hl : e.isLabel = d.content.isEmpty) : d.Holds p [e] := by
  subst hp
  refine ⟨⟨?_, ?_⟩, hk, List.cons_ne_nil _ _, List.isChain_singleton e, ?_⟩
  · simpa [Draft.marks_segment] using hm
  · simpa [Draft.kind_segment] using hk.symm
  · simpa using hl

theorem Draft.Holds.concat {d d' : Draft} {p : Place} {entries : List Entry} {e : Entry}
    (h : d.Holds p entries) (hp : e.place = p) (hk : d'.content.kind = p.kind)
    (hm : d'.marks = d.marks ++ e.marks) (hl : e.isLabel = d'.content.isEmpty)
    (hnext : d.content.isEmpty = true ∨ e.isLabel = false) : d'.Holds p (entries ++ [e]) := by
  subst hp
  obtain ⟨⟨hmarks, hkind⟩, hkd, hne, hchain, hlast⟩ := h
  rw [Draft.marks_segment] at hmarks
  rw [Draft.kind_segment, hkd] at hkind
  refine ⟨⟨?_, ?_⟩, hk, List.append_ne_nil_of_right_ne_nil _ (List.cons_ne_nil _ _), ?_, ?_⟩
  · simp [Draft.marks_segment, hm, hmarks]
  · rw [Draft.kind_segment, hk]
    exact List.forall_mem_append.2 ⟨hkind, List.forall_mem_singleton.2 rfl⟩
  · refine List.isChain_append.2 ⟨hchain, List.isChain_singleton e, fun a ha b hb => ?_⟩
    obtain ⟨hturn, hlabel⟩ := hlast a ha
    cases hb
    simpa [Entry.continues, hturn, hlabel] using hnext
  · simpa using hl

theorem holds_label (p : Place) (n : Nat) : Draft.Holds ⟨[n], .empty p.kind⟩ p [p.label n] :=
  .single rfl (Content.kind_empty p.kind) (Draft.marks_label p.kind n)
    (Content.isEmpty_empty p.kind).symm

theorem holds_content {p : Place} {c : Content} (hc : c.kind = p.kind) (hne : c.isEmpty = false) :
    Draft.Holds ⟨[], c⟩ p [p.content c.marks] :=
  .single rfl hc rfl hne.symm

namespace Draft.Holds

variable {d : Draft} {p : Place} {entries : List Entry}

theorem name (h : d.Holds p entries) (hempty : d.content.isEmpty = true) (n : Nat) :
    Draft.Holds { d with labels := d.labels ++ [n] } p (entries ++ [p.label n]) := by
  refine h.concat rfl h.kind ?_ hempty.symm (Or.inl hempty)
  rw [Draft.marks_name hempty, h.kind]
  rfl

theorem add (h : d.Holds p entries) {c : Content} (hc : c.kind = p.kind) (hne : c.isEmpty = false) :
    Draft.Holds { d with content := d.content.append c } p (entries ++ [p.content c.marks]) := by
  refine h.concat rfl ((Content.kind_append _ _).trans h.kind) ?_ ?_ (Or.inr rfl)
  · exact Draft.marks_fill (hc.trans h.kind.symm)
  · rw [Content.isEmpty_append (hc.trans h.kind.symm), hne, Bool.and_false]
    rfl

/-- A draft ends where the next entry does not continue its last one. -/
theorem close (h : d.Holds p entries) {behind : List Entry} {segments : List Segment}
    (hnext : ∀ a ∈ entries.getLast?, ∀ b ∈ behind.head?, a.continues b = false)
    (hbehind : List.Forall₂ Entry.Fill (behind.splitBy Entry.continues) segments) :
    List.Forall₂ Entry.Fill ((entries ++ behind).splitBy Entry.continues)
      (d.segment :: segments) := by
  rw [List.splitBy_append hnext, List.splitBy_of_isChain h.nonempty h.chain]
  exact .cons h.fill hbehind

end Draft.Holds

theorem turn_le_entries {p : Place} {events : List Event} :
    ∀ e ∈ p.entries events, p.turn ≤ e.place.turn := by
  induction events generalizing p with
  | nil => simp [Place.entries]
  | cons event rest ih =>
    cases event with
    | enter kind => exact fun e he => Nat.le_of_succ_le (ih (p := ⟨kind, p.turn + 1⟩) e he)
    | label n => exact List.forall_mem_cons.2 ⟨Nat.le_refl _, ih⟩
    | content c => exact List.forall_mem_cons.2 ⟨Nat.le_refl _, ih⟩

/-- The segments of events in order are filled by the entries of the events, cut where one does
not continue the one before it. -/
theorem segments_fill {c : Context} {events : List Event} (h : InOrder c events) {p : Place}
    (hk : p.kind = c.kind) :
    List.Forall₂ Entry.Fill ((p.entries events).splitBy Entry.continues)
        (segments p.kind none events) ∧
      ∀ {d : Draft} {entries : List Entry}, d.Holds p entries →
        List.Forall₂ Entry.Fill ((entries ++ p.entries events).splitBy Entry.continues)
          (segments p.kind (some d) events) := by
  induction h generalizing p with
  | nil c =>
    refine ⟨.nil, fun hd => ?_⟩
    exact hd.close (fun a _ b hb => by cases hb) .nil
  | @enter c kind events _ ih =>
    obtain ⟨hnone, -⟩ := ih (p := ⟨kind, p.turn + 1⟩) rfl
    refine ⟨hnone, fun hd => hd.close (fun a ha b hb => ?_) hnone⟩
    have hle := turn_le_entries (p := ⟨kind, p.turn + 1⟩) b (List.mem_of_mem_head? hb)
    have hne : a.place.turn ≠ b.place.turn := by
      rw [(hd.last a ha).1]
      exact Nat.ne_of_lt hle
    simp [Entry.continues, hne]
  | @label c n events _ _ _ ih =>
    obtain ⟨-, hsome⟩ := ih hk
    have hfresh := hsome (holds_label p n)
    refine ⟨hfresh, fun {d entries} hd => ?_⟩
    rw [segments]
    by_cases hempty : d.content.isEmpty = true
    · rw [if_pos hempty]
      have hnamed := hsome (hd.name hempty n)
      rwa [List.append_assoc] at hnamed
    · rw [if_neg hempty]
      refine hd.close (fun a ha b hb => ?_) hfresh
      obtain ⟨-, hlabel⟩ := hd.last a ha
      cases hb
      simp [Entry.continues, hlabel, hempty, Place.label]
  | @content c q events _ hq hne _ ih =>
    obtain ⟨-, hsome⟩ := ih hk
    have hkind : q.kind = p.kind := hq.kind_eq.trans hk.symm
    refine ⟨hsome (holds_content hkind hne), fun {d entries} hd => ?_⟩
    have hadded := hsome (hd.add hkind hne)
    rwa [List.append_assoc] at hadded

theorem flatMap_marks_of_fill {groups : List (List Entry)} {segments : List Segment}
    (h : List.Forall₂ Entry.Fill groups segments) :
    groups.flatten.flatMap (·.marks) = segments.flatMap Segment.marks := by
  induction h with
  | nil => rfl
  | cons hfill _ ih =>
    rw [List.flatten_cons, List.flatMap_append, List.flatMap_cons, hfill.marks, ih]

/-! ## Sources -/

/-- A source without errors is read in full.  Its segments hold what its lines say, in order, and
they are filled by the parts that these entries fall into when they are cut at each label behind
content and at each change of section. -/
theorem assemble_segments {lines : List Text} {a : Assembly} (h : assemble lines = .ok a)
    (herr : a.errors = []) :
    ∃ entries, Place.lines? {} lines = some entries ∧
      a.segments.flatMap Segment.marks = entries.flatMap (·.marks) ∧
      List.Forall₂ Entry.Fill (entries.splitBy Entry.continues) a.segments := by
  obtain ⟨hclean, hsegments⟩ := events_of_assemble h herr
  obtain ⟨hfill, -⟩ := segments_fill (inOrder_effects hclean) (p := {}) rfl
  rw [← hsegments] at hfill
  refine ⟨_, lines?_of_effects rfl hclean, ?_, hfill⟩
  rw [← flatMap_marks_of_fill hfill, List.flatten_splitBy]

/-- A section without a label, two labels in a row, and a label behind an empty literal. -/
theorem assemble_segments_sampler :
    let lines : List Text := [.ofString "0: nop", .ofString ".data", .ofString "01 FF",
      .ofString "7:", .ofString "9: AB", .ofString ".string", .ofString "5: \"\"",
      .ofString "6: \"ab\"", .ofString ".code", .ofString "ret"]
    let segments : List Segment := [.code [0] [⟨.plain 0 "nop" [], []⟩], .data [] [0x01, 0xFF],
      .data [7, 9] [0xAB], .text [5] [], .text [6] [.char 'a', .char 'b'],
      .code [] [⟨.plain 0x01 "ret" [], []⟩]]
    assemble lines = .ok { segments, diagnostics := [] } ∧
      ∃ entries, Place.lines? {} lines = some entries ∧
        segments.flatMap Segment.marks = entries.flatMap (·.marks) ∧
        List.Forall₂ Entry.Fill (entries.splitBy Entry.continues) segments := by
  intro lines segments
  have h : assemble lines = .ok { segments, diagnostics := [] } := by decide +kernel
  exact ⟨h, assemble_segments h rfl⟩

end Script
end QuestArchive
