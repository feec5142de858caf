import QuestArchive.Proofs.Script.Assembling
import QuestArchive.Proofs.Script.Typing

/-!
# What a source without errors is assembled into

The lines of such a source give events that are in order: sections change, labels are new and
content follows a label.  The segments that come of events in order carry the labels of the
source as they stand in it, the first one is labelled, and one without a label holds something.
-/

namespace QuestArchive

/-! ## Text that is not blank -/

namespace Text

def Shows (t : Text) : Prop := ∃ r ∈ t, r.isBlank = false

theorem shows_trim {t : Text} (h : trim t ≠ []) : (trim t).Shows := by
  have hne : (trimLeft t).reverse.dropWhile Rune.isBlank ≠ [] := mt List.reverse_eq_nil_iff.2 h
  have hhead := List.head_dropWhile_not Rune.isBlank hne
  exact ⟨_, List.mem_reverse.2 (List.head_mem hne), hhead⟩

theorem wordsFrom_ne_nil {word t : Text} (h : word ≠ [] ∨ t.Shows) : wordsFrom word t ≠ [] := by
  induction t generalizing word with
  | nil =>
    rcases h with h | ⟨r, hr, -⟩
    · rw [wordsFrom, if_neg (mt List.isEmpty_iff.1 h)]
      exact List.cons_ne_nil _ _
    · exact absurd hr List.not_mem_nil
  | cons r t ih =>
    rw [wordsFrom]
    by_cases hr : r.isBlank = true
    · rw [if_pos hr]
      by_cases hw : word = []
      · subst hw
        obtain ⟨q, hq, hshow⟩ := h.resolve_left fun hne => hne rfl
        rcases List.mem_cons.1 hq with rfl | hq
        · rw [hr] at hshow
          cases hshow
        · exact ih (Or.inr ⟨q, hq, hshow⟩)
      · rw [if_neg (mt List.isEmpty_iff.1 hw)]
        exact List.cons_ne_nil _ _
    · rw [if_neg hr]
      exact ih (Or.inl (List.cons_ne_nil _ _))

theorem words_ne_nil {t : Text} (h : t.Shows) : words t ≠ [] := wordsFrom_ne_nil (Or.inr h)

end Text

namespace Script

/-! ## Content -/

/-- Content of a section: code is made of well-formed instructions. -/
def Content.WellFormed (kind : SegmentKind) : Content → Prop
  | .code is => kind = .code ∧ ∀ i ∈ is, i.WellFormed
  | .data _ => kind = .data
  | .text _ => kind = .text

theorem Content.wellFormed_empty (kind : SegmentKind) :
    (Content.empty kind).WellFormed kind := by
  cases kind with
  | code => exact ⟨rfl, fun i hi => absurd hi List.not_mem_nil⟩
  | data => exact rfl
  | text => exact rfl

theorem Content.WellFormed.append {kind : SegmentKind} {p q : Content} (hp : p.WellFormed kind)
    (hq : q.WellFormed kind) : (p.append q).WellFormed kind := by
  cases p with
  | code is =>
    cases q with
    | code js => exact ⟨hp.1, List.forall_mem_append.2 ⟨hp.2, hq.2⟩⟩
    | data bs => exact hp
    | text ts => exact hp
  | data bs =>
    cases q
    all_goals exact hp
  | text ts =>
    cases q
    all_goals exact hp

theorem Content.isEmpty_append_left {p q : Content} (h : p.isEmpty = false) :
    (p.append q).isEmpty = false := by
  have front : ∀ {α : Type} {xs : List α} (ys : List α), xs.isEmpty = false →
      (xs ++ ys).isEmpty = false := fun ys h => List.isEmpty_eq_false_iff.2
    (List.append_ne_nil_of_left_ne_nil (List.isEmpty_eq_false_iff.1 h) ys)
  cases p with
  | code is =>
    cases q with
    | code js => exact front js h
    | data bs => exact h
    | text ts => exact h
  | data bs =>
    cases q with
    | code js => exact h
    | data cs => exact front cs h
    | text ts => exact h
  | text ts =>
    cases q with
    | code js => exact h
    | data bs => exact h
    | text us => exact front us h

theorem readBytes_ne_nil {tokens : List Text} (hne : tokens ≠ [])
    (h : (readBytes tokens).2 = none) : (readBytes tokens).1 ≠ [] := by
  obtain ⟨token, rest, rfl⟩ := List.exists_cons_of_ne_nil hne
  unfold readBytes at h ⊢
  split at h
  · cases h
  · exact List.cons_ne_nil _ _

/-- A line of content that has no fault adds something well formed. -/
theorem Content.wellFormed_read {kind : SegmentKind} {line : Text} (hshow : line.Shows)
    (h : (Content.read kind line).2 = none) :
    (Content.read kind line).1.WellFormed kind ∧ (Content.read kind line).1.isEmpty = false := by
  cases kind with
  | code =>
    unfold Content.read at h ⊢
    dsimp only at h ⊢
    split at h
    · next hc =>
      obtain ⟨hne, hall⟩ := wellFormed_of_readCall hc
      exact ⟨⟨rfl, hall⟩, List.isEmpty_eq_false_iff.2 hne⟩
    · cases h
  | data =>
    exact ⟨rfl, List.isEmpty_eq_false_iff.2 (readBytes_ne_nil (Text.words_ne_nil hshow) h)⟩
  | text =>
    unfold Content.read at h ⊢
    dsimp only at h ⊢
    split at h
    · exact ⟨rfl, rfl⟩
    · cases h

/-! ## Lines without a fault -/

def Line.number? : Line → Option Nat
  | .label digits _ => some (Literal.ofDigits 10 digits)
  | _ => none

inductive Step (c : Context) : Option Nat → List Event → Context → Prop where
  | idle : Step c none [] c
  | enter {kind : SegmentKind} (other : kind ≠ c.kind) : Step c none [.enter kind] { c with kind }
  | content {p : Content} (labelled : c.labels ≠ []) (wellFormed : p.WellFormed c.kind)
      (nonempty : p.isEmpty = false) : Step c none [.content p] c
  | label {n : Nat} (high : n ≤ 0xFFFF) (new : n ∉ c.labels) :
      Step c (some n) [.label n] { c with labels := n :: c.labels }
  | labelled {n : Nat} {p : Content} (high : n ≤ 0xFFFF) (new : n ∉ c.labels)
      (wellFormed : p.WellFormed c.kind) (nonempty : p.isEmpty = false) :
      Step c (some n) [.label n, .content p] { c with labels := n :: c.labels }

theorem shows_of_label? {t : Text} {line : Line} (h : label? t = some line) :
    ∃ digits rest, line = .label digits rest ∧ (rest ≠ [] → rest.Shows) := by
  unfold label? at h
  obtain ⟨ds, -, h⟩ := Option.bind_eq_some_iff.1 h
  split at h
  · split at h
    · cases h
    · cases h
      exact ⟨_, _, rfl, Text.shows_trim⟩
  · cases h

theorem shows_ofText {line : Text} :
    (∀ t, Line.ofText line = .content t → t.Shows) ∧
      ∀ digits rest, Line.ofText line = .label digits rest → rest ≠ [] → rest.Shows := by
  unfold Line.ofText
  dsimp only
  split
  · exact And.intro (fun _ h => nomatch h) fun _ _ h => nomatch h
  · exact And.intro (fun _ h => nomatch h) fun _ _ h => nomatch h
  · next hne _ =>
    cases hl : label? (Text.trim (stripComment line)) with
    | none =>
      refine And.intro (fun t h => ?_) fun _ _ h => nomatch h
      cases h
      exact Text.shows_trim hne
    | some l =>
      obtain ⟨digits, rest, rfl, hshow⟩ := shows_of_label? hl
      refine And.intro (fun _ h => nomatch h) fun digits rest h => ?_
      cases h
      exact hshow

theorem Context.Does.step {c : Context} {line : Line} {e : Effect} (h : c.Does line e)
    (hcontent : ∀ t, line = .content t → t.Shows)
    (hlabel : ∀ digits rest, line = .label digits rest → rest ≠ [] → rest.Shows)
    (hf : e.fault = none) : Step c line.number? e.events e.context := by
  cases h with
  | blank => exact .idle
  | redundant _ => exact .idle
  | enter _ other => exact .enter other
  | fail _ => cases hf
  | label number high new =>
    subst number
    exact .label high new
  | labelled number high new more =>
    subst number
    obtain ⟨hw, hne⟩ := Content.wellFormed_read (hlabel _ _ rfl more) hf
    exact .labelled high new hw hne
  | content started =>
    obtain ⟨hw, hne⟩ := Content.wellFormed_read (hcontent _ rfl) hf
    exact .content started hw hne

theorem step_read {c : Context} {line : Text} (h : (c.read line).fault = none) :
    Step c (Line.ofText line).number? (c.read line).events (c.read line).context :=
  (c.does_read line).step shows_ofText.1 shows_ofText.2 h

/-! ## Events in order -/

/-- Events that can follow where the section and the labels in use are those of a context. -/
inductive InOrder : Context → List Event → Prop where
  | nil (c : Context) : InOrder c []
  | enter {c : Context} {kind : SegmentKind} {events : List Event}
      (h : InOrder { c with kind } events) : InOrder c (.enter kind :: events)
  | label {c : Context} {n : Nat} {events : List Event} (high : n ≤ 0xFFFF) (new : n ∉ c.labels)
      (h : InOrder { c with labels := n :: c.labels } events) : InOrder c (.label n :: events)
  | content {c : Context} {p : Content} {events : List Event} (labelled : c.labels ≠ [])
      (wellFormed : p.WellFormed c.kind) (nonempty : p.isEmpty = false) (h : InOrder c events) :
      InOrder c (.content p :: events)

theorem inOrder_step {c c' : Context} {n? : Option Nat} {front events : List Event}
    (h : Step c n? front c') (hrest : InOrder c' events) : InOrder c (front ++ events) := by
  cases h with
  | idle => exact hrest
  | enter _ => exact .enter hrest
  | content hl hw hne => exact .content hl hw hne hrest
  | label high new => exact .label high new hrest
  | labelled high new hw hne =>
    exact .label high new (.content (List.cons_ne_nil _ _) hw hne hrest)

theorem inOrder_effects {c : Context} {lines : List Text}
    (h : ∀ e ∈ effects c lines, e.fault = none) :
    InOrder c ((effects c lines).flatMap (·.events)) := by
  induction lines generalizing c with
  | nil => exact .nil c
  | cons line rest ih =>
    obtain ⟨hline, hrest⟩ := List.forall_mem_cons.1 h
    exact inOrder_step (step_read hline) (ih hrest)

/-! ## The labels of a source -/

def numbers (lines : List Text) : List Nat := lines.filterMap fun line => (Line.ofText line).number?

def Event.label? : Event → Option Nat
  | .label n => some n
  | _ => none

theorem label?_cons (n : Nat) (events : List Event) :
    (Event.label n :: events).filterMap Event.label? = n :: events.filterMap Event.label? := rfl

theorem label?_step {c c' : Context} {n? : Option Nat} {events : List Event}
    (h : Step c n? events c') : events.filterMap Event.label? = n?.toList := by
  cases h
  all_goals rfl

theorem label?_effects {c : Context} {lines : List Text}
    (h : ∀ e ∈ effects c lines, e.fault = none) :
    ((effects c lines).flatMap (·.events)).filterMap Event.label? = numbers lines := by
  induction lines generalizing c with
  | nil => rfl
  | cons line rest ih =>
    obtain ⟨hline, hrest⟩ := List.forall_mem_cons.1 h
    rw [effects, List.flatMap_cons, List.filterMap_append, label?_step (step_read hline), ih hrest]
    unfold numbers
    rw [List.filterMap_cons]
    cases (Line.ofText line).number? with
    | none => rfl
    | some n => rfl

/-- Labels of events in order are new, each behind those before it. -/
theorem nodup_of_inOrder {c : Context} {events : List Event} (h : InOrder c events) :
    (events.filterMap Event.label?).Nodup ∧
      ∀ n ∈ events.filterMap Event.label?, n ∉ c.labels := by
  induction h with
  | nil c => exact ⟨List.nodup_nil, fun n hn => absurd hn List.not_mem_nil⟩
  | enter _ ih => exact ih
  | content _ _ _ _ ih => exact ih
  | @label c n events _ new _ ih =>
    rw [label?_cons]
    refine ⟨List.nodup_cons.2 ⟨fun hm => ih.2 n hm List.mem_cons_self, ih.1⟩, ?_⟩
    refine List.forall_mem_cons.2 ⟨new, fun m hm hc => ?_⟩
    exact ih.2 m hm (List.mem_cons_of_mem n hc)

/-! ## Segments -/

/-- A segment as it comes of a source: its labels are in range, its code is well formed, and
without labels it holds something. -/
structure Settled (s : Segment) : Prop where
  labels : ∀ n ∈ s.labels, 0 ≤ n ∧ n ≤ 0xFFFF
  instructions : ∀ ls is, s = .code ls is → ∀ i ∈ is, i.WellFormed
  unlabelled : s.labels = [] → ¬s.Hollow

structure Draft.Fits (d : Draft) (kind : SegmentKind) : Prop where
  labels : ∀ n ∈ d.labels, n ≤ 0xFFFF
  content : d.content.WellFormed kind
  unlabelled : d.labels = [] → d.content.isEmpty = false

theorem labels_segment (d : Draft) : d.segment.labels = d.labels.map fun n : Nat => (n : Int) := by
  unfold Draft.segment Content.segment
  cases d.content
  all_goals rfl

theorem Draft.Fits.settled {d : Draft} {kind : SegmentKind} (h : d.Fits kind) :
    Settled d.segment := by
  constructor
  · intro n hn
    rw [labels_segment] at hn
    obtain ⟨m, hm, rfl⟩ := List.mem_map.1 hn
    have hhigh := h.labels m hm
    exact ⟨by omega, by omega⟩
  · intro ls is hs
    obtain ⟨labels, content⟩ := d
    cases content with
    | code js =>
      cases hs
      exact h.content.2
    | data bs => cases hs
    | text ts => cases hs
  · intro hl hh
    rw [labels_segment, List.map_eq_nil_iff] at hl
    have hne := h.unlabelled hl
    obtain ⟨labels, content⟩ := d
    cases content with
    | code js =>
      rw [show js = [] from hh] at hne
      cases hne
    | data bs =>
      rw [show bs = [] from hh] at hne
      cases hne
    | text ts => exact hh

theorem settled_segments {c : Context} {events : List Event} (h : InOrder c events)
    {draft : Option Draft} (hd : ∀ d ∈ draft, d.Fits c.kind) :
    ∀ s ∈ segments c.kind draft events, Settled s := by
  have last : ∀ {kind : SegmentKind} {draft : Option Draft}, (∀ d ∈ draft, d.Fits kind) →
      ∀ s ∈ draft.toList.map (·.segment), Settled s := by
    intro kind draft hd s hs
    obtain ⟨d, hm, rfl⟩ := List.mem_map.1 hs
    exact (hd d (Option.mem_toList.1 hm)).settled
  have going : ∀ {kind : SegmentKind} {d : Draft}, d.Fits kind → ∀ d' ∈ some d, d'.Fits kind :=
    fun h d' hd => Option.some.inj hd ▸ h
  induction h generalizing draft with
  | nil c => exact last hd
  | enter _ ih =>
    rw [segments]
    exact List.forall_mem_append.2 ⟨last hd, ih fun d hd => by cases hd⟩
  | @label c n events high _ _ ih =>
    have hfresh : Draft.Fits ⟨[n], .empty c.kind⟩ c.kind :=
      ⟨List.forall_mem_singleton.2 high, Content.wellFormed_empty c.kind,
        fun hl => absurd hl (List.cons_ne_nil _ _)⟩
    cases draft with
    | none => exact ih (going hfresh)
    | some d =>
      have hfits := hd d rfl
      rw [segments]
      split
      · refine ih (going ⟨?_, hfits.content, fun hl => ?_⟩)
        · exact List.forall_mem_append.2 ⟨hfits.labels, List.forall_mem_singleton.2 high⟩
        · exact absurd hl (List.append_ne_nil_of_right_ne_nil _ (List.cons_ne_nil _ _))
      · exact List.forall_mem_cons.2 ⟨hfits.settled, ih (going hfresh)⟩
  | @content c p events _ hp hne _ ih =>
    cases draft with
    | none => exact ih (going ⟨fun n hn => absurd hn List.not_mem_nil, hp, fun _ => hne⟩)
    | some d =>
      have hfits := hd d rfl
      refine ih (going ⟨hfits.labels, hfits.content.append hp, fun hl => ?_⟩)
      exact Content.isEmpty_append_left (hfits.unlabelled hl)

/-- The segments carry the labels of the draft and then those of the events. -/
theorem labels_segments (kind : SegmentKind) (draft : Option Draft) (events : List Event) :
    (segments kind draft events).flatMap Segment.labels =
      ((draft.toList.flatMap (·.labels)) ++ events.filterMap Event.label?).map
        fun n : Nat => (n : Int) := by
  have last : ∀ draft : Option Draft,
      (draft.toList.map (·.segment)).flatMap Segment.labels =
        (draft.toList.flatMap (·.labels)).map fun n : Nat => (n : Int) := by
    intro draft
    cases draft with
    | none => rfl
    | some d => simp [labels_segment]
  fun_induction segments kind draft events with
  | case1 kind draft => rw [last, List.filterMap_nil, List.append_nil]
  | case2 kind draft kind' rest ih =>
    rw [List.flatMap_append, last, ih, ← List.map_append]
    rfl
  | case3 kind n rest ih => exact ih
  | case4 kind n rest d _ ih =>
    rw [ih, label?_cons, List.append_cons]
    simp
  | case5 kind n rest d _ ih =>
    rw [List.flatMap_cons, labels_segment, ih, label?_cons, ← List.map_append]
    simp
  | case6 kind p rest ih => exact ih
  | case7 kind p rest d ih => exact ih

theorem head_segments (kind : SegmentKind) (d : Draft) (events : List Event) :
    ∃ s rest more, segments kind (some d) events = s :: rest ∧
      s.labels = (d.labels ++ more).map fun n : Nat => (n : Int) := by
  induction events generalizing d with
  | nil => exact ⟨d.segment, [], [], rfl, by rw [List.append_nil, labels_segment]⟩
  | cons e events ih =>
    cases e with
    | enter kind' =>
      exact ⟨d.segment, _, [], rfl, by rw [List.append_nil, labels_segment]⟩
    | label n =>
      rw [segments]
      split
      · obtain ⟨s, rest, more, he, hl⟩ := ih { d with labels := d.labels ++ [n] }
        exact ⟨s, rest, n :: more, he, by rw [hl, List.append_assoc]; rfl⟩
      · exact ⟨d.segment, _, [], rfl, by rw [List.append_nil, labels_segment]⟩
    | content p => exact ih { d with content := d.content.append p }

/-- The first segment is labelled, as no content comes before a label. -/
theorem first_segments {c : Context} {events : List Event} (h : InOrder c events)
    (hc : c.labels = []) : ∀ s ∈ (segments c.kind none events).head?, s.labels ≠ [] := by
  induction h with
  | nil c => exact fun s hs => by cases hs
  | enter _ ih => exact ih hc
  | @label c n events _ _ _ _ =>
    obtain ⟨s, rest, more, he, hl⟩ := head_segments c.kind ⟨[n], .empty c.kind⟩ events
    show ∀ s ∈ (segments c.kind (some ⟨[n], .empty c.kind⟩) events).head?, s.labels ≠ []
    rw [he]
    intro t ht
    rw [← Option.some.inj ht, hl]
    exact List.cons_ne_nil _ _
  | content hl _ _ _ _ => exact absurd hc hl

/-! ## Sources -/

theorem fault_of_lineErrors {n : Nat} {es : List Effect} (h : ∀ e ∈ es, e.Reported)
    (herr : lineErrors n es = []) : ∀ e ∈ es, e.fault = none := by
  induction es generalizing n with
  | nil => exact fun e he => absurd he List.not_mem_nil
  | cons e es ih =>
    obtain ⟨hrep, hrest⟩ := List.forall_mem_cons.1 h
    rw [lineErrors] at herr
    cases hf : e.fault with
    | none =>
      rw [hf] at herr
      exact List.forall_mem_cons.2 ⟨hf, ih hrest herr⟩
    | some fault =>
      obtain ⟨error, rfl⟩ := hrep fault hf
      rw [hf] at herr
      cases herr

structure Drafted (lines : List Text) (segments : List Segment) : Prop where
  labels : segments.flatMap Segment.labels = (numbers lines).map fun n : Nat => (n : Int)
  distinct : (segments.flatMap Segment.labels).Nodup
  first : ∀ s ∈ segments.head?, s.labels ≠ []
  settled : ∀ s ∈ segments, Settled s

/-- A source without errors has no fault in any line, and its segments are those of its events. -/
theorem events_of_assemble {lines : List Text} {a : Assembly} (h : assemble lines = .ok a)
    (herr : a.errors = []) : (∀ e ∈ effects {} lines, e.fault = none) ∧
      a.segments = segments .code none ((effects {} lines).flatMap (·.events)) := by
  obtain ⟨hrep, hsegments, herrors⟩ := effects_of_assemble h
  exact ⟨fault_of_lineErrors hrep (herrors.symm.trans herr), hsegments⟩

theorem drafted_of_assemble {lines : List Text} {a : Assembly} (h : assemble lines = .ok a)
    (herr : a.errors = []) : Drafted lines a.segments := by
  obtain ⟨hclean, hsegments⟩ := events_of_assemble h herr
  have horder := inOrder_effects hclean
  have hlabels := labels_segments .code none ((effects {} lines).flatMap (·.events))
  rw [label?_effects hclean] at hlabels
  rw [hsegments]
  refine ⟨hlabels, ?_, first_segments horder rfl,
    settled_segments horder fun d hd => by cases hd⟩
  rw [hlabels]
  refine List.Nodup.map (fun _ _ he => Int.ofNat.inj he) ?_
  rw [← label?_effects hclean]
  exact (nodup_of_inOrder horder).1

end Script
end QuestArchive
