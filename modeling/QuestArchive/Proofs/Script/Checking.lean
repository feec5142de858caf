import QuestArchive.Proofs.Script.Locality

/-!
# What any source is assembled into

An error costs a source what cannot be read of its line.  Whatever else is wrong with the source,
its labels are checked when they are named and its instructions when they are read, so that all
labels of the segments are in range and apart and all instructions are well formed.
-/

namespace QuestArchive
namespace Script

/-! ## One line -/

def Event.Sound : Event → Prop
  | .content p => ∀ i, Mark.instruction i ∈ p.marks → i.WellFormed
  | _ => True

theorem sound_read (kind : SegmentKind) (t : Text) :
    (Event.content (Content.read kind t).1).Sound := by
  intro i hi
  cases kind with
  | code =>
    cases hc : readCall t with
    | error fault => simp [Content.read, hc, Content.marks] at hi
    | ok is =>
      have hmem : i ∈ is := by simpa [Content.read, hc, Content.marks] using hi
      exact (wellFormed_of_readCall hc).2 i hmem
  | data => simp [Content.read, Content.marks] at hi
  | text =>
    cases hl : readLiteral t with
    | error fault => simp [Content.read, hl, Content.marks] at hi
    | ok u => simp [Content.read, hl, Content.marks] at hi

section

variable {c : Context} {line : Line} {e : Effect}

theorem Context.Does.sound (h : c.Does line e) : ∀ event ∈ e.events, event.Sound := by
  cases h with
  | blank => exact fun event hm => absurd hm List.not_mem_nil
  | redundant _ => exact fun event hm => absurd hm List.not_mem_nil
  | fail _ => exact fun event hm => absurd hm List.not_mem_nil
  | enter _ _ => exact List.forall_mem_singleton.2 trivial
  | label _ _ _ => exact List.forall_mem_singleton.2 trivial
  | labelled _ _ _ _ =>
    exact List.forall_mem_cons.2 ⟨trivial, List.forall_mem_singleton.2 (sound_read c.kind _)⟩
  | content _ => exact List.forall_mem_singleton.2 (sound_read c.kind _)

/-- A line names one label or none.  The one that it names is in range and was not in use. -/
theorem Context.Does.named (h : c.Does line e) :
    ∃ n? : Option Nat, e.events.filterMap Event.label? = n?.toList ∧
      e.context.labels = n?.toList ++ c.labels ∧ ∀ n ∈ n?, n ≤ 0xFFFF ∧ n ∉ c.labels := by
  cases h with
  | @label _ n _ high new => exact ⟨some n, rfl, rfl, by simpa using ⟨high, new⟩⟩
  | @labelled _ n _ _ high new _ => exact ⟨some n, rfl, rfl, by simpa using ⟨high, new⟩⟩
  | _ => exact ⟨none, rfl, rfl, by simp⟩

end

/-! ## Lines one after the other -/

theorem sound_effects (c : Context) (lines : List Text) :
    ∀ event ∈ (effects c lines).flatMap (·.events), event.Sound := by
  induction lines generalizing c with
  | nil => simp [effects]
  | cons line rest ih =>
    rw [effects, List.flatMap_cons]
    exact List.forall_mem_append.2 ⟨(c.does_read line).sound, ih _⟩

/-- The labels that lines name are in range, and each is new behind those before it. -/
theorem named_effects (c : Context) (lines : List Text) :
    (((effects c lines).flatMap (·.events)).filterMap Event.label?).Nodup ∧
      ∀ n ∈ ((effects c lines).flatMap (·.events)).filterMap Event.label?,
        n ≤ 0xFFFF ∧ n ∉ c.labels := by
  induction lines generalizing c with
  | nil => simp [effects]
  | cons line rest ih =>
    obtain ⟨n?, hevents, hlabels, hnew⟩ := (c.does_read line).named
    obtain ⟨hnodup, hrest⟩ := ih (c.read line).context
    rw [effects, List.flatMap_cons, List.filterMap_append, hevents]
    rw [hlabels] at hrest
    cases n? with
    | none => exact ⟨hnodup, hrest⟩
    | some n =>
      -- The lines behind this one find its label in use.
      refine ⟨List.nodup_cons.2 ⟨fun hm => ?_, hnodup⟩, List.forall_mem_cons.2 ⟨hnew n rfl, ?_⟩⟩
      · exact (hrest n hm).2 List.mem_cons_self
      · exact fun m hm => ⟨(hrest m hm).1, fun hc => (hrest m hm).2 (List.mem_cons_of_mem n hc)⟩

/-- What is said from a place on holds only instructions of the events there. -/
theorem wellFormed_of_entries {p : Place} {events : List Event} (h : ∀ event ∈ events, event.Sound)
    {i : Instruction} (hi : .instruction i ∈ (p.entries events).flatMap (·.marks)) :
    i.WellFormed := by
  induction events generalizing p with
  | nil => simp [Place.entries] at hi
  | cons event rest ih =>
    obtain ⟨hevent, hrest⟩ := List.forall_mem_cons.1 h
    cases event with
    | enter kind => exact ih hrest (p := ⟨kind, p.turn + 1⟩) hi
    | label n =>
      rw [Place.entries, List.flatMap_cons, List.mem_append] at hi
      rcases hi with hi | hi
      · simp [Place.label] at hi
      · exact ih hrest hi
    | content q =>
      rw [Place.entries, List.flatMap_cons, List.mem_append] at hi
      rcases hi with hi | hi
      · exact hevent i hi
      · exact ih hrest hi

/-! ## Sources -/

/-- Whatever a source is assembled into, with errors or without: its labels are in range and no
two of them are the same, and each instruction is an operation of the table with arguments that
suit its parameters. -/
theorem assemble_sound {lines : List Text} {a : Assembly} (h : assemble lines = .ok a) :
    (a.segments.flatMap Segment.labels).Nodup ∧
      (∀ n ∈ a.segments.flatMap Segment.labels, 0 ≤ n ∧ n ≤ 0xFFFF) ∧
      ∀ s ∈ a.segments, ∀ labels instructions, s = .code labels instructions →
        ∀ i ∈ instructions, i.WellFormed := by
  obtain ⟨hnodup, hnamed⟩ := named_effects {} lines
  have hlabels := labels_segments .code none ((effects {} lines).flatMap (·.events))
  rw [← (effects_of_assemble h).2.1, Option.toList_none, List.flatMap_nil, List.nil_append]
    at hlabels
  rw [hlabels]
  refine ⟨hnodup.map fun _ _ he => Int.ofNat.inj he, fun n hn => ?_, ?_⟩
  · obtain ⟨m, hm, rfl⟩ := List.mem_map.1 hn
    have high := (hnamed m hm).1
    omega
  · rintro s hs labels instructions rfl i hi
    refine wellFormed_of_entries (p := {}) (sound_effects {} lines) ?_
    rw [← marks_of_assemble h]
    exact List.mem_flatMap.2
      ⟨_, hs, List.mem_append_right _ (List.mem_map_of_mem hi)⟩

/-- A register and a label out of range, a label named twice and an argument too many are left out
of segments that still hold a push, a number and a list. -/
theorem assemble_sound_faulty :
    let lines : List Text := [.ofString "0: set_floor_handler 0, r300", .ofString "0: ret",
      .ofString "window_msg \"a\"", .ofString "fleti r5, 1", .ofString "70000: ret",
      .ofString "7: switch_jmp r3, 0, 7", .ofString "9: nop 0"]
    let segments : List Segment := [
      .code [0] [⟨.pushString, [⟨.text [.char 'a'], 4⟩]⟩, ⟨.pops 0x5A "window_msg" [.string], []⟩,
        ⟨.plain 0xF904 "fleti" [.registerTuple, .float],
          [⟨.int 5, 1⟩, ⟨.float ⟨0x3FF0000000000000⟩, 4⟩]⟩],
      .code [7] [⟨.plain 0x40 "switch_jmp" [.register, .codeLabels],
        [⟨.int 3, 1⟩, ⟨.list [0, 7], 5⟩]⟩],
      .code [9] []]
    let error (n : Nat) (cause : SourceError) : Diagnostic :=
      { notice := .badLine cause, line := some n }
    assemble lines = .ok { segments, diagnostics := [error 1 (.registerRange (.int 300)),
        error 2 (.duplicateLabel 0), error 5 (.labelRange 70000),
        error 7 (.argumentCount false 0 1)] } ∧
      (segments.flatMap Segment.labels).Nodup ∧
      (∀ n ∈ segments.flatMap Segment.labels, 0 ≤ n ∧ n ≤ 0xFFFF) ∧
      ∀ s ∈ segments, ∀ labels instructions, s = .code labels instructions →
        ∀ i ∈ instructions, i.WellFormed := by
  intro lines segments error
  have h : assemble lines = .ok { segments, diagnostics := [error 1 (.registerRange (.int 300)),
      error 2 (.duplicateLabel 0), error 5 (.labelRange 70000),
      error 7 (.argumentCount false 0 1)] } := by
    decide +kernel
  exact ⟨h, assemble_sound h⟩

end Script
end QuestArchive
