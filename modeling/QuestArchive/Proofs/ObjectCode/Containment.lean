import QuestArchive.Proofs.ObjectCode.Laying
import QuestArchive.Proofs.ObjectCode.Stopping

/-!
# Code that cannot be read

The lenient mode ends a segment where an instruction is broken: it keeps what stands in
front of that place, makes data of what follows, and says so.  The strict mode gives up.
One fault stops both of them: a byte above the two that open a long number is no
operation's number.
-/

namespace QuestArchive
namespace ObjectCode

/-- A fault says where the code of a start breaks, behind some instructions. -/
def BreaksAt (code : Array UInt8) (o : Int) (st : Start) (is : List Instruction) (e : Fault) :
    Prop :=
  ∃ (n : Nat) (cause : Fault), e = .unreadable (o + n) st.mainLabel cause ∧
    isMalformed cause = true ∧ Breaks (Cursor.span code o st.stop) is n

/-- The faults for which a script cannot be read: code that breaks at a place, in the strict
mode, and a byte at such a place that is no operation's number. -/
inductive Refused (s : Input) : Fault → Prop where
  | broken {o : Int} {st : Start} {is : List Instruction} {e : Fault} (hm : s.mode = .strict)
      (hst : s.starts[o]? = some st) (h : BreaksAt s.code o st is e) : Refused s e
  | unknown {o : Int} {st : Start} {is : List Instruction} {n : Nat} {b : UInt8} {rest : Bytes}
      (hst : s.starts[o]? = some st) (h : Breaks (Cursor.span s.code o st.stop) is n)
      (hv : (Cursor.span s.code o st.stop).drop n = b :: rest) (hb : 0xFA ≤ b.toNat) :
      Refused s (.unknownOpcode b.toNat)

theorem size_of_breaks {bs : Bytes} {is : List Instruction} {n : Nat} (h : Breaks bs is n) :
    total (is.map (·.size)) = n := by
  rw [size_of_storesAll h.before, List.length_take, Nat.min_eq_left (Nat.le_of_lt h.inside)]

namespace Input

variable {s : Input} {offsets : List Int}

/-- What comes of reading code at a start: all of it, the instructions up to where it
breaks, or nothing. -/
theorem readCode_cases (hs : Charts s.size offsets s.starts) {o : Int} {st : Start}
    (hst : s.starts[o]? = some st) (h0 : 0 ≤ o) (ho : o ≤ s.size) (next : Option Nat) :
    (∃ f is, readCode s.mode s.code o st next = .ok f ∧ f.segment = .code st.names is ∧
      (f.notices = [] ∧ o + total (is.map (·.size)) = st.stop ∨ s.mode = .lenient ∧
        ∃ e, f.notices = [.unreadableInstruction e] ∧ BreaksAt s.code o st is e)) ∨
    ∃ e, readCode s.mode s.code o st next = .error e ∧ Refused s e := by
  have hin : (Cursor.window s.code o st.stop).Inside :=
    Cursor.inside_window h0 (le_stop hs hst ho) (hs.stop_le hst)
  unfold readCode
  cases hi : readInstructions (.window s.code o st.stop) with
  | mk is problem =>
    dsimp only
    cases problem with
    | none =>
      obtain ⟨front, rest, hv, hs, hrest⟩ := readInstructions_stored hin
      rw [hi] at hs hrest
      have hlen := Cursor.length_of_view hin hv
      rw [hrest rfl] at hlen
      refine Or.inl ⟨_, is, rfl, rfl, Or.inl ⟨rfl, ?_⟩⟩
      rw [size_of_storesAll hs]
      simpa [Cursor.window] using hlen
    | some stop =>
      obtain ⟨position, cause⟩ := stop
      obtain ⟨n, rfl, hb, hc⟩ := readInstructions_breaks hin hi
      have hzero : (Cursor.window s.code o st.stop).position + (n : Int) = n := by
        simp [Cursor.position, Cursor.window]
      rw [hzero]
      dsimp only
      rcases hc with hc | ⟨b, rest, hv, hbyte, rfl⟩
      · have hm : isMalformed cause = true := hc
        rw [if_pos hm]
        have hat : BreaksAt s.code o st is (.unreadable (o + n) st.mainLabel cause) :=
          ⟨n, cause, rfl, hm, hb⟩
        cases hmode : s.mode with
        | strict => exact Or.inr ⟨_, rfl, .broken hmode hst hat⟩
        | lenient => exact Or.inl ⟨_, is, rfl, rfl, Or.inr ⟨rfl, _, rfl, hat⟩⟩
      · exact Or.inr ⟨_, rfl, .unknown hst hb hv hbyte⟩

/-! ## What following references recovers -/

/-- Every broken place that was reported lies behind the instructions of a segment, and a
segment of code that does not reach its stop was reported. -/
structure Recovers (s : Input) (p : Progress) : Prop where
  apart : ∀ {o : Int} {st : Start}, p.todo[o]? = some st → p.done[o]? = none
  reported : ∀ {e : Fault}, .unreadableInstruction e ∈ p.notices.toList → s.mode = .lenient ∧
    ∃ o st is, s.starts[o]? = some st ∧ BreaksAt s.code o st is e ∧
      p.done[o]? = some (.code st.names is)
  whole : ∀ {o : Int} {ls : List Int} {is : List Instruction}, p.done[o]? = some (.code ls is) →
    ∃ st, s.starts[o]? = some st ∧ (o + total (is.map (·.size)) = st.stop ∨
      ∃ e, .unreadableInstruction e ∈ p.notices.toList ∧ BreaksAt s.code o st is e)

theorem Recovers.note {p : Progress} (h : s.Recovers p) {n : Notice}
    (hn : ∀ e, n ≠ .unreadableInstruction e) : s.Recovers (p.note n) := by
  have hmem : ∀ e, .unreadableInstruction e ∈ (p.note n).notices.toList ↔
      .unreadableInstruction e ∈ p.notices.toList := by
    intro e
    rw [Progress.mem_notices_note]
    exact ⟨fun h => h.resolve_right fun he => hn e he.symm, Or.inl⟩
  refine ⟨h.apart, fun he => h.reported ((hmem _).1 he), fun hd => ?_⟩
  obtain ⟨st, hst, hw⟩ := h.whole hd
  refine ⟨st, hst, hw.imp_right ?_⟩
  intro hrep
  obtain ⟨e, he, hb⟩ := hrep
  exact ⟨e, (hmem e).2 he, hb⟩

/-- Placing what was read at a start keeps what is known of the other segments. -/
theorem Recovers.place {p : Progress} (h : s.Recovers p) {o : Int} {st : Start} {f : Finding}
    (hst : s.starts[o]? = some st) (ht : p.todo[o]? = some st)
    (hr : ∀ e, .unreadableInstruction e ∈ f.notices → s.mode = .lenient ∧
      ∃ is, BreaksAt s.code o st is e ∧ f.segment = .code st.names is)
    (hw : ∀ ls is, f.segment = .code ls is → o + total (is.map (·.size)) = st.stop ∨
      ∃ e, .unreadableInstruction e ∈ f.notices ∧ BreaksAt s.code o st is e) :
    s.Recovers (p.place o f) := by
  have hfree := h.apart ht
  have hdone := fun o' => p.done_place o o' f
  have hmem : ∀ n, n ∈ (p.place o f).notices.toList ↔ n ∈ p.notices.toList ∨ n ∈ f.notices :=
    fun n => Progress.mem_notices_place
  constructor
  · intro o' st' h'
    obtain ⟨hne, h'⟩ := Progress.todo_of_place h'
    rw [hdone, if_neg hne]
    exact h.apart h'
  · intro e he
    rcases (hmem _).1 he with he | he
    · obtain ⟨hm, o', st', is, hst', hb, hd⟩ := h.reported he
      refine ⟨hm, o', st', is, hst', hb, ?_⟩
      rw [hdone, if_neg ?_, hd]
      rintro rfl
      rw [hfree] at hd
      cases hd
    · obtain ⟨hm, is, hb, hseg⟩ := hr e he
      refine ⟨hm, o, st, is, hst, hb, ?_⟩
      rw [hdone, if_pos rfl, hseg]
  · intro o' ls is hd
    rw [hdone] at hd
    split at hd
    · next he =>
      subst he
      refine ⟨st, hst, (hw ls is (Option.some.inj hd)).imp_right ?_⟩
      intro hrep
      obtain ⟨e, he, hb⟩ := hrep
      exact ⟨e, (hmem _).2 (Or.inr he), hb⟩
    · obtain ⟨st', hst', hw'⟩ := h.whole hd
      refine ⟨st', hst', hw'.imp_right ?_⟩
      intro hrep
      obtain ⟨e, he, hb⟩ := hrep
      exact ⟨e, (hmem _).2 (Or.inl he), hb⟩

theorem preserves_recovers (hs : Charts s.size offsets s.starts)
    (h0 : ∀ {o : Int} {st : Start}, s.starts[o]? = some st → 0 ≤ o) :
    Preserves s fun queue p => Sound s queue p ∧ s.Recovers p where
  unknown h ho := ⟨(preserves_sound hs h0).unknown h.1 ho, h.2.note fun _ => Notice.noConfusion⟩
  known h ho ht := ⟨(preserves_sound hs h0).known h.1 ho ht, h.2⟩
  past h ho ht hlt :=
    ⟨(preserves_sound hs h0).past h.1 ho ht hlt, h.2.note fun _ => Notice.noConfusion⟩
  place := by
    intro r queue p o st f h ho ht hle hf
    refine ⟨(preserves_sound hs h0).place h.1 ho ht hle hf, ?_⟩
    have hst := h.1.todo ht
    unfold readAt at hf
    split at hf
    · cases hf
      exact h.2.place hst ht (fun e he => absurd he List.not_mem_nil) fun _ _ => nofun
    · next hk => exact absurd hk (h.1.queue r List.mem_cons_self)
    · rcases readCode_cases hs hst (h0 hst) hle ((s.starts[st.stop]?).bind (·.labels.head?)) with
        ⟨f', is, hok, hseg, hcases⟩ | ⟨e, herror, -⟩
      · rw [hok] at hf
        cases hf
        refine h.2.place hst ht ?_ ?_
        · intro e he
          rcases hcases with ⟨hnil, -⟩ | ⟨hm, e', hone, hb⟩
          · rw [hnil] at he
            exact absurd he List.not_mem_nil
          · rw [hone, List.mem_singleton] at he
            cases he
            exact ⟨hm, is, hb, hseg⟩
        · intro ls is' hseg'
          rw [hseg] at hseg'
          cases hseg'
          refine hcases.imp And.right ?_
          intro hrep
          obtain ⟨-, e, hone, hb⟩ := hrep
          refine ⟨e, ?_, hb⟩
          rw [hone]
          exact List.mem_singleton_self _
      · rw [herror] at hf
        cases hf

/-! ## Segments of code after filling -/

variable {done : Std.TreeMap Int Segment}

/-- What follows a segment up to its stop is data. -/
theorem fill_behind (h : s.Reads offsets done) {o : Int} {seg : Segment} {st : Start}
    (hd : done[o]? = some seg) (hst : s.starts[o]? = some st) (hlt : o + seg.extent < st.stop) :
    ∃ ls bytes, (s.fill done)[o + seg.extent]? = some (.data ls bytes) := by
  have hb := h.bounds hd
  have hstop := h.charts.stop_le hst
  rcases h.cover (x := o + seg.extent) (by omega) (by omega) with
    ⟨o', seg', hd', hl, hr⟩ | ⟨g, hg, hl, hr⟩
  · exfalso
    rcases Int.lt_trichotomy o o' with hlt' | rfl | hlt'
    · obtain ⟨st', hst'⟩ := h.start hd'
      have hle := h.charts.stop_le_next hst hst' hlt'
      omega
    · rw [hd] at hd'
      cases hd'
      omega
    · have ha := h.done_apart hd' hd hlt'
      omega
  · have ha := h.missing_apart hg hd
    have heq : g.1 = o + seg.extent := by omega
    exact ⟨_, _, (getElem?_fill h).2 (Or.inl ⟨g.2, heq ▸ hg, rfl⟩)⟩

theorem done_of_fill_code (h : s.Reads offsets done) {o : Int} {ls : List Int}
    {is : List Instruction} (hf : (s.fill done)[o]? = some (.code ls is)) :
    done[o]? = some (.code ls is) ∧ ls = s.labelsOf o := by
  refine ⟨?_, labels_fill h hf⟩
  rcases (getElem?_fill h).1 hf with ⟨e, -, he⟩ | ⟨-, hd⟩
  · cases he
  · exact hd

end Input

/-! ## Reading -/

/-- A script was read as far as it can be.  Where code breaks, the instructions in front of
that place are kept, the bytes there begin a segment of data, and a diagnostic says where
and why; and code that comes to no such place goes on up to its stop. -/
structure Salvages (mode : Mode) (stored : Stored) (r : Reading) : Prop where
  reported : ∀ e, { notice := .unreadableInstruction e } ∈ r.diagnostics → mode = .lenient ∧
    ∃ o st is, (input mode stored).starts[o]? = some st ∧
      BreaksAt stored.code.toArray o st is e ∧
      (is ≠ [] → (o, .code st.names is) ∈ laid 0 r.segments) ∧
      ∃ ls bytes, (o + total (is.map (·.size)), .data ls bytes) ∈ laid 0 r.segments
  whole : ∀ o ls is, (o, .code ls is) ∈ laid 0 r.segments →
    ∃ st, (input mode stored).starts[o]? = some st ∧ ls = st.names ∧
      (o + total (is.map (·.size)) = st.stop ∨
        ∃ e, { notice := .unreadableInstruction e } ∈ r.diagnostics ∧
          BreaksAt stored.code.toArray o st is e)

theorem salvages_reading {mode : Mode} {stored : Stored} {p : Progress}
    (h : (input mode stored).Reads stored.offsets p.done)
    (hp : (input mode stored).Recovers p) :
    Salvages mode stored (reading (input mode stored) p) := by
  have hmem : ∀ e, { notice := .unreadableInstruction e } ∈
      (reading (input mode stored) p).diagnostics ↔
        .unreadableInstruction e ∈ p.notices.toList := by
    intro e
    rw [mem_diagnostics_reading, or_iff_left]
    intro hn
    obtain ⟨_, _, _, _, _, _, he⟩ := Input.mem_unplaced.1 hn
    cases he
  constructor
  · intro e he
    obtain ⟨hm, o, st, is, hst, hb, hd⟩ := hp.reported ((hmem e).1 he)
    refine ⟨hm, o, st, is, hst, hb, fun hne => ?_, ?_⟩
    · refine (mem_laid_reading h).2 (Input.fill_of_done h hd fun _ => ?_)
      obtain ⟨n, cause, -, -, hbreak⟩ := hb
      have hpos := length_pos_of_storesAll hbreak.before hne
      have hsize := size_of_storesAll hbreak.before
      show 0 < total (is.map (·.size))
      omega
    · obtain ⟨n, cause, -, -, hbreak⟩ := hb
      have hsize := size_of_breaks hbreak
      have hlt := hbreak.inside
      have hlen : ((Cursor.span (input mode stored).code o st.stop).length : Int) = st.stop - o :=
        Cursor.length_span (h.low hst) (Input.le_stop h.charts hst (h.places hd).2)
          (h.charts.stop_le hst)
      obtain ⟨ls, bytes, hf⟩ := Input.fill_behind h hd hst (by
        show o + total (is.map (·.size)) < st.stop
        have hlt' : n < (Cursor.span (input mode stored).code o st.stop).length := hlt
        omega)
      exact ⟨ls, bytes, (mem_laid_reading h).2 hf⟩
  · intro o ls is hmem'
    obtain ⟨hd, hls⟩ := Input.done_of_fill_code h ((mem_laid_reading h).1 hmem')
    obtain ⟨st, hst, hw⟩ := hp.whole hd
    refine ⟨st, hst, ?_, hw.imp_right ?_⟩
    · rw [hls, Input.labelsOf, hst]
      rfl
    · intro hrep
      obtain ⟨e, he, hb⟩ := hrep
      exact ⟨e, (hmem e).2 he, hb⟩

/-- Reading a script fails in two ways only: in the strict mode for code that breaks, and in
both modes for a byte of the code that is no operation's number.  Otherwise it gives a
script in which everything in front of a break is kept. -/
theorem read_contained (mode : Mode) (stored : Stored) (h : ∀ o ∈ stored.offsets, -1 ≤ o)
    (labels : List Int) :
    (∃ r, read mode stored (entries labels) = .ok r ∧ Salvages mode stored r) ∨
      ∃ e, read mode stored (entries labels) = .error e ∧
        Refused (input mode stored) e := by
  have charts : Charts (input mode stored).size stored.offsets (input mode stored).starts :=
    charts_starts _ _
  have low : ∀ {o : Int} {st : Start}, (input mode stored).starts[o]? = some st → 0 ≤ o :=
    low_starts mode h
  have init : (input mode stored).Recovers { todo := (input mode stored).starts } := by
    refine ⟨fun _ => Std.TreeMap.getElem?_emptyc, ?_, ?_⟩
    · exact fun he => absurd he List.not_mem_nil
    · intro o ls is hd
      rw [Std.TreeMap.getElem?_emptyc] at hd
      cases hd
  rcases Progress.follow_cases (Input.preserves_recovers charts low) _ _
      ⟨sound_entries mode stored labels, init⟩ with
    ⟨p, hp, hsound, hrec⟩ | ⟨o, st, r, e, ⟨queue, p, ⟨hsound, -⟩, -, ht, hle⟩, he, hf⟩
  · have hreads : (input mode stored).Reads stored.offsets p.done := ⟨charts, low, hsound.done⟩
    exact Or.inl ⟨_, read_ok hp hreads, salvages_reading hreads hrec⟩
  · refine Or.inr ⟨e, read_error hf, ?_⟩
    have hst := hsound.todo ht
    unfold Input.readAt at he
    split at he
    · cases he
    · next hk => exact absurd hk (hsound.queue r List.mem_cons_self)
    · rcases Input.readCode_cases charts hst (low hst) hle
          (((input mode stored).starts[st.stop]?).bind (·.labels.head?)) with
        ⟨f, is, hok, -⟩ | ⟨e', herror, hrefused⟩
      · exact absurd (hok.symm.trans he) nofun
      · have hsame : e' = e := Except.error.inj (herror.symm.trans he)
        exact hsame ▸ hrefused

/-- The instructions before a number without its second byte are kept. -/
theorem read_contained_cut_number :
    (∀ o ∈ [0, -1], (-1 : Int) ≤ o) ∧
      ∃ r, read .lenient ⟨[0x00, 0x00, 0xF9], [0, -1]⟩ (entries [0]) = .ok r ∧
        Salvages .lenient ⟨[0x00, 0x00, 0xF9], [0, -1]⟩ r := by
  have h : ∀ o ∈ [0, -1], (-1 : Int) ≤ o := by decide
  rcases read_contained .lenient ⟨[0x00, 0x00, 0xF9], [0, -1]⟩ h [0] with hr | ⟨e, he, -⟩
  · exact ⟨h, hr⟩
  · have hr : read .lenient ⟨[0x00, 0x00, 0xF9], [0, -1]⟩ (entries [0]) =
        .ok ⟨[.code [0] [{ opcode := .plain 0x00 "nop" [] }, { opcode := .plain 0x00 "nop" [] }],
            .data [] [0xF9]],
          [{ notice := .unreadableInstruction (.unreadable 2 0 (.pastBound .read 1 3 3)) }]⟩ :=
      read_of_readWithin (n := 2) (by decide) (by decide +kernel)
    cases hr.symm.trans he

/-! ## Bytes that are no number -/

/-- A byte that is no operation's number ends the reading of the script. -/
theorem Progress.follow_unknown_opcode {s : Input} {offsets : List Int}
    (hs : Charts s.size offsets s.starts) {p : Progress} {l o : Int} {st : Start} {b : UInt8}
    {rest : Bytes} {queue : List Reference} (hl : s.offset? l = some o)
    (ht : p.todo[o]? = some st) (hst : s.starts[o]? = some st) (h0 : 0 ≤ o) (ho : o ≤ s.size)
    (hv : Cursor.span s.code o st.stop = b :: rest) (hb : 0xFA ≤ b.toNat) :
    Progress.follow s (⟨l, .code⟩ :: queue) p = .error (.unknownOpcode b.toNat) := by
  have hin : (Cursor.window s.code o st.stop).Inside :=
    Cursor.inside_window h0 (Input.le_stop hs hst ho) (hs.stop_le hst)
  have hlen := Cursor.length_view hin
  rw [show (Cursor.window s.code o st.stop).view = b :: rest from hv, List.length_cons] at hlen
  have hread := readInstructions_error (by omega) (readInstruction_unknown hin hv hb)
  have hat : s.readAt o st ⟨l, .code⟩ = .error (.unknownOpcode b.toNat) := by
    unfold Input.readAt readCode
    dsimp only
    rw [hread]
    rfl
  exact Progress.follow_error hl ht (by omega) hat

/-- A byte above the two that open a long number leaves the decoder as a fault of its own, in
both modes, though it is code that cannot be read like any other. -/
theorem read_unknown_opcode :
    (∀ o ∈ [0], (-1 : Int) ≤ o) ∧
      read .strict ⟨[0xFA], [0]⟩ (entries [0]) = .error (.unknownOpcode 0xFA) ∧
      read .lenient ⟨[0xFA], [0]⟩ (entries [0]) = .error (.unknownOpcode 0xFA) := by
  have fails : ∀ mode, read mode ⟨[0xFA], [0]⟩ (entries [0]) = .error (.unknownOpcode 0xFA) := by
    intro mode
    have ho : (input mode ⟨[0xFA], [0]⟩).offset? 0 = some 0 := rfl
    have hst : (input mode ⟨[0xFA], [0]⟩).starts[(0 : Int)]? = some ⟨[0], 1⟩ := by
      cases mode
      all_goals decide +kernel
    have he : entries [0] = [⟨0, .code⟩] := entries_of_ascending (List.pairwise_singleton _ _)
    refine read_error ?_
    rw [he]
    have hv : Cursor.span (input mode ⟨[0xFA], [0]⟩).code 0 1 = 0xFA :: [] := rfl
    exact Progress.follow_unknown_opcode (charts_starts _ _) ho hst hst (Int.le_refl 0)
      (Int.natCast_nonneg _) hv (by decide)
  exact ⟨by decide, fails .strict, fails .lenient⟩

end ObjectCode
end QuestArchive
