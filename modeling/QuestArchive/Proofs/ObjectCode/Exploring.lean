import Mathlib.Logic.Relation
import QuestArchive.Proofs.ObjectCode.RoundTrip
import QuestArchive.Proofs.ObjectCode.Stability
import QuestArchive.Proofs.ObjectCode.Stepping

/-!
# Reading explores what can be reached

`Leads` says which offsets a script leads to, without a queue: those of the entry labels, and
from the code at such an offset those that it refers to as code and the one where control
runs on.  When the queue is empty, a segment stands at every offset that is named, and every
segment of code at an offset that the script leads to.
-/

namespace QuestArchive
namespace ObjectCode

def Stored.Points (stored : Stored) (label o : Int) : Prop :=
  0 ≤ label ∧ stored.offsets[label.toNat]? = some o ∧ o ≠ -1

def Reading.Has (r : Reading) (o : Int) (seg : Segment) : Prop :=
  (o, seg) ∈ laid 0 r.segments

/-- The offsets that control reaches from some labels, through the code of the segments that
were found: by a reference to code, or by running on to an end that has a label. -/
inductive Leads (stored : Stored) (labels : List Int) (found : Int → Segment → Prop) :
    Int → Prop where
  | entry {l o : Int} (hl : l ∈ labels) (h : stored.Points l o) : Leads stored labels found o
  | refers {o o' : Int} {ls : List Int} {is : List Instruction} {q : Reference}
      (ho : Leads stored labels found o) (hs : found o (.code ls is)) (hq : Refers is q)
      (hk : q.kind = .code) (h : stored.Points q.label o') : Leads stored labels found o'
  | behind {o l : Int} {ls : List Int} {is : List Instruction}
      (ho : Leads stored labels found o) (hs : found o (.code ls is)) (hruns : runsOn is = true)
      (h : stored.Points l (o + (Segment.code ls is).extent)) :
      Leads stored labels found (o + (Segment.code ls is).extent)

/-- Reading found what can be reached, and no other code. -/
structure Explores (stored : Stored) (labels : List Int) (r : Reading) : Prop where
  entries : ∀ l ∈ labels, ∀ o, stored.Points l o → o ≤ stored.code.length → ∃ seg, r.Has o seg
  refers : ∀ o ls is, r.Has o (.code ls is) → ∀ q, Refers is q → ∀ o', stored.Points q.label o' →
    o' ≤ stored.code.length → ∃ seg, r.Has o' seg
  behind : ∀ o ls is, r.Has o (.code ls is) → runsOn is = true →
    ∀ l, stored.Points l (o + (Segment.code ls is).extent) →
      ∃ seg, r.Has (o + (Segment.code ls is).extent) seg
  justified : ∀ o ls is, r.Has o (.code ls is) → Leads stored labels r.Has o
  code : (∀ o ls is, r.Has o (.code ls is) → ∀ q, Refers is q → q.kind ≠ .code →
      ∀ o', stored.Points q.label o' → ¬Leads stored labels r.Has o') →
    ∀ o, Leads stored labels r.Has o → o ≤ stored.code.length → ∃ ls is, r.Has o (.code ls is)

def initial (mode : Mode) (stored : Stored) (labels : List Int) : List Reference × Progress :=
  (entries labels, { todo := (input mode stored).starts })

/-- Reading comes to an end.  No run of the worklist is endless, and what is read is what the
run gives that empties the queue, or the fault that it is stuck with. -/
structure Ends (mode : Mode) (stored : Stored) (labels : List Int) : Prop where
  finite : ∀ run : Nat → List Reference × Progress, run 0 = initial mode stored labels →
    ∃ n, ¬Progress.Step (input mode stored) (run n) (run (n + 1))
  ok : ∀ r, read mode stored (entries labels) = .ok r ↔
    ∃ p, Relation.ReflTransGen (Progress.Step (input mode stored)) (initial mode stored labels)
      ([], p) ∧ r = reading (input mode stored) p
  error : ∀ e, read mode stored (entries labels) = .error e ↔
    ∃ state, Relation.ReflTransGen (Progress.Step (input mode stored))
      (initial mode stored labels) state ∧ Progress.Stuck (input mode stored) state e

theorem ends (mode : Mode) {stored : Stored} (h : ∀ o ∈ stored.offsets, -1 ≤ o)
    (labels : List Int) : Ends mode stored labels := by
  refine ⟨fun run _ => Progress.exists_not_step _ run, fun r => ?_, fun e => ?_⟩
  · unfold initial
    simp only [← Progress.follow_eq_ok_iff]
    constructor
    · intro hr
      obtain ⟨p, hp, -, hr⟩ := exists_progress h hr
      exact ⟨p, hp, hr⟩
    · intro hr
      obtain ⟨p, hp, rfl⟩ := hr
      rcases follow_entries mode h labels with ⟨p', hp', hreads, -⟩ | ⟨e, he, -⟩
      · rw [hp] at hp'
        cases hp'
        exact read_ok hp hreads
      · rw [hp] at he
        cases he
  · unfold initial
    rw [← Progress.follow_eq_error_iff]
    constructor
    · intro hr
      rcases follow_entries mode h labels with ⟨p, hp, hreads, -⟩ | ⟨e', he, -⟩
      · rw [read_ok hp hreads] at hr
        cases hr
      · rw [read_error he] at hr
        cases hr
        exact he
    · exact read_error

/-! ## Offsets that are led to -/

section Leads

variable {stored : Stored} {labels : List Int} {found found' : Int → Segment → Prop}

theorem Leads.mono (h : ∀ {o : Int} {ls : List Int} {is : List Instruction},
    found o (.code ls is) → found' o (.code ls is)) {o : Int}
    (ho : Leads stored labels found o) : Leads stored labels found' o := by
  induction ho with
  | entry hl hp => exact .entry hl hp
  | refers _ hs hq hk hp ih => exact .refers ih (h hs) hq hk hp
  | behind _ hs hruns hp ih => exact .behind ih (h hs) hruns hp

/-- There is a reason to follow a reference: it is to code that the script leads to, or code
that was found has it. -/
inductive Sought (stored : Stored) (labels : List Int) (found : Int → Segment → Prop)
    (q : Reference) : Prop where
  | code (hk : q.kind = .code)
      (h : ∀ o, stored.Points q.label o → Leads stored labels found o)
  | other (hk : q.kind ≠ .code) {o : Int} {ls : List Int} {is : List Instruction}
      (hs : found o (.code ls is)) (h : Refers is q)

theorem Sought.mono (h : ∀ {o : Int} {ls : List Int} {is : List Instruction},
    found o (.code ls is) → found' o (.code ls is)) {q : Reference}
    (hq : Sought stored labels found q) : Sought stored labels found' q := by
  cases hq with
  | code hk hl => exact .code hk fun o ho => (hl o ho).mono h
  | other hk hs hr => exact .other hk (h hs) hr

end Leads

/-! ## The reference behind a segment -/

theorem Input.mem_fallThrough {is : List Instruction} {next : Option Nat} {q : Reference} :
    q ∈ fallThrough is next ↔ runsOn is = true ∧ ∃ l, next = some l ∧ q = ⟨l, .code⟩ := by
  unfold fallThrough
  cases next with
  | none => simp
  | some l => by_cases h : runsOn is = true <;> simp [h]

theorem points_of_head {mode : Mode} {stored : Stored} {o : Int} {l : Nat}
    (h : ((input mode stored).starts[o]?).bind (·.labels.head?) = some l) :
    stored.Points l o := by
  have charts : Charts (input mode stored).size stored.offsets (input mode stored).starts :=
    charts_starts _ _
  obtain ⟨st, hst, hl⟩ := Option.bind_eq_some_iff.1 h
  obtain ⟨hne, hlabels, -⟩ := charts.labels hst
  have hmem := List.mem_of_head? hl
  rw [hlabels] at hmem
  exact ⟨Int.natCast_nonneg l, mem_labelsAt.1 hmem, hne⟩

theorem exists_head {mode : Mode} {stored : Stored} {l o : Int} (h : stored.Points l o) :
    ∃ n : Nat, ((input mode stored).starts[o]?).bind (·.labels.head?) = some n := by
  have charts : Charts (input mode stored).size stored.offsets (input mode stored).starts :=
    charts_starts _ _
  obtain ⟨-, ho, hne⟩ := h
  obtain ⟨st, hst⟩ := charts.complete ho hne
  obtain ⟨n, rest, he⟩ := List.exists_cons_of_ne_nil (charts.labels hst).2.2
  exact ⟨n, by rw [hst, Option.bind_some, he, List.head?_cons]⟩

/-! ## Why something was read -/

section Run

variable {stored : Stored} {labels : List Int}

theorem offset?_input {mode : Mode} {l o : Int} :
    (input mode stored).offset? l = some o ↔ stored.Points l o :=
  Input.offset?_eq_some_iff rfl

theorem points_unique {l o o' : Int} (h : stored.Points l o) (h' : stored.Points l o') :
    o = o' :=
  Option.some.inj (h.2.1.symm.trans h'.2.1)

/-- Whatever follows from code that was read for a good reason is sought. -/
theorem sought_of_wanted {found : Int → Segment → Prop} {q : Reference} {o : Int} {seg : Segment}
    (hq : Sought stored labels found q) (hp : stored.Points q.label o) (hk : seg.kind = q.kind)
    (hf : found o seg) :
    ∀ q' ∈ (input .strict stored).wanted o seg, Sought stored labels found q' := by
  intro q' hq'
  cases seg with
  | data ls bytes | text ls value => exact absurd hq' List.not_mem_nil
  | code ls is =>
    have hleads : Leads stored labels found o := by
      cases hq with
      | code _ hl => exact hl o hp
      | other hne => exact absurd hk.symm hne
    rcases List.mem_append.1 hq' with hq' | hq'
    · have hrefers := mem_references.1 hq'
      by_cases hcode : q'.kind = .code
      · exact .code hcode fun o' ho' => .refers hleads hf hrefers hcode ho'
      · exact .other hcode hf hrefers
    · obtain ⟨hruns, l, hnext, rfl⟩ := Input.mem_fallThrough.1 hq'
      have hpoints := points_of_head hnext
      refine .code rfl fun o' ho' => ?_
      rw [points_unique ho' hpoints]
      exact .behind hleads hf hruns hpoints

/-- Every reference of the queue is sought, and so was one to each segment that was read. -/
structure Justifies (stored : Stored) (labels : List Int) (queue : List Reference)
    (p : Progress) : Prop where
  tracks : Tracks (input .strict stored) queue p
  queue : ∀ q ∈ queue, Sought stored labels (fun o seg => p.done[o]? = some seg) q
  done : ∀ {o : Int} {seg : Segment}, p.done[o]? = some seg →
    ∃ q, Sought stored labels (fun o seg => p.done[o]? = some seg) q ∧
      stored.Points q.label o ∧ seg.kind = q.kind

theorem preserves_justifies (h : ∀ o ∈ stored.offsets, -1 ≤ o) :
    Preserves (input .strict stored) (Justifies stored labels) where
  unknown hi ho := ⟨(preserves_tracks (strict_input h)).unknown hi.tracks ho,
    fun q hq => hi.queue q (List.mem_cons_of_mem _ hq), hi.done⟩
  known hi ho ht := ⟨(preserves_tracks (strict_input h)).known hi.tracks ho ht,
    fun q hq => hi.queue q (List.mem_cons_of_mem _ hq), hi.done⟩
  past hi ho ht hlt := ⟨(preserves_tracks (strict_input h)).past hi.tracks ho ht hlt,
    fun q hq => hi.queue q (List.mem_cons_of_mem _ hq), hi.done⟩
  place := by
    intro r queue p o st f hi ho ht hle hf
    have hstrict := strict_input h
    have hst := hi.tracks.sound.todo ht
    obtain ⟨hfound, hkind, -, -⟩ := hstrict.found_of_readAt hst hle
      (hi.tracks.sound.queue r List.mem_cons_self) hf
    have hfree : p.done[o]? = none := (hi.tracks.todo.1 ht).2
    -- Nothing that was read is read again, so every reason stays one.
    have hkeep : ∀ {o' : Int} {seg : Segment}, p.done[o']? = some seg →
        (p.place o f).done[o']? = some seg := by
      intro o' seg hd
      rw [Progress.done_place, if_neg, hd]
      rintro rfl
      rw [hfree] at hd
      cases hd
    have hnew : (p.place o f).done[o]? = some f.segment := by
      rw [Progress.done_place, if_pos rfl]
    have hpoints := offset?_input.1 ho
    have hr : Sought stored labels (fun o' seg => (p.place o f).done[o']? = some seg) r :=
      (hi.queue r List.mem_cons_self).mono hkeep
    refine ⟨(preserves_tracks hstrict).place hi.tracks ho ht hle hf, ?_, ?_⟩
    · intro q hq
      rcases List.mem_append.1 hq with hq | hq
      · exact (hi.queue q (List.mem_cons_of_mem _ hq)).mono hkeep
      · rw [hfound] at hq
        exact sought_of_wanted hr hpoints hkind hnew q hq
    · intro o' seg hd
      rcases Progress.done_of_place hd with ⟨rfl, rfl⟩ | hd
      · exact ⟨r, hr, hpoints, hkind⟩
      · obtain ⟨q, hq, hp, hk⟩ := hi.done hd
        exact ⟨q, hq.mono hkeep, hp, hk⟩

theorem justifies_entries (stored : Stored) (labels : List Int) :
    Justifies stored labels (entries labels) { todo := (input .strict stored).starts } := by
  refine ⟨tracks_entries stored labels, ?_, ?_⟩
  · intro q hq
    obtain ⟨l, hl, rfl⟩ := mem_entries.1 hq
    exact .code rfl fun o ho => .entry hl ho
  · intro o seg hd
    rw [Std.TreeMap.getElem?_emptyc] at hd
    cases hd

/-! ## What was named is read -/

/-- A reference is in the queue, or something was read at the offset that it names, if that is
in the code or at its end. -/
def Answered (s : Input) (queue : List Reference) (p : Progress) (q : Reference) : Prop :=
  ∀ o, s.offset? q.label = some o → o ≤ s.size → q ∈ queue ∨ ∃ seg, p.done[o]? = some seg

theorem preserves_answered (h : ∀ o ∈ stored.offsets, -1 ≤ o) (q : Reference) :
    Preserves (input .strict stored) fun queue p =>
      Tracks (input .strict stored) queue p ∧ Answered (input .strict stored) queue p q := by
  refine Progress.preserves_iff.2 fun a b hab hi => ?_
  refine ⟨Progress.preserves_iff.1 (preserves_tracks (strict_input h)) a b hab hi.1, ?_⟩
  intro o ho hle
  obtain ⟨st, hst⟩ := (strict_input h).charts.complete (offset?_input.1 ho).2.1
    (offset?_input.1 ho).2.2
  exact (Progress.preserves_iff.1 (preserves_queued (strict_input h) ho hst hle) a b hab
    ⟨hi.1, hi.2 o ho hle⟩).2

theorem exists_done_of_answered {p : Progress} {q : Reference} {o : Int}
    (hq : Answered (input .strict stored) [] p q) (hp : stored.Points q.label o)
    (hle : o ≤ stored.code.length) : ∃ seg, p.done[o]? = some seg := by
  refine (hq o (offset?_input.2 hp) ?_).resolve_left List.not_mem_nil
  show o ≤ (stored.code.toArray.size : Int)
  rwa [List.size_toArray]

structure Closes (stored : Stored) (queue : List Reference) (p : Progress) : Prop where
  tracks : Tracks (input .strict stored) queue p
  answered : ∀ {o : Int} {seg : Segment}, p.done[o]? = some seg →
    ∀ q ∈ (input .strict stored).wanted o seg, Answered (input .strict stored) queue p q

theorem preserves_closes (h : ∀ o ∈ stored.offsets, -1 ≤ o) :
    Preserves (input .strict stored) (Closes stored) where
  unknown hi ho := ⟨(preserves_tracks (strict_input h)).unknown hi.tracks ho, fun hd q hq =>
    ((preserves_answered h q).unknown ⟨hi.tracks, hi.answered hd q hq⟩ ho).2⟩
  known hi ho ht := ⟨(preserves_tracks (strict_input h)).known hi.tracks ho ht, fun hd q hq =>
    ((preserves_answered h q).known ⟨hi.tracks, hi.answered hd q hq⟩ ho ht).2⟩
  past hi ho ht hlt := ⟨(preserves_tracks (strict_input h)).past hi.tracks ho ht hlt,
    fun hd q hq =>
      ((preserves_answered h q).past ⟨hi.tracks, hi.answered hd q hq⟩ ho ht hlt).2⟩
  place := by
    intro r queue p o st f hi ho ht hle hf
    obtain ⟨hfound, -⟩ := (strict_input h).found_of_readAt (hi.tracks.sound.todo ht) hle
      (hi.tracks.sound.queue r List.mem_cons_self) hf
    refine ⟨(preserves_tracks (strict_input h)).place hi.tracks ho ht hle hf, ?_⟩
    intro o' seg hd q hq
    rcases Progress.done_of_place hd with ⟨rfl, rfl⟩ | hd
    · have hrefs : f.references = (input .strict stored).wanted o f.segment := by
        rw [hfound]
        rfl
      rw [← hrefs] at hq
      exact fun _ _ _ => Or.inl (List.mem_append_right _ hq)
    · exact ((preserves_answered h q).place ⟨hi.tracks, hi.answered hd q hq⟩ ho ht hle hf).2

/-! ## The script that was read -/

structure Explored (stored : Stored) (labels : List Int) (p : Progress) : Prop where
  reads : (input .strict stored).Reads stored.offsets p.done
  justifies : Justifies stored labels [] p
  entries : ∀ l ∈ labels, Answered (input .strict stored) [] p ⟨l, .code⟩
  closes : Closes stored [] p

theorem explored_of_follow (h : ∀ o ∈ stored.offsets, -1 ≤ o) {p : Progress}
    (hp : Progress.follow (input .strict stored) (entries labels)
      { todo := (input .strict stored).starts } = .ok p)
    (hreads : (input .strict stored).Reads stored.offsets p.done) : Explored stored labels p := by
  have htracks := tracks_entries stored labels
  have hjustifies := justifies_entries stored labels
  refine ⟨hreads, Progress.inv_of_follow (preserves_justifies h) hjustifies hp, fun l hl => ?_,
    Progress.inv_of_follow (preserves_closes h) ⟨htracks, ?_⟩ hp⟩
  · refine (Progress.inv_of_follow (preserves_answered h ⟨l, .code⟩) ⟨htracks, ?_⟩ hp).2
    exact fun _ _ _ => Or.inl (mem_entries.2 ⟨l, hl, rfl⟩)
  · intro o seg hd
    rw [Std.TreeMap.getElem?_emptyc] at hd
    cases hd

namespace Explored

variable {p : Progress} {o : Int}

theorem fill (h : Explored stored labels p) {seg : Segment} (hd : p.done[o]? = some seg) :
    ((input .strict stored).fill p.done)[o]? = some seg := by
  refine Input.fill_of_done h.reads hd fun hlt => ?_
  obtain ⟨st, hst⟩ := h.reads.start hd
  have hstop := h.justifies.tracks.stop hst hd
  have hlt' := h.reads.charts.lt_stop hst hlt
  omega

theorem has (h : Explored stored labels p) {seg : Segment} (hd : p.done[o]? = some seg) :
    (reading (input .strict stored) p).Has o seg :=
  (mem_laid_reading h.reads).2 (h.fill hd)

theorem has_code (h : Explored stored labels p) {ls : List Int} {is : List Instruction} :
    (reading (input .strict stored) p).Has o (.code ls is) ↔ p.done[o]? = some (.code ls is) :=
  ⟨fun hs => (Input.done_of_fill_code h.reads ((mem_laid_reading h.reads).1 hs)).1, h.has⟩

theorem answered_refers (h : Explored stored labels p) {ls : List Int} {is : List Instruction}
    (hd : p.done[o]? = some (.code ls is)) {q : Reference} (hq : Refers is q) :
    Answered (input .strict stored) [] p q :=
  h.closes.answered hd q (List.mem_append_left _ (mem_references.2 hq))

/-- Where control runs on to an end that has a label, something was read. -/
theorem exists_behind (h : Explored stored labels p) {ls : List Int} {is : List Instruction}
    (hd : p.done[o]? = some (.code ls is)) (hruns : runsOn is = true) {l : Int}
    (hl : stored.Points l (o + (Segment.code ls is).extent)) :
    ∃ seg, p.done[o + (Segment.code ls is).extent]? = some seg := by
  obtain ⟨n, hn⟩ := @exists_head .strict stored l _ hl
  have hanswered : Answered (input .strict stored) [] p ⟨n, .code⟩ :=
    h.closes.answered hd _ (List.mem_append_right _ (Input.mem_fallThrough.2 ⟨hruns, n, hn, rfl⟩))
  refine exists_done_of_answered hanswered (points_of_head hn) ?_
  have hend := (h.reads.bounds hd).2.2
  unfold Input.size input at hend
  rwa [List.size_toArray] at hend

/-- Something was read wherever the script leads to. -/
theorem exists_done_of_leads (h : Explored stored labels p)
    (ho : Leads stored labels (reading (input .strict stored) p).Has o)
    (hle : o ≤ stored.code.length) : ∃ seg, p.done[o]? = some seg := by
  cases ho with
  | @entry l _ hl hp => exact exists_done_of_answered (h.entries l hl) hp hle
  | refers _ hs hq _ hp =>
    exact exists_done_of_answered (h.answered_refers (h.has_code.1 hs) hq) hp hle
  | behind _ hs hruns hp => exact h.exists_behind (h.has_code.1 hs) hruns hp

theorem leads (h : Explored stored labels p)
    (ho : Leads stored labels (fun o seg => p.done[o]? = some seg) o) :
    Leads stored labels (reading (input .strict stored) p).Has o :=
  ho.mono h.has

theorem explores (h : Explored stored labels p) :
    Explores stored labels (reading (input .strict stored) p) := by
  have found : ∀ {o : Int}, (∃ seg, p.done[o]? = some seg) →
      ∃ seg, (reading (input .strict stored) p).Has o seg :=
    fun ⟨seg, hd⟩ => ⟨seg, h.has hd⟩
  constructor
  case entries =>
    intro l hl o hp hle
    exact found (exists_done_of_answered (h.entries l hl) hp hle)
  case refers =>
    intro o ls is hs q hq o' hp hle
    exact found (exists_done_of_answered (h.answered_refers (h.has_code.1 hs) hq) hp hle)
  case behind =>
    intro o ls is hs hruns l hp
    exact found (h.exists_behind (h.has_code.1 hs) hruns hp)
  case justified =>
    intro o ls is hs
    obtain ⟨q, hq, hp, hk⟩ := h.justifies.done (h.has_code.1 hs)
    cases hq with
    | code _ hl => exact h.leads (hl o hp)
    | other hne => exact absurd hk.symm hne
  case code =>
    intro hno o ho hle
    obtain ⟨seg, hd⟩ := h.exists_done_of_leads ho hle
    obtain ⟨q, hq, hp, hk⟩ := h.justifies.done hd
    -- A segment that is not code was read for a reference to no code.
    cases hq with
    | other hne hs hr => exact absurd ho (hno _ _ _ (h.has hs) q hr hne o hp)
    | code hcode _ =>
      rw [hcode] at hk
      cases seg with
      | code ls is => exact ⟨ls, is, h.has hd⟩
      | data ls bytes | text ls value => cases hk

end Explored

end Run

/-- Reading comes to an end for every code and every label table without negative offsets but
-1.  When a script was read in the strict mode, a segment starts at every offset that is named,
every segment of code is led to, and all that is led to is code, unless a reference to data or
to a text names it too. -/
theorem read_explores (stored : Stored) (h : ∀ o ∈ stored.offsets, -1 ≤ o) (labels : List Int) :
    (∀ mode, Ends mode stored labels) ∧
      ∀ r, read .strict stored (entries labels) = .ok r → Explores stored labels r := by
  refine ⟨fun mode => ends mode h labels, fun r hr => ?_⟩
  obtain ⟨p, hp, hreads, rfl⟩ := exists_progress h hr
  exact (explored_of_follow h hp hreads).explores

/-- A jump back to code that runs into it, with data behind and a label past the end. -/
theorem read_explores_loop :
    (∀ o ∈ [0, 1, 4, -1, 9], (-1 : Int) ≤ o) ∧
      (∀ mode, Ends mode ⟨[0x00, 0x28, 0x00, 0x00, 0xAB], [0, 1, 4, -1, 9]⟩ [0, 4]) ∧
      ∃ r, read .strict ⟨[0x00, 0x28, 0x00, 0x00, 0xAB], [0, 1, 4, -1, 9]⟩ (entries [0, 4]) =
          .ok r ∧
        r.Has 1 (.code [1] [{ opcode := .plain 0x28 "jmp" [.codeLabel], args := [⟨.int 0, 2⟩] }]) ∧
        Explores ⟨[0x00, 0x28, 0x00, 0x00, 0xAB], [0, 1, 4, -1, 9]⟩ [0, 4] r := by
  have h : ∀ o ∈ [0, 1, 4, -1, 9], (-1 : Int) ≤ o := by decide
  have hr : read .strict ⟨[0x00, 0x28, 0x00, 0x00, 0xAB], [0, 1, 4, -1, 9]⟩ (entries [0, 4]) =
      .ok ⟨[.code [0] [{ opcode := .plain 0x00 "nop" [] }],
          .code [1] [{ opcode := .plain 0x28 "jmp" [.codeLabel], args := [⟨.int 0, 2⟩] }],
          .data [2] [0xAB]],
        [{ notice := .labelPastEnd 4 9 5 }, { notice := .unplacedLabel 4 9 }]⟩ :=
    read_of_readWithin (n := 8) (by decide) (by decide +kernel)
  obtain ⟨hends, hexplores⟩ :=
    read_explores ⟨[0x00, 0x28, 0x00, 0x00, 0xAB], [0, 1, 4, -1, 9]⟩ h [0, 4]
  refine ⟨h, hends, _, hr, ?_, hexplores _ hr⟩
  exact List.mem_cons_of_mem _ List.mem_cons_self

end ObjectCode
end QuestArchive
