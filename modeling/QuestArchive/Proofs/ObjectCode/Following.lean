import QuestArchive.Proofs.ObjectCode.Instructions
import QuestArchive.Proofs.ObjectCode.Rewriting
import QuestArchive.Proofs.ObjectCode.Starts

/-!
# Following references

`Preserves` lists what one step of the worklist can do; whatever all of these keep holds
when the queue is empty, or else a read has failed from a state where it held.  What is
kept here: each segment that was read holds the bytes at its offset and has the labels of
that offset.
-/

namespace QuestArchive
namespace ObjectCode

/-! ## The worklist -/

/-- What holds of the queue and the progress keeps to hold, whatever the first reference of
the queue is. -/
structure Preserves (s : Input) (Inv : List Reference → Progress → Prop) : Prop where
  unknown : ∀ {r : Reference} {queue : List Reference} {p : Progress}, Inv (r :: queue) p →
    s.offset? r.label = none → Inv queue (p.note (.unregisteredLabel r.label))
  known : ∀ {r : Reference} {queue : List Reference} {p : Progress} {o : Int},
    Inv (r :: queue) p → s.offset? r.label = some o → p.todo[o]? = none → Inv queue p
  past : ∀ {r : Reference} {queue : List Reference} {p : Progress} {o : Int} {st : Start},
    Inv (r :: queue) p → s.offset? r.label = some o → p.todo[o]? = some st → s.size < o →
    Inv queue (p.note (.labelPastEnd r.label.toNat o s.size))
  place : ∀ {r : Reference} {queue : List Reference} {p : Progress} {o : Int} {st : Start}
    {f : Finding}, Inv (r :: queue) p → s.offset? r.label = some o → p.todo[o]? = some st →
    o ≤ s.size → s.readAt o st r = .ok f → Inv (queue ++ f.references) (p.place o f)

def Attempts (s : Input) (Inv : List Reference → Progress → Prop) (o : Int) (st : Start)
    (r : Reference) : Prop :=
  ∃ queue p, Inv (r :: queue) p ∧ s.offset? r.label = some o ∧ p.todo[o]? = some st ∧ o ≤ s.size

namespace Progress

variable {s : Input} {queue : List Reference} {p : Progress} {r : Reference} {o : Int} {st : Start}

/-! ### What a step leaves -/

theorem mem_notices_note {n n' : Notice} :
    n' ∈ (p.note n).notices.toList ↔ n' ∈ p.notices.toList ∨ n' = n := by
  simp only [note, Array.toList_push, List.mem_append, List.mem_singleton]

theorem mem_notices_place {f : Finding} {n : Notice} :
    n ∈ (p.place o f).notices.toList ↔ n ∈ p.notices.toList ∨ n ∈ f.notices := by
  simp only [place, Array.toList_appendList, List.mem_append]

theorem todo_place (p : Progress) (o o' : Int) (f : Finding) :
    (p.place o f).todo[o']? = if o = o' then none else p.todo[o']? :=
  Offsets.getElem?_erase _ _ _

theorem done_place (p : Progress) (o o' : Int) (f : Finding) :
    (p.place o f).done[o']? = if o = o' then some f.segment else p.done[o']? :=
  Offsets.getElem?_insert _ _ _ _

theorem todo_of_place {f : Finding} {o' : Int} (h : (p.place o f).todo[o']? = some st) :
    o ≠ o' ∧ p.todo[o']? = some st := by
  rw [todo_place] at h
  split at h
  · cases h
  · next hne => exact ⟨hne, h⟩

theorem done_of_place {f : Finding} {o' : Int} {seg : Segment}
    (h : (p.place o f).done[o']? = some seg) :
    o = o' ∧ f.segment = seg ∨ p.done[o']? = some seg := by
  rw [done_place] at h
  split at h
  · next he => exact Or.inl ⟨he, Option.some.inj h⟩
  · exact Or.inr h

/-- What is left to be read are the starts where nothing was read yet. -/
theorem todo_place_iff {f : Finding} {o' : Int}
    (h : p.todo[o']? = some st ↔ s.starts[o']? = some st ∧ p.done[o']? = none) :
    (p.place o f).todo[o']? = some st ↔
      s.starts[o']? = some st ∧ (p.place o f).done[o']? = none := by
  rw [todo_place, done_place]
  by_cases he : o = o'
  · simp [he]
  · rw [if_neg he, if_neg he]
    exact h

/-! ### The steps -/

theorem follow_nil : follow s [] p = .ok p := by
  rw [follow]

theorem follow_unknown (ho : s.offset? r.label = none) :
    follow s (r :: queue) p = follow s queue (p.note (.unregisteredLabel r.label)) := by
  rw [follow, ho]

theorem follow_known (ho : s.offset? r.label = some o) (ht : p.todo[o]? = none) :
    follow s (r :: queue) p = follow s queue p := by
  rw [follow, ho]
  dsimp only
  split
  · rfl
  · next hst =>
    rw [ht] at hst
    cases hst

/-- What the worklist does with a reference to a start where nothing was read yet. -/
theorem follow_todo (ho : s.offset? r.label = some o) (ht : p.todo[o]? = some st) :
    follow s (r :: queue) p =
      if s.size < o then follow s queue (p.note (.labelPastEnd r.label.toNat o s.size))
      else match s.readAt o st r with
        | .error fault => .error fault
        | .ok f => follow s (queue ++ f.references) (p.place o f) := by
  rw [follow, ho]
  dsimp only
  split
  · next hst =>
    rw [ht] at hst
    cases hst
  · next st' hst =>
    rw [ht] at hst
    cases hst
    rfl

theorem follow_past (ho : s.offset? r.label = some o) (ht : p.todo[o]? = some st)
    (hlt : s.size < o) :
    follow s (r :: queue) p = follow s queue (p.note (.labelPastEnd r.label.toNat o s.size)) := by
  rw [follow_todo ho ht, if_pos hlt]

theorem follow_error (ho : s.offset? r.label = some o) (ht : p.todo[o]? = some st)
    (hle : ¬s.size < o) {e : Fault} (he : s.readAt o st r = .error e) :
    follow s (r :: queue) p = .error e := by
  rw [follow_todo ho ht, if_neg hle, he]

theorem follow_place (ho : s.offset? r.label = some o) (ht : p.todo[o]? = some st)
    (hle : ¬s.size < o) {f : Finding} (hf : s.readAt o st r = .ok f) :
    follow s (r :: queue) p = follow s (queue ++ f.references) (p.place o f) := by
  rw [follow_todo ho ht, if_neg hle, hf]

theorem follow_cases {Inv : List Reference → Progress → Prop} (hs : Preserves s Inv)
    (queue : List Reference) (p : Progress) (h : Inv queue p) :
    (∃ p', follow s queue p = .ok p' ∧ Inv [] p') ∨
      ∃ o st r e, Attempts s Inv o st r ∧ s.readAt o st r = .error e ∧
        follow s queue p = .error e := by
  induction queue, p using follow.induct (s := s) with
  | case1 p => exact Or.inl ⟨p, follow_nil, h⟩
  | case2 p r queue ho ih =>
    rw [follow_unknown ho]
    exact ih (hs.unknown h ho)
  | case3 p r queue o ho ht ih =>
    rw [follow_known ho ht]
    exact ih (hs.known h ho ht)
  | case4 p r queue o ho st ht hpast ih =>
    rw [follow_past ho ht hpast]
    exact ih (hs.past h ho ht hpast)
  | case5 p r queue o ho st ht hin e he =>
    exact Or.inr ⟨o, st, r, e, ⟨queue, p, h, ho, ht, Int.not_lt.1 hin⟩, he,
      follow_error ho ht hin he⟩
  | case6 p r queue o ho st ht hin f hf _ ih =>
    rw [follow_place ho ht hin hf]
    exact ih (hs.place h ho ht (Int.not_lt.1 hin) hf)

/-- What steps keep holds when the queue is empty. -/
theorem inv_of_follow {Inv : List Reference → Progress → Prop} (hs : Preserves s Inv)
    (h : Inv queue p) {p' : Progress} (hp : follow s queue p = .ok p') : Inv [] p' := by
  rcases follow_cases hs queue p h with ⟨p'', hp'', h'⟩ | ⟨_, _, _, e, -, -, he⟩
  · rw [hp''] at hp
    cases hp
    exact h'
  · rw [he] at hp
    cases hp

end Progress

/-! ## Segments and the bytes they were read from -/

namespace Input

/-- The label table gives an offset for the numbers of its entries that are not -1. -/
theorem offset?_eq_some_iff {s : Input} {offsets : List Int} (h : s.offsets = offsets.toArray)
    {l o : Int} :
    s.offset? l = some o ↔ 0 ≤ l ∧ offsets[l.toNat]? = some o ∧ o ≠ -1 := by
  unfold offset?
  by_cases hl : l < 0
  · rw [if_pos hl]
    exact iff_of_false (fun he => by cases he) fun he => absurd he.1 (Int.not_le.2 hl)
  · rw [if_neg hl, h, Option.filter_eq_some_iff, List.getElem?_toArray]
    simp [Int.not_lt.1 hl]

/-- A segment has the labels of an offset and holds the bytes from there on, up to the next
start at most. -/
def Places (s : Input) (o : Int) (seg : Segment) : Prop :=
  ∃ st, s.starts[o]? = some st ∧ seg.labels = st.names ∧ o + seg.extent ≤ st.stop ∧
    Holds (Cursor.span s.code o (o + seg.extent)) seg

/-- The reference to the segment behind some instructions, where control runs on. -/
def fallThrough (instructions : List Instruction) : Option Nat → List Reference
  | some label => if runsOn instructions then [⟨label, .code⟩] else []
  | none => []

theorem fallThrough_not_text {is : List Instruction} {next : Option Nat} :
    ∀ r ∈ fallThrough is next, r.kind ≠ .text := by
  intro r hr
  unfold fallThrough at hr
  split at hr
  · split at hr
    · rw [List.mem_singleton.1 hr]
      exact SegmentKind.noConfusion
    · exact absurd hr List.not_mem_nil
  · exact absurd hr List.not_mem_nil

theorem readCode_ok {mode : Mode} {code : Array UInt8} {o : Int} {st : Start}
    {next : Option Nat} {is : List Instruction} {problem : Option (Int × Fault)} {f : Finding}
    (hi : readInstructions (.window code o st.stop) = (is, problem))
    (h : readCode mode code o st next = .ok f) :
    f.segment = .code st.names is ∧ f.references = references [] is ++ fallThrough is next ∧
      (f.notices = [] ∨ ∃ e, f.notices = [.unreadableInstruction e]) := by
  unfold readCode at h
  rw [hi] at h
  dsimp only at h
  split at h
  · cases h
    exact ⟨rfl, rfl, Or.inl rfl⟩
  · split at h
    · split at h
      · cases h
      · cases h
        exact ⟨rfl, rfl, Or.inr ⟨_, rfl⟩⟩
    · cases h

/-- A text refers to nothing, and all that can be noted of it is that it has no end. -/
theorem readText_ok {code : Array UInt8} {o : Int} {l : Nat} {st : Start} {f : Finding}
    (h : readText code o l st = .ok f) :
    (∃ value, f.segment = .text st.names value) ∧ f.references = [] ∧
      (f.notices = [] ∨ f.notices = [.unterminatedText l]) := by
  unfold readText at h
  dsimp only at h
  split at h
  · cases h
    exact ⟨⟨_, rfl⟩, rfl, Or.inl rfl⟩
  · split at h
    · obtain ⟨value, -, h⟩ := bind_eq_ok_iff.1 h
      cases h
      exact ⟨⟨_, rfl⟩, rfl, Or.inr rfl⟩
    · cases h

/-- Reading code fails with the place where it cannot be read, or with the fault of an
instruction that ends nowhere too early. -/
theorem readCode_error {mode : Mode} {code : Array UInt8} {o : Int} {st : Start}
    {next : Option Nat} {e : Fault} (h : readCode mode code o st next = .error e) :
    (∃ position label cause, e = .unreadable position label cause) ∨
      IsScanFault e ∧ isMalformed e = false := by
  unfold readCode at h
  cases hi : readInstructions (.window code o st.stop) with
  | mk is problem =>
    rw [hi] at h
    dsimp only at h
    split at h
    · cases h
    · next position cause =>
      split at h
      · split at h
        · cases h
          exact Or.inl ⟨_, _, _, rfl⟩
        · cases h
      · next hm =>
        cases h
        exact Or.inr ⟨readInstructions_fault (congrArg Prod.snd hi), Bool.eq_false_iff.2 hm⟩

variable {s : Input} {offsets : List Int}

theorem le_stop (hs : Charts s.size offsets s.starts) {o : Int} {st : Start}
    (hst : s.starts[o]? = some st) (ho : o ≤ s.size) : o ≤ st.stop := by
  rcases Int.lt_or_eq_of_le ho with hlt | heq
  · exact Int.le_of_lt (hs.lt_stop hst hlt)
  · rw [hs.stop_eq hst (Int.le_of_eq heq.symm), heq]

/-- A reference that is not to a text finds a segment that holds what stands there. -/
theorem places_of_readAt (hs : Charts s.size offsets s.starts) {o : Int} {st : Start}
    (hst : s.starts[o]? = some st) (h0 : 0 ≤ o) (ho : o ≤ s.size) {r : Reference}
    (hr : r.kind ≠ .text) {f : Finding} (h : s.readAt o st r = .ok f) : s.Places o f.segment := by
  have hle := le_stop hs hst ho
  have hstop : st.stop ≤ s.code.size := hs.stop_le hst
  unfold readAt at h
  split at h
  · cases h
    have hlen : (Segment.data st.names (Cursor.span s.code o st.stop)).extent = st.stop - o :=
      Cursor.length_span h0 hle hstop
    refine ⟨st, hst, rfl, ?_, ?_⟩
    · simp only [readData, hlen]
      omega
    · simp only [readData, hlen]
      rw [show o + (st.stop - o) = st.stop by omega]
      rfl
  · next hk => exact absurd hk hr
  · cases hi : readInstructions (.window s.code o st.stop) with
    | mk is problem =>
      obtain ⟨hseg, -, -⟩ := readCode_ok hi h
      have hin := Cursor.inside_window h0 hle hstop
      obtain ⟨front, rest, hv, hstored, -⟩ := readInstructions_stored hin
      have hlen := Cursor.length_of_view hin hv
      have hspan := (Cursor.span_of_view hin hv).1
      rw [hi] at hstored
      have hext : (Segment.code st.names is).extent = front.length := size_of_storesAll hstored
      rw [hseg]
      refine ⟨st, hst, rfl, ?_, ?_⟩
      · simp only [Cursor.window] at hlen
        omega
      · rw [hext, show Cursor.span s.code o (o + front.length) = front from hspan]
        exact hstored

theorem references_of_readAt {o : Int} {st : Start} {r : Reference} (hr : r.kind ≠ .text)
    {f : Finding} (h : s.readAt o st r = .ok f) : ∀ r ∈ f.references, r.kind ≠ .text := by
  unfold readAt at h
  split at h
  · cases h
    exact fun r hr => absurd hr List.not_mem_nil
  · next hk => exact absurd hk hr
  · obtain ⟨-, hrefs, -⟩ := readCode_ok rfl h
    rw [hrefs]
    intro r hr
    rcases List.mem_append.1 hr with hr | hr
    · have hops := forall_readInstructions gives_readInstruction (.window s.code o st.stop)
      exact references_not_text (fun i hi => (hops i hi).1) [] r hr
    · exact fallThrough_not_text r hr

end Input

/-! ## What following references keeps -/

/-- The notices of following references.  Whether sizes agree and which labels were not
placed is looked at later. -/
def IsFollowNotice : Notice → Prop
  | .unregisteredLabel _ | .labelPastEnd .. | .unreadableInstruction _ => True
  | _ => False

structure Sound (s : Input) (queue : List Reference) (p : Progress) : Prop where
  queue : ∀ r ∈ queue, r.kind ≠ .text
  todo : ∀ {o : Int} {st : Start}, p.todo[o]? = some st → s.starts[o]? = some st
  done : ∀ {o : Int} {seg : Segment}, p.done[o]? = some seg → s.Places o seg ∧ o ≤ s.size
  notices : ∀ n ∈ p.notices.toList, IsFollowNotice n

variable {s : Input} {offsets : List Int}

theorem Sound.note {r : Reference} {queue : List Reference} {p : Progress}
    (h : Sound s (r :: queue) p) {n : Notice} (hn : IsFollowNotice n) :
    Sound s queue (p.note n) := by
  refine ⟨fun r hr => h.queue r (List.mem_cons_of_mem _ hr), h.todo, h.done, ?_⟩
  intro n' hn'
  rcases Progress.mem_notices_note.1 hn' with hn' | rfl
  · exact h.notices n' hn'
  · exact hn

theorem preserves_sound (hs : Charts s.size offsets s.starts)
    (h0 : ∀ {o : Int} {st : Start}, s.starts[o]? = some st → 0 ≤ o) : Preserves s (Sound s) where
  unknown h _ := h.note trivial
  known h _ _ := ⟨fun r hr => h.queue r (List.mem_cons_of_mem _ hr), h.todo, h.done, h.notices⟩
  past h _ _ _ := h.note trivial
  place := by
    intro r queue p o st f h _ ht ho hf
    have hst := h.todo ht
    obtain ⟨hr, hqueue⟩ := List.forall_mem_cons.1 h.queue
    constructor
    · exact List.forall_mem_append.2 ⟨hqueue, Input.references_of_readAt hr hf⟩
    · exact fun h' => h.todo (Progress.todo_of_place h').2
    · intro o' seg h'
      rcases Progress.done_of_place h' with ⟨rfl, rfl⟩ | h'
      · exact ⟨Input.places_of_readAt hs hst (h0 hst) ho hr hf, ho⟩
      · exact h.done h'
    · intro n hn
      rcases Progress.mem_notices_place.1 hn with hn | hn
      · exact h.notices n hn
      · unfold Input.readAt at hf
        split at hf
        · cases hf
          exact absurd hn List.not_mem_nil
        · next hk => exact absurd hk hr
        · obtain ⟨-, -, hnil | ⟨e, hone⟩⟩ := Input.readCode_ok rfl hf
          · rw [hnil] at hn
            exact absurd hn (by simp)
          · rw [hone] at hn
            rw [show n = .unreadableInstruction e by simpa using hn]
            exact trivial

end ObjectCode
end QuestArchive
