import Mathlib.Data.Prod.Lex
import QuestArchive.Proofs.ObjectCode.Following

/-!
# The steps of the worklist

`Progress.Step` says what becomes of the first reference of the queue, and nothing else.  A
step either takes a start away from those where nothing was read yet, and then the queue may
grow, or it shortens the queue.  So no run of steps is endless, however the code jumps, and
following references amounts to the last state of the run.
-/

namespace QuestArchive
namespace ObjectCode
namespace Progress

/-- One step of the worklist: from a queue and a progress to the next ones. -/
inductive Step (s : Input) : List Reference × Progress → List Reference × Progress → Prop where
  | unknown {r : Reference} {queue : List Reference} {p : Progress}
      (ho : s.offset? r.label = none) :
      Step s (r :: queue, p) (queue, p.note (.unregisteredLabel r.label))
  | known {r : Reference} {queue : List Reference} {p : Progress} {o : Int}
      (ho : s.offset? r.label = some o) (ht : p.todo[o]? = none) :
      Step s (r :: queue, p) (queue, p)
  | past {r : Reference} {queue : List Reference} {p : Progress} {o : Int} {st : Start}
      (ho : s.offset? r.label = some o) (ht : p.todo[o]? = some st) (hlt : s.size < o) :
      Step s (r :: queue, p) (queue, p.note (.labelPastEnd r.label.toNat o s.size))
  | place {r : Reference} {queue : List Reference} {p : Progress} {o : Int} {st : Start}
      {f : Finding} (ho : s.offset? r.label = some o) (ht : p.todo[o]? = some st)
      (hle : o ≤ s.size) (hf : s.readAt o st r = .ok f) :
      Step s (r :: queue, p) (queue ++ f.references, p.place o f)

def Stuck (s : Input) (state : List Reference × Progress) (e : Fault) : Prop :=
  ∃ r queue o st, state.1 = r :: queue ∧ s.offset? r.label = some o ∧
    state.2.todo[o]? = some st ∧ o ≤ s.size ∧ s.readAt o st r = .error e

variable {s : Input} {a b : List Reference × Progress}

theorem preserves_iff {Inv : List Reference → Progress → Prop} :
    Preserves s Inv ↔ ∀ a b, Step s a b → Inv a.1 a.2 → Inv b.1 b.2 := by
  constructor
  · intro hs a b hab h
    cases hab with
    | unknown ho => exact hs.unknown h ho
    | known ho ht => exact hs.known h ho ht
    | past ho ht hlt => exact hs.past h ho ht hlt
    | place ho ht hle hf => exact hs.place h ho ht hle hf
  · intro hs
    exact ⟨fun h ho => hs _ _ (.unknown ho) h, fun h ho ht => hs _ _ (.known ho ht) h,
      fun h ho ht hlt => hs _ _ (.past ho ht hlt) h,
      fun h ho ht hle hf => hs _ _ (.place ho ht hle hf) h⟩

/-- What is true of all that can be noted is true of all that was noted. -/
theorem preserves_notices {P : Notice → Prop} (unknown : ∀ label, P (.unregisteredLabel label))
    (past : ∀ label offset size, P (.labelPastEnd label offset size))
    (found : ∀ {o : Int} {st : Start} {r : Reference} {f : Finding}, s.readAt o st r = .ok f →
      ∀ n ∈ f.notices, P n) : Preserves s fun _ p => ∀ n ∈ p.notices.toList, P n := by
  have note : ∀ {p : Progress} {n : Notice}, (∀ n ∈ p.notices.toList, P n) → P n →
      ∀ n' ∈ (p.note n).notices.toList, P n' := by
    intro p n h hn n' hn'
    rcases mem_notices_note.1 hn' with hn' | rfl
    · exact h n' hn'
    · exact hn
  refine ⟨fun h _ => note h (unknown _), fun h _ _ => h, fun h _ _ _ => note h (past _ _ _), ?_⟩
  intro r queue p o st f h _ _ _ hf n hn
  rcases mem_notices_place.1 hn with hn | hn
  · exact h n hn
  · exact found hf n hn

/-! ## Runs are finite -/

/-- The starts that are left to be read, and the references that wait. -/
def rank (state : List Reference × Progress) : Lex (Nat × Nat) :=
  toLex (state.2.todo.size, state.1.length)

theorem Step.rank_lt (h : Step s a b) : rank b < rank a := by
  unfold rank
  rw [Prod.Lex.toLex_lt_toLex]
  cases h with
  | unknown ho | known ho ht | past ho ht hlt => exact Or.inr ⟨rfl, Nat.lt_succ_self _⟩
  | place ho ht hle hf => exact Or.inl (size_place_lt ht)

/-- However the references of the code lead back, the worklist comes to an end. -/
theorem exists_not_step (s : Input) (run : Nat → List Reference × Progress) :
    ∃ n, ¬Step s (run n) (run (n + 1)) := by
  obtain ⟨n, hn⟩ := WellFounded.not_rel_apply_succ (r := (· < ·)) fun n => rank (run n)
  exact ⟨n, fun h => hn h.rank_lt⟩

/-! ## What a run comes to -/

/-- A step does not change what following the references comes to. -/
theorem Step.follow_eq (h : Step s a b) : follow s a.1 a.2 = follow s b.1 b.2 := by
  cases h with
  | unknown ho => exact follow_unknown ho
  | known ho ht => exact follow_known ho ht
  | past ho ht hlt => exact follow_past ho ht hlt
  | place ho ht hle hf => exact follow_place ho ht (Int.not_lt.2 hle) hf

theorem follow_eq_of_steps (h : Relation.ReflTransGen (Step s) a b) :
    follow s a.1 a.2 = follow s b.1 b.2 := by
  induction h with
  | refl => rfl
  | tail _ hstep ih => exact ih.trans hstep.follow_eq

theorem Stuck.follow_eq {e : Fault} (h : Stuck s a e) : follow s a.1 a.2 = .error e := by
  obtain ⟨r, queue, o, st, ha, ho, ht, hle, he⟩ := h
  rw [ha]
  exact follow_error ho ht (Int.not_lt.2 hle) he

/-- Every state can be worked off: the queue runs empty, or the worklist is stuck. -/
theorem exists_steps (s : Input) (queue : List Reference) (p : Progress) :
    (∃ p', Relation.ReflTransGen (Step s) (queue, p) ([], p')) ∨
      ∃ state e, Relation.ReflTransGen (Step s) (queue, p) state ∧ Stuck s state e := by
  have further : ∀ {a b : List Reference × Progress}, Step s a b →
      (∃ p', Relation.ReflTransGen (Step s) b ([], p')) ∨
        (∃ state e, Relation.ReflTransGen (Step s) b state ∧ Stuck s state e) →
      (∃ p', Relation.ReflTransGen (Step s) a ([], p')) ∨
        ∃ state e, Relation.ReflTransGen (Step s) a state ∧ Stuck s state e := by
    intro a b hab h
    refine h.imp ?_ ?_
    · exact fun ⟨p', hp⟩ => ⟨p', .head hab hp⟩
    · exact fun ⟨state, e, hs, he⟩ => ⟨state, e, .head hab hs, he⟩
  induction queue, p using follow.induct (s := s) with
  | case1 p => exact Or.inl ⟨p, .refl⟩
  | case2 p r queue ho ih => exact further (.unknown ho) ih
  | case3 p r queue o ho ht ih => exact further (.known ho ht) ih
  | case4 p r queue o ho st ht hlt ih => exact further (.past ho ht hlt) ih
  | case5 p r queue o ho st ht hle e he =>
    exact Or.inr ⟨_, e, .refl, r, queue, o, st, rfl, ho, ht, Int.not_lt.1 hle, he⟩
  | case6 p r queue o ho st ht hle f hf _ ih =>
    exact further (.place ho ht (Int.not_lt.1 hle) hf) ih

variable {queue : List Reference} {p : Progress}

theorem follow_eq_ok_iff {p' : Progress} :
    follow s queue p = .ok p' ↔ Relation.ReflTransGen (Step s) (queue, p) ([], p') := by
  constructor
  · intro h
    rcases exists_steps s queue p with ⟨p'', hp⟩ | ⟨state, e, hs, he⟩
    · have heq : Except.ok p' = .ok p'' :=
        (h.symm.trans (follow_eq_of_steps hp)).trans follow_nil
      rw [Except.ok.inj heq]
      exact hp
    · have heq := (h.symm.trans (follow_eq_of_steps hs)).trans he.follow_eq
      cases heq
  · intro h
    exact (follow_eq_of_steps h).trans follow_nil

theorem follow_eq_error_iff {e : Fault} :
    follow s queue p = .error e ↔
      ∃ state, Relation.ReflTransGen (Step s) (queue, p) state ∧ Stuck s state e := by
  constructor
  · intro h
    rcases exists_steps s queue p with ⟨p', hp⟩ | ⟨state, e', hs, he⟩
    · have heq := (h.symm.trans (follow_eq_of_steps hp)).trans follow_nil
      cases heq
    · have heq := (h.symm.trans (follow_eq_of_steps hs)).trans he.follow_eq
      cases heq
      exact ⟨state, hs, he⟩
  · intro h
    obtain ⟨state, hs, he⟩ := h
    exact (follow_eq_of_steps hs).trans he.follow_eq

end Progress
end ObjectCode
end QuestArchive
