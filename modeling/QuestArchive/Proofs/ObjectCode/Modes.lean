import QuestArchive.Proofs.ObjectCode.Lossless
import QuestArchive.Proofs.ObjectCode.Stepping

/-!
# The strict and the lenient mode agree

The modes differ at two places: where code cannot be read, and where the sizes of the segments
do not add up.  The lenient mode gives a notice at both.  Notices are never taken back, so a
lenient run that ends without such a notice came to no such place, and each of its steps is one
of the strict mode as well.
-/

namespace QuestArchive
namespace ObjectCode

/-- The notices of something that the strict mode does not let pass. -/
def Tolerated : Notice → Prop
  | .unreadableInstruction _ | .codeSize .. => True
  | _ => False

theorem tolerated_iff (n : Notice) :
    Tolerated n ↔ n.code = "instruction_parse_failed" ∨ n.code = "object_code_size_mismatch" := by
  cases n <;> simp [Tolerated, Notice.code]

/-! ## Reading at one offset -/

/-- The strict mode reads the code that the lenient mode reads to its end. -/
theorem readCode_strict_iff {code : Array UInt8} {o : Int} {st : Start} {next : Option Nat}
    {f : Finding} : readCode .strict code o st next = .ok f ↔
      readCode .lenient code o st next = .ok f ∧ ∀ n ∈ f.notices, ¬Tolerated n := by
  unfold readCode
  cases hi : readInstructions (.window code o st.stop) with
  | mk is problem =>
    dsimp only
    cases problem with
    | none =>
      refine ⟨fun h => ⟨h, ?_⟩, And.left⟩
      rw [← Except.ok.inj h]
      exact fun n hn => absurd hn List.not_mem_nil
    | some stop =>
      obtain ⟨position, fault⟩ := stop
      dsimp only
      by_cases hm : isMalformed fault = true
      · rw [if_pos hm, if_pos hm]
        refine iff_of_false nofun fun h => ?_
        rw [← Except.ok.inj h.1] at h
        exact h.2 _ (List.mem_singleton_self _) trivial
      · rw [if_neg hm, if_neg hm]
        exact iff_of_false nofun fun h => absurd h.1 nofun

theorem readText_notices {code : Array UInt8} {o : Int} {l : Nat} {st : Start} {f : Finding}
    (h : readText code o l st = .ok f) : ∀ n ∈ f.notices, ¬Tolerated n := by
  obtain ⟨-, -, hnil | hone⟩ := Input.readText_ok h
  · rw [hnil]
    exact fun n hn => absurd hn List.not_mem_nil
  · rw [hone]
    exact List.forall_mem_singleton.2 id

def Input.lenient (s : Input) : Input := { s with mode := .lenient }

variable {s : Input}

theorem Input.readAt_strict_iff (hs : s.mode = .strict) {o : Int} {st : Start} {r : Reference}
    {f : Finding} : s.readAt o st r = .ok f ↔
      s.lenient.readAt o st r = .ok f ∧ ∀ n ∈ f.notices, ¬Tolerated n := by
  unfold readAt
  cases r.kind with
  | data =>
    refine ⟨fun h => ⟨h, ?_⟩, And.left⟩
    rw [← Except.ok.inj h]
    exact fun n hn => absurd hn List.not_mem_nil
  | text => exact ⟨fun h => ⟨h, readText_notices h⟩, And.left⟩
  | code =>
    rw [hs]
    exact readCode_strict_iff

/-! ## Following references -/

namespace Progress

def Clean (p : Progress) : Prop := ∀ n ∈ p.notices.toList, ¬Tolerated n

variable {a b : List Reference × Progress}

/-- Notices are never taken back. -/
theorem Step.clean_of_clean (h : Step s a b) (hb : b.2.Clean) : a.2.Clean := by
  cases h with
  | known ho ht => exact hb
  | unknown ho | past ho ht hlt =>
    exact fun n hn => hb n (mem_notices_note.2 (Or.inl hn))
  | place ho ht hle hf => exact fun n hn => hb n (mem_notices_place.2 (Or.inl hn))

/-- In the strict mode there is nothing of that kind to note. -/
theorem Step.clean (hs : s.mode = .strict) (h : Step s a b) (ha : a.2.Clean) : b.2.Clean :=
  preserves_iff.1 (preserves_notices (fun _ => id) (fun _ _ _ => id)
    fun hf => ((Input.readAt_strict_iff hs).1 hf).2) a b h ha

theorem Step.lenient (hs : s.mode = .strict) (h : Step s a b) : Step s.lenient a b := by
  cases h with
  | unknown ho => exact .unknown ho
  | known ho ht => exact .known ho ht
  | past ho ht hlt => exact .past ho ht hlt
  | place ho ht hle hf => exact .place ho ht hle ((Input.readAt_strict_iff hs).1 hf).1

theorem Step.strict (hs : s.mode = .strict) (h : Step s.lenient a b) (hb : b.2.Clean) :
    Step s a b := by
  cases h with
  | unknown ho => exact .unknown ho
  | known ho ht => exact .known ho ht
  | past ho ht hlt => exact .past ho ht hlt
  | place ho ht hle hf =>
    refine .place ho ht hle ((Input.readAt_strict_iff hs).2 ⟨hf, fun n hn => ?_⟩)
    exact hb n (mem_notices_place.2 (Or.inr hn))

/-- The strict mode makes the runs of the lenient mode that need no tolerance. -/
theorem steps_strict_iff (hs : s.mode = .strict) (ha : a.2.Clean) :
    Relation.ReflTransGen (Step s) a b ↔
      Relation.ReflTransGen (Step s.lenient) a b ∧ b.2.Clean := by
  constructor
  · intro h
    induction h with
    | refl => exact ⟨.refl, ha⟩
    | tail _ hstep ih => exact ⟨ih.1.tail (hstep.lenient hs), hstep.clean hs ih.2⟩
  · intro h
    obtain ⟨h, hb⟩ := h
    induction h with
    | refl => exact .refl
    | tail _ hstep ih => exact (ih (hstep.clean_of_clean hb)).tail (hstep.strict hs hb)

theorem follow_strict_iff (hs : s.mode = .strict) {queue : List Reference} {p p' : Progress}
    (hp : p.Clean) :
    follow s queue p = .ok p' ↔ follow s.lenient queue p = .ok p' ∧ p'.Clean := by
  rw [follow_eq_ok_iff, follow_eq_ok_iff]
  exact steps_strict_iff hs hp

end Progress

/-! ## Whole scripts -/

section Read

variable {mode : Mode} {stored : Stored} {queue : List Reference} {p : Progress} {r : Reading}

theorem read_of_extent (hf : Progress.follow (input mode stored) queue
    { todo := (input mode stored).starts } = .ok p)
    (hc : extentOf (input mode stored) p = (input mode stored).size) :
    read mode stored queue = .ok (reading (input mode stored) p) := by
  rw [read_of_follow hf, conclude, if_pos hc]

theorem extent_of_read_strict (hf : Progress.follow (input .strict stored) queue
    { todo := (input .strict stored).starts } = .ok p) (hr : read .strict stored queue = .ok r) :
    extentOf (input .strict stored) p = (input .strict stored).size := by
  by_contra hc
  rw [read_of_follow hf, conclude, if_neg hc] at hr
  cases hr

theorem extent_of_read_lenient (hf : Progress.follow (input .lenient stored) queue
    { todo := (input .lenient stored).starts } = .ok p)
    (hr : read .lenient stored queue = .ok r) (hd : ∀ d ∈ r.diagnostics, ¬Tolerated d.notice) :
    extentOf (input .lenient stored) p = (input .lenient stored).size := by
  by_contra hc
  rw [read_of_follow hf, conclude, if_neg hc] at hr
  rw [← Except.ok.inj hr] at hd
  exact hd _ (List.mem_append_right _ (List.mem_singleton_self _)) trivial

theorem exists_follow (hr : read mode stored queue = .ok r) :
    ∃ p, Progress.follow (input mode stored) queue { todo := (input mode stored).starts } =
      .ok p := by
  cases hf : Progress.follow (input mode stored) queue { todo := (input mode stored).starts } with
  | ok p => exact ⟨p, rfl⟩
  | error e =>
    rw [read_error hf] at hr
    cases hr

theorem forall_reading {P : Notice → Prop} {s : Input}
    (unplaced : ∀ label offset, P (.unplacedLabel label offset)) :
    (∀ d ∈ (reading s p).diagnostics, P d.notice) ↔ ∀ n ∈ p.notices.toList, P n := by
  constructor
  · intro h n hn
    exact h { notice := n } (mem_diagnostics_reading.2 (Or.inl hn))
  · intro h d hd
    obtain ⟨n, -, rfl⟩ := List.mem_map.1 hd
    rcases mem_diagnostics_reading.1 hd with hn | hn
    · exact h n hn
    · obtain ⟨o, st, -, -, label, -, rfl⟩ := Input.mem_unplaced.1 hn
      exact unplaced label o

theorem clean_reading {s : Input} :
    (∀ d ∈ (reading s p).diagnostics, ¬Tolerated d.notice) ↔ p.Clean :=
  forall_reading (P := (¬Tolerated ·)) fun _ _ => id

theorem follow_clean_iff :
    Progress.follow (input .strict stored) queue { todo := (input .strict stored).starts } =
        .ok p ↔
      Progress.follow (input .lenient stored) queue { todo := (input .lenient stored).starts } =
        .ok p ∧ p.Clean :=
  Progress.follow_strict_iff (s := input .strict stored) rfl
    fun _ hn => absurd hn List.not_mem_nil

end Read

/-- The modes agree on every script: what the strict mode reads, with its diagnostics and their
order, is what the lenient mode reads where it neither comes to code that cannot be read nor
to sizes that do not add up. -/
theorem read_strict_iff (stored : Stored) (labels : List Int) (r : Reading) :
    read .strict stored (entries labels) = .ok r ↔
      read .lenient stored (entries labels) = .ok r ∧
        ∀ d ∈ r.diagnostics, d.code ≠ "instruction_parse_failed" ∧
          d.code ≠ "object_code_size_mismatch" := by
  have htolerated : (∀ d ∈ r.diagnostics, d.code ≠ "instruction_parse_failed" ∧
      d.code ≠ "object_code_size_mismatch") ↔ ∀ d ∈ r.diagnostics, ¬Tolerated d.notice :=
    forall₂_congr fun d _ => not_or.symm.trans (not_congr (tolerated_iff d.notice).symm)
  rw [htolerated]
  constructor
  · intro hr
    obtain ⟨p, hf⟩ := exists_follow hr
    have hc := extent_of_read_strict hf hr
    obtain ⟨hf', hp⟩ := follow_clean_iff.1 hf
    rw [read_of_extent hf hc] at hr
    rw [← Except.ok.inj hr]
    exact ⟨read_of_extent hf' hc, clean_reading.2 hp⟩
  · intro h
    obtain ⟨hr, hd⟩ := h
    obtain ⟨p, hf⟩ := exists_follow hr
    have hc := extent_of_read_lenient hf hr hd
    rw [read_of_extent hf hc] at hr
    rw [← Except.ok.inj hr] at hd ⊢
    exact read_of_extent (follow_clean_iff.2 ⟨hf, clean_reading.1 hd⟩) hc

end ObjectCode
end QuestArchive
