import QuestArchive.Proofs.ObjectCode.NegativeOffsets
import QuestArchive.Proofs.Script.Joining

/-!
# Joined segments are stored alike

Two segments are joined where the second one has no labels or the first one holds nothing.
Either way no byte and no label comes to stand elsewhere, so that the stored form of a script
does not show which of its segments were joined.
-/

namespace QuestArchive

open ObjectCode

namespace Segment

theorem extent_of_hollow {s : Segment} (h : s.Hollow) : s.extent = 0 := by
  cases s with
  | code ls is =>
    cases (show is = [] from h)
    rfl
  | data ls bytes =>
    cases (show bytes = [] from h)
    rfl
  | text ls value => exact h.elim

/-- Segments that are not kept apart are of one kind, and either the first one is hollow or the
second one has no labels. -/
theorem not_apart {s t : Segment} (h : ¬s.Apart t) :
    t.kind = s.kind ∧ (t.labels = [] ∨ s.Hollow) := by
  unfold Apart at h
  rw [Classical.not_imp, not_and_or, not_not, not_not] at h
  exact h

variable {s t : Segment}

theorem size_eq (h : s.kind ≠ .text) : s.size = .ok s.extent := by
  cases s with
  | code ls is => rfl
  | data ls bytes => rfl
  | text ls value => exact absurd rfl h

theorem kind_join (s t : Segment) : (s.join t).kind = s.kind := by
  cases s
  all_goals
    cases t
    all_goals rfl

theorem labels_join (h : t.kind = s.kind) : (s.join t).labels = s.labels ++ t.labels := by
  cases s
  all_goals
    cases t
    all_goals first | rfl | cases h

theorem extent_join (h : t.kind = s.kind) (hs : s.kind ≠ .text) :
    (s.join t).extent = s.extent + t.extent := by
  cases s with
  | code ls is =>
    cases t with
    | code ms js =>
      show total ((is ++ js).map (·.size)) = _
      rw [List.map_append, total_append]
      rfl
    | data ms cs => cases h
    | text ms u => cases h
  | data ls bs =>
    cases t with
    | code ms js => cases h
    | data ms cs =>
      show (((bs ++ cs).length : Nat) : Int) = _
      rw [List.length_append]
      exact Int.natCast_add _ _
    | text ms u => cases h
  | text ls value => exact absurd rfl hs

/-- The bytes of two segments are those of the segment that joins them. -/
theorem write_join (h : t.kind = s.kind) (hs : s.kind ≠ .text) :
    writeSegment (s.join t) =
      writeSegment s >>= fun front => writeSegment t >>= fun back => .ok (front ++ back) := by
  cases s with
  | code ls is =>
    cases t with
    | code ms js =>
      show ((is ++ js).mapM writeInstruction >>= fun parts => .ok parts.flatten) =
        (is.mapM writeInstruction >>= fun parts => .ok parts.flatten) >>= fun front =>
          (js.mapM writeInstruction >>= fun parts => .ok parts.flatten) >>= fun back =>
            .ok (front ++ back)
      rw [List.mapM_append]
      cases is.mapM writeInstruction with
      | error e => rfl
      | ok front =>
        cases js.mapM writeInstruction with
        | error e => rfl
        | ok back => exact congrArg Except.ok List.flatten_append
    | data ms cs => cases h
    | text ms u => cases h
  | data ls bs =>
    cases t with
    | code ms js => cases h
    | data ms cs => rfl
    | text ms u => cases h
  | text ls value => exact absurd rfl hs

/-- The labels of two segments are placed where those of the joined one are. -/
theorem addSegment_join (ha : ¬s.Apart t) (hs : s.kind ≠ .text) (p : Placement) :
    (p.addSegment s >>= fun q => q.addSegment t) = p.addSegment (s.join t) := by
  obtain ⟨hk, hor⟩ := not_apart ha
  have ht : t.kind ≠ .text := by rwa [hk]
  have hjoin : (s.join t).kind ≠ .text := by rwa [kind_join]
  unfold Placement.addSegment
  rw [size_eq hs, size_eq ht, size_eq hjoin, labels_join hk, extent_join hk hs, List.foldlM_append]
  cases s.labels.foldlM Placement.addLabel p with
  | error e => rfl
  | ok q =>
    rcases hor with hl | hh
    · rw [hl]
      show Except.ok (⟨q.labels, q.size + s.extent + t.extent⟩ : Placement) =
        .ok ⟨q.labels, q.size + (s.extent + t.extent)⟩
      rw [Int.add_assoc]
    · rw [extent_of_hollow hh]
      show (t.labels.foldlM Placement.addLabel ⟨q.labels, q.size + 0⟩ >>= _) =
        t.labels.foldlM Placement.addLabel q >>= _
      rw [Int.add_zero, Int.zero_add]

end Segment

namespace Script

theorem addSegments_joinFrom {s : Segment} {rest : List Segment}
    (h : ∀ t ∈ s :: rest, t.kind ≠ .text) (p : Placement) :
    (joinFrom s rest).foldlM Placement.addSegment p =
      (s :: rest).foldlM Placement.addSegment p := by
  induction rest generalizing s p with
  | nil => rfl
  | cons t rest ih =>
    obtain ⟨hs, ht⟩ := List.forall_mem_cons.1 h
    rw [joinFrom]
    split
    · rw [List.foldlM_cons, List.foldlM_cons]
      exact bind_congr fun q => ih ht q
    · next ha =>
      have hjoin : (s.join t).kind ≠ .text := by rwa [Segment.kind_join]
      have hrest := fun u hu => ht u (List.mem_cons_of_mem t hu)
      rw [ih (List.forall_mem_cons.2 ⟨hjoin, hrest⟩), List.foldlM_cons, List.foldlM_cons,
        ← Segment.addSegment_join ha hs, bind_assoc]
      exact bind_congr fun q => List.foldlM_cons.symm

def segmentBytes (segments : List Segment) : Except Fault Bytes :=
  segments.mapM writeSegment >>= fun parts => .ok parts.flatten

theorem segmentBytes_cons (s : Segment) (rest : List Segment) :
    segmentBytes (s :: rest) =
      writeSegment s >>= fun front => segmentBytes rest >>= fun back => .ok (front ++ back) := by
  unfold segmentBytes
  rw [List.mapM_cons]
  cases writeSegment s with
  | error e => rfl
  | ok front =>
    cases rest.mapM writeSegment with
    | error e => rfl
    | ok parts => rfl

theorem segmentBytes_joinFrom {s : Segment} {rest : List Segment}
    (h : ∀ t ∈ s :: rest, t.kind ≠ .text) :
    segmentBytes (joinFrom s rest) = segmentBytes (s :: rest) := by
  induction rest generalizing s with
  | nil => rfl
  | cons t rest ih =>
    obtain ⟨hs, ht⟩ := List.forall_mem_cons.1 h
    rw [joinFrom]
    split
    · rw [segmentBytes_cons, segmentBytes_cons, ih ht]
    · next ha =>
      have hk := (Segment.not_apart ha).1
      have hjoin : (s.join t).kind ≠ .text := by rwa [Segment.kind_join]
      have hrest := fun u hu => ht u (List.mem_cons_of_mem t hu)
      rw [ih (List.forall_mem_cons.2 ⟨hjoin, hrest⟩), segmentBytes_cons, segmentBytes_cons,
        segmentBytes_cons, Segment.write_join hk hs]
      cases writeSegment s with
      | error e => rfl
      | ok front =>
        cases writeSegment t with
        | error e => rfl
        | ok back =>
          cases segmentBytes rest with
          | error e => rfl
          | ok behind => exact congrArg Except.ok (List.append_assoc _ _ _)

theorem write_eq (segments : List Segment) :
    write segments = Placement.ofSegments segments >>= fun placement =>
      segmentBytes segments >>= fun code =>
        if (code.length : Int) ≠ placement.size then
          .error (.writtenSize placement.size code.length)
        else placement.table >>= fun offsets => .ok { code, offsets } := by
  unfold write segmentBytes
  refine bind_congr fun placement => ?_
  cases segments.mapM writeSegment with
  | error e => rfl
  | ok parts => rfl

/-- A script with joined segments has the same stored form. -/
theorem write_joined {segments : List Segment} (h : ∀ s ∈ segments, s.kind ≠ .text) :
    write (joined segments) = write segments := by
  cases segments with
  | nil => rfl
  | cons s rest =>
    rw [write_eq, write_eq, joined, segmentBytes_joinFrom h]
    unfold Placement.ofSegments
    rw [addSegments_joinFrom h]

end Script
end QuestArchive
