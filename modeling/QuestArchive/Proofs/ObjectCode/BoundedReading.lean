import QuestArchive.Proofs.Lists
import QuestArchive.Proofs.ObjectCode.Following

/-!
# Reading in a bounded number of steps

Reading is following references and then drawing together what was found.  `follow` ends
because ever fewer starts and references are left, which the kernel does not evaluate;
`followWithin` recurses on a number of steps instead, so that it does.  What it comes to is what
`follow` comes to, and some number of steps is enough.
-/

namespace QuestArchive
namespace ObjectCode

def input (mode : Mode) (stored : Stored) : Input where
  code := stored.code.toArray
  offsets := stored.offsets.toArray
  starts := Std.TreeMap.ofList (starts stored.code.toArray.size stored.offsets)
  mode := mode

def reading (s : Input) (p : Progress) : Reading where
  segments := (s.fill p.done).values
  diagnostics := (p.notices.toList ++ s.unplaced (s.fill p.done)).map ({ notice := · })

def extentOf (s : Input) (p : Progress) : Int :=
  total ((reading s p).segments.map (·.extent))

/-- What is read once all references were followed: sizes that do not add up are an error, or
are noted. -/
def conclude (s : Input) (p : Progress) : Except Fault Reading :=
  if extentOf s p = s.size then .ok (reading s p)
  else match s.mode with
    | .strict => .error (.codeSize s.size (extentOf s p).toNat)
    | .lenient => .ok { reading s p with
        diagnostics := (reading s p).diagnostics ++
          [{ notice := .codeSize s.size (extentOf s p).toNat }] }

theorem read_eq (mode : Mode) (stored : Stored) (queue : List Reference) :
    read mode stored queue =
      Progress.follow (input mode stored) queue { todo := (input mode stored).starts } >>=
        conclude (input mode stored) := by
  show (Progress.follow (input mode stored) queue { todo := (input mode stored).starts } >>=
    fun p => _) = _
  refine bind_congr fun p => ?_
  unfold conclude reading
  dsimp only
  rw [← List.map_singleton (f := fun n => ({ notice := n } : Diagnostic)), ← List.map_append]
  rfl

section Read

variable {mode : Mode} {stored : Stored} {queue : List Reference} {p : Progress} {e : Fault}

theorem read_of_follow (hf : Progress.follow (input mode stored) queue
    { todo := (input mode stored).starts } = .ok p) :
    read mode stored queue = conclude (input mode stored) p := by
  rw [read_eq, hf]
  rfl

theorem read_error (hf : Progress.follow (input mode stored) queue
    { todo := (input mode stored).starts } = .error e) :
    read mode stored queue = .error e := by
  rw [read_eq, hf]
  rfl

end Read

/-! ## Steps that are counted -/

namespace Progress

/-- What `follow` comes to, if it needs no more than the given number of steps. -/
def followWithin (s : Input) :
    Nat → List Reference → Progress → Option (Except Fault Progress)
  | 0, _, _ => none
  | _ + 1, [], p => some (.ok p)
  | n + 1, r :: queue, p =>
    match s.offset? r.label with
    | none => followWithin s n queue (p.note (.unregisteredLabel r.label))
    | some offset =>
      match p.todo[offset]? with
      | none => followWithin s n queue p
      | some start =>
        if s.size < offset then
          followWithin s n queue (p.note (.labelPastEnd r.label.toNat offset s.size))
        else
          match s.readAt offset start r with
          | .error fault => some (.error fault)
          | .ok f => followWithin s n (queue ++ f.references) (p.place offset f)

variable {s : Input} {queue : List Reference} {p : Progress} {r : Reference} {o : Int} {st : Start}
  {n : Nat} {res : Except Fault Progress}

theorem followWithin_unknown (ho : s.offset? r.label = none) :
    followWithin s (n + 1) (r :: queue) p =
      followWithin s n queue (p.note (.unregisteredLabel r.label)) := by
  rw [followWithin, ho]

theorem followWithin_known (ho : s.offset? r.label = some o) (ht : p.todo[o]? = none) :
    followWithin s (n + 1) (r :: queue) p = followWithin s n queue p := by
  rw [followWithin, ho]
  dsimp only
  rw [ht]

theorem followWithin_todo (ho : s.offset? r.label = some o) (ht : p.todo[o]? = some st) :
    followWithin s (n + 1) (r :: queue) p =
      if s.size < o then
        followWithin s n queue (p.note (.labelPastEnd r.label.toNat o s.size))
      else match s.readAt o st r with
        | .error fault => some (.error fault)
        | .ok f => followWithin s n (queue ++ f.references) (p.place o f) := by
  rw [followWithin, ho]
  dsimp only
  rw [ht]

theorem follow_of_followWithin (h : followWithin s n queue p = some res) :
    follow s queue p = res := by
  induction n generalizing queue p with
  | zero => cases h
  | succ n ih =>
    cases queue with
    | nil =>
      rw [follow_nil]
      exact Option.some.inj h
    | cons r queue =>
      cases ho : s.offset? r.label with
      | none =>
        rw [follow_unknown ho]
        exact ih ((followWithin_unknown ho).symm.trans h)
      | some o =>
        cases ht : p.todo[o]? with
        | none =>
          rw [follow_known ho ht]
          exact ih ((followWithin_known ho ht).symm.trans h)
        | some st =>
          rw [followWithin_todo ho ht] at h
          rw [follow_todo ho ht]
          split
          next hpast => exact ih ((if_pos hpast).symm.trans h)
          next hle =>
            rw [if_neg hle] at h
            cases hread : s.readAt o st r with
            | error e =>
              rw [hread] at h
              exact Option.some.inj h
            | ok f =>
              rw [hread] at h
              exact ih h

theorem exists_followWithin (s : Input) (queue : List Reference) (p : Progress) :
    ∃ n, followWithin s n queue p = some (follow s queue p) := by
  induction queue, p using follow.induct (s := s) with
  | case1 p => exact ⟨1, congrArg some follow_nil.symm⟩
  | case2 p r queue ho ih =>
    obtain ⟨n, ih⟩ := ih
    exact ⟨n + 1, by rw [followWithin_unknown ho, follow_unknown ho, ih]⟩
  | case3 p r queue o ho ht ih =>
    obtain ⟨n, ih⟩ := ih
    exact ⟨n + 1, by rw [followWithin_known ho ht, follow_known ho ht, ih]⟩
  | case4 p r queue o ho st ht hpast ih =>
    obtain ⟨n, ih⟩ := ih
    exact ⟨n + 1, by rw [followWithin_todo ho ht, if_pos hpast, follow_past ho ht hpast, ih]⟩
  | case5 p r queue o ho st ht hle e he =>
    exact ⟨1, by rw [followWithin_todo ho ht, if_neg hle, he, follow_error ho ht hle he]⟩
  | case6 p r queue o ho st ht hle f hf _ ih =>
    obtain ⟨n, ih⟩ := ih
    refine ⟨n + 1, ?_⟩
    rw [followWithin_todo ho ht, if_neg hle, hf, follow_place ho ht hle hf]
    exact ih

end Progress

/-- What is read for ascending entry labels, if that takes no more than the given number of
steps. -/
def readWithin (n : Nat) (mode : Mode) (stored : Stored) (labels : List Int) :
    Option (Except Fault Reading) :=
  (Progress.followWithin (input mode stored) n (labels.map (⟨·, .code⟩))
    { todo := (input mode stored).starts }).map (· >>= conclude (input mode stored))

theorem entries_of_ascending {labels : List Int} (h : labels.Pairwise (· < ·)) :
    entries labels = labels.map (⟨·, .code⟩) := by
  unfold entries
  rw [eraseDups_eq_self (h.imp Int.ne_of_lt),
    List.mergeSort_of_pairwise (h.imp fun hlt => decide_eq_true (Int.le_of_lt hlt))]

theorem read_of_readWithin {n : Nat} {mode : Mode} {stored : Stored} {labels : List Int}
    {res : Except Fault Reading} (hl : labels.Pairwise (· < ·))
    (h : readWithin n mode stored labels = some res) :
    read mode stored (entries labels) = res := by
  obtain ⟨found, hf, hres⟩ := Option.map_eq_some_iff.1 h
  rw [entries_of_ascending hl, read_eq, Progress.follow_of_followWithin hf]
  exact hres

/-- The number of steps is nothing but a bound, and some number is enough. -/
theorem read_eq_iff {mode : Mode} {stored : Stored} {labels : List Int}
    {res : Except Fault Reading} (hl : labels.Pairwise (· < ·)) :
    read mode stored (entries labels) = res ↔ ∃ n, readWithin n mode stored labels = some res := by
  constructor
  · intro h
    obtain ⟨n, hn⟩ := Progress.exists_followWithin (input mode stored) (entries labels)
      { todo := (input mode stored).starts }
    rw [entries_of_ascending hl] at hn h
    rw [read_eq] at h
    exact ⟨n, by rw [readWithin, hn, Option.map_some, h]⟩
  · intro h
    obtain ⟨n, hn⟩ := h
    exact read_of_readWithin hl hn

end ObjectCode
end QuestArchive
