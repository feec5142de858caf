import QuestArchive.Proofs.Bytes.Windows

/-!
# Readers over one buffer

A slice gives one more reader, over a part of the window that it is cut from.  However the readers
of a session are called, none of them leaves its window, a fault moves none of them, and no bytes
outside of the first window count.  The step lemma compares two sessions whose readers stand at
the same positions of windows with the same bytes; one session is compared with itself.
-/

namespace QuestArchive

/-- A reader, and the number of the one that it was cut from. -/
structure Reader where
  cursor : Cursor
  parent : Option Nat
  deriving DecidableEq

structure Call where
  reader : Nat
  request : Request
  deriving DecidableEq, Repr

namespace Session

def start (data : Array UInt8) (i j : Int) : List Reader := [⟨.window data i j, none⟩]

/-- What a call comes to, and the readers behind it.  A slice gives one more reader; a number
that no reader has calls none. -/
def step (readers : List Reader) (call : Call) : Option (Except Fault Reply) × List Reader :=
  match readers[call.reader]? with
  | none => (none, readers)
  | some r =>
    match call.request.act r.cursor with
    | .error e c => (some (.error e), readers.set call.reader { r with cursor := c })
    | .ok (.reply v) c => (some (.ok v), readers.set call.reader { r with cursor := c })
    | .ok (.part p) c =>
      (some (.ok (.reader readers.length)),
        readers.set call.reader { r with cursor := c } ++ [⟨p, some call.reader⟩])

def run (readers : List Reader) : List Call → List (Option (Except Fault Reply)) × List Reader
  | [] => ([], readers)
  | call :: calls =>
    let (reply, next) := step readers call
    let (replies, last) := run next calls
    (reply :: replies, last)

end Session

namespace Reader

def moved (r : Reader) (pos : Nat) : Reader := { r with cursor := r.cursor.moved pos }

/-- The reader that is cut from one of some number: over the next `n` bytes. -/
def part (r : Reader) (number n : Nat) : Reader :=
  ⟨.window r.cursor.data r.cursor.pos (r.cursor.pos + n), some number⟩

/-- Two readers stand at one position of windows with the same bytes. -/
structure Alike (r r' : Reader) (window : Bytes) (pos : Nat) : Prop where
  left : r.cursor.Shows window pos
  right : r'.cursor.Shows window pos
  parent : r.parent = r'.parent

def Within (r p : Reader) : Prop :=
  p.cursor.start ≤ r.cursor.start ∧ r.cursor.stop ≤ p.cursor.stop

end Reader

namespace Session

variable {readers readers' : List Reader} {call : Call} {r : Reader}

theorem step_eq {window : Bytes} {pos : Nat} (hr : readers[call.reader]? = some r)
    (hs : r.cursor.Shows window pos) (hf : call.request.Forward) :
    step readers call =
      match call.request.outcome window pos with
      | .error e => (some (.error e), readers)
      | .ok (.reply v, stop) => (some (.ok v), readers.set call.reader (r.moved stop))
      | .ok (.part n, stop) => (some (.ok (.reader readers.length)),
          readers.set call.reader (r.moved stop) ++ [r.part call.reader n]) := by
  unfold step
  rw [hr]
  dsimp only
  rw [Request.act_eq hf hs]
  match call.request.outcome window pos with
  | .error e =>
    obtain ⟨hlt, rfl⟩ := List.getElem?_eq_some_iff.1 hr
    exact Prod.ext rfl (List.set_getElem_self hlt)
  | .ok (.reply v, stop) => rfl
  | .ok (.part n, stop) => rfl

/-- A number names no reader in either session, or readers that are alike. -/
structure Alike (readers readers' : List Reader) : Prop where
  length : readers.length = readers'.length
  views : ∀ {k : Nat} {r r' : Reader}, readers[k]? = some r → readers'[k]? = some r' →
    ∃ window pos, r.Alike r' window pos

/-- The window of every reader lies in that of the reader it was cut from. -/
def Nested (readers : List Reader) : Prop :=
  ∀ r ∈ readers, ∀ k, r.parent = some k → ∃ p, readers[k]? = some p ∧ r.Within p

namespace Alike

variable {r' : Reader} {window : Bytes} {pos : Nat}

theorem getElem?_eq_none (h : Alike readers readers') {k : Nat} (hk : readers[k]? = none) :
    readers'[k]? = none := by
  rw [List.getElem?_eq_none_iff] at hk ⊢
  rwa [← h.length]

theorem exists_of_some (h : Alike readers readers') {k : Nat} (hk : readers[k]? = some r) :
    ∃ r' window pos, readers'[k]? = some r' ∧ r.Alike r' window pos := by
  obtain ⟨hlt, -⟩ := List.getElem?_eq_some_iff.1 hk
  have hk' := List.getElem?_eq_getElem (h.length ▸ hlt)
  obtain ⟨window, pos, hr⟩ := h.views hk hk'
  exact ⟨_, window, pos, hk', hr⟩

theorem set (h : Alike readers readers') (hr : r.Alike r' window pos) (k : Nat) :
    Alike (readers.set k r) (readers'.set k r') := by
  refine ⟨by rw [List.length_set, List.length_set, h.length], ?_⟩
  intro n s s' hs hs'
  rw [List.getElem?_set] at hs hs'
  rw [← h.length] at hs'
  by_cases hn : k = n
  · rw [if_pos hn] at hs hs'
    split at hs
    · next hlt =>
      rw [if_pos hlt] at hs'
      cases hs
      cases hs'
      exact ⟨window, pos, hr⟩
    · cases hs
  · rw [if_neg hn] at hs hs'
    exact h.views hs hs'

theorem concat (h : Alike readers readers') (hr : r.Alike r' window pos) :
    Alike (readers ++ [r]) (readers' ++ [r']) := by
  refine ⟨by rw [List.length_append, List.length_append, h.length]; rfl, ?_⟩
  intro n s s' hs hs'
  rw [List.getElem?_append] at hs hs'
  rw [← h.length] at hs'
  by_cases hn : n < readers.length
  · rw [if_pos hn] at hs hs'
    exact h.views hs hs'
  · rw [if_neg hn] at hs hs'
    cases List.mem_singleton.1 (List.mem_of_getElem? hs)
    cases List.mem_singleton.1 (List.mem_of_getElem? hs')
    exact ⟨window, pos, hr⟩

end Alike

end Session

namespace Reader.Alike

variable {r r' : Reader} {window : Bytes} {pos : Nat}

theorem moved (h : r.Alike r' window pos) {stop : Nat} (hs : stop ≤ window.length) :
    (r.moved stop).Alike (r'.moved stop) window stop :=
  ⟨h.left.moved hs, h.right.moved hs, h.parent⟩

theorem part (h : r.Alike r' window pos) (k : Nat) {n : Nat} (hn : pos + n ≤ window.length) :
    (r.part k n).Alike (r'.part k n) ((window.take (pos + n)).drop pos) 0 :=
  ⟨h.left.part hn, h.right.part hn, rfl⟩

end Reader.Alike

namespace Session

variable {readers readers' : List Reader} {call : Call} {calls : List Call}

/-- A call comes to the same in both sessions. -/
theorem step_alike (h : Alike readers readers') (hf : call.request.Forward) :
    (step readers call).1 = (step readers' call).1 ∧
      Alike (step readers call).2 (step readers' call).2 := by
  cases hr : readers[call.reader]? with
  | none =>
    have hr' := h.getElem?_eq_none hr
    unfold step
    rw [hr, hr']
    exact ⟨rfl, h⟩
  | some r =>
    obtain ⟨r', window, pos, hr', hA⟩ := h.exists_of_some hr
    rw [step_eq hr hA.left hf, step_eq hr' hA.right hf]
    match ho : call.request.outcome window pos with
    | .error e => exact ⟨rfl, h⟩
    | .ok (.reply v, stop) =>
      have hb := Request.outcome_bounds hA.left.bound ho
      exact ⟨rfl, h.set (hA.moved hb.1) _⟩
    | .ok (.part n, stop) =>
      have hb := Request.outcome_bounds hA.left.bound ho
      refine ⟨?_, (h.set (hA.moved hb.1) _).concat (hA.part _ (hb.2 n rfl))⟩
      dsimp only
      rw [h.length]

theorem run_alike (h : Alike readers readers') (hf : ∀ call ∈ calls, call.request.Forward) :
    (run readers calls).1 = (run readers' calls).1 ∧
      Alike (run readers calls).2 (run readers' calls).2 := by
  induction calls generalizing readers readers' with
  | nil => exact ⟨rfl, h⟩
  | cons call calls ih =>
    obtain ⟨hcall, hcalls⟩ := List.forall_mem_cons.1 hf
    obtain ⟨hreply, hnext⟩ := step_alike h hcall
    obtain ⟨hreplies, hlast⟩ := ih hnext hcalls
    exact ⟨congrArg₂ List.cons hreply hreplies, hlast⟩

theorem step_of_error (h : Alike readers readers') (hf : call.request.Forward) {e : Fault}
    (he : (step readers call).1 = some (.error e)) : (step readers call).2 = readers := by
  cases hr : readers[call.reader]? with
  | none =>
    unfold step at he
    rw [hr] at he
    cases he
  | some r =>
    obtain ⟨_, window, pos, -, hA⟩ := h.exists_of_some hr
    rw [step_eq hr hA.left hf] at he ⊢
    match ho : call.request.outcome window pos with
    | .error e => rfl
    | .ok (.reply v, stop) | .ok (.part n, stop) =>
      rw [ho] at he
      cases he

/-! ## Windows in windows -/

namespace Nested

variable {r : Reader} {k : Nat}

theorem set (h : Nested readers) (hr : readers[k]? = some r) (pos : Nat) :
    Nested (readers.set k (r.moved pos)) := by
  intro s hs n hn
  -- A reader that has moved still has its window and its origin.
  have hbefore : ∃ p, readers[n]? = some p ∧ s.Within p := by
    rcases List.mem_or_eq_of_mem_set hs with hs | rfl
    · exact h s hs n hn
    · exact h r (List.mem_of_getElem? hr) n hn
  obtain ⟨p, hp, hw⟩ := hbefore
  rw [List.getElem?_set]
  by_cases hk : k = n
  · subst hk
    obtain ⟨hlt, -⟩ := List.getElem?_eq_some_iff.1 hr
    rw [if_pos rfl, if_pos hlt]
    cases hr.symm.trans hp
    exact ⟨r.moved pos, rfl, hw⟩
  · rw [if_neg hk]
    exact ⟨p, hp, hw⟩

theorem concat (h : Nested readers) (hr : ∀ n, r.parent = some n →
    ∃ p, readers[n]? = some p ∧ r.Within p) : Nested (readers ++ [r]) := by
  intro s hs n hn
  have hbefore : ∃ p, readers[n]? = some p ∧ s.Within p := by
    rcases List.mem_append.1 hs with hs | hs
    · exact h s hs n hn
    · cases List.mem_singleton.1 hs
      exact hr n hn
  obtain ⟨p, hp, hw⟩ := hbefore
  obtain ⟨hlt, -⟩ := List.getElem?_eq_some_iff.1 hp
  exact ⟨p, by rwa [List.getElem?_append_left hlt], hw⟩

end Nested

theorem step_nested (h : Alike readers readers') (hn : Nested readers)
    (hf : call.request.Forward) : Nested (step readers call).2 := by
  cases hr : readers[call.reader]? with
  | none =>
    unfold step
    rwa [hr]
  | some r =>
    obtain ⟨_, window, pos, -, hA⟩ := h.exists_of_some hr
    rw [step_eq hr hA.left hf]
    match ho : call.request.outcome window pos with
    | .error e => exact hn
    | .ok (.reply v, stop) => exact hn.set hr stop
    | .ok (.part n, stop) =>
      have hb := (Request.outcome_bounds hA.left.bound ho).2 n rfl
      refine (hn.set hr stop).concat fun k hk => ?_
      cases hk
      obtain ⟨hlt, -⟩ := List.getElem?_eq_some_iff.1 hr
      refine ⟨r.moved stop, by rw [List.getElem?_set, if_pos rfl, if_pos hlt], ?_, ?_⟩
      · show r.cursor.start ≤ r.cursor.pos
        have := hA.left.place
        omega
      · show r.cursor.pos + n ≤ r.cursor.stop
        have := hA.left.place
        have := hA.left.stop
        omega

theorem run_nested (h : Alike readers readers') (hn : Nested readers)
    (hf : ∀ call ∈ calls, call.request.Forward) : Nested (run readers calls).2 := by
  induction calls generalizing readers readers' with
  | nil => exact hn
  | cons call calls ih =>
    obtain ⟨hcall, hcalls⟩ := List.forall_mem_cons.1 hf
    exact ih (step_alike h hcall).2 (step_nested h hn hcall) hcalls

/-! ## From a window on -/

theorem alike_start {data data' : Array UInt8} {i j i' j' : Int} (hi : 0 ≤ i) (hij : i ≤ j)
    (hj : j ≤ data.size) (hi' : 0 ≤ i') (hij' : i' ≤ j') (hj' : j' ≤ data'.size)
    (hb : Cursor.span data' i' j' = Cursor.span data i j) :
    Alike (start data i j) (start data' i' j') := by
  refine ⟨rfl, ?_⟩
  intro k r r' hr hr'
  cases List.mem_singleton.1 (List.mem_of_getElem? hr)
  cases List.mem_singleton.1 (List.mem_of_getElem? hr')
  exact ⟨_, 0, Cursor.shows_window hi hij hj, hb ▸ Cursor.shows_window hi' hij' hj', rfl⟩

theorem nested_start (data : Array UInt8) (i j : Int) : Nested (start data i j) := by
  intro r hr k hk
  cases List.mem_singleton.1 hr
  cases hk

theorem positions_eq (h : Alike readers readers') :
    readers.map (fun r => (r.cursor.position, r.cursor.size)) =
      readers'.map fun r => (r.cursor.position, r.cursor.size) := by
  refine List.ext_getElem? fun k => ?_
  rw [List.getElem?_map, List.getElem?_map]
  cases hr : readers[k]? with
  | none => rw [h.getElem?_eq_none hr]
  | some r =>
    obtain ⟨r', window, pos, hr', hA⟩ := h.exists_of_some hr
    rw [hr', Option.map_some, Option.map_some, hA.left.position, hA.left.size, hA.right.position,
      hA.right.size]

/-- Whatever readers over a window inside a buffer are asked in turn, without a skip backwards:
each stands inside its window, and its window lies in that of the reader it was cut from; a
further request that fails moves none of them; and over a window with the same bytes, whatever
stands around it, each request comes to the same and leaves the readers at the same positions. -/
theorem run_confined {data : Array UInt8} {i j : Int} (hi : 0 ≤ i) (hij : i ≤ j)
    (hj : j ≤ data.size) {calls : List Call} (hf : ∀ call ∈ calls, call.request.Forward) :
    let readers := (run (start data i j) calls).2
    (∀ r ∈ readers, 0 ≤ r.cursor.position ∧ r.cursor.position ≤ r.cursor.size) ∧
      (∀ r ∈ readers, ∀ k, r.parent = some k → ∃ p, readers[k]? = some p ∧
        p.cursor.start ≤ r.cursor.start ∧ r.cursor.stop ≤ p.cursor.stop) ∧
      (∀ call : Call, call.request.Forward → ∀ e, (step readers call).1 = some (.error e) →
        (step readers call).2 = readers) ∧
      ∀ (data' : Array UInt8) (i' j' : Int), 0 ≤ i' → i' ≤ j' → j' ≤ data'.size →
        Cursor.span data' i' j' = Cursor.span data i j →
          (run (start data' i' j') calls).1 = (run (start data i j) calls).1 ∧
            (run (start data' i' j') calls).2.map (fun r => (r.cursor.position, r.cursor.size)) =
              readers.map fun r => (r.cursor.position, r.cursor.size) := by
  intro readers
  have hstart := alike_start hi hij hj hi hij hj rfl
  have hlast := (run_alike hstart hf).2
  refine ⟨fun r hr => ?_, run_nested hstart (nested_start data i j) hf,
    fun call hcall e he => step_of_error hlast hcall he, ?_⟩
  · obtain ⟨k, hk⟩ := List.getElem?_of_mem hr
    obtain ⟨_, window, pos, -, hA⟩ := hlast.exists_of_some hk
    have hbound := hA.left.bound
    rw [hA.left.position, hA.left.size]
    omega
  · intro data' i' j' hi' hij' hj' hb
    obtain ⟨hreplies, hlast'⟩ := run_alike (alike_start hi hij hj hi' hij' hj' hb) hf
    exact ⟨hreplies.symm, (positions_eq hlast').symm⟩

/-- A slice of four bytes, whose second character has no room for its end, and the byte behind
it; other bytes stand in front of the window and behind it. -/
theorem run_confined_slice :
    let data : Array UInt8 := #[9, 65, 0, 66, 0, 7, 9]
    let calls : List Call :=
      [⟨0, .slice 4⟩, ⟨1, .fetch (.text 2)⟩, ⟨1, .terminated 8⟩, ⟨0, .fetch .u8⟩, ⟨0, .skip 1⟩]
    (0 : Int) ≤ 1 ∧ (1 : Int) ≤ 6 ∧ (6 : Int) ≤ data.size ∧
      (∀ call ∈ calls, call.request.Forward) ∧
      (run (start #[65, 0, 66, 0, 7] 0 5) calls).1 = (run (start data 1 6) calls).1 ∧
      ∀ r ∈ (run (start data 1 6) calls).2,
        0 ≤ r.cursor.position ∧ r.cursor.position ≤ r.cursor.size := by
  intro data calls
  have hlow : (0 : Int) ≤ 1 := by decide
  have horder : (1 : Int) ≤ 6 := by decide
  have hhigh : (6 : Int) ≤ data.size := by decide
  have hf : ∀ call ∈ calls, call.request.Forward := by decide
  obtain ⟨hpos, -, -, hsame⟩ := run_confined hlow horder hhigh hf
  obtain ⟨hreplies, -⟩ :=
    hsame #[65, 0, 66, 0, 7] 0 5 (by decide) (by decide) (by decide) (by decide)
  exact ⟨hlow, horder, hhigh, hf, hreplies, hpos⟩

end Session

end QuestArchive
